import CoreOS.Serial.Driver
import Mathlib.Data.List.Basic

/-!
# What is sent of a buffer

`serial_write` copies `n` bytes to the front of `tx_buf`, which is an array of `int`, and `serial_isr`
takes its elements one by one and sends the lowest byte of each.  So the byte sent at `i` is byte
`4 * i` of the buffer, and beyond the end of the buffer it is whatever `tx_buf` had there
(`queued`).

From the call on, as long as nothing else is written, what has been sent is as long a prefix of these
`n` bytes as there have been interrupts with the transmitter empty, the first byte coming with the call
itself (`Draining`).  With no byte at all the first one is sent nevertheless, and the end, which is
detected by inequality, has then been passed.

The buffer is sent if and only if it is not empty and what is queued at each place is what is in the
buffer there (`sendsBuffer_iff`).
-/

namespace CoreOS
namespace Serial

open Runs

/-- The interrupts that find the transmitter empty. -/
def empties (m : Mtcp) (s : State) : Op → Bool
  | .isr u => !s.hung && !(s.afterReceive m u).hung && u.transmitEmpty
  | .write _ _ => false

/-- After `serial_write(buf, n)` and any run in which nothing else is written, the bytes of `buf` have
been sent, as many of them as the transmitter was ready for, and nothing outside of `tx_buf` has been
used. -/
def SendsBuffer (m : Mtcp) (s : State) (buf : ℕ → BitVec 8) (n : ℕ) : Prop :=
  ∀ ops : List Op, let s' := s.serialWrite buf (BitVec.ofNat 32 n)
    Meets (step m) (fun s o => (step m s o).writes = s.writes) s' ops →
      (run (step m) s' ops).sent = s.sent ++
          ((List.range n).map buf).take (1 + occurrences (step m) (fun s o => empties m s o) s' ops) ∧
        (run (step m) s' ops).oob = s.oob

/-- The byte that is sent at `i`. -/
def queued (s : State) (buf : ℕ → BitVec 8) (n i : ℕ) : BitVec 8 :=
  if 4 * i < n then buf (4 * i) else (s.txBuf i).setWidth 8

/-- The buffer is not empty, and what is sent at each place is what is there. -/
def Sendable (s : State) (buf : ℕ → BitVec 8) (n : ℕ) : Prop :=
  n ≠ 0 ∧ ∀ i < n, queued s buf n i = buf i

/-- The lowest byte of an element after the copy. -/
theorem setWidth_memcpy (s : State) (buf : ℕ → BitVec 8) (n i : ℕ) :
    (memcpy s.txBuf buf n i).setWidth 8 = queued s buf n i := by
  have hfront : intByte s.txBuf (4 * i) = (s.txBuf i).setWidth 8 := by
    rw [intByte, Nat.mul_mod_right, Nat.mul_div_cancel_left i (by decide)]
    rfl
  rw [memcpy, BitVec.setWidth_append_eq_right, queued, ← hfront]

/-! ## The receiving half -/

/-- What the transmitting half works on is as before. -/
structure SameTx (s s' : State) : Prop where
  txInd : s'.txInd = s.txInd
  txDatLen : s'.txDatLen = s.txDatLen
  txBuf : s'.txBuf = s.txBuf
  sent : s'.sent = s.sent
  oob : s'.oob = s.oob

section tx

variable {m : Mtcp} {s s₀ : State} {l : List (BitVec 8)} {k : ℕ}

theorem SameTx.refl (s : State) : SameTx s s := ⟨rfl, rfl, rfl, rfl, rfl⟩

/-- A call that does not count has returned at once. -/
theorem serialWrite_eq_self {buf : ℕ → BitVec 8} {size : BitVec 32}
    (h : (s.serialWrite buf size).writes = s.writes) : s.serialWrite buf size = s := by
  rw [State.serialWrite] at h ⊢
  split at h
  · exact if_pos ‹_›
  · exact absurd h (Nat.succ_ne_self _)

/-- The driver of the controller writes a byte, or it leaves the transmitting half alone. -/
theorem sameTx_tuxInit (h : (s.tuxInit m).writes = s.writes) : SameTx s (s.tuxInit m) := by
  rw [State.tuxInit] at h ⊢
  split_ifs at h ⊢
  · exact ⟨rfl, rfl, rfl, rfl, rfl⟩
  · rw [serialWrite_eq_self h]
    exact ⟨rfl, rfl, rfl, rfl, rfl⟩

theorem sameTx_afterReceive {u : Uart} (h : (s.afterReceive m u).writes = s.writes) :
    SameTx s (s.afterReceive m u) := by
  rw [State.afterReceive] at h ⊢
  split_ifs at h ⊢
  · rw [State.receive] at h ⊢
    dsimp only at h ⊢
    split_ifs at h ⊢
    · rw [State.tuxctlHandlePacket] at h ⊢
      dsimp only at h ⊢
      split_ifs at h ⊢
      · exact ⟨rfl, rfl, rfl, rfl, rfl⟩
      · obtain ⟨h₁, h₂, h₃, h₄, h₅⟩ := sameTx_tuxInit h
        exact ⟨h₁, h₂, h₃, h₄, h₅⟩
      · exact ⟨rfl, rfl, rfl, rfl, rfl⟩
      · exact ⟨rfl, rfl, rfl, rfl, rfl⟩
    · exact ⟨rfl, rfl, rfl, rfl, rfl⟩
  · exact SameTx.refl s

/-! ## Draining -/

/-- The bytes `l` are in `tx_buf`, and the transmitter has been found empty `k` times since the call in
the state `s₀`. -/
structure Draining (s₀ : State) (l : List (BitVec 8)) (k : ℕ) (s : State) : Prop where
  length : l.length < txBufferSize
  stored : ∀ (i : ℕ) (hi : i < l.length), (s.txBuf i).setWidth 8 = l[i]
  txDatLen : s.txDatLen = BitVec.ofNat 32 l.length
  txInd : s.txInd = BitVec.ofNat 32 (min l.length (1 + k))
  sent : s.sent = s₀.sent ++ l.take (1 + k)
  oob : s.oob = s₀.oob

theorem Draining.congr {s' : State} (h : Draining s₀ l k s) (hs : SameTx s s') :
    Draining s₀ l k s' where
  length := h.length
  stored := by
    rw [hs.txBuf]
    exact h.stored
  txDatLen := hs.txDatLen.trans h.txDatLen
  txInd := hs.txInd.trans h.txInd
  sent := hs.sent.trans h.sent
  oob := hs.oob.trans h.oob

/-- **The transmitter is empty.** -/
theorem Draining.transmit (h : Draining s₀ l k s) : Draining s₀ l (k + 1) s.transmit := by
  have hlen := h.length
  rw [txBufferSize] at hlen
  have htoNat : ∀ n ≤ l.length, (BitVec.ofNat 32 n).toNat = n := by
    intro n hn
    rw [BitVec.toNat_ofNat]
    exact Nat.mod_eq_of_lt (by omega)
  rcases Nat.lt_or_ge (1 + k) l.length with hlt | hge
  · have hind : s.txInd = BitVec.ofNat 32 (1 + k) := by rw [h.txInd, Nat.min_eq_right (Nat.le_of_lt hlt)]
    have hne : s.txInd ≠ s.txDatLen := by
      intro heq
      have hnat := congrArg BitVec.toNat heq
      rw [hind, h.txDatLen, htoNat _ (Nat.le_of_lt hlt), htoNat _ le_rfl] at hnat
      omega
    rw [State.transmit, if_neg hne, hind, htoNat _ (Nat.le_of_lt hlt)]
    refine ⟨h.length, h.stored, h.txDatLen, ?_, ?_, ?_⟩
    · rw [Nat.min_eq_right (by omega)]
      exact (BitVec.ofNat_add (1 + k) 1).symm
    · show s.sent ++ [(s.txBuf (1 + k)).setWidth 8] = _
      have htake : l.take (1 + k + 1) = l.take (1 + k) ++ [l[1 + k]] := by
        rw [List.take_add_one, List.getElem?_eq_getElem hlt]
        rfl
      rw [h.sent, h.stored _ hlt, List.append_assoc, ← htake]
      rfl
    · show (s.oob || decide (txBufferSize ≤ 1 + k)) = s₀.oob
      rw [h.oob, decide_eq_false (by rw [txBufferSize]; omega), Bool.or_false]
  · -- all has been sent
    have hend : s.txInd = s.txDatLen := by rw [h.txInd, h.txDatLen, Nat.min_eq_left hge]
    rw [State.transmit, if_pos hend]
    refine ⟨h.length, h.stored, h.txDatLen, ?_, ?_, h.oob⟩
    · rw [h.txInd, Nat.min_eq_left hge, Nat.min_eq_left (by omega)]
    · rw [h.sent, List.take_of_length_le hge, List.take_of_length_le (by omega)]

theorem writes_transmit (s : State) : s.transmit.writes = s.writes := by
  rw [State.transmit]
  split <;> rfl

/-- **One operation that does not write.** -/
theorem Draining.step {o : Op} (h : Draining s₀ l k s) (hwrites : (step m s o).writes = s.writes) :
    Draining s₀ l (k + if empties m s o then 1 else 0) (step m s o) := by
  by_cases hhung : s.hung = true
  · have hnot : empties m s o = false := by
      cases o with
      | isr u => simp only [empties, hhung, Bool.not_true, Bool.false_and]
      | write buf size => rfl
    rw [step_of_hung hhung, hnot]
    exact h
  have hlive : s.hung = false := Bool.eq_false_iff.mpr hhung
  cases o with
  | write buf size =>
    rw [step_write hlive] at hwrites ⊢
    have hsame : { s with busy := true }.serialWrite buf size = { s with busy := true } :=
      serialWrite_eq_self hwrites
    rw [hsame]
    exact h.congr ⟨rfl, rfl, rfl, rfl, rfl⟩
  | isr u =>
    rw [step_isr hlive] at hwrites ⊢
    have hisr : s.serialIsr m u = if (s.afterReceive m u).hung then s.afterReceive m u
      else if u.transmitEmpty then (s.afterReceive m u).transmit else s.afterReceive m u := rfl
    have hafter : (s.afterReceive m u).writes = s.writes := by
      rw [← hwrites, hisr]
      split_ifs
      · rfl
      · exact (writes_transmit _).symm
      · rfl
    have hdrain := h.congr (sameTx_afterReceive hafter)
    rw [hisr, empties, hlive]
    cases (s.afterReceive m u).hung with
    | true => exact hdrain
    | false =>
      cases u.transmitEmpty with
      | true => exact hdrain.transmit
      | false => exact hdrain

theorem Draining.run {ops : List Op} (h : Draining s₀ l k s)
    (hwrites : Meets (Serial.step m) (fun s o => (Serial.step m s o).writes = s.writes) s ops) :
    Draining s₀ l (k + occurrences (Serial.step m) (fun s o => empties m s o) s ops)
      (Runs.run (Serial.step m) s ops) := by
  induction ops generalizing s k with
  | nil => exact h
  | cons o ops ih =>
    have hrun := ih (h.step hwrites.1) hwrites.2
    rw [Nat.add_assoc] at hrun
    exact hrun

/-- **The call.** -/
theorem draining_serialWrite {s : State} {buf : ℕ → BitVec 8} {n : ℕ} (hn₀ : n ≠ 0)
    (hn : n < txBufferSize) : Draining s ((List.range n).map (queued s buf n)) 0
      (s.serialWrite buf (BitVec.ofNat 32 n)) := by
  rw [txBufferSize] at hn
  have hlen : ((List.range n).map (queued s buf n)).length = n := by
    rw [List.length_map, List.length_range]
  have htoNat : (BitVec.ofNat 32 n).toNat = n := by
    rw [BitVec.toNat_ofNat]
    exact Nat.mod_eq_of_lt (by omega)
  have htoInt : ¬ (txBufferSize : ℤ) ≤ (BitVec.ofNat 32 n).toInt := by
    rw [BitVec.toInt_eq_toNat_of_lt (by omega), htoNat, txBufferSize]
    omega
  have hone : min n (1 + 0) = 1 := Nat.min_eq_right (Nat.one_le_iff_ne_zero.mpr hn₀)
  rw [State.serialWrite, if_neg htoInt, htoNat]
  refine ⟨by rw [hlen]; exact hn, fun i hi => ?_, ?_, ?_, ?_, ?_⟩
  · rw [List.getElem_map, List.getElem_range]
    exact setWidth_memcpy s buf n i
  · rw [hlen]
    rfl
  · rw [hlen, hone]
    rfl
  · show s.sent ++ [(memcpy s.txBuf buf n 0).setWidth 8] = _
    rw [setWidth_memcpy]
    obtain ⟨n, rfl⟩ := Nat.exists_eq_succ_of_ne_zero hn₀
    rw [List.range_succ_eq_map]
    rfl
  · show (s.oob || decide (4 * txBufferSize < n)) = s.oob
    rw [decide_eq_false (by rw [txBufferSize]; omega), Bool.or_false]

/-! ## All of the buffer -/

theorem hung_serialWrite (s : State) (buf : ℕ → BitVec 8) (size : BitVec 32) :
    (s.serialWrite buf size).hung = s.hung := by
  rw [State.serialWrite]
  split <;> rfl

/-- An interrupt with nothing received and the transmitter empty. -/
def emptyIsr : Op := .isr ⟨0, 0, 0x20⟩

theorem step_emptyIsr (hs : s.hung = false) : step m s emptyIsr = s.transmit := by
  have hisr : s.serialIsr m ⟨0, 0, 0x20⟩ = if s.hung then s else s.transmit := rfl
  rw [emptyIsr, step_isr hs, hisr, if_neg (Bool.eq_false_iff.mp hs)]

theorem hung_transmit (s : State) : s.transmit.hung = s.hung := by
  rw [State.transmit]
  split <;> rfl

/-- There can be as many such interrupts as it takes. -/
theorem run_emptyIsr (hs : s.hung = false) (k : ℕ) :
    Meets (step m) (fun s o => (step m s o).writes = s.writes) s (List.replicate k emptyIsr) ∧
      occurrences (step m) (fun s o => empties m s o) s (List.replicate k emptyIsr) = k := by
  induction k generalizing s with
  | zero => exact ⟨trivial, rfl⟩
  | succ k ih =>
    have hcounts : empties m s emptyIsr = (!s.hung && !s.hung && true) := rfl
    have hempty : empties m s emptyIsr = true := by
      rw [hcounts, hs]
      rfl
    have hstep := step_emptyIsr (m := m) hs
    obtain ⟨hwrites, hcount⟩ := ih ((hung_transmit s).trans hs)
    rw [List.replicate_succ]
    refine ⟨⟨?_, ?_⟩, ?_⟩
    · exact (congrArg State.writes hstep).trans (writes_transmit s)
    · rw [hstep]
      exact hwrites
    · rw [occurrences, sumAlong_cons, if_pos hempty, hstep]
      exact (congrArg (1 + ·) hcount).trans (Nat.add_comm 1 k)

end tx

/-- **When the buffer is sent.**  `serial_write(buf, n)` with `n < TX_BUFFER_SIZE`, followed by any
run in which nothing else is written, sends the bytes of the buffer in order and nothing else, without
leaving `tx_buf`, if and only if there is one at least and the byte sent at each place is the one that
is there. -/
theorem sendsBuffer_iff (m : Mtcp) (s : State) (hs : s.hung = false) (buf : ℕ → BitVec 8) (n : ℕ)
    (hn : n < txBufferSize) : SendsBuffer m s buf n ↔ Sendable s buf n := by
  constructor
  · intro h
    have hn₀ : n ≠ 0 := by
      rintro rfl
      have hsent : s.sent ++ [_] = s.sent ++ [] := (h [] trivial).1
      exact absurd (List.append_cancel_left hsent) (List.cons_ne_nil _ _)
    have hcall : Draining s ((List.range n).map (queued s buf n)) 0 _ :=
      draining_serialWrite hn₀ hn
    -- what is left after the first byte takes one interrupt for each
    have hlive : (s.serialWrite buf (BitVec.ofNat 32 n)).hung = false :=
      (hung_serialWrite s buf _).trans hs
    obtain ⟨hwrites, hcount⟩ := run_emptyIsr (m := m) hlive (n - 1)
    have hall : ∀ f : ℕ → BitVec 8, ((List.range n).map f).take (1 + (n - 1)) = (List.range n).map f := by
      intro f
      refine List.take_of_length_le ?_
      rw [List.length_map, List.length_range]
      omega
    have hsent := (hcall.run hwrites).sent
    rw [(h _ hwrites).1, hcount, Nat.zero_add, hall, hall] at hsent
    refine ⟨hn₀, fun i hi => ?_⟩
    exact (List.map_inj_left.mp (List.append_cancel_left hsent) i (List.mem_range.mpr hi)).symm
  · rintro ⟨hn₀, hqueued⟩ ops s' hwrites
    have hbuf : (List.range n).map (queued s buf n) = (List.range n).map buf :=
      List.map_congr_left fun i hi => hqueued i (List.mem_range.mp hi)
    have hdrain := (draining_serialWrite hn₀ hn).run hwrites
    rw [hbuf, Nat.zero_add] at hdrain
    exact ⟨hdrain.sent, hdrain.oob⟩

/-- The bytes 5 and 0 are written, and both have been sent after one interrupt. -/
theorem sendsBuffer_five_zero :
    let m : Mtcp := ⟨0x50, 0x51, 0x52, 0x53⟩
    let buf : ℕ → BitVec 8 := fun i => if i = 0 then 5 else 0
    SendsBuffer m boot buf 2 ∧ (step m (boot.serialWrite buf 2) emptyIsr).sent = [5, 0] := by
  intro m buf
  have hqueued : ∀ i < 2, queued boot buf 2 i = buf i := by decide
  have h : SendsBuffer m boot buf 2 :=
    (sendsBuffer_iff m boot rfl buf 2 (by decide)).mpr ⟨by decide, hqueued⟩
  exact ⟨h, (h [emptyIsr] ⟨rfl, trivial⟩).1⟩

/-- The bytes 1 and 2 are written, and the second byte sent is 0. -/
theorem not_sendsBuffer_two :
    ¬ SendsBuffer ⟨0x50, 0x51, 0x52, 0x53⟩ boot (fun i => BitVec.ofNat 8 (i + 1)) 2 := by
  intro h
  have hsent := (h [emptyIsr] ⟨rfl, trivial⟩).1
  revert hsent
  decide

end Serial
end CoreOS
