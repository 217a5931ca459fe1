import CoreOS.Serial.Driver
import Mathlib.Data.List.Basic

/-!
# What arrives in a packet

The bytes of a packet are stored in `rx_buf`, one in each `int`.  `tuxctl_handle_packet` is given the
address of this array as that of an array of bytes, and what it takes for the second and the third
byte of the packet is the rest of the first `int`.  The bytes are stored with zeros before them, so it
always finds the first byte of the packet and two zeros.

Its first byte is all that arrives of a packet (`packets_eq`), and what is handed on is what has
arrived if and only if there was nothing more in it (`packets_eq_triples_iff`).
-/

namespace CoreOS
namespace Serial

open Runs

/-- The byte that an operation takes from the port. -/
def arrived (s : State) : Op → List (BitVec 8)
  | .isr u => if s.hung = false ∧ u.dataReady = true then [u.data] else []
  | .write _ _ => []

/-- The packets in a sequence of bytes: its consecutive triples. -/
def triples : List (BitVec 8) → List Packet
  | a :: b :: c :: l => ⟨a, b, c⟩ :: triples l
  | _ => []

/-- What is left of a packet. -/
def Packet.first (p : Packet) : Packet := ⟨p.a, 0, 0⟩

theorem triples_append {l : List (BitVec 8)} (hl : l.length % 3 = 0) (l' : List (BitVec 8)) :
    triples (l ++ l') = triples l ++ triples l' := by
  induction l using triples.induct with
  | case1 a b c l ih =>
    rw [List.length_cons, List.length_cons, List.length_cons] at hl
    exact congrArg (List.cons ⟨a, b, c⟩) (ih (by omega))
  | case2 l hshort =>
    have hnil : l = [] := by
      match l with
      | [] => rfl
      | [a] => exact absurd hl Nat.one_ne_zero
      | [a, b] => exact absurd hl (Nat.succ_ne_zero 1)
      | a :: b :: c :: l => exact absurd rfl (hshort a b c l)
    rw [hnil]
    rfl

theorem triples_of_short {l : List (BitVec 8)} (hl : l.length < 3) : triples l = [] := by
  match l with
  | [] => rfl
  | [a] => rfl
  | [a, b] => rfl
  | a :: b :: c :: l =>
    rw [List.length_cons, List.length_cons, List.length_cons] at hl
    omega

/-- **The handler sees the first `int` of the array only.** -/
theorem packetAt_eq {rxBuf : ℕ → BitVec 32} {b : BitVec 8} (h : rxBuf 0 = b.setWidth 32) :
    packetAt rxBuf = ⟨b, 0, 0⟩ := by
  have hbyte : ∀ b : BitVec 8, (b.setWidth 32).extractLsb' 0 8 = b ∧
      (b.setWidth 32).extractLsb' 8 8 = 0 ∧ (b.setWidth 32).extractLsb' 16 8 = 0 := by
    decide +kernel
  obtain ⟨h₀, h₁, h₂⟩ := hbyte b
  rw [packetAt, intByte, intByte, intByte, h]
  exact congr (congr (congrArg Packet.mk h₀) h₁) h₂

/-! ## The rest of the driver -/

/-- What the receiving half works on is as before. -/
structure SameRx (s s' : State) : Prop where
  rxInd : s'.rxInd = s.rxInd
  rxBuf : s'.rxBuf = s.rxBuf
  packets : s'.packets = s.packets

section rx

variable {s s' s'' : State} {m : Mtcp} {l pend : List (BitVec 8)}

theorem SameRx.refl (s : State) : SameRx s s := ⟨rfl, rfl, rfl⟩

theorem SameRx.trans (h : SameRx s s') (h' : SameRx s' s'') : SameRx s s'' :=
  ⟨h'.rxInd.trans h.rxInd, h'.rxBuf.trans h.rxBuf, h'.packets.trans h.packets⟩

theorem sameRx_serialWrite (s : State) (buf : ℕ → BitVec 8) (size : BitVec 32) :
    SameRx s (s.serialWrite buf size) := by
  rw [State.serialWrite]
  split
  · exact SameRx.refl s
  · exact ⟨rfl, rfl, rfl⟩

theorem sameRx_transmit (s : State) : SameRx s s.transmit := by
  rw [State.transmit]
  split
  · exact SameRx.refl s
  · exact ⟨rfl, rfl, rfl⟩

theorem sameRx_tuxInit (s : State) : SameRx s (s.tuxInit m) := by
  rw [State.tuxInit]
  split
  · exact ⟨rfl, rfl, rfl⟩
  · have hbusy : SameRx s { s with busy := true } := ⟨rfl, rfl, rfl⟩
    exact hbusy.trans (sameRx_serialWrite _ _ _)

/-- The handler notes the packet. -/
theorem sameRx_tuxctlHandlePacket (s : State) (p : Packet) :
    SameRx { s with packets := s.packets ++ [p] } (s.tuxctlHandlePacket m p) := by
  rw [State.tuxctlHandlePacket]
  dsimp only
  split_ifs
  · exact ⟨rfl, rfl, rfl⟩
  · exact sameRx_tuxInit _
  · exact ⟨rfl, rfl, rfl⟩
  · exact SameRx.refl _

/-! ## One byte -/

/-- The bytes `l` have been handed on in packets, and the bytes `pend` wait for the rest of theirs. -/
structure Pending (s : State) (l pend : List (BitVec 8)) : Prop where
  whole : l.length % 3 = 0
  short : pend.length < 3
  rxInd : s.rxInd = pend.length
  stored : ∀ b ∈ pend.head?, s.rxBuf 0 = b.setWidth 32
  packets : s.packets = (triples l).map Packet.first

theorem Pending.congr (h : Pending s l pend) (hs : SameRx s s') : Pending s' l pend where
  whole := h.whole
  short := h.short
  rxInd := hs.rxInd.trans h.rxInd
  stored := by
    rw [hs.rxBuf]
    exact h.stored
  packets := hs.packets.trans h.packets

/-- A byte that does not complete its packet. -/
theorem Pending.receive_of_lt (h : Pending s l pend) (hlt : pend.length < 2) (b : BitVec 8) :
    Pending (s.receive m b) l (pend ++ [b]) := by
  have hreceive : s.receive m b =
      { s with rxBuf := Function.update s.rxBuf s.rxInd (b.setWidth 32), rxInd := s.rxInd + 1 } := by
    refine if_neg ?_
    show ¬ s.rxInd + 1 = rxPacketSize
    rw [h.rxInd, rxPacketSize]
    omega
  have hlen : (pend ++ [b]).length = pend.length + 1 := List.length_append
  rw [hreceive]
  refine ⟨h.whole, by omega, ?_, fun x hx => ?_, h.packets⟩
  · rw [hlen, h.rxInd]
  · show Function.update s.rxBuf s.rxInd (b.setWidth 32) 0 = _
    rw [h.rxInd]
    match pend, h.stored with
    | [], _ =>
      obtain rfl : b = x := Option.some.inj hx
      exact Function.update_self ..
    | y :: pend, hstored => exact (Function.update_of_ne (Nat.zero_ne_add_one _) ..).trans (hstored x hx)

/-- **The third byte of a packet.** -/
theorem Pending.receive_of_eq {x y : BitVec 8} (h : Pending s l [x, y]) (b : BitVec 8) :
    Pending (s.receive m b) (l ++ [x, y, b]) [] := by
  have hpacket : packetAt (Function.update s.rxBuf s.rxInd (b.setWidth 32)) = ⟨x, 0, 0⟩ := by
    refine packetAt_eq ?_
    rw [h.rxInd]
    exact (Function.update_of_ne (Nat.zero_ne_add_one _) ..).trans (h.stored x rfl)
  have hreceive : s.receive m b = State.tuxctlHandlePacket m
      { s with rxBuf := Function.update s.rxBuf s.rxInd (b.setWidth 32), rxInd := 0 } ⟨x, 0, 0⟩ := by
    rw [← hpacket]
    refine if_pos ?_
    show s.rxInd + 1 = rxPacketSize
    rw [h.rxInd]
    rfl
  rw [hreceive]
  refine Pending.congr ?_ (sameRx_tuxctlHandlePacket _ _)
  refine ⟨?_, Nat.zero_lt_succ 2, rfl, fun b hb => ?_, ?_⟩
  · rw [List.length_append]
    exact (Nat.add_mod_right _ _).trans h.whole
  · cases hb
  · show s.packets ++ [_] = _
    rw [triples_append h.whole, List.map_append, h.packets]
    rfl

theorem Pending.receive (h : Pending s l pend) (b : BitVec 8) :
    ∃ l' pend', Pending (s.receive m b) l' pend' ∧ l' ++ pend' = l ++ pend ++ [b] := by
  rcases Nat.lt_or_ge pend.length 2 with hlt | hge
  · exact ⟨l, pend ++ [b], h.receive_of_lt hlt b, (List.append_assoc ..).symm⟩
  · obtain ⟨x, y, rfl⟩ := List.length_eq_two.mp (Nat.le_antisymm (Nat.lt_succ_iff.mp h.short) hge)
    refine ⟨l ++ [x, y, b], [], h.receive_of_eq b, ?_⟩
    rw [List.append_nil, List.append_assoc]
    rfl

/-! ## Runs -/

/-- **One operation.** -/
theorem Pending.step (h : Pending s l pend) (o : Op) :
    ∃ l' pend', Pending (step m s o) l' pend' ∧ l' ++ pend' = l ++ pend ++ arrived s o := by
  by_cases hhung : s.hung = true
  · have hnone : arrived s o = [] := by
      cases o with
      | isr u => exact if_neg fun hcond => Bool.noConfusion (hhung.symm.trans hcond.1)
      | write buf size => rfl
    rw [step_of_hung hhung, hnone, List.append_nil]
    exact ⟨l, pend, h, rfl⟩
  · have hlive : s.hung = false := Bool.eq_false_iff.mpr hhung
    cases o with
    | write buf size =>
      have hbusy : SameRx s { s with busy := true } := ⟨rfl, rfl, rfl⟩
      rw [step_write hlive]
      exact ⟨l, pend, h.congr (hbusy.trans (sameRx_serialWrite _ _ _)), (List.append_nil _).symm⟩
    | isr u =>
      -- the transmitting half changes nothing here
      have hisr : SameRx (s.afterReceive m u) (s.serialIsr m u) := by
        rw [State.serialIsr]
        split_ifs
        · exact SameRx.refl _
        · exact sameRx_transmit _
        · exact SameRx.refl _
      rw [step_isr hlive]
      by_cases hready : u.dataReady = true
      · obtain ⟨l', pend', hpending, heq⟩ := h.receive (m := m) u.data
        have hafter : s.afterReceive m u = s.receive m u.data := if_pos hready
        have harrived : arrived s (.isr u) = [u.data] := if_pos ⟨hlive, hready⟩
        rw [hafter] at hisr
        rw [harrived]
        exact ⟨l', pend', hpending.congr hisr, heq⟩
      · have hafter : s.afterReceive m u = s := if_neg hready
        have harrived : arrived s (.isr u) = [] := if_neg fun hcond => hready hcond.2
        rw [hafter] at hisr
        rw [harrived, List.append_nil]
        exact ⟨l, pend, h.congr hisr, rfl⟩

theorem Pending.run (h : Pending s l pend) (ops : List Op) :
    ∃ l' pend', Pending (Runs.run (Serial.step m) s ops) l' pend' ∧
      l' ++ pend' = l ++ pend ++ collect (Serial.step m) arrived s ops := by
  induction ops generalizing s l pend with
  | nil => exact ⟨l, pend, h, (List.append_nil _).symm⟩
  | cons o ops ih =>
    obtain ⟨l', pend', hstep, heq⟩ := h.step (m := m) o
    obtain ⟨l'', pend'', hrun, heq'⟩ := ih hstep
    refine ⟨l'', pend'', hrun, ?_⟩
    rw [heq', heq, collect_cons, List.append_assoc]

theorem pending_boot : Pending boot [] [] := by
  refine ⟨rfl, Nat.zero_lt_succ 2, rfl, fun b hb => ?_, rfl⟩
  cases hb

end rx

/-- **What is handed on**: of each three bytes the first. -/
theorem packets_eq (m : Mtcp) (ops : List Op) : (run (step m) boot ops).packets =
    (triples (collect (step m) arrived boot ops)).map Packet.first := by
  obtain ⟨l, pend, hpending, heq⟩ := pending_boot.run (m := m) ops
  rw [List.nil_append, List.nil_append] at heq
  rw [← heq, triples_append hpending.whole, triples_of_short hpending.short, List.append_nil]
  exact hpending.packets

/-- **When the packets are the bytes received.**  In every run from boot, what is given to
`tuxctl_handle_packet` is the consecutive triples of the bytes that have arrived if and only if the
second and the third byte of every one of them are zero. -/
theorem packets_eq_triples_iff (m : Mtcp) (ops : List Op) :
    (run (step m) boot ops).packets = triples (collect (step m) arrived boot ops) ↔
      ∀ p ∈ triples (collect (step m) arrived boot ops), p.b = 0 ∧ p.c = 0 := by
  rw [packets_eq]
  generalize triples (collect (step m) arrived boot ops) = ps
  have hfirst : ∀ p : Packet, p.first = p ↔ p.b = 0 ∧ p.c = 0 := by
    rintro ⟨a, b, c⟩
    rw [Packet.first, Packet.mk.injEq]
    exact ⟨fun h => ⟨h.2.1.symm, h.2.2.symm⟩, fun h => ⟨rfl, h.1.symm, h.2.symm⟩⟩
  induction ps with
  | nil => exact iff_of_true rfl fun p hp => absurd hp List.not_mem_nil
  | cons p ps ih =>
    rw [List.map_cons, List.cons.injEq, List.forall_mem_cons, hfirst]
    exact and_congr_right fun _ => ih

/-- The bytes 1, 2 and 3 arrive, and the handler gets 1 and two zeros. -/
theorem not_packets_eq_triples :
    let m : Mtcp := ⟨0x50, 0x51, 0x52, 0x53⟩
    let ops : List Op := [.isr ⟨1, 1, 0⟩, .isr ⟨1, 2, 0⟩, .isr ⟨1, 3, 0⟩]
    ¬ (run (step m) boot ops).packets = triples (collect (step m) arrived boot ops) := by
  decide

end Serial
end CoreOS
