import CoreOS.Rtc.Virtual
import Mathlib.Tactic.IntervalCases

/-!
# The rate programmed in the chip

The driver keeps the rate of the chip twice: in the variables `sys_freq` and `sys_freq_pow`, and in
the low four bits of register A, where the chip reads it.  Rate `r` in the register makes the chip
interrupt `32768 >> (r - 1)` times a second, so that the two copies agree when the register holds
`16 - sys_freq_pow`.

`rtc_set_pi_freq` writes both.  `init_rtc` writes them apart: the variables for 2 Hz, as its comment
says, and rate 3 in the register, which is 8192 Hz.  No later call repairs this but a write that
raises the rate of the chip, since a write of 2 Hz, the rate the variables already have, does not
reach the register.  `ratesAgree_run_iff` is the exact statement.
-/

namespace CoreOS
namespace Rtc

open Runs Driver

/-- The rate in register A. -/
def programmedRate (s : Driver) : ℕ := (s.regA &&& 0xF).toNat

/-- How often the chip interrupts, in Hz. -/
def chipFreq (s : Driver) : ℕ := 32768 >>> (programmedRate s - 1)

/-- **The register and the variable agree.** -/
def RatesAgree (s : Driver) : Prop := programmedRate s = 16 - s.sysFreqPow

/-! ## Which calls program the chip -/

/-- The rate to which a write raises the chip. -/
def raisedTo (s : Driver) (buf : Option (BitVec 32)) (length : BitVec 32) : Option ℕ :=
  (askedPow buf length).filter fun p => s.sysFreq < 2 ^ p

theorem raisedTo_eq_some {s : Driver} {buf : Option (BitVec 32)} {length : BitVec 32} {p : ℕ} :
    raisedTo s buf length = some p ↔ askedPow buf length = some p ∧ s.sysFreq < 2 ^ p := by
  rw [raisedTo, Option.filter_eq_some_iff, decide_eq_true_eq]

/-- The three copies of the rate of the chip. -/
def rates (s : Driver) : BitVec 8 × ℕ × ℕ := (s.regA, s.sysFreq, s.sysFreqPow)

theorem rates_foldl_updateRtc (s : Driver) (l : List (Fin maxProcNum)) :
    rates (l.foldl updateRtc s) = rates s := by
  rw [foldl_updateRtc]
  rfl

theorem rates_rtcIsr (s : Driver) (cur : ℕ) : rates (s.rtcIsr cur) = rates s := by
  unfold rtcIsr
  generalize List.finRange maxProcNum = l
  induction l generalizing s with
  | nil => rfl
  | cons i l ih =>
    rw [List.foldl_cons, ih, isrRound_eq]
    rfl

/-- **Only a write that raises the rate programs the chip.** -/
theorem rates_exec (s : Driver) (c : Call) :
    rates (exec s c) = rates s ∨ ∃ buf length f p, c = .write buf length f ∧
      raisedTo s buf length = some p ∧ rates (exec s c) = rates (programmed s p) := by
  cases c with
  | «open» f =>
    left
    rw [exec, rtcOpen_eq]
    cases (List.finRange maxProcNum).find? fun i => (s.rtcFiles i).isNone <;> rfl
  | write buf length f =>
    rw [exec, rtcWrite_eq]
    cases hp : askedPow buf length with
    | none => exact Or.inl rfl
    | some p =>
      simp only
      by_cases hlt : s.sysFreq < 2 ^ p
      · rw [if_pos hlt]
        refine Or.inr ⟨buf, length, f, p, rfl, raisedTo_eq_some.mpr ⟨hp, hlt⟩, ?_⟩
        rw [raised, rates_foldl_updateRtc]
        rfl
      · rw [if_neg hlt]
        exact Or.inl rfl
  | read f =>
    left
    rw [exec_read]
    split <;> rfl
  | close f =>
    left
    rw [exec, rtcClose_eq]
    rfl
  | isr cur => exact Or.inl (rates_rtcIsr s cur)

/-! ## Before and after the first raise -/

/-- The state between `init_rtc` and the first raise. -/
def AtDefault (s : Driver) : Prop := programmedRate s = 3 ∧ s.sysFreq = 2 ∧ s.sysFreqPow = 1

/-- The state after `rtc_set_pi_freq`. -/
def Programmed (s : Driver) : Prop :=
  RatesAgree s ∧ s.sysFreq = 2 ^ s.sysFreqPow ∧ 1 ≤ s.sysFreqPow ∧ s.sysFreqPow ≤ 10

/-- A write of a rate above 2 Hz that `rtc_write` accepts. -/
def AsksMore : Call → Prop
  | .write buf length _ => ∃ p, askedPow buf length = some p ∧ 2 ≤ p
  | _ => False

/-- What the register holds after its low bits have been set. -/
theorem low_bits (x v : BitVec 8) : ((x &&& 0xF0) ||| (v &&& 0xF)) &&& 0xF = v &&& 0xF := by
  ext i hi
  simp only [BitVec.getElem_and, BitVec.getElem_or]
  interval_cases i <;> simp

theorem ratesAgree_programmed (s : Driver) {p : ℕ} (h1 : 1 ≤ p) (h10 : p ≤ 10) :
    Programmed (programmed s p) := by
  refine ⟨?_, rfl, h1, h10⟩
  unfold RatesAgree programmedRate
  show (((s.regA &&& 0xF0) ||| (BitVec.ofNat 8 (16 - p) &&& 0xF)) &&& 0xF).toNat = 16 - p
  rw [low_bits]
  interval_cases p <;> rfl

theorem programmed_of_rates {s t : Driver} (h : rates s = rates t) (ht : Programmed t) :
    Programmed s := by
  obtain ⟨hreg, hfreq, hpow⟩ : s.regA = t.regA ∧ s.sysFreq = t.sysFreq ∧
      s.sysFreqPow = t.sysFreqPow := by simpa [rates] using h
  unfold Programmed RatesAgree programmedRate at *
  rw [hreg, hfreq, hpow]
  exact ht

theorem atDefault_of_rates {s t : Driver} (h : rates s = rates t) (ht : AtDefault t) :
    AtDefault s := by
  obtain ⟨hreg, hfreq, hpow⟩ : s.regA = t.regA ∧ s.sysFreq = t.sysFreq ∧
      s.sysFreqPow = t.sysFreqPow := by simpa [rates] using h
  unfold AtDefault programmedRate at *
  rw [hreg, hfreq, hpow]
  exact ht

theorem atDefault_start (files : FilePtr → FILE) (signals : ℕ → BitVec 8) (regA : BitVec 8) :
    AtDefault (start files signals regA) := by
  refine ⟨?_, rfl, rfl⟩
  show (((regA &&& 0xF0) ||| (3 &&& 0xF)) &&& 0xF).toNat = 3
  rw [low_bits]
  rfl

/-- Until a write asks for more than 2 Hz, nothing is programmed. -/
theorem atDefault_exec {s : Driver} {c : Call} (hs : AtDefault s) (hc : ¬ AsksMore c) :
    AtDefault (exec s c) := by
  rcases rates_exec s c with h | ⟨buf, length, f, p, rfl, hp, -⟩
  · exact atDefault_of_rates h hs
  · obtain ⟨hask, hlt⟩ := raisedTo_eq_some.mp hp
    refine absurd ⟨p, hask, ?_⟩ hc
    rw [hs.2.1] at hlt
    by_contra hsmall
    have hle : 2 ^ p ≤ 2 ^ 1 := Nat.pow_le_pow_right (by omega) (by omega)
    omega

/-- The first write that does raises the chip. -/
theorem programmed_of_asksMore {s : Driver} {c : Call} (hs : AtDefault s) (hc : AsksMore c) :
    Programmed (exec s c) := by
  cases c with
  | write buf length f =>
    obtain ⟨p, hask, h2⟩ := hc
    obtain ⟨h1, h10⟩ := askedPow_bounds hask
    have hlt : s.sysFreq < 2 ^ p := by
      rw [hs.2.1]
      exact Nat.lt_of_lt_of_le (by omega) (Nat.pow_le_pow_right (n := 2) (by omega) h2)
    refine programmed_of_rates ?_ (ratesAgree_programmed s h1 h10)
    rw [exec, rtcWrite_eq, hask]
    simp only
    rw [if_pos hlt, raised, rates_foldl_updateRtc]
    rfl
  | _ => exact absurd hc id

/-- From then on the register follows the variables. -/
theorem programmed_exec {s : Driver} (c : Call) (hs : Programmed s) : Programmed (exec s c) := by
  rcases rates_exec s c with h | ⟨buf, length, f, p, -, hp, h⟩
  · exact programmed_of_rates h hs
  · obtain ⟨h1, h10⟩ := askedPow_bounds (raisedTo_eq_some.mp hp).1
    exact programmed_of_rates h (ratesAgree_programmed s h1 h10)

/-! ## The runs of the driver -/

/-- When the register agrees with the variables, the chip interrupts at `sys_freq`. -/
theorem Programmed.chipFreq_eq {s : Driver} (hs : Programmed s) : chipFreq s = s.sysFreq := by
  obtain ⟨hrate, hfreq, h1, h10⟩ := hs
  rw [chipFreq, hrate, hfreq, Nat.shiftRight_eq_div_pow]
  generalize s.sysFreqPow = p at h1 h10
  interval_cases p <;> rfl

theorem AtDefault.disagree {s : Driver} (hs : AtDefault s) :
    ¬ RatesAgree s ∧ chipFreq s ≠ s.sysFreq := by
  obtain ⟨hrate, hfreq, hpow⟩ := hs
  unfold RatesAgree chipFreq
  rw [hrate, hfreq, hpow]
  exact ⟨by decide, by decide⟩

/-- **When the chip runs at `sys_freq`.**  In the state any run of the driver reaches, the register
agrees with `sys_freq_pow`, and the chip interrupts at `sys_freq`, exactly when a write of the run
was accepted at more than 2 Hz. -/
theorem ratesAgree_run_iff (files : FilePtr → FILE) (signals : ℕ → BitVec 8) (regA : BitVec 8)
    (calls : List Call) :
    (RatesAgree (run exec (start files signals regA) calls) ↔ ∃ c ∈ calls, AsksMore c) ∧
      (chipFreq (run exec (start files signals regA) calls) =
          (run exec (start files signals regA) calls).sysFreq ↔ ∃ c ∈ calls, AsksMore c) := by
  rcases run_of_trigger (fun _ _ => atDefault_exec) (fun _ _ => programmed_of_asksMore)
      (fun _ c => programmed_exec c) (atDefault_start files signals regA) calls with
    ⟨hraise, hs⟩ | ⟨hnone, hs⟩
  · exact ⟨iff_of_true hs.1 hraise, iff_of_true hs.chipFreq_eq hraise⟩
  · have hno : ¬ ∃ c ∈ calls, AsksMore c := fun ⟨c, hc, h⟩ => hnone c hc h
    exact ⟨iff_of_false hs.disagree.1 hno, iff_of_false hs.disagree.2 hno⟩

/-- Right after `init_rtc` the register holds rate 3, 8192 Hz, and the variables say 2 Hz; opening
a clock and asking for 2 Hz does not change that. -/
theorem not_ratesAgree :
    let v : FILE := ⟨.file, 0, 0, .reg, false⟩
    let s := start (fun _ => v) (fun _ => 0) 0
    ¬ RatesAgree s ∧ chipFreq s = 8192 ∧ s.sysFreq = 2 ∧
      ¬ RatesAgree (run exec s [.open ⟨1, 2⟩, .write (some 2) 4 ⟨1, 2⟩]) := by
  intro v s
  unfold RatesAgree
  exact ⟨by decide, by decide, by decide, by decide⟩

end Rtc
end CoreOS
