import Mathlib.Logic.Function.Iterate
import Mathlib.Tactic.Common

/-!
# The interrupt controllers

`i8259_init`, `enable_irq` and `disable_irq`.  There are two controllers of eight lines each, and a
set bit in the mask of a controller disables a line.  Lines 8 to 15 are on the slave, which is
connected to line 2 of the master: the cascade.

The kernel keeps a copy of both masks, because it does not read them back.  `Controllers` holds the
copies and the bytes written last to the data ports.
-/

namespace CoreOS
namespace Pic

/-- `ALL_MASKED`. -/
def allMasked : BitVec 8 := 0xFF

/-- `TO_UNMASK`. -/
def toUnmask : BitVec 8 := 0xFE

/-- `TO_MASK`. -/
def toMask : BitVec 8 := 0x01

/-- `SLAVE_IRQ_OFF`. -/
def slaveIrqOff : ℕ := 8

/-- `ICW3_SLAVE`, the number of the line the slave is connected to. -/
def icw3Slave : BitVec 8 := 0x02

/-- `master_mask` and `slave_mask`, and what was written last to `MASTER_8259_DATA` and
`SLAVE_8259_DATA`. -/
structure Controllers where
  masterMask : BitVec 8
  slaveMask : BitVec 8
  masterData : BitVec 8
  slaveData : BitVec 8
  deriving DecidableEq

/-- `i8259_init`, at the end of which all lines are masked again. -/
def i8259Init : Controllers := ⟨allMasked, allMasked, allMasked, allMasked⟩

/-- `enable`, after `n` rounds of the loop. -/
def enableMask (n : ℕ) : BitVec 8 := (fun enable : BitVec 8 => (enable <<< 1) + 1)^[n] toUnmask

/-- `disable`, after `n` rounds of the loop. -/
def disableMask (n : ℕ) : BitVec 8 := (fun disable : BitVec 8 => disable <<< 1)^[n] toMask

/-- `enable_irq`. -/
def Controllers.enableIrq (s : Controllers) (irqNum : ℕ) : Controllers :=
  if 15 < irqNum then s
  else if irqNum < slaveIrqOff then
    let masterMask := s.masterMask &&& enableMask irqNum
    { s with masterMask := masterMask, masterData := masterMask }
  else
    let slaveMask := s.slaveMask &&& enableMask (irqNum - slaveIrqOff)
    let masterMask := s.masterMask &&& ~~~icw3Slave
    ⟨masterMask, slaveMask, masterMask, slaveMask⟩

/-- `disable_irq`. -/
def Controllers.disableIrq (s : Controllers) (irqNum : ℕ) : Controllers :=
  if 15 < irqNum then s
  else if irqNum < slaveIrqOff then
    let masterMask := s.masterMask ||| disableMask irqNum
    { s with masterMask := masterMask, masterData := masterMask }
  else
    let slaveMask := s.slaveMask ||| disableMask (irqNum - slaveIrqOff)
    let masterMask := if slaveMask = 0 then s.masterMask ||| icw3Slave else s.masterMask
    ⟨masterMask, slaveMask, masterMask, slaveMask⟩

/-- The mask bit of a line. -/
def Controllers.maskBit (s : Controllers) (m : ℕ) : Bool :=
  if m < slaveIrqOff then s.masterMask.getLsbD m else s.slaveMask.getLsbD (m - slaveIrqOff)

/-! ## What the calls do to the mask bits -/

theorem getLsbD_enableMask : ∀ n < 8, ∀ i < 8, (enableMask n).getLsbD i = decide (i ≠ n) := by
  decide

theorem getLsbD_disableMask : ∀ n < 8, ∀ i < 8, (disableMask n).getLsbD i = decide (i = n) := by
  decide

theorem getLsbD_icw3Slave : ∀ i < 8, (~~~icw3Slave).getLsbD i = decide (i ≠ 1) := by
  decide

/-- A slave mask with a bit set is not zero. -/
theorem or_disableMask_ne_zero (x : BitVec 8) {n : ℕ} (hn : n < 8) : x ||| disableMask n ≠ 0 := by
  intro h
  have hbit : (x ||| disableMask n).getLsbD n = true := by
    rw [BitVec.getLsbD_or, getLsbD_disableMask n hn n hn]
    simp
  rw [h] at hbit
  exact absurd hbit (by simp)

/-- **`enable_irq`** clears the bit of the line.  For a line of the slave it clears bit 1 of the
master as well, which is not the cascade. -/
theorem maskBit_enableIrq (s : Controllers) {n m : ℕ} (hn : n ≤ 15) (hm : m < 16) :
    (s.enableIrq n).maskBit m =
      if m = n ∨ (8 ≤ n ∧ m = 1) then false else s.maskBit m := by
  have hvalid : ¬ 15 < n := Nat.not_lt.mpr hn
  unfold Controllers.enableIrq slaveIrqOff
  rw [if_neg hvalid]
  by_cases hlow : n < 8
  · have hother : ¬ (8 ≤ n ∧ m = 1) := by omega
    rw [if_pos hlow]
    unfold Controllers.maskBit slaveIrqOff
    by_cases hm8 : m < 8
    · simp only [if_pos hm8, BitVec.getLsbD_and, getLsbD_enableMask n hlow m hm8]
      by_cases hmn : m = n
      · simp [hmn]
      · simp [hmn, hother]
    · have hmn : m ≠ n := by omega
      simp only [if_neg hm8, hmn, hother, or_self, if_false]
  · rw [if_neg hlow]
    unfold Controllers.maskBit slaveIrqOff
    by_cases hm8 : m < 8
    · have hmn : m ≠ n := by omega
      simp only [if_pos hm8, BitVec.getLsbD_and, getLsbD_icw3Slave m hm8]
      by_cases hm1 : m = 1
      · simp [hm1, Nat.not_lt.mp hlow]
      · simp [hm1, hmn]
    · have hother : ¬ (8 ≤ n ∧ m = 1) := by omega
      simp only [if_neg hm8, BitVec.getLsbD_and,
        getLsbD_enableMask (n - 8) (by omega) (m - 8) (by omega)]
      by_cases hmn : m = n
      · simp [hmn]
      · simp [hmn, hother, show m - 8 ≠ n - 8 by omega]

/-- **`disable_irq`** sets the bit of the line and no other: its test whether the slave mask is zero
comes after a bit of it has been set. -/
theorem maskBit_disableIrq (s : Controllers) {n m : ℕ} (hn : n ≤ 15) (hm : m < 16) :
    (s.disableIrq n).maskBit m = if m = n then true else s.maskBit m := by
  have hvalid : ¬ 15 < n := Nat.not_lt.mpr hn
  unfold Controllers.disableIrq slaveIrqOff
  rw [if_neg hvalid]
  by_cases hlow : n < 8
  · rw [if_pos hlow]
    unfold Controllers.maskBit slaveIrqOff
    by_cases hm8 : m < 8
    · simp only [if_pos hm8, BitVec.getLsbD_or, getLsbD_disableMask n hlow m hm8]
      by_cases hmn : m = n
      · simp [hmn]
      · simp [hmn]
    · have hmn : m ≠ n := by omega
      simp only [if_neg hm8, if_neg hmn]
  · have hne : s.slaveMask ||| disableMask (n - 8) ≠ 0 := or_disableMask_ne_zero _ (by omega)
    rw [if_neg hlow]
    unfold Controllers.maskBit slaveIrqOff
    simp only [if_neg hne]
    by_cases hm8 : m < 8
    · have hmn : m ≠ n := by omega
      simp only [if_pos hm8, if_neg hmn]
    · simp only [if_neg hm8, BitVec.getLsbD_or,
        getLsbD_disableMask (n - 8) (by omega) (m - 8) (by omega)]
      by_cases hmn : m = n
      · simp [hmn]
      · simp [hmn, show m - 8 ≠ n - 8 by omega]

end Pic
end CoreOS
