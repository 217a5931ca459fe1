import Mathlib.Logic.Function.Iterate
import Mathlib.Tactic.Common

/-!
# 2048: random numbers

`random` steps a shift register of 16 bits in a word of 32.  The mask that keeps only one bit of `bit`
is commented out, so that the bits from 16 on are not empty: `bit << 15` computes 16 more bits of the
sequence in advance, and `|` puts them where bits already are.  This does no harm once those that are
there are the same ones (`Windowed`), and then `random` returns 32 bits of the sequence at a time.
-/

namespace CoreOS
namespace Game

/-- `random`, on its static `lfsr`, which is also what it returns. -/
def random (lfsr : BitVec 32) : BitVec 32 :=
  let bit := (lfsr >>> 0) ^^^ (lfsr >>> 2) ^^^ (lfsr >>> 3) ^^^ (lfsr >>> 5)
  (lfsr >>> 1) ||| (bit <<< 15)

/-- The register of the comment: 16 bits, and the mask. -/
def random16 (lfsr : BitVec 16) : BitVec 16 :=
  let bit := ((lfsr >>> 0) ^^^ (lfsr >>> 2) ^^^ (lfsr >>> 3) ^^^ (lfsr >>> 5)) &&& 1#16
  (lfsr >>> 1) ||| (bit <<< 15)

/-- The taps, from bit `j` on. -/
def tap (x : BitVec 32) (j : ℕ) : Bool :=
  x.getLsbD j ^^ x.getLsbD (j + 2) ^^ x.getLsbD (j + 3) ^^ x.getLsbD (j + 5)

/-- The bits from 16 on are those that the taps compute from the bits below. -/
def Windowed (x : BitVec 32) : Prop := ∀ j < 16, x.getLsbD (j + 16) = tap x j

instance decidableWindowed (x : BitVec 32) : Decidable (Windowed x) :=
  inferInstanceAs (Decidable (∀ j < 16, _))

theorem getLsbD_random (x : BitVec 32) {j : ℕ} (hj : j < 32) :
    (random x).getLsbD j = (x.getLsbD (j + 1) || !decide (j < 15) && tap x (j - 15)) := by
  simp only [random, tap, BitVec.getLsbD_or, BitVec.getLsbD_shiftLeft, BitVec.getLsbD_xor,
    BitVec.getLsbD_ushiftRight, hj, decide_true, Bool.true_and]
  simp only [Nat.add_comm _ (j - 15), Nat.add_comm 1 j, Nat.add_zero]

namespace Windowed

variable {x : BitVec 32} (h : Windowed x)
include h

/-- Where the bits are already there, the register is only shifted. -/
theorem getLsbD_of_lt {j : ℕ} (hj : j < 31) : (random x).getLsbD j = x.getLsbD (j + 1) := by
  rw [getLsbD_random x (by omega)]
  by_cases hlow : j < 15
  · simp [hlow]
  · have hbit := h (j - 15) (by omega)
    rw [show j - 15 + 16 = j + 1 by omega] at hbit
    rw [hbit, decide_eq_false hlow]
    simp

omit h in
theorem getLsbD_last : (random x).getLsbD 31 = tap x 16 := by
  rw [getLsbD_random x (by omega), BitVec.getLsbD_of_ge x 32 (Nat.le_refl 32)]
  simp

/-- **One call** moves the window by one bit. -/
theorem random : Windowed (random x) := by
  intro j hj
  have htap : tap (Game.random x) j = tap x (j + 1) := by
    simp only [tap, h.getLsbD_of_lt (show j < 31 by omega), h.getLsbD_of_lt (show j + 2 < 31 by omega),
      h.getLsbD_of_lt (show j + 3 < 31 by omega), h.getLsbD_of_lt (show j + 5 < 31 by omega),
      Nat.add_right_comm j _ 1]
  rw [htap]
  by_cases hlast : j = 15
  · rw [hlast]
    exact getLsbD_last
  · rw [h.getLsbD_of_lt (by omega), ← h (j + 1) (by omega), Nat.add_right_comm]

theorem iterate (n : ℕ) : Windowed (Game.random^[n] x) := by
  induction n with
  | zero => exact h
  | succ n ih =>
    rw [Function.iterate_succ_apply']
    exact ih.random

/-- Bit `j` comes out after `j` more calls. -/
theorem getLsbD_iterate {j : ℕ} (hj : j < 32) :
    x.getLsbD j = (Game.random^[j] x).getLsbD 0 := by
  induction j generalizing x with
  | zero => rfl
  | succ j ih =>
    rw [Function.iterate_succ_apply, ← ih h.random (by omega), h.getLsbD_of_lt (by omega)]

/-- The low half is the register of the comment. -/
theorem setWidth_random : (Game.random x).setWidth 16 = random16 (x.setWidth 16) := by
  have htap := h 0 (by omega)
  rw [tap, Nat.zero_add] at htap
  refine BitVec.eq_of_getLsbD_eq fun j hj => ?_
  rw [BitVec.getLsbD_setWidth, h.getLsbD_of_lt (by omega), random16]
  simp only [BitVec.getLsbD_or, BitVec.getLsbD_ushiftRight, BitVec.getLsbD_shiftLeft,
    BitVec.getLsbD_and, BitVec.getLsbD_xor, BitVec.getLsbD_setWidth, BitVec.getLsbD_one]
  by_cases hlast : j = 15
  · subst hlast
    simpa using htap
  · have hlt : j + 1 < 16 := by omega
    simp [hj, show j < 15 by omega, hlt, Nat.add_comm 1 j]

theorem setWidth_iterate (n : ℕ) :
    (Game.random^[n] x).setWidth 16 = random16^[n] (x.setWidth 16) := by
  induction n with
  | zero => rfl
  | succ n ih =>
    rw [Function.iterate_succ_apply', Function.iterate_succ_apply', (h.iterate n).setWidth_random, ih]

end Windowed

/-- Sixteen calls fill the register. -/
theorem windowed_seed : Windowed (random^[16] 0xC0FFEE) := by
  decide

/-- **The mask is not missed.**  From the sixteenth call on the low half of `lfsr` runs through the
states of the register with the mask, and bit `j` of what is returned is the lowest bit of what is
returned `j` calls later.  So nothing but 32 bits of the sequence is ever seen, each of them computed
from the taps. -/
theorem random_window (n : ℕ) :
    (random^[16 + n] 0xC0FFEE).setWidth 16 =
        random16^[n] ((random^[16] 0xC0FFEE).setWidth 16) ∧
      (∀ j < 32, (random^[16 + n] 0xC0FFEE).getLsbD j =
        (random^[16 + n + j] 0xC0FFEE).getLsbD 0) ∧
      (random^[16 + n + 16] 0xC0FFEE).getLsbD 0 = tap (random^[16 + n] 0xC0FFEE) 0 := by
  have hsplit : ∀ n, random^[16 + n] 0xC0FFEE = random^[n] (random^[16] 0xC0FFEE) := by
    intro n
    rw [Nat.add_comm, Function.iterate_add_apply]
  have hnow : Windowed (random^[16 + n] 0xC0FFEE) := by
    rw [hsplit]
    exact windowed_seed.iterate n
  have hlater : ∀ j, random^[16 + n + j] 0xC0FFEE = random^[j] (random^[16 + n] 0xC0FFEE) := by
    intro j
    rw [Nat.add_comm, Function.iterate_add_apply]
  refine ⟨?_, fun j hj => ?_, ?_⟩
  · rw [hsplit, windowed_seed.setWidth_iterate]
  · rw [hlater, hnow.getLsbD_iterate hj]
  · rw [hlater, ← hnow.getLsbD_iterate (by omega)]
    exact hnow 0 (by omega)

end Game
end CoreOS
