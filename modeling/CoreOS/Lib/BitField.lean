import Mathlib.Algebra.Group.Nat.Defs
import Mathlib.Tactic.Common

/-!
# Fields packed in a word

A C macro that packs a small number into some bits of a word does so with a mask: clear the bits of
the field, and OR in the value shifted to its place.  Reading it back masks and shifts the other
way.  Here is what such macros compute, for a field of `k` bits at bit `s` of a word of `w` bits.

* `toNat_get` reads the field as a number, `x / 2 ^ s % 2 ^ k`.
* `get_set` and `get_set_of_disjoint`: a field that fits is read back as it was written, and a field
  elsewhere in the word is not affected.

A C structure of bit-fields is a layout of such fields, and a run of assignments to its members is
`assign`.  `get_assign` reads a member after the run: it has the value that was assigned to it last.
-/

namespace CoreOS
namespace BitField

variable {w : ℕ}

/-- The `k` bits from bit `s` on. -/
def mask (w s k : ℕ) : BitVec w := BitVec.ofNat w (2 ^ k - 1) <<< s

/-- `(x & mask) >> s`. -/
def get (s k : ℕ) (x : BitVec w) : BitVec w := (x &&& mask w s k) >>> s

/-- `(dst & ~msk) | (msk & src)`. -/
def setByMsk (dst msk src : BitVec w) : BitVec w := (dst &&& ~~~msk) ||| (msk &&& src)

/-- The field set to the low bits of `v`. -/
def set (s k : ℕ) (x v : BitVec w) : BitVec w := setByMsk x (mask w s k) (v <<< s)

theorem getLsbD_mask (s k i : ℕ) :
    (mask w s k).getLsbD i = (decide (i < w) && decide (s ≤ i) && decide (i < s + k)) := by
  rw [mask, BitVec.getLsbD_shiftLeft, BitVec.getLsbD_ofNat, Nat.testBit_two_pow_sub_one]
  by_cases hs : s ≤ i
  · have h₁ : (i - s < k) ↔ i < s + k := by omega
    have h₂ : i < w → i - s < w := by omega
    by_cases hw : i < w
    · simp [hs, hw, h₁, h₂ hw]
    · simp [hw]
  · simp [hs, show i < s by omega]

theorem getLsbD_get (s k i : ℕ) (x : BitVec w) :
    (get s k x).getLsbD i = (decide (i < k) && x.getLsbD (s + i)) := by
  rw [get, BitVec.getLsbD_ushiftRight, BitVec.getLsbD_and, getLsbD_mask]
  by_cases hw : s + i < w
  · by_cases hk : i < k
    · simp [hw, hk]
    · simp [hk]
  · simp [BitVec.getLsbD_of_ge x (s + i) (by omega)]

theorem getLsbD_set (s k i : ℕ) (x v : BitVec w) :
    (set s k x v).getLsbD i =
      if i < w ∧ s ≤ i ∧ i < s + k then v.getLsbD (i - s) else x.getLsbD i := by
  rw [set, setByMsk, BitVec.getLsbD_or, BitVec.getLsbD_and, BitVec.getLsbD_and,
    BitVec.getLsbD_not, getLsbD_mask, BitVec.getLsbD_shiftLeft]
  by_cases hw : i < w
  · by_cases hs : s ≤ i
    · by_cases hk : i < s + k
      · simp [hw, hs, hk]
      · simp [hw, hs, hk]
    · simp [hw, hs]
  · simp [hw, BitVec.getLsbD_of_ge x i (by omega)]

/-- **Reading a field as a number.** -/
theorem toNat_get (s k : ℕ) (x : BitVec w) : (get s k x).toNat = x.toNat / 2 ^ s % 2 ^ k := by
  refine Nat.eq_of_testBit_eq fun i => ?_
  rw [Nat.testBit_mod_two_pow, Nat.testBit_div_two_pow, Nat.add_comm]
  exact getLsbD_get s k i x

theorem toNat_get_lt (s k : ℕ) (x : BitVec w) : (get s k x).toNat < 2 ^ k := by
  rw [toNat_get]
  exact Nat.mod_lt _ (Nat.two_pow_pos k)

/-- **A field that fits is read back.** -/
theorem get_set {s k : ℕ} (hw : s + k ≤ w) (x : BitVec w) {v : BitVec w} (hv : v.toNat < 2 ^ k) :
    get s k (set s k x v) = v := by
  refine BitVec.eq_of_getLsbD_eq fun i _ => ?_
  rw [getLsbD_get, getLsbD_set]
  by_cases hk : i < k
  · rw [if_pos (by omega), show s + i - s = i by omega]
    simp [hk]
  · have hzero : v.getLsbD i = false :=
      Nat.testBit_lt_two_pow (Nat.lt_of_lt_of_le hv (Nat.pow_le_pow_right (by omega) (by omega)))
    simp [hk, hzero]

/-- **A field elsewhere in the word is left alone.** -/
theorem get_set_of_disjoint {s k s' k' : ℕ} (h : s + k ≤ s' ∨ s' + k' ≤ s) (x v : BitVec w) :
    get s' k' (set s k x v) = get s' k' x := by
  refine BitVec.eq_of_getLsbD_eq fun i _ => ?_
  rw [getLsbD_get, getLsbD_get, getLsbD_set]
  by_cases hk : i < k'
  · rw [if_neg (by omega)]
  · simp [hk]

/-! ## Structures of bit-fields -/

/-- A member: where its bits begin, and how many there are. -/
structure Member where
  start : ℕ
  size : ℕ
  deriving DecidableEq

namespace Member

/-- The value of a member. -/
def get (f : Member) (x : BitVec w) : BitVec w := BitField.get f.start f.size x

/-- The word after an assignment to a member. -/
def set (f : Member) (x v : BitVec w) : BitVec w := BitField.set f.start f.size x v

/-- Two members have no bit in common. -/
def Apart (f g : Member) : Prop := f.start + f.size ≤ g.start ∨ g.start + g.size ≤ f.start

instance (f g : Member) : Decidable (f.Apart g) := inferInstanceAs (Decidable (_ ∨ _))

theorem get_set_self {f : Member} (hf : f.start + f.size ≤ w) (x : BitVec w) {v : BitVec w}
    (hv : v.toNat < 2 ^ f.size) : f.get (f.set x v) = v :=
  BitField.get_set hf x hv

theorem get_set_of_apart {f g : Member} (h : f.Apart g) (x v : BitVec w) :
    g.get (f.set x v) = g.get x :=
  get_set_of_disjoint h x v

end Member

/-- Members that are inside a word and have no bit in common. -/
def IsLayout (w : ℕ) (layout : List Member) : Prop :=
  ∀ f ∈ layout, f.start + f.size ≤ w ∧ ∀ g ∈ layout, g = f ∨ g.Apart f

instance (w : ℕ) (layout : List Member) : Decidable (IsLayout w layout) :=
  inferInstanceAs (Decidable (∀ _ ∈ _, _))

/-- Assignments to members of a layout, of values that fit. -/
def Fits (layout : List Member) (as : List (Member × BitVec w)) : Prop :=
  ∀ a ∈ as, a.1 ∈ layout ∧ a.2.toNat < 2 ^ a.1.size

instance (layout : List Member) (as : List (Member × BitVec w)) : Decidable (Fits layout as) :=
  inferInstanceAs (Decidable (∀ _ ∈ _, _))

/-- The word after assignments to members, one after the other. -/
def assign (as : List (Member × BitVec w)) (x : BitVec w) : BitVec w :=
  as.foldl (fun x a => a.1.set x a.2) x

/-- The value that was assigned to a member last, if there was one. -/
def lastOf (f : Member) (as : List (Member × BitVec w)) (v : BitVec w) : BitVec w :=
  as.foldl (fun v a => if a.1 = f then a.2 else v) v

/-- **A member after assignments.** -/
theorem get_assign {layout : List Member} (hlayout : IsLayout w layout)
    {as : List (Member × BitVec w)} (has : Fits layout as) {f : Member} (hf : f ∈ layout)
    (x : BitVec w) : f.get (assign as x) = lastOf f as (f.get x) := by
  rw [assign, lastOf]
  induction as generalizing x with
  | nil => rfl
  | cons a as ih =>
    obtain ⟨hmem, hfit⟩ := has a List.mem_cons_self
    obtain ⟨hw, hapart⟩ := hlayout f hf
    have hstep : f.get (a.1.set x a.2) = if a.1 = f then a.2 else f.get x := by
      by_cases ha : a.1 = f
      · rw [if_pos ha]
        rw [ha] at hfit ⊢
        exact Member.get_set_self hw x hfit
      · rw [if_neg ha]
        exact Member.get_set_of_apart ((hapart a.1 hmem).resolve_left ha) x a.2
    rw [List.foldl_cons, List.foldl_cons, ← hstep]
    exact ih (fun b hb => has b (List.mem_cons_of_mem a hb)) _

end BitField
end CoreOS
