import Mathlib.Algebra.Order.Group.Nat
import Mathlib.Tactic.Common

/-!
# Segments laid end to end

A list of segments, each used or unused and each with a size, tiles a stretch of addresses: the
first segment starts at `a`, and every other one starts where the one before it ends.  Addresses
are never stored; they are prefix sums of the sizes.  `mem_used` and `pairwise_used` say what
follows for the used segments: they lie inside the stretch, one after the other.
-/

namespace CoreOS

/-- A segment: whether it is used, and its size. -/
structure Seg where
  used : Bool
  size : ℕ
  deriving DecidableEq

namespace Segments

/-- The size of the stretch a list of segments tiles. -/
def total : List Seg → ℕ
  | [] => 0
  | x :: l => x.size + total l

/-- The used segments, each as its start and its size, when the first segment starts at `a`. -/
def used (a : ℕ) : List Seg → List (ℕ × ℕ)
  | [] => []
  | x :: l => (if x.used then [(a, x.size)] else []) ++ used (a + x.size) l

@[simp] theorem total_nil : total [] = 0 := rfl

@[simp] theorem total_cons (x : Seg) (l : List Seg) : total (x :: l) = x.size + total l := rfl

@[simp] theorem total_append (l₁ l₂ : List Seg) : total (l₁ ++ l₂) = total l₁ + total l₂ := by
  induction l₁ with
  | nil => simp
  | cons x l₁ ih =>
    rw [List.cons_append, total_cons, total_cons, ih]
    omega

@[simp] theorem used_nil (a : ℕ) : used a [] = [] := rfl

@[simp] theorem used_cons (a : ℕ) (x : Seg) (l : List Seg) :
    used a (x :: l) = (if x.used then [(a, x.size)] else []) ++ used (a + x.size) l := rfl

theorem used_append (a : ℕ) (l₁ l₂ : List Seg) :
    used a (l₁ ++ l₂) = used a l₁ ++ used (a + total l₁) l₂ := by
  induction l₁ generalizing a with
  | nil => simp
  | cons x l₁ ih =>
    rw [List.cons_append, used_cons, used_cons, ih, List.append_assoc, total_cons, Nat.add_assoc]

/-- A used segment lies inside the stretch. -/
theorem mem_used {a : ℕ} {l : List Seg} {u : ℕ × ℕ} (h : u ∈ used a l) :
    a ≤ u.1 ∧ u.1 + u.2 ≤ a + total l := by
  induction l generalizing a with
  | nil => simp at h
  | cons x l ih =>
    rw [used_cons, List.mem_append] at h
    rcases h with h | h
    · split at h
      · rw [List.mem_singleton] at h
        subst h
        simp
      · simp at h
    · obtain ⟨h₁, h₂⟩ := ih h
      rw [total_cons]
      omega

/-- **Used segments do not overlap.**  Each one ends where the next starts, or before. -/
theorem pairwise_used (a : ℕ) (l : List Seg) :
    (used a l).Pairwise fun u v => u.1 + u.2 ≤ v.1 := by
  induction l generalizing a with
  | nil => exact List.Pairwise.nil
  | cons x l ih =>
    rw [used_cons]
    split
    · refine List.pairwise_cons.mpr ⟨fun v hv => ?_, ih _⟩
      exact (mem_used hv).1
    · exact ih _

end Segments
end CoreOS
