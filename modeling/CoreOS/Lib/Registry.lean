import Mathlib.Data.List.Basic
import Mathlib.Logic.Function.Basic

/-!
# Visiting what a table of pointers designates

A driver keeps a table of pointers, some of them null, and a loop over the table changes whatever
each pointer designates.  When no two entries hold the same pointer, every object is visited at most
once, and the whole loop is one simultaneous change: `foldl_visit`.
-/

namespace CoreOS
namespace Registry

variable {ι α β : Type*} [DecidableEq α]

/-- No two entries of the table hold the same pointer. -/
def Distinct (reg : ι → Option α) : Prop := ∀ ⦃i j a⦄, reg i = some a → reg j = some a → i = j

/-- Apply `g` to what entry `i` designates. -/
def visit (reg : ι → Option α) (g : β → β) (mem : α → β) (i : ι) : α → β :=
  match reg i with
  | none => mem
  | some a => Function.update mem a (g (mem a))

variable {reg : ι → Option α} {g : β → β}

theorem visit_of_eq {mem : α → β} {i : ι} {a : α} (h : reg i = some a) :
    visit reg g mem i a = g (mem a) := by
  rw [visit, h]
  exact Function.update_self ..

theorem visit_of_ne {mem : α → β} {i : ι} {a : α} (h : reg i ≠ some a) :
    visit reg g mem i a = mem a := by
  unfold visit
  cases hb : reg i with
  | none => rfl
  | some b =>
    refine Function.update_of_ne ?_ _ _
    rintro rfl
    exact h hb

/-- Objects that no entry of the list designates are left alone. -/
theorem foldl_visit_of_not_mem {l : List ι} {a : α} (h : ∀ i ∈ l, reg i ≠ some a) (mem : α → β) :
    l.foldl (visit reg g) mem a = mem a := by
  induction l generalizing mem with
  | nil => rfl
  | cons i l ih =>
    rw [List.foldl_cons, ih (fun j hj => h j (List.mem_cons_of_mem i hj)),
      visit_of_ne (h i (List.mem_cons_self ..))]

/-- **The whole loop.**  An object that exactly one entry of the list designates is visited once. -/
theorem foldl_visit_of_unique {l : List ι} (hl : l.Nodup) {i : ι} (hi : i ∈ l) {a : α}
    (ha : reg i = some a) (hun : ∀ j, reg j = some a → j = i) (mem : α → β) :
    l.foldl (visit reg g) mem a = g (mem a) := by
  induction l generalizing mem with
  | nil => simp at hi
  | cons j l ih =>
    obtain ⟨hj, hl⟩ := List.nodup_cons.mp hl
    rw [List.foldl_cons]
    rcases List.mem_cons.mp hi with rfl | hmem
    · have hrest : ∀ k ∈ l, reg k ≠ some a := by
        intro k hk hka
        obtain rfl := hun k hka
        exact hj hk
      rw [foldl_visit_of_not_mem hrest, visit_of_eq ha]
    · have hne : reg j ≠ some a := by
        intro hja
        obtain rfl := hun j hja
        exact hj hmem
      rw [ih hl hmem, visit_of_ne hne]

theorem foldl_visit (hreg : Distinct reg) {l : List ι} (hl : l.Nodup) {i : ι} (hi : i ∈ l) {a : α}
    (ha : reg i = some a) (mem : α → β) : l.foldl (visit reg g) mem a = g (mem a) :=
  foldl_visit_of_unique hl hi ha (fun _ hj => hreg hj ha) mem

/-- What holds of everything `g` returns holds of every object the loop designates, also when two
entries hold the same pointer. -/
theorem foldl_visit_prop {Q : β → Prop} (hg : ∀ b, Q (g b)) {l : List ι} {i : ι} (hi : i ∈ l)
    {a : α} (ha : reg i = some a) (mem : α → β) : Q (l.foldl (visit reg g) mem a) := by
  induction l generalizing i mem with
  | nil => simp at hi
  | cons j l ih =>
    rw [List.foldl_cons]
    by_cases hmore : ∃ k ∈ l, reg k = some a
    · obtain ⟨k, hk, hka⟩ := hmore
      exact ih hk hka _
    · have hrest : ∀ k ∈ l, reg k ≠ some a := fun k hk hka => hmore ⟨k, hk, hka⟩
      obtain rfl : i = j := by
        rcases List.mem_cons.mp hi with h | h
        · exact h
        · exact absurd ha (hrest i h)
      rw [foldl_visit_of_not_mem hrest, visit_of_eq ha]
      exact hg _

end Registry
end CoreOS
