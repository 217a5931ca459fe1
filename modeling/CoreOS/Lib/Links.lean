import Mathlib.Data.List.Nodup
import Mathlib.Logic.Relation

/-!
# Following pointers to the end

A structure whose nodes each point to at most one other node, read as the lists it contains:
`Links next a l` says that following `next` from the pointer `a` visits exactly the nodes of `l`, in
order, and then stops.

Since every node has one successor, a chain that stops visits no node twice (`Links.nodup`), and
what it visits is what can be reached (`Links.mem_iff`).  A change at a node that is not visited
does not change the chain (`Links.congr`).
-/

namespace CoreOS

variable {α : Type*}

/-- From `a`, following `next` visits the nodes of `l` and stops. -/
def Links (next : α → Option α) : Option α → List α → Prop
  | a, [] => a = none
  | a, b :: l => a = some b ∧ Links next (next b) l

namespace Links

variable {next next' : α → Option α} {a : Option α} {b : α} {l l' : List α}

@[simp] theorem nil_iff : Links next a [] ↔ a = none := Iff.rfl

@[simp] theorem cons_iff : Links next a (b :: l) ↔ a = some b ∧ Links next (next b) l := Iff.rfl

theorem head?_eq (h : Links next a l) : l.head? = a := by
  cases l with
  | nil => exact h.symm
  | cons b l => exact h.1.symm

/-- A chain is determined by where it starts. -/
theorem unique (h : Links next a l) (h' : Links next a l') : l = l' := by
  induction l generalizing a l' with
  | nil =>
    cases l' with
    | nil => rfl
    | cons b l' =>
      rw [nil_iff.mp h] at h'
      exact absurd h'.1 (by simp)
  | cons b l ih =>
    cases l' with
    | nil =>
      rw [nil_iff.mp h'] at h
      exact absurd h.1 (by simp)
    | cons c l' =>
      obtain rfl : b = c := Option.some.inj (h.1.symm.trans h'.1)
      rw [ih h.2 h'.2]

/-- Only the nodes visited matter. -/
theorem congr (h : Links next a l) (hnext : ∀ b ∈ l, next' b = next b) : Links next' a l := by
  induction l generalizing a with
  | nil => exact h
  | cons b l ih =>
    refine ⟨h.1, ?_⟩
    rw [hnext b (List.mem_cons_self ..)]
    exact ih h.2 fun c hc => hnext c (List.mem_cons_of_mem b hc)

/-- Every node visited starts a chain of its own, the rest of this one. -/
theorem split (h : Links next a (l ++ b :: l')) : Links next (some b) (b :: l') := by
  induction l generalizing a with
  | nil => exact ⟨rfl, h.2⟩
  | cons c l ih => exact ih h.2

/-- **A chain that stops does not return.** -/
theorem nodup (h : Links next a l) : l.Nodup := by
  induction l generalizing a with
  | nil => exact List.nodup_nil
  | cons b l ih =>
    refine List.nodup_cons.mpr ⟨fun hb => ?_, ih h.2⟩
    -- a second visit of `b` would start the same chain again, but a shorter one
    obtain ⟨l₁, l₂, rfl⟩ := List.append_of_mem hb
    have hsecond : Links next (some b) (b :: l₂) := split (l := b :: l₁) h
    have hfirst : Links next (some b) (b :: (l₁ ++ b :: l₂)) := ⟨rfl, h.2⟩
    have hlength := congrArg List.length (unique hfirst hsecond)
    simp only [List.length_cons, List.length_append] at hlength
    omega

/-- **What a chain visits** is what can be reached from its start. -/
theorem mem_iff {c : α} (h : Links next (some b) l) :
    c ∈ l ↔ Relation.ReflTransGen (fun x y => next x = some y) b c := by
  constructor
  · intro hc
    induction l generalizing b with
    | nil => simp at hc
    | cons d l ih =>
      obtain rfl : b = d := Option.some.inj h.1
      rcases List.mem_cons.mp hc with rfl | hc
      · exact Relation.ReflTransGen.refl
      · cases l with
        | nil => simp at hc
        | cons e l =>
          have hnext : next b = some e := h.2.1
          have hrest : Links next (some e) (e :: l) := ⟨rfl, h.2.2⟩
          exact Relation.ReflTransGen.head hnext (ih hrest hc)
  · intro hreach
    induction hreach using Relation.ReflTransGen.head_induction_on generalizing l with
    | refl =>
      cases l with
      | nil => simp at h
      | cons d l =>
        rw [Option.some.inj h.1]
        exact List.mem_cons_self ..
    | head hstep _ ih =>
      cases l with
      | nil => simp at h
      | cons d l =>
        obtain rfl := Option.some.inj h.1
        have hrest := h.2
        rw [hstep] at hrest
        exact List.mem_cons_of_mem _ (ih hrest)

end Links
end CoreOS
