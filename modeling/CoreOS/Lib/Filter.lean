import Mathlib.Data.List.Infix
import Mathlib.Tactic.Common

/-!
# Filters over a stream

A filter reads a stream one symbol at a time.  For each symbol it decides, from its state, whether to
keep it, and takes a step.  What it keeps does not depend on how the stream is cut into pieces, which
is `kept_append`.

Two filters are compared by a relation between their states.

* If related states keep the same symbols and stay related, the two keep the same of every stream:
  `kept_eq_of_simulates`.
* If the first keeps no symbol that the second drops, then it keeps no more of any stream, and the two
  keep the same of a stream **exactly** when they agree about each of its symbols:
  `kept_eq_iff_agree`.  One disagreement shortens what the first keeps, and nothing that comes later
  can make up for it.
-/

namespace CoreOS

/-- A filter with states in `σ`, over symbols in `α`. -/
structure Filter (σ α : Type*) where
  next : σ → α → σ
  keeps : σ → α → Bool

namespace Filter

variable {σ τ α : Type*} (F : Filter σ α) (G : Filter τ α)

/-- The state after a stream. -/
def run (s : σ) (l : List α) : σ := l.foldl F.next s

/-- What is kept of a stream. -/
def kept : σ → List α → List α
  | _, [] => []
  | s, a :: l => if F.keeps s a then a :: kept (F.next s a) l else kept (F.next s a) l

@[simp] theorem run_nil (s : σ) : F.run s [] = s := rfl

@[simp] theorem run_cons (s : σ) (a : α) (l : List α) :
    F.run s (a :: l) = F.run (F.next s a) l := rfl

theorem run_append (s : σ) (l l' : List α) : F.run s (l ++ l') = F.run (F.run s l) l' :=
  List.foldl_append

theorem run_concat (s : σ) (l : List α) (a : α) : F.run s (l ++ [a]) = F.next (F.run s l) a :=
  F.run_append s l [a]

@[simp] theorem kept_nil (s : σ) : F.kept s [] = [] := rfl

theorem kept_cons_of_keeps {s : σ} {a : α} (h : F.keeps s a = true) (l : List α) :
    F.kept s (a :: l) = a :: F.kept (F.next s a) l :=
  if_pos h

theorem kept_cons_of_drops {s : σ} {a : α} (h : F.keeps s a = false) (l : List α) :
    F.kept s (a :: l) = F.kept (F.next s a) l := by
  rw [kept, if_neg (by rw [h]; exact Bool.noConfusion)]

/-- A stream may come in pieces. -/
theorem kept_append (s : σ) (l l' : List α) :
    F.kept s (l ++ l') = F.kept s l ++ F.kept (F.run s l) l' := by
  induction l generalizing s with
  | nil => rfl
  | cons a l ih =>
    rw [List.cons_append, kept, kept, run_cons, ih]
    split
    · rfl
    · rfl

variable {F G} {R : σ → τ → Prop}

/-! ## Two filters -/

/-- Related states keep the same symbols and stay related. -/
theorem kept_eq_of_simulates (hnext : ∀ s t a, R s t → R (F.next s a) (G.next t a))
    (hkeeps : ∀ s t a, R s t → F.keeps s a = G.keeps t a) {s : σ} {t : τ} (h : R s t)
    (l : List α) : F.kept s l = G.kept t l := by
  induction l generalizing s t with
  | nil => rfl
  | cons a l ih => rw [kept, kept, hkeeps s t a h, ih (hnext s t a h)]

theorem run_simulates (hnext : ∀ s t a, R s t → R (F.next s a) (G.next t a)) {s : σ} {t : τ}
    (h : R s t) (l : List α) : R (F.run s l) (G.run t l) := by
  induction l generalizing s t with
  | nil => exact h
  | cons a l ih => exact ih (hnext s t a h)

/-- A filter that keeps no symbol the other drops keeps no more of a stream. -/
theorem kept_sublist_of_simulates (hnext : ∀ s t a, R s t → R (F.next s a) (G.next t a))
    (hkeeps : ∀ s t a, R s t → F.keeps s a = true → G.keeps t a = true) {s : σ} {t : τ}
    (h : R s t) (l : List α) : (F.kept s l).Sublist (G.kept t l) := by
  induction l generalizing s t with
  | nil => exact List.Sublist.slnil
  | cons a l ih =>
    have hrest := ih (hnext s t a h)
    cases hF : F.keeps s a with
    | true =>
      rw [kept_cons_of_keeps _ hF, kept_cons_of_keeps _ (hkeeps s t a h hF)]
      exact hrest.cons_cons a
    | false =>
      rw [kept_cons_of_drops _ hF]
      cases hG : G.keeps t a with
      | true =>
        rw [kept_cons_of_keeps _ hG]
        exact hrest.cons a
      | false =>
        rw [kept_cons_of_drops _ hG]
        exact hrest

/-- The two decide the same about each symbol of a stream. -/
def Agree (F : Filter σ α) (G : Filter τ α) (s : σ) (t : τ) (l : List α) : Prop :=
  ∀ pre a post, l = pre ++ a :: post → F.keeps (F.run s pre) a = G.keeps (G.run t pre) a

theorem agree_cons {s : σ} {t : τ} {a : α} {l : List α} :
    Agree F G s t (a :: l) ↔
      F.keeps s a = G.keeps t a ∧ Agree F G (F.next s a) (G.next t a) l := by
  constructor
  · intro h
    refine ⟨h [] a l rfl, fun pre b post hl => ?_⟩
    exact h (a :: pre) b post (by rw [hl, List.cons_append])
  · rintro ⟨hhead, htail⟩ pre b post hl
    cases pre with
    | nil =>
      cases hl
      exact hhead
    | cons c pre =>
      cases hl
      exact htail pre b post rfl

/-- **The same is kept exactly if the two agree about each symbol.** -/
theorem kept_eq_iff_agree (hnext : ∀ s t a, R s t → R (F.next s a) (G.next t a))
    (hkeeps : ∀ s t a, R s t → F.keeps s a = true → G.keeps t a = true) {s : σ} {t : τ}
    (h : R s t) (l : List α) : F.kept s l = G.kept t l ↔ Agree F G s t l := by
  induction l generalizing s t with
  | nil =>
    refine iff_of_true rfl fun pre a post hl => ?_
    exact absurd hl.symm (by simp)
  | cons a l ih =>
    have hrest := ih (hnext s t a h)
    rw [agree_cons, ← hrest]
    cases hF : F.keeps s a with
    | true =>
      have hG := hkeeps s t a h hF
      rw [kept_cons_of_keeps _ hF, kept_cons_of_keeps _ hG, hG, List.cons.injEq]
      exact and_congr_left fun _ => iff_of_true rfl rfl
    | false =>
      rw [kept_cons_of_drops _ hF]
      cases hG : G.keeps t a with
      | true =>
        refine iff_of_false (fun heq => ?_) fun hcond => Bool.noConfusion hcond.1
        -- what the first keeps is at most as long as what the second keeps of the rest
        have hle := (kept_sublist_of_simulates hnext hkeeps (hnext s t a h) l).length_le
        rw [heq, kept_cons_of_keeps _ hG, List.length_cons] at hle
        exact Nat.not_succ_le_self _ hle
      | false =>
        rw [kept_cons_of_drops _ hG]
        exact ⟨fun heq => ⟨rfl, heq⟩, fun hcond => hcond.2⟩

end Filter
end CoreOS
