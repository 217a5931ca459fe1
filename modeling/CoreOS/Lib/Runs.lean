import Mathlib.Data.List.Induction
import Mathlib.Tactic.Common

/-!
# Runs of a step function

A component that takes commands one at a time is a step function `σ → ο → σ`, and a history of it
is a list of commands.  What is proved of such a component comes in two shapes.

* An **invariant**: a property that every step keeps, as long as the step meets a condition that
  looks at the state before it and at the command.  `invariant_of_meets` is the induction, done
  once.
* An **exact condition**: from a good state, a step leads to a good state *if and only if* it meets
  the condition.  Then a whole history stays good exactly when every one of its steps meets the
  condition, which is `always_iff_meets`.

Nothing here knows what the states or the commands are.
-/

namespace CoreOS
namespace Runs

variable {σ ο : Type*} (step : σ → ο → σ)

/-- The state a history ends in. -/
def run (s : σ) (os : List ο) : σ := os.foldl step s

@[simp] theorem run_nil (s : σ) : run step s [] = s := rfl

@[simp] theorem run_cons (s : σ) (o : ο) (os : List ο) :
    run step s (o :: os) = run step (step s o) os := rfl

theorem run_append (s : σ) (os os' : List ο) :
    run step s (os ++ os') = run step (run step s os) os' :=
  List.foldl_append

/-- Every step of the history meets `C`, which looks at the state before the step. -/
def Meets (C : σ → ο → Prop) : σ → List ο → Prop
  | _, [] => True
  | s, o :: os => C s o ∧ Meets C (step s o) os

instance decidableMeets (C : σ → ο → Prop) [∀ s o, Decidable (C s o)] :
    (s : σ) → (os : List ο) → Decidable (Meets step C s os)
  | _, [] => inferInstanceAs (Decidable True)
  | s, o :: os =>
    have := decidableMeets C (step s o) os
    inferInstanceAs (Decidable (_ ∧ _))

variable {step} {C E : σ → ο → Prop} {I P : σ → Prop}

@[simp] theorem meets_nil (s : σ) : Meets step C s [] := trivial

@[simp] theorem meets_cons (s : σ) (o : ο) (os : List ο) :
    Meets step C s (o :: os) ↔ C s o ∧ Meets step C (step s o) os := Iff.rfl

theorem meets_append (s : σ) (os os' : List ο) :
    Meets step C s (os ++ os') ↔ Meets step C s os ∧ Meets step C (run step s os) os' := by
  induction os generalizing s with
  | nil => simp
  | cons o os ih => simp only [List.cons_append, meets_cons, run_cons, ih, and_assoc]

/-- A condition that every command meets in every state. -/
theorem meets_of_forall {os : List ο} (h : ∀ o ∈ os, ∀ s, C s o) (s : σ) : Meets step C s os := by
  induction os generalizing s with
  | nil => trivial
  | cons o os ih =>
    exact ⟨h o List.mem_cons_self s, ih (fun o' ho' => h o' (List.mem_cons_of_mem o ho')) _⟩

/-- Two conditions at once. -/
theorem Meets.and {D : σ → ο → Prop} {s : σ} {os : List ο} (hC : Meets step C s os)
    (hD : Meets step D s os) : Meets step (fun s o => C s o ∧ D s o) s os := by
  induction os generalizing s with
  | nil => trivial
  | cons o os ih => exact ⟨⟨hC.1, hD.1⟩, ih hC.2 hD.2⟩

/-- A condition that is weaker at every state where an invariant holds is met whenever the stronger
one is. -/
theorem Meets.imp {D : σ → ο → Prop} (hI : ∀ s o, I s → C s o → I (step s o))
    (hCD : ∀ s o, I s → C s o → D s o) {s : σ} {os : List ο} (hs : I s)
    (h : Meets step C s os) : Meets step D s os := by
  induction os generalizing s with
  | nil => trivial
  | cons o os ih => exact ⟨hCD s o hs h.1, ih (hI s o hs h.1) h.2⟩

/-- Two conditions that agree wherever an invariant holds are met by the same histories. -/
theorem meets_congr {D : σ → ο → Prop} (hI : ∀ s o, I s → C s o → I (step s o))
    (hCD : ∀ s o, I s → (C s o ↔ D s o)) {s : σ} (hs : I s) (os : List ο) :
    Meets step C s os ↔ Meets step D s os :=
  ⟨Meets.imp hI (fun s o h => (hCD s o h).mp) hs,
    Meets.imp (fun s o h hD => hI s o h ((hCD s o h).mpr hD)) (fun s o h => (hCD s o h).mpr) hs⟩

/-- **The invariant rule.**  What every conforming step keeps, every conforming history keeps. -/
theorem invariant_of_meets (hI : ∀ s o, I s → C s o → I (step s o)) {s : σ} {os : List ο}
    (hs : I s) (h : Meets step C s os) : I (run step s os) := by
  induction os generalizing s with
  | nil => exact hs
  | cons o os ih => exact ih (hI s o hs h.1) h.2

variable (step P) in
/-- `P` holds in every state the history passes through, its first and its last included. -/
def Always (s : σ) (os : List ο) : Prop := ∀ os', os' <+: os → P (run step s os')

theorem always_nil (s : σ) : Always step P s [] ↔ P s := by
  constructor
  · intro h
    exact h [] (List.prefix_refl _)
  · intro h os' hos'
    rw [List.prefix_nil.mp hos']
    exact h

theorem always_cons (s : σ) (o : ο) (os : List ο) :
    Always step P s (o :: os) ↔ P s ∧ Always step P (step s o) os := by
  constructor
  · intro h
    refine ⟨h [] (List.nil_prefix), fun os' hos' => ?_⟩
    exact h (o :: os') (List.cons_prefix_cons.mpr ⟨rfl, hos'⟩)
  · rintro ⟨hs, h⟩ os' hos'
    cases os' with
    | nil => exact hs
    | cons o' os' =>
      obtain ⟨rfl, hpre⟩ := List.cons_prefix_cons.mp hos'
      exact h os' hpre

theorem Always.last {s : σ} {os : List ο} (h : Always step P s os) : P (run step s os) :=
  h os (List.prefix_refl _)

/-- An invariant holds in every state a conforming history passes through. -/
theorem always_of_meets (hI : ∀ s o, I s → C s o → I (step s o)) {s : σ} {os : List ο}
    (hs : I s) (h : Meets step C s os) : Always step I s os := by
  rintro os' ⟨rest, rfl⟩
  exact invariant_of_meets hI hs ((meets_append s os' rest).mp h).1

/-- **The exact condition of a run.**  `E` says which steps can be taken at all and keeps `I`.  If
among those a step from a good state leads to a good state exactly when it meets `C`, then a
history stays good throughout exactly when every step of it meets `C`. -/
theorem always_iff_meets (hI : ∀ s o, I s → E s o → I (step s o))
    (hP : ∀ s o, I s → E s o → P s → (P (step s o) ↔ C s o)) {s : σ} {os : List ο}
    (hs : I s) (hPs : P s) (hE : Meets step E s os) :
    Always step P s os ↔ Meets step C s os := by
  induction os generalizing s with
  | nil => simpa [always_nil] using hPs
  | cons o os ih =>
    rw [always_cons, meets_cons]
    have hstep := hP s o hs hE.1 hPs
    have hI' := hI s o hs hE.1
    constructor
    · rintro ⟨-, h⟩
      have hgood : P (step s o) := h [] List.nil_prefix
      exact ⟨hstep.mp hgood, (ih hI' hgood hE.2).mp h⟩
    · rintro ⟨hC, h⟩
      exact ⟨hPs, (ih hI' (hstep.mpr hC) hE.2).mpr h⟩

theorem always_append (s : σ) (os os' : List ο) :
    Always step P s (os ++ os') ↔ Always step P s os ∧ Always step P (run step s os) os' := by
  induction os generalizing s with
  | nil =>
    rw [List.nil_append, always_nil, run_nil]
    exact ⟨fun h => ⟨h [] List.nil_prefix, h⟩, fun h => h.2⟩
  | cons o os ih => rw [List.cons_append, always_cons, ih, always_cons, run_cons, and_assoc]

/-- **The exact condition of a run in blocks.**  Every event `e` is a block of commands, and the
state is in order at the ends of the blocks.  If from a good state a block passes through good
states only exactly when `D` holds, then a run of blocks does exactly when `D` holds at each of
them. -/
theorem always_flatMap_iff_meets {ε : Type*} {block : ε → List ο} {D : σ → ε → Prop}
    (hI : ∀ s e, I s → I (run step s (block e)))
    (hP : ∀ s e, I s → P s → (Always step P s (block e) ↔ D s e)) {s : σ} (hs : I s) (hPs : P s)
    (es : List ε) :
    Always step P s (es.flatMap block) ↔ Meets (fun s e => run step s (block e)) D s es := by
  induction es generalizing s with
  | nil => simpa [always_nil] using hPs
  | cons e es ih =>
    rw [List.flatMap_cons, always_append, meets_cons, hP s e hs hPs]
    refine and_congr_right fun hD => ih (hI s e hs) ?_
    exact ((hP s e hs hPs).mpr hD).last

/-! ## Sums along a run -/

variable (step) in
/-- What the steps of a history add up to, when a step adds `w` of the state before it and of the
command. -/
def sumAlong (w : σ → ο → ℕ) : σ → List ο → ℕ
  | _, [] => 0
  | s, o :: os => w s o + sumAlong w (step s o) os

@[simp] theorem sumAlong_nil (w : σ → ο → ℕ) (s : σ) : sumAlong step w s [] = 0 := rfl

@[simp] theorem sumAlong_cons (w : σ → ο → ℕ) (s : σ) (o : ο) (os : List ο) :
    sumAlong step w s (o :: os) = w s o + sumAlong step w (step s o) os := rfl

theorem sumAlong_append (w : σ → ο → ℕ) (s : σ) (os os' : List ο) :
    sumAlong step w s (os ++ os') = sumAlong step w s os + sumAlong step w (run step s os) os' := by
  induction os generalizing s with
  | nil => simp
  | cons o os ih => rw [List.cons_append, sumAlong_cons, ih, sumAlong_cons, run_cons, Nat.add_assoc]

/-- **A budget.**  Every conforming step pays what it adds out of `μ`, so a run adds no more than `μ`
was at its beginning. -/
theorem sumAlong_add_le {w : σ → ο → ℕ} {μ : σ → ℕ} (hI : ∀ s o, I s → C s o → I (step s o))
    (hμ : ∀ s o, I s → C s o → w s o + μ (step s o) ≤ μ s) {s : σ} {os : List ο} (hs : I s)
    (h : Meets step C s os) : sumAlong step w s os + μ (run step s os) ≤ μ s := by
  induction os generalizing s with
  | nil => exact Nat.le_of_eq (Nat.zero_add _)
  | cons o os ih =>
    have hstep := hμ s o hs h.1
    have hrest := ih (hI s o hs h.1) h.2
    rw [sumAlong_cons, run_cons]
    omega

variable (step) in
/-- How many steps of a history meet `C`. -/
def occurrences (C : σ → ο → Prop) [∀ s o, Decidable (C s o)] (s : σ) (os : List ο) : ℕ :=
  sumAlong step (fun s o => if C s o then 1 else 0) s os

@[simp] theorem occurrences_nil (C : σ → ο → Prop) [∀ s o, Decidable (C s o)] (s : σ) :
    occurrences step C s [] = 0 := rfl

theorem occurrences_append (C : σ → ο → Prop) [∀ s o, Decidable (C s o)] (s : σ)
    (os os' : List ο) : occurrences step C s (os ++ os') =
      occurrences step C s os + occurrences step C (run step s os) os' :=
  sumAlong_append _ s os os'

theorem occurrences_singleton (C : σ → ο → Prop) [∀ s o, Decidable (C s o)] (s : σ) (o : ο) :
    occurrences step C s [o] = if C s o then 1 else 0 := rfl

/-! ## Lists along a run -/

section collect

variable {α : Type*}

variable (step) in
/-- The elements that the steps of a history contribute, one after the other. -/
def collect (f : σ → ο → List α) : σ → List ο → List α
  | _, [] => []
  | s, o :: os => f s o ++ collect f (step s o) os

@[simp] theorem collect_nil (f : σ → ο → List α) (s : σ) : collect step f s [] = [] := rfl

@[simp] theorem collect_cons (f : σ → ο → List α) (s : σ) (o : ο) (os : List ο) :
    collect step f s (o :: os) = f s o ++ collect step f (step s o) os := rfl

theorem collect_append (f : σ → ο → List α) (s : σ) (os os' : List ο) :
    collect step f s (os ++ os') = collect step f s os ++ collect step f (run step s os) os' := by
  induction os generalizing s with
  | nil => rfl
  | cons o os ih => simp [ih]

theorem length_collect (f : σ → ο → List α) (s : σ) (os : List ο) :
    (collect step f s os).length = sumAlong step (fun s o => (f s o).length) s os := by
  induction os generalizing s with
  | nil => rfl
  | cons o os ih => rw [collect_cons, sumAlong_cons, List.length_append, ih]

/-- **The invariant rule with a log.**  `I` relates the state to what the steps have contributed. -/
theorem invariant_collect {f : σ → ο → List α} {J : σ → List α → Prop}
    (hJ : ∀ s o l, J s l → C s o → J (step s o) (l ++ f s o)) {s : σ} {l : List α} {os : List ο}
    (hs : J s l) (h : Meets step C s os) : J (run step s os) (l ++ collect step f s os) := by
  induction os generalizing s l with
  | nil =>
    rw [collect_nil, List.append_nil]
    exact hs
  | cons o os ih =>
    rw [collect_cons, run_cons, ← List.append_assoc]
    exact ih (hJ s o l hs h.1) h.2

/-- **A queue.**  Each step takes what it puts out from the front of the queue and adds what it takes
in at the back.  Then over a run nothing is lost, doubled or reordered. -/
theorem queue_of_meets {queue : σ → List α} {taken given : σ → ο → List α}
    (hI : ∀ s o, I s → C s o → I (step s o))
    (hqueue : ∀ s o, I s → C s o → queue s ++ taken s o = given s o ++ queue (step s o)) {s : σ}
    {os : List ο} (hs : I s) (h : Meets step C s os) :
    queue s ++ collect step taken s os = collect step given s os ++ queue (run step s os) := by
  induction os generalizing s with
  | nil => simp
  | cons o os ih =>
    rw [collect_cons, collect_cons, run_cons, ← List.append_assoc, hqueue s o hs h.1,
      List.append_assoc, ih (hI s o hs h.1) h.2, List.append_assoc]

end collect

/-! ## Triggers -/

/-- **A trigger.**  A run starts in `A`, the first command that meets `T` takes it to `B`, and there
it stays. -/
theorem run_of_trigger {A B : σ → Prop} {T : ο → Prop} (hA : ∀ s o, A s → ¬ T o → A (step s o))
    (hAB : ∀ s o, A s → T o → B (step s o)) (hB : ∀ s o, B s → B (step s o)) {s : σ} (hs : A s)
    (os : List ο) :
    ((∃ o ∈ os, T o) ∧ B (run step s os)) ∨ ((∀ o ∈ os, ¬ T o) ∧ A (run step s os)) := by
  induction os using List.reverseRecOn with
  | nil => exact Or.inr ⟨by simp, hs⟩
  | append_singleton os o ih =>
    rw [run_append, run_cons, run_nil]
    rcases ih with ⟨⟨o', ho', hT⟩, h⟩ | ⟨hnone, h⟩
    · exact Or.inl ⟨⟨o', List.mem_append_left _ ho', hT⟩, hB _ o h⟩
    · by_cases hT : T o
      · exact Or.inl ⟨⟨o, by simp, hT⟩, hAB _ o h hT⟩
      · refine Or.inr ⟨fun o' ho' => ?_, hA _ o h hT⟩
        rcases List.mem_append.mp ho' with ho' | ho'
        · exact hnone o' ho'
        · rw [List.mem_singleton.mp ho']
          exact hT

end Runs
end CoreOS
