import CoreOS.Lib.Runs
import Mathlib.Logic.Function.Basic

/-!
# Components that take turns

A machine with several components, on which every command acts on at most one of them.  Which one
it is may depend on a mode, such as the component that has the focus; commands can change the mode.
A `Router` is this mode and its rules.

In the machine in which nothing is shared, the state of a component after a history is what the
commands addressed to it do to it, one after the other: `run_act`.  For a machine in which the
components do share something it is then enough to find a relation to this one and to look at one
step, which is `run_simulates`.
-/

namespace CoreOS

/-- A mode of type `δ`, which says what component of `ι` a command of `ο` goes to. -/
structure Router (δ ο ι : Type*) where
  /-- The mode after a command. -/
  next : δ → ο → δ
  /-- The component a command goes to, if any. -/
  target : δ → ο → Option ι

namespace Router

variable {δ ο ι γ : Type*} [DecidableEq ι] (R : Router δ ο ι) (act : ο → γ → γ)

/-- The commands of a history that are addressed to component `i`, from mode `d` on. -/
def addressed (i : ι) : δ → List ο → List ο
  | _, [] => []
  | d, o :: os =>
    if R.target d o = some i then o :: addressed i (R.next d o) os
    else addressed i (R.next d o) os

/-- What commands do to a component that is alone. -/
def alone (c : γ) (os : List ο) : γ := os.foldl (fun c o => act o c) c

/-- The components after a command. -/
def deliver (d : δ) (v : ι → γ) (o : ο) : ι → γ :=
  match R.target d o with
  | none => v
  | some i => Function.update v i (act o (v i))

/-- One step of the machine in which nothing is shared. -/
def route (x : δ × (ι → γ)) (o : ο) : δ × (ι → γ) := (R.next x.1 o, R.deliver act x.1 x.2 o)

theorem deliver_apply (d : δ) (v : ι → γ) (o : ο) (i : ι) :
    R.deliver act d v o i = if R.target d o = some i then act o (v i) else v i := by
  rw [deliver]
  cases htarget : R.target d o with
  | none => simp
  | some j =>
    by_cases hij : j = i
    · subst hij
      simp
    · rw [if_neg (fun h => hij (Option.some.inj h))]
      exact Function.update_of_ne (Ne.symm hij) _ _

/-- **A component sees only what is addressed to it.** -/
theorem run_act (x : δ × (ι → γ)) (os : List ο) (i : ι) :
    (Runs.run (R.route act) x os).2 i = alone act (x.2 i) (R.addressed i x.1 os) := by
  induction os generalizing x with
  | nil => rfl
  | cons o os ih =>
    rw [Runs.run_cons, ih]
    show alone act (R.deliver act x.1 x.2 o i) (R.addressed i (R.next x.1 o) os) = _
    rw [deliver_apply, addressed]
    split
    · rfl
    · rfl

/-- **Simulation.**  A relation to the machine in which nothing is shared, kept by every conforming
step, is kept by every conforming history. -/
theorem run_simulates {σ : Type*} {step : σ → ο → σ} {C : σ → ο → Prop}
    (Rel : σ → δ × (ι → γ) → Prop)
    (hstep : ∀ s x o, Rel s x → C s o → Rel (step s o) (R.route act x o)) {s : σ}
    (x : δ × (ι → γ)) {os : List ο} (hRel : Rel s x) (h : Runs.Meets step C s os) :
    Rel (Runs.run step s os) (Runs.run (R.route act) x os) := by
  induction os generalizing s x with
  | nil => exact hRel
  | cons o os ih => exact ih _ (hstep s x o hRel h.1) h.2

end Router
end CoreOS
