import CoreOS.Lib.Runs

/-!
# Programs that run in a system

A program makes calls, one after the other, and goes on with their answers.  It runs in a system that
takes steps of its own: most of them have nothing to do with the program, and some are the answer to
its call.  `Obeys` says that no call is answered that the program has not made.

* `invariant`: a property of the system, of the program and of what has come out so far, which both
  kinds of steps keep, holds at the end of every run.
* `calls_le`: where every call makes a measure smaller, a program makes no more calls than it says.
* `ends`: where moreover every call can be answered, there is a run in which the program ends.

Nothing here knows what the calls are or what the system is.
-/

namespace CoreOS

/-- A program with states `π`, whose calls are of type `κ` and are answered with a `ρ`. -/
structure Program (κ ρ π : Type*) where
  /-- The call that is made next; none once the program has ended. -/
  call : π → Option κ
  /-- The state after the call has been answered. -/
  resume : π → ρ → π

namespace Program

open Runs

variable {κ ρ π σ ο α : Type*} (P : Program κ ρ π) (step : σ → ο → σ)
  (made : σ → ο → Option (κ × ρ))

/-- The state of the program after a step of the system that answers the call `made`, if any. -/
def after (p : π) : Option (κ × ρ) → π
  | none => p
  | some (_, r) => P.resume p r

/-- One step of the system and of the program in it. -/
def jointStep (x : σ × π) (o : ο) : σ × π := (step x.1 o, P.after x.2 (made x.1 o))

/-- What is answered is a call of the program. -/
def Obeys (x : σ × π) (o : ο) : Prop := ∀ c r, made x.1 o = some (c, r) → P.call x.2 = some c

variable {P step made} {C : σ → ο → Prop}

/-- **The invariant rule.**  `I` relates the system, the program and what the steps have put out. -/
theorem invariant {out : σ → ο → List α} {I : σ → π → List α → Prop}
    (hother : ∀ s p l o, I s p l → C s o → made s o = none → I (step s o) p (l ++ out s o))
    (hcall : ∀ s p l o c r, I s p l → C s o → made s o = some (c, r) → P.call p = some c →
      I (step s o) (P.resume p r) (l ++ out s o)) {x : σ × π} {l : List α} {os : List ο}
    (hx : I x.1 x.2 l)
    (h : Meets (P.jointStep step made) (fun x o => C x.1 o ∧ P.Obeys made x o) x os) :
    I (run (P.jointStep step made) x os).1 (run (P.jointStep step made) x os).2
      (l ++ collect (P.jointStep step made) (fun x o => out x.1 o) x os) := by
  refine invariant_collect (J := fun x l => I x.1 x.2 l) (fun x o l hI hx => ?_) hx h
  unfold jointStep
  cases hmade : made x.1 o with
  | none => exact hother _ _ _ _ hI hx.1 hmade
  | some cr => exact hcall _ _ _ _ _ _ hI hx.1 hmade (hx.2 _ _ hmade)

/-- **The number of calls.**  Every call that is answered makes the measure smaller, and no other step
makes it larger. -/
theorem calls_le {I : σ → π → Prop} {μ : σ → π → ℕ}
    (hother : ∀ s p o, I s p → C s o → made s o = none → I (step s o) p ∧ μ (step s o) p ≤ μ s p)
    (hcall : ∀ s p o c r, I s p → C s o → made s o = some (c, r) → P.call p = some c →
      I (step s o) (P.resume p r) ∧ μ (step s o) (P.resume p r) < μ s p) {x : σ × π} {os : List ο}
    (hx : I x.1 x.2)
    (h : Meets (P.jointStep step made) (fun x o => C x.1 o ∧ P.Obeys made x o) x os) :
    occurrences (P.jointStep step made) (fun x o => (made x.1 o).isSome) x os +
      μ (run (P.jointStep step made) x os).1 (run (P.jointStep step made) x os).2 ≤ μ x.1 x.2 := by
  have hstep : ∀ (x : σ × π) (o : ο), I x.1 x.2 → C x.1 o ∧ P.Obeys made x o →
      I (P.jointStep step made x o).1 (P.jointStep step made x o).2 ∧
        (if (made x.1 o).isSome then 1 else 0) +
          μ (P.jointStep step made x o).1 (P.jointStep step made x o).2 ≤ μ x.1 x.2 := by
    rintro x o hI ⟨hC, hobeys⟩
    unfold jointStep
    cases hmade : made x.1 o with
    | none =>
      obtain ⟨hI', hμ⟩ := hother _ _ _ hI hC hmade
      exact ⟨hI', (Nat.zero_add _).symm ▸ hμ⟩
    | some cr =>
      obtain ⟨hI', hμ⟩ := hcall _ _ _ _ _ hI hC hmade (hobeys _ _ hmade)
      exact ⟨hI', (Nat.add_comm 1 _).symm ▸ hμ⟩
  exact sumAlong_add_le (I := fun x : σ × π => I x.1 x.2) (μ := fun x => μ x.1 x.2)
    (fun x o hI hC => (hstep x o hI hC).1) (fun x o hI hC => (hstep x o hI hC).2) hx h

/-- **A program that is answered ends.**  Where every call can be answered, and the answer makes the
measure smaller, some run takes the program to its end. -/
theorem ends {I : σ → π → Prop} {μ : σ → π → ℕ}
    (hanswer : ∀ s p c, I s p → P.call p = some c → ∃ o r, C s o ∧ made s o = some (c, r) ∧
      I (step s o) (P.resume p r) ∧ μ (step s o) (P.resume p r) < μ s p) {s : σ} {p : π}
    (h : I s p) : ∃ os, Meets (P.jointStep step made) (fun x o => C x.1 o ∧ P.Obeys made x o) (s, p) os ∧
      P.call (run (P.jointStep step made) (s, p) os).2 = none := by
  induction hn : μ s p using Nat.strongRecOn generalizing s p with
  | ind n ih =>
    cases hcall : P.call p with
    | none => exact ⟨[], trivial, hcall⟩
    | some c =>
      obtain ⟨o, r, hC, hmade, hI, hμ⟩ := hanswer s p c h hcall
      have hnext : P.jointStep step made (s, p) o = (step s o, P.resume p r) := by
        simp only [jointStep, hmade, after]
      obtain ⟨os, hmeets, hend⟩ := ih _ (hn ▸ hμ) hI rfl
      refine ⟨o :: os, ⟨⟨hC, fun c' r' hmade' => ?_⟩, hnext.symm ▸ hmeets⟩, ?_⟩
      · cases hmade.symm.trans hmade'
        exact hcall
      · rw [run_cons, hnext]
        exact hend

end Program
end CoreOS
