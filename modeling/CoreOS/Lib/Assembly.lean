import Mathlib.Computability.StateTransition
import Mathlib.Tactic.Common

/-!
# Code with labels

A piece of assembly code is a list of lines: labels, instructions, and jumps to labels under a
condition.  What the instructions do and what the conditions look at is a parameter (`Machine`).

A configuration is the rest of the code, from the next line on, and the state of the machine; a jump
goes on behind its label in the whole code.  So a piece of code is run through without counting lines:
instructions in a row (`reaches_ops`), a jump that is taken or not (`reaches_jump`), and a loop, of
which it is enough to know what one round does (`reaches_loop`).
-/

namespace CoreOS
namespace Assembly

open StateTransition

/-- A line of code, with instructions `ι`, conditions `κ` and labels `ν`. -/
inductive Line (ι κ ν : Type*) where
  | label (l : ν)
  | op (i : ι)
  | jump (c : κ) (l : ν)

/-- What instructions do to a state and what conditions say of it. -/
structure Machine (ι κ σ : Type*) where
  exec : ι → σ → σ
  holds : κ → σ → Bool

variable {ι κ ν σ : Type*} [DecidableEq ν] (M : Machine ι κ σ)

/-- The code behind a label. -/
def target (l : ν) : List (Line ι κ ν) → List (Line ι κ ν)
  | [] => []
  | .label l' :: rest => if l' = l then rest else target l rest
  | .op _ :: rest => target l rest
  | .jump _ _ :: rest => target l rest

/-- One line. -/
def step (code : List (Line ι κ ν)) :
    List (Line ι κ ν) × σ → Option (List (Line ι κ ν) × σ)
  | ([], _) => none
  | (.label _ :: rest, s) => some (rest, s)
  | (.op i :: rest, s) => some (rest, M.exec i s)
  | (.jump c l :: rest, s) => some (if M.holds c s then target l code else rest, s)

/-- The state at the end of the code, if it ends. -/
def result (code : List (Line ι κ ν)) (s : σ) : Part σ :=
  (eval (step M code) (code, s)).map Prod.snd

/-- Instructions in a row. -/
def execAll (ops : List ι) (s : σ) : σ := ops.foldl (fun s i => M.exec i s) s

@[simp] theorem execAll_nil (s : σ) : execAll M [] s = s := rfl

@[simp] theorem execAll_cons (i : ι) (ops : List ι) (s : σ) :
    execAll M (i :: ops) s = execAll M ops (M.exec i s) := rfl

theorem target_map_op_append (l : ν) (ops : List ι) (rest : List (Line ι κ ν)) :
    target l (ops.map .op ++ rest) = target l rest := by
  induction ops with
  | nil => rfl
  | cons i ops ih => exact ih

variable {M} {code rest rest' : List (Line ι κ ν)} {s s' : σ}

/-- **The end of the code.** -/
theorem mem_result (h : Reaches (step M code) (code, s) ([], s')) : s' ∈ result M code s :=
  (Part.mem_map_iff _).mpr ⟨([], s'), mem_eval.mpr ⟨h, rfl⟩, rfl⟩

/-! ## The rules -/

variable {c : List (Line ι κ ν) × σ}

theorem reaches_label {l : ν} (h : Reaches (step M code) (rest, s) c) :
    Reaches (step M code) (.label l :: rest, s) c :=
  Relation.ReflTransGen.head (b := (rest, s)) (Option.mem_some_self _) h

theorem reaches_op {i : ι} (h : Reaches (step M code) (rest, M.exec i s) c) :
    Reaches (step M code) (.op i :: rest, s) c :=
  Relation.ReflTransGen.head (b := (rest, M.exec i s)) (Option.mem_some_self _) h

theorem reaches_ops (ops : List ι) (h : Reaches (step M code) (rest, execAll M ops s) c) :
    Reaches (step M code) (ops.map .op ++ rest, s) c := by
  induction ops generalizing s with
  | nil => exact h
  | cons i ops ih => exact reaches_op (ih h)

theorem reaches_jump {b : κ} {l : ν}
    (h : Reaches (step M code) (if M.holds b s then target l code else rest, s) c) :
    Reaches (step M code) (.jump b l :: rest, s) c :=
  Relation.ReflTransGen.head (Option.mem_some_self _) h

theorem reaches_jump_of_holds {b : κ} {l : ν} (hb : M.holds b s = true)
    (h : Reaches (step M code) (target l code, s) c) :
    Reaches (step M code) (.jump b l :: rest, s) c :=
  reaches_jump (by rwa [if_pos hb])

theorem reaches_jump_of_not {b : κ} {l : ν} (hb : M.holds b s = false)
    (h : Reaches (step M code) (rest, s) c) :
    Reaches (step M code) (.jump b l :: rest, s) c :=
  reaches_jump (by rwa [if_neg (Bool.not_eq_true _ ▸ hb)])

/-- **The loop rule.**  From its head the loop is left with `Q`, or a round leads back to the head and
makes the measure smaller. -/
theorem reaches_loop {I : ℕ → σ → Prop} {Q : σ → Prop} {exit : List (Line ι κ ν)}
    (hround : ∀ n s, I n s → (∃ s', Reaches (step M code) (rest, s) (exit, s') ∧ Q s') ∨
      ∃ m < n, ∃ s', Reaches (step M code) (rest, s) (rest, s') ∧ I m s') {n : ℕ} (h : I n s) :
    ∃ s', Reaches (step M code) (rest, s) (exit, s') ∧ Q s' := by
  induction n using Nat.strongRecOn generalizing s with
  | ind n ih =>
    rcases hround n s h with hexit | ⟨m, hm, t, ht, hI⟩
    · exact hexit
    · obtain ⟨s', hs', hQ⟩ := ih m hm hI
      exact ⟨s', ht.trans hs', hQ⟩

end Assembly
end CoreOS
