import CoreOS.Proc.Chains
import Mathlib.Data.BitVec

/-!
# What the scheduler switches to

`pit_isr` takes the next terminal and switches to its process, and if it has none it starts a shell
there first.  `next_pid` is assigned in one of the two branches only.  In the other one
`_syscall_execute` is called, which is not meant to return: the shell it starts runs in place of what
called it.

It returns all the same.  It returns -1 if there is no pid left or no shell to load.  And it saves the
frame it was called in, in the PCB of the interrupted process, where the scheduler looks for the frame
to go on with; when that process has its turn again, the call returns into the old `pit_isr`.  In both
cases `next_pid` is what the stack happens to hold.  `switchesToLive_iff` says exactly when nothing
comes of it.
-/

namespace CoreOS
namespace Proc

open Runs Table

/-- How a call of `_syscall_execute` in `pit_isr` goes. -/
structure Nested where
  /-- The shell is there and passes the checks. -/
  loads : Bool
  /-- The state in which the frame the call has saved is resumed, if it ever is. -/
  resumed : Option Table

namespace Table

/-- The call of `_syscall_execute` in `pit_isr`: the state in which it returns, if it does.  When a
saved frame is resumed it runs on the kernel stack of the process that was interrupted. -/
def spawn (s : Table) (termInd : Fin termNum) (call : Nested) : Option Table :=
  match s.execute (some termInd) call.loads with
  | none => some s
  | some _ => call.resumed.map fun s' => { s' with cur := s.cur }

/-- `pit_isr` up to the comparison of the pids: the state then, and `next_pid`, which is `leftover` if
it has not been assigned. -/
def nextProc (s : Table) (call : Nested) (leftover : BitVec 8) : Option (Table × ℕ) :=
  let s := { s with curProcInd := s.curProcInd + 1 }
  if s.curPid s.curProcInd = 0 then
    (s.spawn s.curProcInd call).map fun s' => (s', leftover.toNat)
  else some (s, s.curPid s.curProcInd)

/-- `pit_isr` to its end, or to the start of the shell if the call does not return. -/
def pitIsrNested (s : Table) (call : Nested) (leftover : BitVec 8) : Table :=
  match s.nextProc call leftover with
  | some (s', nextPid) => s'.switchTo nextPid
  | none =>
    let s := { s with curProcInd := s.curProcInd + 1 }
    (s.execute (some s.curProcInd) call.loads).getD s

/-- `pit_isr` installs the mapping and the stack of process `p`, in state `s'`. -/
structure Installs (s : Table) (call : Nested) (leftover : BitVec 8) (s' : Table) (p : ℕ) :
    Prop where
  next : s.nextProc call leftover = some (s', p)
  other : (s'.pcbs s'.cur).pid ≠ p

end Table

/-- **The scheduler switches to a live process of the next terminal**, if it switches. -/
def SwitchesToLive (s : Table) (call : Nested) (leftover : BitVec 8) : Prop :=
  ∀ s' p, s.Installs call leftover s' p →
    p = s'.curPid (s.curProcInd + 1) ∧ p ≠ 0 ∧ s'.pidUsed p = true

/-- Either the next terminal has a process, which is in use or runs already; or it has none, and what
is left on the stack does no harm: if the call fails it has to be the pid of the running process, and
if the call is resumed it may also be, by chance, that of the process the terminal has by then. -/
def Harmless (s : Table) (call : Nested) (leftover : BitVec 8) : Prop :=
  if s.curPid (s.curProcInd + 1) ≠ 0 then
    (s.pcbs s.cur).pid = s.curPid (s.curProcInd + 1) ∨
      s.pidUsed (s.curPid (s.curProcInd + 1)) = true
  else if s.starts call.loads = none then (s.pcbs s.cur).pid = leftover.toNat
  else ∀ s', call.resumed = some s' → (s'.pcbs s.cur).pid = leftover.toNat ∨
    leftover ≠ 0 ∧ leftover.toNat = s'.curPid (s.curProcInd + 1) ∧ s'.pidUsed leftover.toNat = true

section nested

variable {s : Table} {call : Nested} {leftover : BitVec 8}

/-- What the scheduler installs is mapped, and the process runs. -/
theorem Table.Installs.pitIsrNested_eq {s' : Table} {p : ℕ} (h : s.Installs call leftover s' p) :
    (s.pitIsrNested call leftover).userPage = taskPageIndex p ∧
      (s.pitIsrNested call leftover).esp0 = taskKstackBot p ∧
      (s.pitIsrNested call leftover).cur = p := by
  rw [pitIsrNested, h.next]
  dsimp only
  rw [switchTo, if_neg h.other]
  exact ⟨rfl, rfl, rfl⟩

/-- The call, by whether a shell can be started. -/
theorem Table.spawn_eq (s : Table) (termInd : Fin termNum) (call : Nested) :
    s.spawn termInd call = if s.starts call.loads = none then some s
      else call.resumed.map fun s' => { s' with cur := s.cur } := by
  rw [spawn, execute_eq]
  cases s.starts call.loads with
  | none => rfl
  | some p => rfl

/-- **`pit_isr` in a run** is the case in which the frame has not been resumed. -/
theorem Table.pitIsr_eq_nested (s : Table) (loads : Bool) (leftover : BitVec 8) :
    s.pitIsr loads leftover.toNat = s.pitIsrNested ⟨loads, none⟩ leftover := by
  have hstarts : ({ s with curProcInd := s.curProcInd + 1 } : Table).starts loads =
    s.starts loads := rfl
  rw [pitIsr_eq, pitIsrNested, nextProc]
  dsimp only
  by_cases hc : s.curPid (s.curProcInd + 1) = 0
  · rw [if_pos hc, if_pos hc, spawn_eq, execute_eq, hstarts]
    cases s.starts loads with
    | none => rfl
    | some p => rfl
  · rw [if_neg hc, if_neg hc]

/-! The three ways to `next_pid`. -/

theorem Table.nextProc_of_process (hc : s.curPid (s.curProcInd + 1) ≠ 0) :
    s.nextProc call leftover =
      some ({ s with curProcInd := s.curProcInd + 1 }, s.curPid (s.curProcInd + 1)) :=
  if_neg hc

theorem Table.nextProc_of_fails (hc : s.curPid (s.curProcInd + 1) = 0)
    (hstarts : s.starts call.loads = none) :
    s.nextProc call leftover = some ({ s with curProcInd := s.curProcInd + 1 }, leftover.toNat) := by
  rw [nextProc]
  dsimp only
  rw [if_pos hc, spawn_eq]
  exact congrArg (Option.map _) (if_pos hstarts)

theorem Table.nextProc_of_starts (hc : s.curPid (s.curProcInd + 1) = 0)
    (hstarts : s.starts call.loads ≠ none) :
    s.nextProc call leftover =
      call.resumed.map fun s' => ({ s' with cur := s.cur }, leftover.toNat) := by
  rw [nextProc]
  dsimp only
  rw [if_pos hc, spawn_eq]
  refine (congrArg (Option.map _) (if_neg hstarts)).trans ?_
  rw [Option.map_map]
  rfl

theorem Harmless.switchesToLive (h : Harmless s call leftover) : SwitchesToLive s call leftover := by
  rintro s' p ⟨hsome, hne⟩
  unfold Harmless at h
  split_ifs at h with hc hstarts
  · rw [nextProc_of_process hc] at hsome
    obtain ⟨rfl, rfl⟩ := Prod.mk.inj (Option.some.inj hsome)
    rcases h with hsame | hused
    · exact absurd hsame hne
    · exact ⟨rfl, hc, hused⟩
  · rw [nextProc_of_fails (not_not.mp hc) hstarts] at hsome
    obtain ⟨rfl, rfl⟩ := Prod.mk.inj (Option.some.inj hsome)
    exact absurd h hne
  · rw [nextProc_of_starts (not_not.mp hc) hstarts] at hsome
    obtain ⟨s₁, hs₁, heq⟩ := Option.map_eq_some_iff.mp hsome
    obtain ⟨rfl, rfl⟩ := Prod.mk.inj heq
    rcases h s₁ hs₁ with hsame | ⟨hne0, hterm, hused⟩
    · exact absurd hsame hne
    · exact ⟨hterm, fun h0 => hne0 (BitVec.eq_of_toNat_eq h0), hused⟩

theorem harmless_of_switchesToLive (h : SwitchesToLive s call leftover) :
    Harmless s call leftover := by
  unfold Harmless
  split_ifs with hc hstarts
  · by_cases heq : (s.pcbs s.cur).pid = s.curPid (s.curProcInd + 1)
    · exact Or.inl heq
    · exact Or.inr (h _ _ ⟨nextProc_of_process hc, heq⟩).2.2
  · -- the terminal still has no process, so nothing can be right but not to switch
    have hc0 : s.curPid (s.curProcInd + 1) = 0 := not_not.mp hc
    by_contra hne
    obtain ⟨heq, hne0, -⟩ := h _ _ ⟨nextProc_of_fails hc0 hstarts, hne⟩
    exact hne0 (heq.trans hc0)
  · intro s' hs'
    by_cases heq : (s'.pcbs s.cur).pid = leftover.toNat
    · exact Or.inl heq
    · have hsome : s.nextProc call leftover = some ({ s' with cur := s.cur }, leftover.toNat) := by
        rw [nextProc_of_starts (not_not.mp hc) hstarts, hs']
        rfl
      obtain ⟨hterm, hne0, hused⟩ := h _ _ ⟨hsome, heq⟩
      refine Or.inr ⟨?_, hterm, hused⟩
      rintro rfl
      exact hne0 rfl

/-- **What the scheduler switches to.**  It switches only to a live process of the next terminal if and
only if the terminal has one, or has none and what is left on the stack does no harm. -/
theorem switchesToLive_iff (s : Table) (call : Nested) (leftover : BitVec 8) :
    SwitchesToLive s call leftover ↔ Harmless s call leftover :=
  ⟨harmless_of_switchesToLive, Harmless.switchesToLive⟩

end nested

/-- A table in which the frame of a nested call is resumed: shells have been started on all three
terminals, each from an interrupt of the one before, and the first of them has its turn again.  With
nothing left on the stack but a zero, the scheduler installs the mapping and the stack of pid 0. -/
theorem not_switchesToLive :
    let pcb : PCB := ⟨none, 0, 0, 0, 0, fun _ => none⟩
    let start := boot (fun _ => pcb) 0
    let ticks := fun n => List.replicate n (Event.tick true 0)
    ¬ SwitchesToLive (run step start (ticks 1)) ⟨true, some (run step start (ticks 4))⟩ 0 := by
  intro pcb start ticks h
  obtain ⟨-, hne0, -⟩ := h _ 0 ⟨rfl, by decide⟩
  exact hne0 rfl

/-! ## Runs -/

/-- **As long as every call starts a shell and is not resumed**, the scheduler switches only to live
processes, at every interrupt of every run from boot. -/
theorem meets_switchesToLive (pcbs : ℕ → PCB) (esp0 : ℕ) (es : List Event)
    (h : Meets step Proper (boot pcbs esp0) es) :
    Meets step (fun s e => ∀ loads nextPid, e = .tick loads nextPid →
      ∀ leftover, SwitchesToLive s ⟨loads, none⟩ leftover) (boot pcbs esp0) es := by
  refine h.imp (I := fun s => ∃ stk, Stacked s stk) (fun s e ⟨_, hs⟩ he => stacked_step hs e he) ?_
    ⟨_, stacked_boot pcbs esp0⟩
  rintro s e ⟨stk, hs⟩ he loads nextPid rfl leftover
  refine Harmless.switchesToLive ?_
  rw [Harmless]
  split_ifs with hc hstarts
  · rcases hs.tableOk.cur_valid (s.curProcInd + 1) with h0 | ⟨-, -, hused⟩
    · exact absurd h0 hc
    · exact Or.inr hused
  · obtain ⟨hsome, rfl⟩ := he (not_not.mp hc)
    rw [starts, if_pos rfl] at hstarts
    rw [hstarts] at hsome
    exact absurd hsome Bool.noConfusion
  · intro s' hs'
    cases hs'

end Proc
end CoreOS
