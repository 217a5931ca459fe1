import CoreOS.Kernel.File
import CoreOS.Lib.Runs
import Mathlib.Data.List.Range
import Mathlib.Logic.Function.Basic

/-!
# Processes

What `_syscall_execute`, `_syscall_halt`, `pit_isr` and `switch_term` do to the process table, the
terminals, the page tables and the TSS.

A process is known by its pid.  Its PCB lies at the top of its kernel stack, so the address of a PCB
is its pid too, and `get_cur_pcb`, which masks the stack pointer, is the process whose kernel stack
is in use.  The kernel stacks themselves are left out: returning to a process is making it the
running one.  So is what is on them: a tick that starts a shell saves a frame of its own on the stack of
the process it interrupts, inside `_syscall_execute`, and a later tick that comes back to this process
goes on there, with the rest of `pit_isr` and a `next_pid` that is not assigned.  Here it goes on with
the process.

`_syscall_execute` reads the file system before it changes anything.  Whether the file is there and
passes the format checks is a parameter, `loads`.
-/

namespace CoreOS
namespace Proc

/-! ## Constants -/

/-- `TERM_NUM`. -/
abbrev termNum : ℕ := 3

/-- `TASK_PAGE_INDEX`. -/
def taskPageIndex (c : ℕ) : ℕ := 2 + c

/-- `TASK_KSTACK_BOT`. -/
def taskKstackBot (c : ℕ) : ℕ := 0x800000 - 0x2000 * c

/-- `USER_PAGE_INDEX`. -/
def userPageIndex : ℕ := 0x8000000 >>> 22

/-- `VID_MEM_ADDR`. -/
def vidMemAddr : ℕ := 0xB8

/-- `BACKGROUND_1`. -/
def background1 : ℕ := 0xB9

/-! ## The state -/

/-- `PCB_t`, less the open files and the saved stack pointers.  `parent` is the address of another
PCB or `NULL`. -/
structure PCB where
  parent : Option ℕ
  signals : BitVec 8
  pid : ℕ
  termInd : Fin termNum
  mallocObjCount : ℕ
  signalHandlers : ℕ → Option (BitVec 32)

/-- The process table and what is switched with a process. -/
structure Table where
  /-- `pid_used` -/
  pidUsed : ℕ → Bool
  /-- `terms[t].cur_pid` -/
  curPid : Fin termNum → ℕ
  /-- The PCB at `TASK_KSTACK_TOP(p)`. -/
  pcbs : ℕ → PCB
  /-- `page_directory[USER_PAGE_INDEX].page_PDE.page_addr` -/
  userPage : ℕ
  /-- `user_vidmem_page_table[0].page_addr` -/
  vidmemPage : ℕ
  /-- `tss.esp0` -/
  esp0 : ℕ
  /-- The PCB `get_cur_pcb` finds. -/
  cur : ℕ
  /-- `cur_proc_ind` of `pit_isr` -/
  curProcInd : Fin termNum
  /-- `cur_term_ind`, the terminal on display -/
  curTermInd : Fin termNum

/-- The state after `init_page` and `init_term`: the kernel runs on the stack of pid 0 and no
process exists.  The PCBs are whatever the memory holds. -/
def boot (pcbs : ℕ → PCB) (esp0 : ℕ) : Table where
  pidUsed := fun _ => false
  curPid := fun _ => 0
  pcbs := pcbs
  userPage := userPageIndex
  vidmemPage := vidMemAddr
  esp0 := esp0
  cur := 0
  curProcInd := 0
  curTermInd := 0

namespace Table

/-! ## Starting and ending a process -/

/-- The search for a pid in `_syscall_execute`. -/
def freePid (s : Table) : Option ℕ := (List.range' 1 (maxProcNum - 1)).find? fun p => !s.pidUsed p

/-- `_syscall_execute` once the checks have passed, with the pid it has found.  `termInd` is the
argument `term_ind`, `none` for -1. -/
def launch (s : Table) (pid : ℕ) (termInd : Option (Fin termNum)) : Table :=
  let t := termInd.getD (s.pcbs s.cur).termInd
  { s with
    pidUsed := Function.update s.pidUsed pid true
    curPid := Function.update s.curPid t pid
    pcbs := Function.update s.pcbs pid
      { parent := if s.cur ≠ 0 ∧ termInd = none then some s.cur else none
        signals := 0
        pid := pid
        termInd := t
        mallocObjCount := 1
        signalHandlers := fun _ => none }
    userPage := taskPageIndex pid
    esp0 := taskKstackBot pid
    cur := pid }

/-- `_syscall_execute`: `none` when it returns -1, and otherwise the state in which the new process
starts. -/
def execute (s : Table) (termInd : Option (Fin termNum)) (loads : Bool) : Option Table :=
  match s.freePid with
  | none => none
  | some pid => if loads then some (s.launch pid termInd) else none

/-- `_syscall_halt`.  A process without a parent starts over instead. -/
def halt (s : Table) : Table :=
  match (s.pcbs s.cur).parent with
  | none => s
  | some parent =>
    let ppid := (s.pcbs parent).pid
    { s with
      userPage := taskPageIndex ppid
      esp0 := taskKstackBot ppid
      pidUsed := Function.update s.pidUsed (s.pcbs s.cur).pid false
      curPid := Function.update s.curPid (s.pcbs s.cur).termInd ppid
      cur := parent }

/-! ## The scheduler and the display -/

/-- The part of `pit_isr` after `next_pid` is known. -/
def switchTo (s : Table) (nextPid : ℕ) : Table :=
  if (s.pcbs s.cur).pid = nextPid then s
  else
    { s with
      userPage := taskPageIndex nextPid
      vidmemPage :=
        if (s.pcbs nextPid).termInd ≠ s.curTermInd then background1 + (s.pcbs nextPid).termInd
        else vidMemAddr
      esp0 := taskKstackBot nextPid
      cur := nextPid }

/-- `pit_isr`.  `cur_proc_ind` goes round the terminals.  When `_syscall_execute` returns -1,
`next_pid` is never assigned and has whatever value `nextPid` the stack holds. -/
def pitIsr (s : Table) (loads : Bool) (nextPid : ℕ) : Table :=
  let s := { s with curProcInd := s.curProcInd + 1 }
  if s.curPid s.curProcInd = 0 then
    match s.execute (some s.curProcInd) loads with
    | none => s.switchTo nextPid
    | some s' => s'
  else s.switchTo (s.curPid s.curProcInd)

/-- What `switch_term` does to the terminal on display. -/
def switchTerm (s : Table) (ind : Fin termNum) : Table := { s with curTermInd := ind }

/-! ## The branches, from outside -/

/-- The process that `_syscall_execute` starts. -/
def starts (s : Table) (loads : Bool) : Option ℕ := if loads then s.freePid else none

theorem starts_eq_some {s : Table} {loads : Bool} {pid : ℕ} :
    s.starts loads = some pid ↔ loads = true ∧ s.freePid = some pid := by
  unfold starts
  cases loads with
  | false => simp
  | true => simp

theorem execute_eq (s : Table) (termInd : Option (Fin termNum)) (loads : Bool) :
    s.execute termInd loads = (s.starts loads).map fun pid => s.launch pid termInd := by
  unfold execute starts
  cases s.freePid with
  | none => cases loads <;> rfl
  | some pid => cases loads <;> rfl

theorem pitIsr_eq (s : Table) (loads : Bool) (nextPid : ℕ) :
    let s' : Table := { s with curProcInd := s.curProcInd + 1 }
    s.pitIsr loads nextPid =
      if s.curPid (s.curProcInd + 1) = 0 then
        match s.starts loads with
        | none => s'.switchTo nextPid
        | some pid => s'.launch pid (some (s.curProcInd + 1))
      else s'.switchTo (s.curPid (s.curProcInd + 1)) := by
  intro s'
  have hstarts : s'.starts loads = s.starts loads := rfl
  unfold pitIsr
  dsimp only
  rw [execute_eq, hstarts]
  cases s.starts loads with
  | none => rfl
  | some pid => rfl

end Table

/-! ## Runs -/

/-- One event: a timer interrupt, a terminal switch, or a call of the running process. -/
inductive Event where
  | tick (loads : Bool) (nextPid : ℕ)
  | switchTerm (ind : Fin termNum)
  | execute (loads : Bool)
  | halt
  deriving DecidableEq

/-- The state after an event.  A failed `execute` changes nothing. -/
def step (s : Table) : Event → Table
  | .tick loads nextPid => s.pitIsr loads nextPid
  | .switchTerm ind => s.switchTerm ind
  | .execute loads => (s.execute none loads).getD s
  | .halt => s.halt

end Proc
end CoreOS
