import CoreOS.Heap.Malloc
import CoreOS.Rtc.Virtual
import CoreOS.Sys.Dispatch

/-!
# A program that starts over

When a process without a parent halts there is nothing to go back to, and `_syscall_halt` makes it
begin again: the entry point goes into the context, the end of the page into the stack pointer.  It
returns then.  What the other branch does before a process ends, and `_syscall_execute` before one
begins, is not done: the descriptors stay open, the clocks registered, the handlers installed and the
heap as it was.

The entry point comes from the header of the image, which lies in the memory of the program.
`_syscall_execute` has taken it from the file, and has not kept it.  So it is also up to the program where
it begins again.

The machine of this module has everything in it that the new program may find of the old one.  A
program gets into the kernel with a context and leaves it by `check_signals`, and both ways to halt
are among its events: the system call, and a signal that the program does not handle.  What the machine
has beyond the kernel is `entry`, where each program was entered.
`restartsClean_iff` says of every run when the programs in it that start over are entered there again
and find what a fresh `execute` would give them: when they have left nothing behind themselves, and
their headers alone.
-/

namespace CoreOS
namespace Signals
namespace Trap

/-! ## Signals without handlers -/

/-- The context of a program that begins again. -/
def restart (t : Trap) : HwContext :=
  { t.context with
    addr := t.mem.loadWord (taskImgStartAddr + elfEntryOffset)
    esp := taskVirtPageEnd }

/-- Whether the loop of `check_signals` comes to a call of `_syscall_halt`, over the signals that are
left. -/
def haltsFrom : List (Fin sigSize) → Trap → Bool
  | [], _ => false
  | i :: is, t =>
    if t.pcb.signals &&& sigFlag i = 0 then haltsFrom is t
    else if t.pcb.signalHandlers i ≠ 0 then false
    else if i.val < 3 then true
    else haltsFrom is (t.clearSignal i)

/-- Whether `check_signals` halts the program. -/
def halts (t : Trap) : Bool :=
  decide (t.pcb.signals ≠ 0 ∧ t.context.cs = userCs) && haltsFrom (List.finRange sigSize) t

/-- The signals after some of them have been cleared. -/
def cleared (is : List (Fin sigSize)) (signals : BitVec 8) : BitVec 8 :=
  is.foldl (fun s i => s &&& ~~~sigFlag i) signals

/-- The bits of `signals` that stand for no signal. -/
def stray : BitVec 8 := 0xE0

section

variable {linkage : Word} {t : Trap}

theorem halt_of_root (hroot : t.pcb.hasParent = false) : t.halt = { t with context := t.restart } := by
  rw [halt, hroot]
  rfl

/-- A signal that is not pending. -/
theorem and_not_of_and_eq_zero {s f : BitVec 8} (h : s &&& f = 0) : s &&& ~~~f = s := by
  calc s &&& ~~~f = (s &&& f) ||| (s &&& ~~~f) := by rw [h]; exact (BitVec.zero_or).symm
    _ = s &&& (f ||| ~~~f) := BitVec.and_or_distrib_left.symm
    _ = s := by rw [BitVec.or_not_self, BitVec.and_allOnes]

/-- All the signals at once. -/
theorem cleared_finRange (s : BitVec 8) : cleared (List.finRange sigSize) s = s &&& stray := by
  have hmask : ∀ s : BitVec 8, cleared (List.finRange sigSize) s =
      s &&& ~~~sigFlag 0 &&& ~~~sigFlag 1 &&& ~~~sigFlag 2 &&& ~~~sigFlag 3 &&& ~~~sigFlag 4 :=
    fun _ => rfl
  rw [hmask, BitVec.and_assoc, BitVec.and_assoc, BitVec.and_assoc, BitVec.and_assoc]
  rfl

/-- **Signals without handlers**: all of them are cleared, and one of the first three makes the program
begin again. -/
theorem checkFrom_unhandled (is : List (Fin sigSize)) (hroot : t.pcb.hasParent = false)
    (hlive : t.halted = false) (hnone : ∀ i, t.pcb.signalHandlers i = 0) :
    t.checkFrom linkage is =
      { t with
        context := if haltsFrom is t then t.restart else t.context
        pcb := { t.pcb with signals := cleared is t.pcb.signals } } := by
  induction is generalizing t with
  | nil => rfl
  | cons i is ih =>
    have hcleared : cleared (i :: is) t.pcb.signals = cleared is (t.clearSignal i).pcb.signals := rfl
    rw [checkFrom, haltsFrom]
    by_cases hpending : t.pcb.signals &&& sigFlag i = 0
    · have hsame : (t.clearSignal i).pcb.signals = t.pcb.signals := and_not_of_and_eq_zero hpending
      rw [if_pos hpending, if_pos hpending, ih hroot hlive hnone, hcleared, hsame]
    · have hnone' : (t.clearSignal i).pcb.signalHandlers i = 0 := hnone i
      rw [if_neg hpending, if_neg hpending, if_neg (not_not.mpr (hnone i))]
      dsimp only
      rw [if_neg (not_not.mpr hnone')]
      by_cases hi : i.val < 3
      · have hhalt : (t.clearSignal i).halt = { t.clearSignal i with context := t.restart } :=
          halt_of_root hroot
        have hlive' : ¬ (t.clearSignal i).halt.halted = true := by
          rw [hhalt]
          exact Bool.eq_false_iff.mp hlive
        rw [if_pos hi, if_pos hi, if_neg hlive', hhalt,
          ih (t := { t.clearSignal i with context := t.restart }) hroot hlive hnone, hcleared,
          if_pos rfl]
        dsimp only
        split <;> rfl
      · rw [if_neg hi, if_neg hi, ih (t := t.clearSignal i) hroot hlive hnone, hcleared]
        rfl

/-- **`check_signals` without handlers.** -/
theorem checkSignals_unhandled (linkage : Word) (hroot : t.pcb.hasParent = false) (hlive : t.halted = false)
    (hnone : ∀ i, t.pcb.signalHandlers i = 0) (hcs : t.context.cs = userCs) :
    t.checkSignals linkage =
      { t with
        context := if t.halts then t.restart else t.context
        pcb := { t.pcb with signals := t.pcb.signals &&& stray } } := by
  rw [checkSignals, halts]
  by_cases hzero : t.pcb.signals = 0
  · have hcond : ¬ (t.pcb.signals ≠ 0 ∧ t.context.cs = userCs) := fun h => h.1 hzero
    rw [if_pos hzero, decide_eq_false hcond, Bool.false_and, if_neg Bool.noConfusion, hzero,
      show (0 : BitVec 8) &&& stray = 0 from rfl, ← hzero]
  · rw [if_neg hzero, if_neg (not_not.mpr hcs), checkFrom_unhandled _ hroot hlive hnone,
      cleared_finRange, decide_eq_true ⟨hzero, hcs⟩, Bool.true_and]

/-- Clearing a signal leaves the stray bits alone. -/
theorem and_stray_clearSignal (t : Trap) (i : Fin sigSize) :
    (t.clearSignal i).pcb.signals &&& stray = t.pcb.signals &&& stray := by
  have hmask : ∀ i : Fin sigSize, ~~~sigFlag i &&& stray = stray := by decide
  show t.pcb.signals &&& ~~~sigFlag i &&& stray = _
  rw [BitVec.and_assoc, hmask]

/-- What `check_signals` leaves alone in a program without a parent, whatever it delivers. -/
structure Keeps (t t' : Trap) : Prop where
  halted : t'.halted = t.halted
  stray : t'.pcb.signals &&& stray = t.pcb.signals &&& stray

theorem keeps_checkFrom (is : List (Fin sigSize)) (hroot : t.pcb.hasParent = false)
    (hlive : t.halted = false) : Keeps t (t.checkFrom linkage is) := by
  induction is generalizing t with
  | nil => exact ⟨rfl, rfl⟩
  | cons i is ih =>
    have hstray := and_stray_clearSignal t i
    rw [checkFrom]
    split
    · exact ih hroot hlive
    · dsimp only
      split
      · exact ⟨rfl, hstray⟩
      · split
        · have hhalt : (t.clearSignal i).halt = { t.clearSignal i with context := t.restart } :=
            halt_of_root hroot
          have hlive' : ¬ (t.clearSignal i).halt.halted = true := by
            rw [hhalt]
            exact Bool.eq_false_iff.mp hlive
          rw [if_neg hlive', hhalt]
          obtain ⟨hhalted, hstray'⟩ :=
            ih (t := { t.clearSignal i with context := t.restart }) hroot hlive
          exact ⟨hhalted, hstray'.trans hstray⟩
        · obtain ⟨hhalted, hstray'⟩ := ih (t := t.clearSignal i) hroot hlive
          exact ⟨hhalted, hstray'.trans hstray⟩

theorem keeps_checkSignals (linkage : Word) (hroot : t.pcb.hasParent = false) (hlive : t.halted = false) :
    Keeps t (t.checkSignals linkage) := by
  rw [checkSignals]
  split
  · exact ⟨rfl, rfl⟩
  · split
    · exact ⟨rfl, rfl⟩
    · exact keeps_checkFrom _ hroot hlive

end

end Trap
end Signals

namespace Sys

open FileSys Signals Heap

/-! ## The machine -/

/-- The kernel, the programs, and the heap of each program. -/
structure Machine where
  sys : State
  heap : ℕ → MallocMap
  /-- The address at which `_syscall_execute` has entered each program.  Nothing in the kernel holds
  it. -/
  entry : ℕ → Word

namespace Machine

variable (m : Machine)

/-- `get_cur_pcb`. -/
def cur : ℕ := m.sys.cur

/-- The PCB of the running process. -/
def pcb : Proc.PCB := m.sys.files.procs.pcbs m.cur

/-- `signals` of process `p`.  It is one byte in the source.  Here the clock driver and the keyboard
handler have one each to raise their signals in, and the PCB one for the exceptions. -/
def signals (p : ℕ) : BitVec 8 :=
  (m.sys.files.procs.pcbs p).signals ||| m.sys.files.rtc.signals p ||| m.sys.files.terms.signals p

/-- What `check_signals` finds when the running program is to be left with a context. -/
def enter (c : HwContext) : Trap where
  context := c
  mem := m.sys.mem m.cur
  pcb :=
    { signals := m.signals m.cur
      signalHandlers := fun i => (m.pcb.signalHandlers i).getD 0
      hasParent := m.pcb.parent.isSome }
  halted := false

/-- What it leaves: signals that have been cleared, and frames of handlers in the memory.  A program
that has been halted is ended. -/
def leave (t : Trap) : Machine :=
  let keep (signals : ℕ → BitVec 8) : ℕ → BitVec 8 :=
    Function.update signals m.cur (signals m.cur &&& t.pcb.signals)
  let pcb := { m.pcb with signals := m.pcb.signals &&& t.pcb.signals }
  let files := { m.sys.files with
    procs := { m.sys.files.procs with
      pcbs := Function.update m.sys.files.procs.pcbs m.cur pcb }
    rtc := { m.sys.files.rtc with signals := keep m.sys.files.rtc.signals }
    terms := { m.sys.files.terms with signals := keep m.sys.files.terms.signals } }
  { m with
    sys := { m.sys with
      files := if t.halted then files.halt else files
      mem := Function.update m.sys.mem m.cur t.mem } }

/-- The handler of an exception. -/
def exceptionHandler (irqNum : ℕ) : Machine :=
  let flag := if irqNum = 0 then sigFlag sigDivZero else sigFlag sigSegfault
  let pcb := { m.pcb with signals := m.pcb.signals ||| flag }
  { m with
    sys := { m.sys with
      files := { m.sys.files with
        procs := { m.sys.files.procs with
          pcbs := Function.update m.sys.files.procs.pcbs m.cur pcb } } } }

end Machine

/-- The process that an operation starts. -/
def started (s : Files.State) : Files.Op → Option ℕ
  | .execute loads => s.procs.starts loads
  | .tick loads _ =>
    if s.procs.curPid (s.procs.curProcInd + 1) = 0 then s.procs.starts loads else none
  | _ => none

/-- What happens to the machine. -/
inductive Event where
  /-- An operation on the files, the processes and the terminals, other than a halt.  If it starts a
  process, `image` is the memory of the new program, which is entered at `entry`. -/
  | files (o : Files.Op) (ho : o ≠ .halt) (image : Memory 32) (entry : Word)
  | setHandler (signum handler : Word)
  | malloc (size : BitVec 32)
  | free (ptr : Word)
  | exception (irqNum : ℕ)
  /-- The program has changed its memory, of which its heap map is a part. -/
  | run (mem : Memory 32) (objs : ℕ → MallocObj)
  /-- `common_isr__return`, with the context of the running program. -/
  | ret (c : HwContext)
  /-- `syscall_halt`, called with a context. -/
  | halt (c : HwContext)

namespace Machine

variable (linkage : Word) (fs : Image) (m : Machine)

/-- `common_isr__return`. -/
def isrReturn (c : HwContext) : Trap := (m.enter c).checkSignals linkage

/-- `syscall_halt`, and `common_isr__return` if it comes to that. -/
def syscallHalt (c : HwContext) : Trap :=
  let t := (m.enter { c with cs := userCs }).halt
  if t.halted then t else t.checkSignals linkage

/-- The machine after an event. -/
def step (m : Machine) : Event → Machine
  | .files o _ image entry =>
    { sys := { m.sys with
        files := Files.step fs m.sys.files o
        mem :=
          match started m.sys.files o with
          | none => m.sys.mem
          | some p => Function.update m.sys.mem p image }
      heap :=
        match started m.sys.files o with
        | none => m.heap
        | some p => Function.update m.heap p (fresh (m.heap p).objs)
      entry :=
        match started m.sys.files o with
        | none => m.entry
        | some p => Function.update m.entry p entry }
  | .setHandler signum handler =>
    match (m.sys.syscallSetHandler signum handler).exit with
    | .returns _ sys => { m with sys := sys }
    | _ => m
  | .malloc size =>
    { m with heap := Function.update m.heap m.cur ((m.heap m.cur).syscallMalloc size).2 }
  | .free ptr =>
    { m with heap := Function.update m.heap m.cur ((m.heap m.cur).syscallFree ptr.toNat).2 }
  | .exception irqNum => m.exceptionHandler irqNum
  | .run mem objs =>
    { m with
      sys := { m.sys with mem := Function.update m.sys.mem m.cur mem }
      heap := Function.update m.heap m.cur { m.heap m.cur with objs := objs } }
  | .ret c => m.leave (m.isrReturn linkage c)
  | .halt c => m.leave (m.syscallHalt linkage c)

/-- What a program without a parent goes on with when it has been halted. -/
def restarted (m : Machine) : Event → Option Trap
  | .ret c => if m.pcb.parent = none ∧ (m.enter c).halts = true then some (m.isrReturn linkage c) else none
  | .halt c => if m.pcb.parent = none then some (m.syscallHalt linkage c) else none
  | _ => none

end Machine

/-! ## A clean slate -/

/-- No descriptor of process `p` from 2 on is in use, and none is registered as a clock. -/
structure NoFiles (s : Files.State) (p : ℕ) : Prop where
  unused : ∀ fd, 2 ≤ fd → fd < taskMaxFiles → (s.file ⟨p, fd⟩).used = false
  unregistered : ∀ fd, 2 ≤ fd → fd < taskMaxFiles → ¬ Rtc.Registered s.rtc ⟨p, fd⟩

/-- Process `p` has no handlers. -/
def NoHandlers (s : Proc.Table) (p : ℕ) : Prop :=
  ∀ i < sigSize, (s.pcbs p).signalHandlers i = none

/-- The heap is one unused object. -/
def EmptyHeap (m : MallocMap) : Prop := m.mallocObjCount = 1 ∧ m.objs 0 = ⟨false, 8192⟩

/-- **What `execute` gives a process**: no files but the terminal, no pending signals, no handlers, and
an empty heap. -/
structure Fresh (m : Machine) (p : ℕ) : Prop where
  files : NoFiles m.sys.files p
  signals : m.signals p = 0
  handlers : NoHandlers m.sys.files.procs p
  heap : EmptyHeap (m.heap p)

/-- What a program must have left behind in the kernel to start over: nothing.  Its pending signals do not
matter, since `check_signals` is still to come; only there must be none that does not exist. -/
structure LeftNothing (m : Machine) : Prop where
  files : NoFiles m.sys.files m.cur
  handlers : NoHandlers m.sys.files.procs m.cur
  heap : EmptyHeap (m.heap m.cur)
  signals : m.signals m.cur &&& Trap.stray = 0

/-- The word from which `_syscall_halt` takes the entry point still says where the program was
entered.  The program can write to it. -/
def KeepsEntry (m : Machine) : Prop :=
  (m.sys.mem m.cur).loadWord (taskImgStartAddr + elfEntryOffset) = m.entry m.cur

/-- A program that starts over does so where `_syscall_execute` has entered it, with a clean slate. -/
def StartsOver (m m' : Machine) (t : Trap) : Prop :=
  t.context.addr = m.entry m.cur ∧ t.context.esp = taskVirtPageEnd ∧ Fresh m' m.cur

/-- **A program that starts over starts at its entry point, with a clean slate.** -/
def RestartsClean (linkage : Word) (fs : Image) (m : Machine) (e : Event) : Prop :=
  ∀ t, m.restarted linkage e = some t → StartsOver m (m.step linkage fs e) t

/-- A program that starts over has left nothing, and the header of its image as it was. -/
def HaltsClean (linkage : Word) (m : Machine) (e : Event) : Prop :=
  (m.restarted linkage e).isSome → LeftNothing m ∧ KeepsEntry m

section

variable {linkage : Word} {fs : Image} {m : Machine} {c : HwContext} {t : Trap}

/-- What `_syscall_execute` leaves when it starts process `p`. -/
theorem files_execute (s : Files.State) (termInd : Option (Fin Proc.termNum)) {loads : Bool} {p : ℕ}
    (h : s.procs.starts loads = some p) : s.execute termInd loads =
      some (Files.State.syncPids
        { s.setUpFiles p with procs := s.procs.launch p termInd }) := by
  rw [Files.State.execute, Proc.Table.execute_eq, h]
  rfl

/-- Whichever operation starts a process, it sets up the files of the process and launches it. -/
theorem step_of_started {s : Files.State} {o : Files.Op} {p : ℕ} (hstart : started s o = some p) :
    ∃ (s' : Files.State) (termInd : Option (Fin Proc.termNum)), s'.rtc = s.rtc ∧
      Files.step fs s o = Files.State.syncPids
        { s'.setUpFiles p with procs := s'.procs.launch p termInd } := by
  cases o with
  | execute loads =>
    refine ⟨s, none, rfl, ?_⟩
    rw [Files.step, files_execute _ _ hstart]
    rfl
  | tick loads nextPid =>
    rw [started] at hstart
    split_ifs at hstart with hc
    let s' : Files.State :=
      { s with procs := { s.procs with curProcInd := s.procs.curProcInd + 1 } }
    have hexec := files_execute s' (some (s.procs.curProcInd + 1)) hstart
    refine ⟨s', some (s.procs.curProcInd + 1), rfl, ?_⟩
    rw [Files.step, Files.State.pitIsr]
    dsimp only
    rw [if_pos hc, hexec]
  | «open» => cases hstart
  | close => cases hstart
  | read => cases hstart
  | write => cases hstart
  | halt => cases hstart
  | rtcIsr => cases hstart
  | term => cases hstart

/-- **A new process is fresh**, unless the clock driver still keeps track of descriptors of an earlier
one with its number. -/
theorem fresh_started {o : Files.Op} (ho : o ≠ .halt) (image : Memory 32) (entry : Word) {p : ℕ}
    (hstart : started m.sys.files o = some p)
    (hreg : ∀ fd, ¬ Rtc.Registered m.sys.files.rtc ⟨p, fd⟩) :
    Fresh (m.step linkage fs (.files o ho image entry)) p := by
  obtain ⟨s, termInd, hrtc, hstep⟩ := step_of_started hstart
  have hstate : (m.step linkage fs (.files o ho image entry)).sys.files = _ := hstep
  have hheap : (m.step linkage fs (.files o ho image entry)).heap p = fresh (m.heap p).objs := by
    rw [Machine.step, hstart]
    exact Function.update_self ..
  refine ⟨⟨fun fd hfd hfd' => ?_, fun fd _ _ => ?_⟩, ?_, ?_, ?_⟩
  · rw [hstate]
    show (if p = p then Files.State.newFile fd _ else _).used = false
    rw [if_pos rfl, Files.State.newFile, if_neg (by omega), if_neg (by omega), if_pos hfd']
  · rw [hstate]
    show ¬ ∃ i, s.rtc.rtcFiles i = some ⟨p, fd⟩
    rw [hrtc]
    exact hreg fd
  · rw [Machine.signals, hstate]
    show (Function.update s.procs.pcbs p _ p).signals ||| Function.update s.rtc.signals p 0 p |||
      Function.update s.terms.signals p 0 p = 0
    rw [Function.update_self, Function.update_self, Function.update_self]
    show (0 ||| 0 ||| 0 : BitVec 8) = 0
    decide
  · intro i _
    rw [hstate]
    show (Function.update s.procs.pcbs p _ p).signalHandlers i = none
    rw [Function.update_self]
  · rw [hheap]
    exact ⟨rfl, rfl⟩

/-- The same bits are cleared in all three. -/
theorem and_or_or (a b c s : BitVec 8) : a &&& s ||| b &&& s ||| c &&& s = (a ||| b ||| c) &&& s := by
  rw [BitVec.and_comm a, BitVec.and_comm b, BitVec.and_comm c, ← BitVec.and_or_distrib_left,
    ← BitVec.and_or_distrib_left, BitVec.and_comm]

/-- The program does not end in `leave`. -/
theorem Machine.leave_of_live (hlive : t.halted = false) :
    (m.leave t).heap = m.heap ∧ (m.leave t).sys.files.rtc.files = m.sys.files.rtc.files ∧
      (m.leave t).sys.files.rtc.rtcFiles = m.sys.files.rtc.rtcFiles ∧
      ((m.leave t).sys.files.procs.pcbs m.cur).signalHandlers = m.pcb.signalHandlers ∧
      (m.leave t).signals m.cur = m.signals m.cur &&& t.pcb.signals := by
  rw [leave, hlive]
  simp only [Bool.false_eq_true, if_false, signals, Function.update_self]
  refine ⟨trivial, trivial, trivial, trivial, ?_⟩
  exact and_or_or m.pcb.signals _ _ _

theorem NoFiles.congr {s s' : Files.State} {p : ℕ} (h : NoFiles s p)
    (hfiles : s'.rtc.files = s.rtc.files) (hreg : s'.rtc.rtcFiles = s.rtc.rtcFiles) :
    NoFiles s' p := by
  refine ⟨fun fd hfd hfd' => ?_, fun fd hfd hfd' => ?_⟩
  · rw [Files.State.file, hfiles]
    exact h.unused fd hfd hfd'
  · rw [Rtc.Registered, hreg]
    exact h.unregistered fd hfd hfd'

/-- **Nothing is cleaned up**: what a process is fresh of afterwards it was free of before. -/
theorem leftNothing_of_fresh (hlive : t.halted = false)
    (hstray : t.pcb.signals &&& Trap.stray = m.signals m.cur &&& Trap.stray)
    (h : Fresh (m.leave t) m.cur) : LeftNothing m := by
  obtain ⟨hheap, hfiles, hreg, hhandlers, hsignals⟩ := Machine.leave_of_live (m := m) hlive
  refine ⟨h.files.congr hfiles.symm hreg.symm, fun i hi => ?_, ?_, ?_⟩
  · have hi' := h.handlers i hi
    rw [hhandlers] at hi'
    exact hi'
  · rw [← hheap]
    exact h.heap
  · have hzero : m.signals m.cur &&& t.pcb.signals = 0 := by
      rw [← hsignals]
      exact h.signals
    calc m.signals m.cur &&& Trap.stray
        = m.signals m.cur &&& (m.signals m.cur &&& Trap.stray) := by
          rw [← BitVec.and_assoc, BitVec.and_self]
      _ = (m.signals m.cur &&& t.pcb.signals) &&& Trap.stray := by
          rw [← hstray, BitVec.and_assoc]
      _ = 0 := by
          rw [hzero]
          exact BitVec.zero_and

theorem fresh_of_leftNothing (hlive : t.halted = false)
    (hsignals : t.pcb.signals = m.signals m.cur &&& Trap.stray) (h : LeftNothing m) :
    Fresh (m.leave t) m.cur := by
  obtain ⟨hheap, hfiles, hreg, hhandlers, hleft⟩ := Machine.leave_of_live (m := m) hlive
  refine ⟨h.files.congr hfiles hreg, ?_, fun i hi => ?_, ?_⟩
  · rw [hleft, hsignals, h.signals]
    exact BitVec.and_zero
  · rw [hhandlers]
    exact h.handlers i hi
  · rw [hheap]
    exact h.heap

theorem LeftNothing.unhandled (h : LeftNothing m) (c : HwContext) (i : Fin sigSize) :
    (m.enter c).pcb.signalHandlers i = 0 := by
  show (m.pcb.signalHandlers i).getD 0 = 0
  rw [show m.pcb.signalHandlers i = none from h.handlers i i.isLt]
  rfl

theorem hasParent_enter (hroot : m.pcb.parent = none) (c : HwContext) :
    (m.enter c).pcb.hasParent = false := by
  show m.pcb.parent.isSome = false
  rw [hroot]
  rfl

theorem syscallHalt_of_root (linkage : Word) (hroot : m.pcb.parent = none) (c : HwContext) :
    let t := m.enter { c with cs := userCs }
    m.syscallHalt linkage c = Trap.checkSignals linkage { t with context := t.restart } := by
  intro t
  have hhalt : t.halt = { t with context := t.restart } := Trap.halt_of_root (hasParent_enter hroot _)
  have hlive : ¬ t.halt.halted = true := by
    rw [hhalt]
    exact Bool.noConfusion
  unfold Machine.syscallHalt
  dsimp only
  rw [if_neg hlive, hhalt]

/-- **Nothing left, and nothing is delivered**: a program without a parent that has left nothing goes on
at the word in its header. -/
theorem startsOver_iff_keepsEntry {m' : Machine} (hcontext : t.context = (m.enter c).restart)
    (hfresh : Fresh m' m.cur) : StartsOver m m' t ↔ KeepsEntry m := by
  rw [StartsOver, hcontext]
  exact ⟨fun h => h.1, fun h => ⟨h, rfl, hfresh⟩⟩

/-- A program without a parent is halted by a signal. -/
theorem restartsClean_ret (hroot : m.pcb.parent = none) (hhalts : (m.enter c).halts = true) :
    StartsOver m (m.leave (m.isrReturn linkage c)) (m.isrReturn linkage c) ↔
      LeftNothing m ∧ KeepsEntry m := by
  have hparent := hasParent_enter hroot c
  obtain ⟨hlive, hstray⟩ := Trap.keeps_checkSignals linkage hparent rfl
  have hback : LeftNothing m →
      (StartsOver m (m.leave (m.isrReturn linkage c)) (m.isrReturn linkage c) ↔ KeepsEntry m) := by
    intro hnothing
    have hcs : (m.enter c).context.cs = userCs :=
      (of_decide_eq_true (Bool.and_eq_true_iff.mp hhalts).1).2
    have heq : m.isrReturn linkage c = _ :=
      Trap.checkSignals_unhandled linkage hparent rfl (hnothing.unhandled c) hcs
    rw [hhalts, if_pos rfl] at heq
    rw [heq]
    exact startsOver_iff_keepsEntry rfl (fresh_of_leftNothing rfl rfl hnothing)
  constructor
  · intro h
    have hnothing := leftNothing_of_fresh hlive hstray h.2.2
    exact ⟨hnothing, (hback hnothing).mp h⟩
  · exact fun h => (hback h.1).mpr h.2

/-- A program without a parent halts. -/
theorem restartsClean_halt (hroot : m.pcb.parent = none) :
    StartsOver m (m.leave (m.syscallHalt linkage c)) (m.syscallHalt linkage c) ↔
      LeftNothing m ∧ KeepsEntry m := by
  have hparent := hasParent_enter hroot { c with cs := userCs }
  have hhalt := syscallHalt_of_root linkage hroot c
  dsimp only at hhalt
  rw [hhalt]
  generalize hu : m.enter { c with cs := userCs } = u at hparent
  have hlive : u.halted = false := by rw [← hu]; rfl
  have hcs : u.context.cs = userCs := by rw [← hu]; rfl
  have hsignals : u.pcb.signals = m.signals m.cur := by rw [← hu]; rfl
  have hback : LeftNothing m →
      (StartsOver m (m.leave (Trap.checkSignals linkage { u with context := u.restart }))
        (Trap.checkSignals linkage { u with context := u.restart }) ↔ KeepsEntry m) := by
    intro hnothing
    have hnone : ∀ i, u.pcb.signalHandlers i = 0 := by
      rw [← hu]
      exact hnothing.unhandled _
    have heq := Trap.checkSignals_unhandled linkage
      (t := { u with context := u.restart }) hparent hlive hnone hcs
    -- a second halt leads to where the first one has led
    have hagain : Trap.restart { u with context := u.restart } = u.restart := rfl
    rw [hagain, ite_self] at heq
    rw [heq]
    refine startsOver_iff_keepsEntry (c := { c with cs := userCs }) (by rw [hu]) ?_
    exact fresh_of_leftNothing hlive (congrArg (· &&& Trap.stray) hsignals) hnothing
  constructor
  · intro h
    obtain ⟨hlive', hstray⟩ :=
      Trap.keeps_checkSignals linkage (t := { u with context := u.restart }) hparent hlive
    have hnothing := leftNothing_of_fresh (hlive'.trans hlive)
      (hstray.trans (congrArg (· &&& Trap.stray) hsignals)) h.2.2
    exact ⟨hnothing, (hback hnothing).mp h⟩
  · exact fun h => (hback h.1).mpr h.2

/-- **One event.** -/
theorem restartsClean_iff_haltsClean (linkage : Word) (fs : Image) (m : Machine) (e : Event) :
    RestartsClean linkage fs m e ↔ HaltsClean linkage m e := by
  have hother : m.restarted linkage e = none →
      (RestartsClean linkage fs m e ↔ HaltsClean linkage m e) := by
    intro hnone
    refine iff_of_true (fun t ht => ?_) fun hsome => ?_
    · rw [hnone] at ht
      cases ht
    · rw [hnone] at hsome
      cases hsome
  -- a program that is restarted, with what it goes on with
  have hrestarted : ∀ t, m.restarted linkage e = some t →
      (StartsOver m (m.step linkage fs e) t ↔ LeftNothing m ∧ KeepsEntry m) →
      (RestartsClean linkage fs m e ↔ HaltsClean linkage m e) := by
    intro t ht hiff
    constructor
    · exact fun h _ => hiff.mp (h t ht)
    · intro h t' ht'
      obtain rfl : t = t' := Option.some.inj (ht.symm.trans ht')
      exact hiff.mpr (h (Option.isSome_iff_exists.mpr ⟨t, ht⟩))
  cases e with
  | files o ho image entry => exact hother rfl
  | setHandler signum handler => exact hother rfl
  | malloc size => exact hother rfl
  | free ptr => exact hother rfl
  | exception irqNum => exact hother rfl
  | run mem objs => exact hother rfl
  | ret c =>
    by_cases hc : m.pcb.parent = none ∧ (m.enter c).halts = true
    · exact hrestarted _ (if_pos hc) (restartsClean_ret hc.1 hc.2)
    · exact hother (if_neg hc)
  | halt c =>
    by_cases hc : m.pcb.parent = none
    · exact hrestarted _ (if_pos hc) (restartsClean_halt hc)
    · exact hother (if_neg hc)

/-- **When a program that starts over has a clean slate.**  In every run, all the programs without a
parent that halt start over where they were entered and with what `execute` would give them, if and
only if all of them have left nothing, and their entry points where `_syscall_halt` looks for them. -/
theorem restartsClean_iff (linkage : Word) (fs : Image) (m : Machine) (es : List Event) :
    Runs.Meets (Machine.step linkage fs) (RestartsClean linkage fs) m es ↔
      Runs.Meets (Machine.step linkage fs) (HaltsClean linkage) m es :=
  Runs.meets_congr (I := fun _ => True) (fun _ _ _ _ => trivial)
    (fun m e _ => restartsClean_iff_haltsClean linkage fs m e) trivial es

end

/-- A shell is started, installs a handler and halts: it has the handler still.  A shell is started,
stores ones all over its memory and halts: it goes on somewhere else. -/
theorem not_restartsClean :
    let pcb : Proc.PCB := ⟨none, 0, 0, 0, 0, fun _ => none⟩
    let file : FILE := ⟨.file, 0, 0, .reg, false⟩
    let files := Files.boot (fun _ => pcb) 0 (fun _ => file) (fun _ => 0) 0 fun _ _ => 0
    let objs : ℕ → MallocObj := fun _ => ⟨false, 8192⟩
    let m : Machine :=
      ⟨⟨files, fun _ _ => 0, fun _ _ => 0⟩, fun _ => fresh fun _ => ⟨false, 0⟩, fun _ => 0⟩
    let fs : Image := ⟨fun _ => 0, 0⟩
    let c := HwContext.ofWords []
    let start : Event := .files (.tick true 0) Files.Op.noConfusion (fun _ => 0) 0
    ¬ Runs.Meets (Machine.step 0 fs) (RestartsClean 0 fs) m
        [start, .setHandler 2 0x8048100, .halt c] ∧
      ¬ Runs.Meets (Machine.step 0 fs) (RestartsClean 0 fs) m [start, .run (fun _ => 1) objs, .halt c] := by
  intro pcb file files objs m fs c start
  constructor
  · rintro ⟨-, -, hhalt, -⟩
    have hhandlers := (hhalt _ rfl).2.2.handlers 2 (by decide)
    exact absurd hhandlers (by decide)
  · rintro ⟨-, -, hhalt, -⟩
    have haddr := (hhalt _ rfl).1
    exact absurd haddr (by decide)

end Sys
end CoreOS
