import CoreOS.Lib.X86
import CoreOS.Signals.Delivery
import Mathlib.Tactic.Abel
import Mathlib.Tactic.IntervalCases

/-!
# The linkage of interrupts

`idt_asm.S`, instruction by instruction, from the first instruction of an entry to the `iret` of
`common_isr`.  The functions that it calls are a parameter; of each of them it is enough that the call
that is made returns, as calls in C do.  Not all do: `pit_isr` can go on with the stack of another
process, `check_signals` can end the program, and of an interrupt or a system call that ends so
nothing is said.

The pushes make a context of the program that is interrupted, the same that `Signals` begins with
(`Isr.contextAt_entered`), and the pops and the `iret` go on with whatever program is in the context
in the end (`frame_pops`).  In between there are three kinds of entries, told apart by the sign of the
number they push:

* a system call is looked up by `eax`, and its result goes to `eax` (`syscall_linkage`), which for
  `syscall_sigreturn` is what is there already (`sigreturn_resumes`);
* an exception is handed to `exception_handler`, and an interrupt of line `n` to the handler in the
  table, after which the controllers are acknowledged (`interrupt_linkage`).

The selectors are the only part of a program that is not restored bit by bit: a segment register has
sixteen bits.
-/

namespace CoreOS
namespace Linkage

open StateTransition X86 X86.Cpu Assembly Memory Signals

/-! ## The code -/

/-- The entries of `idt_asm.S`. -/
inductive Isr where
  | syscall
  | pit
  | kb
  | cas
  | com2
  | com1
  | lpt2
  | flop
  | lpt1
  | rtc
  | free1
  | free2
  | free3
  | ps2m
  | fpu
  | hd1
  | hd2
  | de
  | db
  | nmi
  | bp
  | of
  | br
  | ud
  | nm
  | df
  | cso
  | ts
  | np
  | ss
  | gp
  | pf
  | mf
  | ac
  | mc
  | xf
  deriving DecidableEq

/-- Whether an entry pushes a 0 in the place of the error code, and the number it pushes. -/
def Isr.pushes : Isr → Bool × ℤ
  | syscall => (true, 0)
  | pit => (true, -1)
  | kb => (true, -2)
  | cas => (true, -3)
  | com2 => (true, -4)
  | com1 => (true, -5)
  | lpt2 => (true, -6)
  | flop => (true, -7)
  | lpt1 => (true, -8)
  | rtc => (true, -9)
  | free1 => (true, -10)
  | free2 => (true, -11)
  | free3 => (true, -12)
  | ps2m => (true, -13)
  | fpu => (true, -14)
  | hd1 => (true, -15)
  | hd2 => (true, -16)
  | de => (true, 1)
  | db => (true, 2)
  | nmi => (true, 3)
  | bp => (true, 4)
  | of => (true, 5)
  | br => (true, 6)
  | ud => (true, 7)
  | nm => (true, 8)
  | df => (false, 9)
  | cso => (true, 10)
  | ts => (false, 11)
  | np => (false, 12)
  | ss => (false, 13)
  | gp => (false, 14)
  | pf => (false, 15)
  | mf => (true, 16)
  | ac => (false, 17)
  | mc => (true, 18)
  | xf => (true, 19)

/-- The labels, without `common_isr__`. -/
inductive Label where
  | commonIsr
  | handleSyscall
  | switchEnd
  | syscallError
  | handleException
  | handlePic
  | picSlaveEoi
  | «return»
  deriving DecidableEq

/-- The handlers in `PIC_ISR_jmp_tab`. -/
inductive Handler where
  | pitIsr
  | kbIsr
  | serialIsr
  | rtcIsr
  deriving DecidableEq

/-- `PIC_ISR_jmp_tab`. -/
def picIsrJmpTab : List (Option Handler) :=
  [some .pitIsr, some .kbIsr, none, none, some .serialIsr, none, none, none, some .rtcIsr, none, none,
    none, none, none, none, none]

/-- Where the functions and the tables are in memory, and the addresses behind the calls. -/
structure Image where
  syscallTable : Word
  picTable : Word
  syscall : Syscall → Word
  handler : Handler → Word
  exceptionHandler : Word
  checkSignals : Word
  sigreturn : Word
  after : Label → Word

/-- `SYSCALL_JMP_TAB`, as it is in memory. -/
def Image.syscallWords (img : Image) : List Word := syscallJmpTab.map img.syscall

/-- `PIC_ISR_jmp_tab`, as it is in memory. -/
def Image.picWords (img : Image) : List Word := picIsrJmpTab.map fun h => h.elim 0 img.handler

/-- Code that calls functions. -/
abbrev Code : Type := List (Line CallInstr Cond Label)

/-- An instruction in a line of its own. -/
def line (i : Instr) : Line CallInstr Cond Label := .op (.plain i)

/-- `disp(base)`. -/
def rel (disp : Word) (base : Reg) : Addr := ⟨disp, some base, none⟩

/-- The words that an entry pushes. -/
def Isr.words (i : Isr) : List Word :=
  let number := BitVec.ofInt 32 i.pushes.2
  if i.pushes.1 then [0, number] else [number]

/-- The code of an entry, up to the jump to `common_isr`. -/
def isr (i : Isr) : Code :=
  i.words.map (fun w => line (.push (.imm w))) ++ [.jump .always .commonIsr]

/-- The pushes of `common_isr`. -/
def pushes : List CallInstr :=
  [.plain (.pushSeg .fs), .plain (.pushSeg .es), .plain (.pushSeg .ds), .plain (.push (.reg .eax)),
    .plain (.push (.reg .ebp)), .plain (.push (.reg .edi)), .plain (.push (.reg .esi)),
    .plain (.push (.reg .edx)), .plain (.push (.reg .ecx)), .plain (.push (.reg .ebx))]

/-- The pops of `common_isr`. -/
def pops : List CallInstr :=
  [.plain (.pop .ebx), .plain (.pop .ecx), .plain (.pop .edx), .plain (.pop .esi), .plain (.pop .edi),
    .plain (.pop .ebp), .plain (.pop .eax), .plain (.popSeg .ds), .plain (.popSeg .es),
    .plain (.popSeg .fs)]

/-- `common_isr__return`, up to the `iret`. -/
def returnCode (img : Image) : Code :=
  [line (.movl .esp .eax),
    line (.push (.reg .eax)),
    .op (.call img.checkSignals (img.after .return)),
    line (.addl 4 .esp)] ++ (pops.map .op ++ [line (.addl 8 .esp)])

/-- The end of `common_isr__handle_pic`, behind its conditional jump. -/
def picEnd : Code :=
  [line (.movbImm 0x20),
    line (.outb 0x20),
    .jump .always .return,
    .label .picSlaveEoi,
    line (.movbImm 0x20),
    line (.outb 0x20),
    line (.outb 0xA0),
    .jump .always .return,
    .label .return]

/-- `common_isr__handle_pic`. -/
def picCode (img : Image) : Code :=
  [line (.load (.mem (rel 40 .ebp)) .eax),
    line (.negl .eax),
    line (.subl 1 .eax),
    line (.push (.reg .eax)),
    line (.load (.mem ⟨img.picTable, none, some (.eax, 4)⟩) .eax),
    .op (.callReg .eax (img.after .handlePic)),
    line (.pop .eax),
    line (.cmpImm 8 (.reg .eax)),
    .jump .ge .picSlaveEoi] ++ picEnd

/-- `common_isr__handle_exception`. -/
def exceptionCode (img : Image) : Code :=
  [line (.push (.mem (rel 44 .ebp))),
    line (.push (.mem (rel 40 .ebp))),
    line (.sublMem 1 ⟨0, some .esp, none⟩),
    .op (.call img.exceptionHandler (img.after .handleException)),
    line (.addl 8 .esp),
    .jump .always .return]

/-- `common_isr__handle_syscall`, with `common_isr__syscall_error`. -/
def syscallCode (img : Image) : Code :=
  [line (.cmpImm 1 (.reg .eax)),
    .jump .l .syscallError,
    line (.cmpImm 12 (.reg .eax)),
    .jump .g .syscallError,
    line (.subl 1 .eax),
    line (.load (.mem ⟨img.syscallTable, none, some (.eax, 4)⟩) .eax),
    .op (.callReg .eax (img.after .switchEnd)),
    .label .switchEnd,
    line (.store (.reg .eax) (rel 24 .ebp)),
    .jump .always .return,
    .label .syscallError,
    line (.store (.imm (-1)) (rel 24 .ebp)),
    .jump .always .return]

/-- `common_isr` behind its pushes. -/
def commonCode (img : Image) : Code :=
  [line (.movl .esp .ebp),
    line (.cmpImm 0 (.mem (rel 40 .ebp))),
    .jump .g .handleException,
    .jump .l .handlePic,
    .label .handleSyscall] ++ syscallCode img ++ .label .handleException :: exceptionCode img ++
      .label .handlePic :: picCode img ++ returnCode img

/-- An entry, and `common_isr`, to which it jumps. -/
def code (img : Image) (i : Isr) : Code :=
  isr i ++ .label .commonIsr :: (pushes.map .op ++ commonCode img)

/-- `syscall_sigreturn`. -/
def syscallSigreturn (img : Image) : Code :=
  [line (.leal (rel 4 .esp) .eax),
    line (.push (.reg .eax)),
    .op (.call img.sigreturn (img.after .handleSyscall)),
    line (.addl 4 .esp),
    line (.load (.mem (rel 28 .esp)) .eax),
    .op .ret]

/-! ## Contexts -/

/-- The program that the frame on top of the stack belongs to.  Without a change of privilege its stack
pointer and stack selector are not part of the frame, and are just what is behind it. -/
def frame (s : X86.Cpu) : Signals.Cpu where
  ebx := s.reg .ebx
  ecx := s.reg .ecx
  edx := s.reg .edx
  esi := s.reg .esi
  edi := s.reg .edi
  ebp := s.reg .ebp
  eax := s.reg .eax
  ds := (s.seg .ds).setWidth 32
  es := (s.seg .es).setWidth 32
  fs := (s.seg .fs).setWidth 32
  eip := s.mem.loadWord (s.reg .esp)
  cs := s.mem.loadWord (s.reg .esp + 4)
  eflags := s.mem.loadWord (s.reg .esp + 8)
  esp := s.mem.loadWord (s.reg .esp + 12)
  ss := s.mem.loadWord (s.reg .esp + 16)

/-- A segment register takes the lower half of what is popped. -/
def selectors (u : Signals.Cpu) : Signals.Cpu :=
  { u with
    ds := (u.ds.setWidth 16).setWidth 32
    es := (u.es.setWidth 16).setWidth 32
    fs := (u.fs.setWidth 16).setWidth 32 }

/-- The frame. -/
theorem loadWords_frame (s : X86.Cpu) : s.mem.loadWords (s.reg .esp) 5 =
    [(frame s).eip, (frame s).cs, (frame s).eflags, (frame s).esp, (frame s).ss] := by
  have hsum : ∀ a b : Word, s.reg .esp + a + b = s.reg .esp + (a + b) := fun a b => add_assoc _ _ _
  simp only [loadWords, hsum]
  rfl

/-- The context at an address. -/
def contextAt (m : Memory 32) (a : Word) : HwContext := HwContext.ofWords (m.loadWords a contextSize)

/-- A word of a context. -/
theorem word_contextAt (m : Memory 32) (a : Word) {k : ℕ} (hk : k < contextSize) :
    (contextAt m a).word (4 * k) = m.loadWord (a + BitVec.ofNat 32 (4 * k)) := by
  rw [← getD_loadWords m a hk 0]
  rw [contextSize] at hk
  interval_cases k
  all_goals rfl

namespace Isr

variable (i : Isr) (s : X86.Cpu)

/-- The program that is interrupted.  For some vectors the processor has pushed an error code. -/
def program : Signals.Cpu := if i.pushes.1 then frame s else frame s.drop

/-- The error code. -/
def error : Word := if i.pushes.1 then 0 else s.top

/-- The number an entry pushes. -/
def number : Word := BitVec.ofInt 32 i.pushes.2

/-- The words `common_isr` pushes. -/
def saved (s : X86.Cpu) : List Word :=
  [(s.seg .fs).setWidth 32, (s.seg .es).setWidth 32, (s.seg .ds).setWidth 32, s.reg .eax, s.reg .ebp,
    s.reg .edi, s.reg .esi, s.reg .edx, s.reg .ecx, s.reg .ebx]

/-- Pushes do not change what will be pushed. -/
theorem saved_pushAll (ws : List Word) : saved (s.pushAll ws) = saved s := by
  rw [saved, seg_pushAll]
  simp only [saved, reg_pushAll, ne_eq, reduceCtorEq, not_false_eq_true]

/-- The processor when the context is on the stack. -/
def entered : X86.Cpu := s.pushAll (i.words ++ saved s)

/-- Where the context is. -/
def context : Word := (i.entered s).reg .esp

theorem context_eq : i.context s = s.reg .esp - BitVec.ofNat 32 (4 * (i.words.length + 10)) := by
  rw [context, entered, esp_pushAll, List.length_append]
  rfl

/-- **The pushes make a context** of the program that is interrupted. -/
theorem contextAt_entered :
    contextAt (i.entered s).mem (i.context s) = (i.program s).enter (i.error s) i.number := by
  have hrow := fun n => loadWords_pushAll s (i.words ++ saved s) n
  cases hzero : i.pushes.1 with
  | true =>
    have hwords : i.words = [0, i.number] := if_pos hzero
    have hcontext := hrow 5 (by rw [hwords]; simp [saved])
    rw [loadWords_frame, hwords] at hcontext
    rw [contextAt, context, entered, hwords, program, error, if_pos hzero, if_pos hzero]
    exact congrArg HwContext.ofWords hcontext
  | false =>
    have hwords : i.words = [i.number] := if_neg (ne_true_of_eq_false hzero)
    have hcontext := hrow 6 (by rw [hwords]; simp [saved])
    have hsix : s.mem.loadWords (s.reg .esp) 6 = s.top :: s.drop.mem.loadWords (s.drop.reg .esp) 5 := by
      rw [esp_drop]
      rfl
    rw [hsix, loadWords_frame, hwords] at hcontext
    rw [contextAt, context, entered, hwords, program, error, if_neg (ne_true_of_eq_false hzero),
      if_neg (ne_true_of_eq_false hzero)]
    exact congrArg HwContext.ofWords hcontext

end Isr

variable {img : Image} {run : Functions}

theorem execAll_pushes (s : X86.Cpu) : execAll (callMachine run) pushes s = s.pushAll (Isr.saved s) := by
  simp only [pushes, execAll_cons, execAll_nil, callMachine, execCall, exec, value, Isr.saved, pushAll,
    List.foldl_cons, List.foldl_nil]
  simp

theorem execAll_words (ws : List Word) (s : X86.Cpu) :
    execAll (callMachine run) (ws.map fun w => .plain (.push (.imm w))) s = s.pushAll ws := by
  induction ws generalizing s with
  | nil => rfl
  | cons w ws ih => exact ih (s.push w)

/-- The entry is a row of pushes. -/
theorem code_eq (i : Isr) : code img i = (i.words.map fun w => .plain (.push (.imm w))).map .op ++
    .jump .always .commonIsr :: .label .commonIsr :: (pushes.map .op ++ commonCode img) := by
  rw [code, isr, List.map_map, List.append_assoc]
  rfl

/-- From the first instruction to `common_isr`, with the context on the stack. -/
theorem reaches_common (i : Isr) (s : X86.Cpu) {c : Code × X86.Cpu}
    (h : Reaches (step (callMachine run) (code img i)) (commonCode img, i.entered s) c) :
    Reaches (step (callMachine run) (code img i)) (code img i, s) c := by
  have htarget : target .commonIsr (code img i) = pushes.map .op ++ commonCode img := by
    rw [code_eq, target_map_op_append]
    rfl
  have hentered : execAll (callMachine run) pushes (s.pushAll i.words) = i.entered s := by
    rw [execAll_pushes, Isr.saved_pushAll, Isr.entered, pushAll, pushAll, pushAll, List.foldl_append]
  nth_rewrite 2 [code_eq]
  refine reaches_ops _ (reaches_jump_of_holds rfl ?_)
  rw [htarget, execAll_words]
  refine reaches_ops _ ?_
  rwa [hentered]

/-- Behind `common_isr` the entry does not matter. -/
theorem target_code (i : Isr) {l : Label} (hl : l ≠ .commonIsr) :
    target l (code img i) = target l (commonCode img) := by
  rw [code_eq, target_map_op_append, target, target, if_neg hl.symm, target_map_op_append]

/-! ## The return -/

/-- **The way back**: `check_signals` is called with the context, and the program that is then in the
context goes on. -/
def Resumes (img : Image) (run : Functions) (a : Word) (s t : X86.Cpu) : Prop :=
  ∃ s', Called run img.checkSignals [a] s s' ∧
    frame t = selectors (Signals.Cpu.leave (contextAt s'.mem a)) ∧ t.mem = s'.mem ∧ t.out = s'.out ∧
      t.reg .esp = a + 48

/-- What is popped. -/
theorem leave_contextAt (m : Memory 32) (a : Word) : Signals.Cpu.leave (contextAt m a) =
    { ebx := m.loadWord a
      ecx := m.loadWord (a + 4)
      edx := m.loadWord (a + 8)
      esi := m.loadWord (a + 12)
      edi := m.loadWord (a + 16)
      ebp := m.loadWord (a + 20)
      eax := m.loadWord (a + 24)
      ds := m.loadWord (a + 28)
      es := m.loadWord (a + 32)
      fs := m.loadWord (a + 36)
      eip := m.loadWord (a + 48)
      cs := m.loadWord (a + 52)
      eflags := m.loadWord (a + 56)
      esp := m.loadWord (a + 60)
      ss := m.loadWord (a + 64) } := by
  have hword : ∀ k < contextSize,
      (contextAt m a).word (4 * k) = m.loadWord (a + BitVec.ofNat 32 (4 * k)) :=
    fun k hk => word_contextAt m a hk
  have hfirst := hword 0 (by decide)
  rw [Nat.mul_zero, BitVec.add_zero] at hfirst
  rw [Signals.Cpu.leave, Signals.Cpu.mk.injEq]
  exact ⟨hfirst, hword 1 (by decide), hword 2 (by decide), hword 3 (by decide), hword 4 (by decide),
    hword 5 (by decide), hword 6 (by decide), hword 7 (by decide), hword 8 (by decide),
    hword 9 (by decide), hword 12 (by decide), hword 13 (by decide), hword 14 (by decide),
    hword 15 (by decide), hword 16 (by decide)⟩

/-- The pops, and the number and the error code, which are skipped. -/
theorem frame_pops (s : X86.Cpu) :
    frame ((execAll (callMachine run) pops s).exec (.addl 8 .esp)) =
      selectors (Signals.Cpu.leave (contextAt s.mem (s.reg .esp))) := by
  rw [leave_contextAt, selectors, frame, Signals.Cpu.mk.injEq]
  simp only [pops, execAll_cons, execAll_nil, callMachine, execCall]
  simp [exec, top, add_assoc]

theorem mem_pops (run : Functions) (s : X86.Cpu) :
    ((execAll (callMachine run) pops s).exec (.addl 8 .esp)).mem = s.mem ∧
      ((execAll (callMachine run) pops s).exec (.addl 8 .esp)).out = s.out ∧
      ((execAll (callMachine run) pops s).exec (.addl 8 .esp)).reg .esp = s.reg .esp + 48 := by
  simp only [pops, execAll_cons, execAll_nil, callMachine, execCall]
  simp [exec, add_assoc]

theorem reaches_return (whole : Code) (s : X86.Cpu)
    (hret : Returns run img.checkSignals (s.reg .esp - 4)) :
    ∃ t, Reaches (step (callMachine run) whole) (returnCode img, s) ([], t) ∧
      Resumes img run (s.reg .esp) s t := by
  obtain ⟨u, hu⟩ : ∃ u, u = (s.exec (.movl .esp .eax)).exec (.push (.reg .eax)) := ⟨_, rfl⟩
  have hesp : u.reg .esp = s.reg .esp - 4 := by
    rw [hu]
    simp [exec]
  have hmem : u.mem = s.mem.storeWord (u.reg .esp) (s.reg .esp) := by
    rw [hu]
    simp [exec, value]
  obtain ⟨t, ht⟩ : ∃ t, t = run img.checkSignals (u.push (img.after .return)) := ⟨_, rfl⟩
  have hback : (t.exec (.addl 4 .esp)).reg .esp = s.reg .esp := by
    have hstack : t.reg .esp = s.reg .esp - 4 := ht ▸ (hret u _ hesp).1
    simp [exec, hstack]
  refine ⟨(execAll (callMachine run) pops (t.exec (.addl 4 .esp))).exec (.addl 8 .esp), ?_, t, ?_, ?_, ?_⟩
  · subst ht hu
    exact reaches_op (reaches_op (reaches_op (reaches_op (reaches_ops pops (reaches_op
      Relation.ReflTransGen.refl)))))
  · rw [ht]
    exact called_push hesp hmem (by rw [hu]; rfl) (by simp) _
  · rw [frame_pops, hback]
    rfl
  · obtain ⟨hm, ho, hs⟩ := mem_pops run (t.exec (.addl 4 .esp))
    exact ⟨hm, ho, by rw [hs, hback]⟩

/-! ## The three kinds -/

/-- At the comparison with 0. -/
def compared (s : X86.Cpu) : X86.Cpu := (s.exec (.movl .esp .ebp)).exec (.cmpImm 0 (.mem (rel 40 .ebp)))

@[simp] theorem mem_compared (s : X86.Cpu) : (compared s).mem = s.mem := rfl

@[simp] theorem out_compared (s : X86.Cpu) : (compared s).out = s.out := rfl

@[simp] theorem esp_compared (s : X86.Cpu) : (compared s).reg .esp = s.reg .esp := by
  simp [compared, exec]

@[simp] theorem ebp_compared (s : X86.Cpu) : (compared s).reg .ebp = s.reg .esp := by
  simp [compared, exec]

@[simp] theorem eax_compared (s : X86.Cpu) : (compared s).reg .eax = s.reg .eax := by
  simp [compared, exec]

theorem holds_compared (s : X86.Cpu) {number : Word} (h : s.mem.loadWord (s.reg .esp + 40) = number) :
    (compared s).holds .g = decide (0 < number.toInt) ∧
      (compared s).holds .l = decide (number.toInt < 0) := by
  have hvalue : (s.exec (.movl .esp .ebp)).value (.mem (rel 40 .ebp)) = number := by
    rw [← h, value, address, rel]
    simp [exec, add_comm]
  constructor
  · rw [compared, holds_g_cmpImm, hvalue]
    rfl
  · rw [compared, holds_l_cmpImm, hvalue]
    rfl

section paths

variable {i : Isr} {s : X86.Cpu} {c : Code × X86.Cpu} {number : Word}

theorem reaches_exception (h : s.mem.loadWord (s.reg .esp + 40) = number) (hpos : 0 < number.toInt)
    (hc : Reaches (step (callMachine run) (code img i))
      (target .handleException (commonCode img), compared s) c) :
    Reaches (step (callMachine run) (code img i)) (commonCode img, s) c := by
  have hg := (holds_compared s h).1
  rw [decide_eq_true hpos] at hg
  rw [← target_code i (by decide)] at hc
  exact reaches_op (reaches_op (reaches_jump_of_holds hg hc))

theorem reaches_pic (h : s.mem.loadWord (s.reg .esp + 40) = number) (hneg : number.toInt < 0)
    (hc : Reaches (step (callMachine run) (code img i))
      (target .handlePic (commonCode img), compared s) c) :
    Reaches (step (callMachine run) (code img i)) (commonCode img, s) c := by
  obtain ⟨hg, hl⟩ := holds_compared s h
  rw [decide_eq_false (by omega)] at hg
  rw [decide_eq_true hneg] at hl
  rw [← target_code i (by decide)] at hc
  exact reaches_op (reaches_op (reaches_jump_of_not hg (reaches_jump_of_holds hl hc)))

theorem reaches_syscall (h : s.mem.loadWord (s.reg .esp + 40) = 0)
    (hc : Reaches (step (callMachine run) (code img i))
      (target .handleSyscall (commonCode img), compared s) c) :
    Reaches (step (callMachine run) (code img i)) (commonCode img, s) c := by
  obtain ⟨hg, hl⟩ := holds_compared s h
  exact reaches_op (reaches_op (reaches_jump_of_not hg (reaches_jump_of_not hl (reaches_label hc))))

end paths

/-! ## Exceptions -/

/-- `common_isr__handle_exception` calls `exception_handler` with the number less one and the error
code. -/
theorem reaches_exceptionCode (rest : Code) {whole : Code}
    (hwhole : target .return whole = returnCode img) {s : X86.Cpu}
    (hret : Returns run img.exceptionHandler (s.reg .esp - 8)) (hebp : s.reg .ebp = s.reg .esp) :
    ∃ s' t, Called run img.exceptionHandler
        [s.mem.loadWord (s.reg .esp + 40) - 1, s.mem.loadWord (s.reg .esp + 44)] s s' ∧
      t.reg .esp = s.reg .esp ∧ t.mem = s'.mem ∧ t.out = s'.out ∧
      ∀ c, Reaches (step (callMachine run) whole) (returnCode img, t) c →
        Reaches (step (callMachine run) whole) (exceptionCode img ++ rest, s) c := by
  obtain ⟨number, hnumber⟩ : ∃ number, number = s.mem.loadWord (s.reg .esp + 40) := ⟨_, rfl⟩
  obtain ⟨error, herror⟩ : ∃ error, error = s.mem.loadWord (s.reg .esp + 44) := ⟨_, rfl⟩
  obtain ⟨u, hu⟩ : ∃ u, u = ((s.exec (.push (.mem (rel 44 .ebp)))).exec
    (.push (.mem (rel 40 .ebp)))).exec (.sublMem 1 ⟨0, some .esp, none⟩) := ⟨_, rfl⟩
  have hfirst : s.exec (.push (.mem (rel 44 .ebp))) = s.push error := by
    rw [herror, exec, value, address, rel, ← hebp]
    simp [add_comm]
  have hsecond : (s.push error).exec (.push (.mem (rel 40 .ebp))) = (s.push error).push number := by
    have hload := loadWord_storeWord_of_le (k := 44) (by decide) (by decide) s.mem (s.reg .esp - 4) error
    have haddr : s.reg .esp - 4 + BitVec.ofNat 32 44 = s.reg .esp + 40 := by
      rw [sub_add_eq_add_sub, add_sub_assoc]
      rfl
    rw [haddr, ← hnumber] at hload
    show (s.push error).push ((s.push error).mem.loadWord (40 + (s.push error).reg .ebp + 0)) = _
    rw [mem_push, reg_push _ _ _ (by decide), hebp, add_zero, add_comm, hload]
  have hesp : u.reg .esp = s.reg .esp - 8 := by
    rw [hu, hfirst, hsecond]
    simp [exec, sub_sub]
  have hmem : u.mem = s.mem.storeWords (u.reg .esp) [number - 1, error] := by
    have hstore := storeWord_storeWords s.mem (s.reg .esp - 8) (number - 1) [error] (by simp)
    have haddr : s.reg .esp - 8 + 4 = s.reg .esp - 4 := by
      rw [sub_add]
      rfl
    rw [haddr] at hstore
    rw [hesp, ← hstore, hu, hfirst, hsecond]
    simp [exec, address, sub_sub, loadWord_storeWord, storeWord_storeWord, storeWords]
  have hout : u.out = s.out := by
    rw [hu, hfirst, hsecond]
    rfl
  obtain ⟨s', hs'⟩ : ∃ s', s' = run img.exceptionHandler (u.push (img.after .handleException)) :=
    ⟨_, rfl⟩
  refine ⟨s', s'.exec (.addl 8 .esp), ?_, ?_, rfl, rfl, fun c hc => ?_⟩
  · rw [← hnumber, ← herror, hs']
    exact called_push hesp hmem hout (by simp) _
  · have hback : s'.reg .esp = s.reg .esp - 8 := hs' ▸ (hret u _ hesp).1
    simp [exec, hback]
  · rw [← hwhole] at hc
    subst hs' hu
    exact reaches_op (reaches_op (reaches_op (reaches_op (reaches_op (reaches_jump_of_holds rfl hc)))))

/-! ## Lines of the controllers -/

/-- What is written to the ports at the end of an interrupt of line `n`, the last one first. -/
def eoi (n : ℕ) : List (BitVec 16 × BitVec 8) :=
  if 8 ≤ n then [(0xA0, 0x20), (0x20, 0x20)] else [(0x20, 0x20)]

/-- The registers at the call of a handler. -/
def picCall (img : Image) (s : X86.Cpu) : X86.Cpu :=
  ((((s.exec (.load (.mem (rel 40 .ebp)) .eax)).exec (.negl .eax)).exec (.subl 1 .eax)).exec
    (.push (.reg .eax))).exec (.load (.mem ⟨img.picTable, none, some (.eax, 4)⟩) .eax)

section pic

variable {n : ℕ} {s : X86.Cpu}

/-- At the call the line is on the stack, and the entry of the table in `eax`. -/
theorem picCall_spec (img : Image) (hebp : s.reg .ebp = s.reg .esp)
    (hnumber : -s.mem.loadWord (s.reg .esp + 40) - 1 = BitVec.ofNat 32 n) :
    (picCall img s).reg .esp = s.reg .esp - 4 ∧
      (picCall img s).mem = s.mem.storeWord (s.reg .esp - 4) (BitVec.ofNat 32 n) ∧
      (picCall img s).out = s.out ∧
      (picCall img s).reg .eax = (s.mem.storeWord (s.reg .esp - 4) (BitVec.ofNat 32 n)).loadWord
        (img.picTable + BitVec.ofNat 32 (4 * n)) := by
  obtain ⟨u, hu⟩ : ∃ u, u = ((s.exec (.load (.mem (rel 40 .ebp)) .eax)).exec (.negl .eax)).exec
    (.subl 1 .eax) := ⟨_, rfl⟩
  have heax : u.reg .eax = BitVec.ofNat 32 n := by
    rw [← hnumber, hu]
    simp [exec, value, address, rel, hebp, add_comm]
  have hesp : u.reg .esp = s.reg .esp := by
    rw [hu]
    simp [exec]
  have hmem : u.mem = s.mem := by
    rw [hu]
    rfl
  have hout : u.out = s.out := by
    rw [hu]
    rfl
  have hcall : picCall img s = (u.push (BitVec.ofNat 32 n)).set .eax
      ((u.push (BitVec.ofNat 32 n)).mem.loadWord (img.picTable + 0 + BitVec.ofNat 32 n * 4)) := by
    rw [picCall, ← hu, exec, exec, value, value, address, heax]
    simp [heax]
  have hindex : BitVec.ofNat 32 n * 4 = BitVec.ofNat 32 (4 * n) := by
    rw [Nat.mul_comm, BitVec.ofNat_mul]
    rfl
  rw [hcall, hindex, add_zero]
  simp [hesp, hmem, hout]

/-- **`common_isr__handle_pic`** calls the handler of the line with its number, and acknowledges. -/
theorem reaches_picCode {i : Isr} {f : Word} (hn : n < 16) (hebp : s.reg .ebp = s.reg .esp)
    (hnumber : -s.mem.loadWord (s.reg .esp + 40) - 1 = BitVec.ofNat 32 n)
    (hf : (s.mem.storeWord (s.reg .esp - 4) (BitVec.ofNat 32 n)).loadWord
      (img.picTable + BitVec.ofNat 32 (4 * n)) = f)
    (hret : Returns run f (s.reg .esp - 4)) (hkeep : KeepsArgument run f (s.reg .esp - 4)) :
    ∃ s' t, Called run f [BitVec.ofNat 32 n] s s' ∧ t.reg .esp = s.reg .esp ∧ t.mem = s'.mem ∧
      t.out = eoi n ++ s'.out ∧
      ∀ c, Reaches (step (callMachine run) (code img i)) (returnCode img, t) c →
        Reaches (step (callMachine run) (code img i)) (picCode img ++ returnCode img, s) c := by
  obtain ⟨hesp, hmem, hout, heax⟩ := picCall_spec img hebp hnumber
  rw [hf] at heax
  obtain ⟨s', hs'⟩ : ∃ s', s' = run f ((picCall img s).push (img.after .handlePic)) := ⟨_, rfl⟩
  have hstack : s'.reg .esp = s.reg .esp - 4 := hs' ▸ (hret _ _ hesp).1
  have hline : s'.mem.loadWord (s'.reg .esp) = BitVec.ofNat 32 n := by
    rw [hstack, hs', hkeep _ _ hesp, hmem, loadWord_storeWord (by decide)]
  obtain ⟨u, hu⟩ : ∃ u, u = (s'.exec (.pop .eax)).exec (.cmpImm 8 (.reg .eax)) := ⟨_, rfl⟩
  have huesp : u.reg .esp = s.reg .esp := by
    rw [hu]
    simp [exec, hstack]
  have humem : u.mem = s'.mem := by
    rw [hu]
    rfl
  have huout : u.out = s'.out := by
    rw [hu]
    rfl
  have hge : u.holds .ge = decide (8 ≤ n) := by
    have hvalue : (s'.exec (.pop .eax)).value (.reg .eax) = BitVec.ofNat 32 n := by
      rw [← hline]
      exact reg_set_self _ _ _
    have hnat : (BitVec.ofNat 32 n).toNat = n := by
      rw [BitVec.toNat_ofNat, Nat.mod_eq_of_lt (by omega)]
    have hint : (BitVec.ofNat 32 n).toInt = n := by
      rw [BitVec.toInt_eq_toNat_of_lt (by omega), hnat]
    rw [hu, holds_ge_cmpImm, hvalue, hint, decide_eq_decide]
    exact Int.ofNat_le
  have hcall : Called run f [BitVec.ofNat 32 n] s s' := by
    rw [hs']
    exact called_push hesp (by rw [hmem, hesp]; rfl) hout (by simp) _
  have hreach : ∀ c, Reaches (step (callMachine run) (code img i))
      (.jump .ge .picSlaveEoi :: (picEnd ++ returnCode img), u) c →
        Reaches (step (callMachine run) (code img i)) (picCode img ++ returnCode img, s) c := by
    intro c hc
    have hexec : execCall run (.callReg .eax (img.after .handlePic)) (picCall img s) = s' := by
      rw [execCall, heax, hs']
    subst hu
    rw [← hexec] at hc
    exact reaches_op (reaches_op (reaches_op (reaches_op (reaches_op (reaches_op (reaches_op
      (reaches_op hc)))))))
  have hreturn : target .return (code img i) = returnCode img := (target_code i (by decide)).trans rfl
  by_cases hslave : 8 ≤ n
  · rw [decide_eq_true hslave] at hge
    refine ⟨s', ((u.exec (.movbImm 0x20)).exec (.outb 0x20)).exec (.outb 0xA0), hcall, ?_, humem, ?_,
      fun c hc => hreach c (reaches_jump_of_holds hge ?_)⟩
    · simp [exec, huesp]
    · rw [eoi, if_pos hslave, ← huout, out_outb, out_outb, regByte_outb, regByte_movbImm, out_movbImm]
      rfl
    · rw [target_code i (by decide)]
      refine reaches_op (reaches_op (reaches_op (reaches_jump_of_holds rfl ?_)))
      rwa [hreturn]
  · rw [decide_eq_false hslave] at hge
    refine ⟨s', (u.exec (.movbImm 0x20)).exec (.outb 0x20), hcall, ?_, humem, ?_,
      fun c hc => hreach c (reaches_jump_of_not hge ?_)⟩
    · simp [exec, huesp]
    · rw [eoi, if_neg hslave, ← huout, out_outb, regByte_movbImm, out_movbImm]
      rfl
    · refine reaches_op (reaches_op (reaches_jump_of_holds rfl ?_))
      rwa [hreturn]

end pic

/-! ## System calls -/

section syscall

variable {i : Isr} {s : X86.Cpu}

/-- A number that is in the table. -/
theorem syscallOf_cases (e : Word) :
    (e.toInt < 1 ∧ syscallOf e = none) ∨ (1 ≤ e.toInt ∧ 12 < e.toInt ∧ syscallOf e = none) ∨
      (1 ≤ e.toInt ∧ e.toInt ≤ 12 ∧ (e - 1).toNat < 12 ∧
        syscallOf e = syscallJmpTab[(e - 1).toNat]?) := by
  by_cases hlow : e.toInt < 1
  · exact Or.inl ⟨hlow, if_pos hlow⟩
  · by_cases hhigh : 12 < e.toInt
    · exact Or.inr (Or.inl ⟨by omega, hhigh, (if_neg hlow).trans (if_pos hhigh)⟩)
    · have hlt : (e - 1).toNat < 12 := by
        rw [BitVec.toInt_eq_toNat_cond] at hlow hhigh
        have he := e.isLt
        split at hlow
        · rw [BitVec.toNat_sub]
          show (2 ^ 32 - 1 + e.toNat) % 2 ^ 32 < 12
          omega
        · omega
      exact Or.inr (Or.inr ⟨by omega, by omega, hlt, (if_neg hlow).trans (if_neg hhigh)⟩)

/-- A number that is not in the table: -1. -/
theorem reaches_syscallError (img : Image) (run : Functions) (hebp : s.reg .ebp = s.reg .esp)
    (hnone : syscallOf (s.reg .eax) = none) :
    ∃ t, t.reg .esp = s.reg .esp ∧ t.mem = s.mem.storeWord (s.reg .esp + 24) (-1) ∧ t.out = s.out ∧
      ∀ c, Reaches (step (callMachine run) (code img i)) (returnCode img, t) c →
        Reaches (step (callMachine run) (code img i)) (target .handleSyscall (commonCode img), s) c := by
  have hreturn : target .return (code img i) = returnCode img := (target_code i (by decide)).trans rfl
  have hend : ∀ u : X86.Cpu, u.reg = s.reg → u.mem = s.mem → u.out = s.out →
      ∃ t, t.reg .esp = s.reg .esp ∧ t.mem = s.mem.storeWord (s.reg .esp + 24) (-1) ∧ t.out = s.out ∧
        ∀ c, Reaches (step (callMachine run) (code img i)) (returnCode img, t) c →
          Reaches (step (callMachine run) (code img i)) (target .syscallError (code img i), u) c := by
    intro u hreg hmem hout
    refine ⟨u.exec (.store (.imm (-1)) (rel 24 .ebp)), ?_, ?_, hout, fun c hc => ?_⟩
    · rw [exec, hreg]
    · show u.mem.storeWord (24 + u.reg .ebp + 0) (-1) = _
      rw [hreg, hmem, hebp, add_zero, add_comm]
    · rw [target_code i (by decide)]
      refine reaches_op (reaches_jump_of_holds rfl ?_)
      rwa [hreturn]
  rcases syscallOf_cases (s.reg .eax) with ⟨hlow, -⟩ | ⟨hlow, hhigh, -⟩ | ⟨-, -, hlt, hsome⟩
  · obtain ⟨t, hesp, hmem, hout, hreach⟩ := hend (s.exec (.cmpImm 1 (.reg .eax))) rfl rfl rfl
    have hl : (s.exec (.cmpImm 1 (.reg .eax))).holds .l = true :=
      (holds_l_cmpImm s 1 (.reg .eax)).trans (decide_eq_true hlow)
    exact ⟨t, hesp, hmem, hout, fun c hc => reaches_op (reaches_jump_of_holds hl (hreach c hc))⟩
  · obtain ⟨t, hesp, hmem, hout, hreach⟩ := hend
      ((s.exec (.cmpImm 1 (.reg .eax))).exec (.cmpImm 12 (.reg .eax))) rfl rfl rfl
    have hl : (s.exec (.cmpImm 1 (.reg .eax))).holds .l = false :=
      (holds_l_cmpImm s 1 (.reg .eax)).trans (decide_eq_false (not_lt_of_ge hlow))
    have hg : ((s.exec (.cmpImm 1 (.reg .eax))).exec (.cmpImm 12 (.reg .eax))).holds .g = true :=
      (holds_g_cmpImm (s.exec (.cmpImm 1 (.reg .eax))) 12 (.reg .eax)).trans (decide_eq_true hhigh)
    exact ⟨t, hesp, hmem, hout, fun c hc => reaches_op (reaches_jump_of_not hl (reaches_op
      (reaches_jump_of_holds hg (hreach c hc))))⟩
  · rw [hsome, List.getElem?_eq_getElem hlt] at hnone
    cases hnone

/-- A number that is in the table: the call, and its result in the place of `eax`. -/
theorem reaches_syscallCode (hebp : s.reg .ebp = s.reg .esp) {n : Syscall}
    (hsome : syscallOf (s.reg .eax) = some n)
    (hf : s.mem.loadWord (img.syscallTable + BitVec.ofNat 32 (4 * (s.reg .eax - 1).toNat)) =
      img.syscall n) (hret : Returns run (img.syscall n) (s.reg .esp)) :
    ∃ s' t, Called run (img.syscall n) [] s s' ∧ t.reg .esp = s.reg .esp ∧
      t.mem = s'.mem.storeWord (s.reg .esp + 24) (s'.reg .eax) ∧ t.out = s'.out ∧
      ∀ c, Reaches (step (callMachine run) (code img i)) (returnCode img, t) c →
        Reaches (step (callMachine run) (code img i)) (target .handleSyscall (commonCode img), s) c := by
  have hreturn : target .return (code img i) = returnCode img := (target_code i (by decide)).trans rfl
  rcases syscallOf_cases (s.reg .eax) with ⟨-, hnone⟩ | ⟨-, -, hnone⟩ | ⟨hlow, hhigh, -, -⟩
  · cases hsome.symm.trans hnone
  · cases hsome.symm.trans hnone
  obtain ⟨u, hu⟩ : ∃ u, u = (((s.exec (.cmpImm 1 (.reg .eax))).exec (.cmpImm 12 (.reg .eax))).exec
    (.subl 1 .eax)).exec (.load (.mem ⟨img.syscallTable, none, some (.eax, 4)⟩) .eax) := ⟨_, rfl⟩
  have hl : (s.exec (.cmpImm 1 (.reg .eax))).holds .l = false :=
    (holds_l_cmpImm s 1 (.reg .eax)).trans (decide_eq_false (not_lt_of_ge hlow))
  have hg : ((s.exec (.cmpImm 1 (.reg .eax))).exec (.cmpImm 12 (.reg .eax))).holds .g = false :=
    (holds_g_cmpImm (s.exec (.cmpImm 1 (.reg .eax))) 12 (.reg .eax)).trans
      (decide_eq_false (not_lt_of_ge hhigh))
  have heax : u.reg .eax = img.syscall n := by
    have hindex : (s.reg .eax - 1) * 4 = BitVec.ofNat 32 (4 * (s.reg .eax - 1).toNat) := by
      rw [Nat.mul_comm, BitVec.ofNat_mul, BitVec.ofNat_toNat, BitVec.setWidth_eq]
      rfl
    rw [← hf, ← hindex, hu]
    simp [exec, value, address]
  have hesp : u.reg .esp = s.reg .esp := by
    rw [hu]
    simp [exec]
  have hebp' : u.reg .ebp = s.reg .esp := by
    rw [hu, ← hebp]
    simp [exec]
  have hmem : u.mem = s.mem := by
    rw [hu]
    rfl
  have hout : u.out = s.out := by
    rw [hu]
    rfl
  obtain ⟨s', hs'⟩ : ∃ s', s' = run (img.syscall n) (u.push (img.after .switchEnd)) := ⟨_, rfl⟩
  have hback : s'.reg .esp = s.reg .esp ∧ s'.reg .ebp = s.reg .esp := by
    obtain ⟨hstack, hframe⟩ := hret u (img.after .switchEnd) hesp
    rw [hs']
    exact ⟨hstack, hframe.trans hebp'⟩
  refine ⟨s', s'.exec (.store (.reg .eax) (rel 24 .ebp)), ?_, hback.1, ?_, rfl, fun c hc => ?_⟩
  · rw [hs']
    refine called_push ?_ ?_ hout (by simp) _
    · exact hesp.trans (BitVec.sub_zero _).symm
    · exact hmem
  · show s'.mem.storeWord (24 + s'.reg .ebp + 0) (s'.reg .eax) = _
    rw [hback.2, add_zero, add_comm]
  · have hexec : execCall run (.callReg .eax (img.after .switchEnd)) u = s' := by
      rw [execCall, heax, hs']
    subst hu
    rw [← hexec, ← hreturn] at hc
    exact reaches_op (reaches_jump_of_not hl (reaches_op (reaches_jump_of_not hg (reaches_op (reaches_op
      (reaches_op (reaches_label (reaches_op (reaches_jump_of_holds rfl hc)))))))))

end syscall

/-! ## From the entry to the `iret` -/

/-- The words of a context. -/
theorem words_contextAt (m : Memory 32) (a : Word) :
    (contextAt m a).words = m.loadWords a contextSize := rfl

/-- A register of a context, stored by assembly code. -/
theorem contextAt_storeWord (m : Memory 32) (a v : Word) :
    contextAt (m.storeWord (a + 24) v) a = (contextAt m a).setReg 6 v := by
  have hrow := loadWords_storeWord (k := 6) (n := contextSize) (by decide) (by decide) m a v
  rw [← HwContext.ofWords_words ((contextAt m a).setReg 6 v), HwContext.words_setReg, words_contextAt]
  exact congrArg HwContext.ofWords hrow

/-- What is stored below a context leaves it alone. -/
theorem contextAt_storeWords (m : Memory 32) (a : Word) {ws : List Word} {k : ℕ}
    (hws : 4 * ws.length ≤ k) (hk : k + 4 * contextSize ≤ 2 ^ 32) :
    contextAt (m.storeWords (a - BitVec.ofNat 32 k) ws) a = contextAt m a := by
  refine congrArg HwContext.ofWords (loadWords_congr fun x hx => ?_)
  refine storeWords_of_outside _ (Nat.le_of_not_lt fun hlt => ?_)
  have hle := le_toNat_sub_add (a := a - BitVec.ofNat 32 k) hk (hlt.trans_le hws)
  rw [sub_add_cancel] at hle
  exact absurd hx (Nat.not_lt_of_le hle)

/-- **What is taken for granted**: the tables are in memory, and not in the next bytes of the stack. -/
structure Ready (img : Image) (s : X86.Cpu) : Prop where
  syscalls : s.mem.loadWords img.syscallTable 12 = img.syscallWords
  handlers : s.mem.loadWords img.picTable 16 = img.picWords
  apart : ∀ x : Word, (x - img.syscallTable).toNat < 48 ∨ (x - img.picTable).toNat < 64 →
    64 ≤ (x - (s.reg .esp - 64)).toNat

section entry

variable {i : Isr} {s : X86.Cpu}

/-- A byte that is not in the next 64 bytes of the stack. -/
theorem le_of_apart {x e : Word} (h : 64 ≤ (x - (e - 64)).toNat) {k : ℕ} (hk : k ≤ 64) :
    k ≤ (x - (e - BitVec.ofNat 32 k)).toNat := by
  have hsplit : (64 : Word) = BitVec.ofNat 32 (64 - k) + BitVec.ofNat 32 k := by
    rw [← BitVec.ofNat_add, Nat.sub_add_cancel hk]
    rfl
  have haddr : e - BitVec.ofNat 32 k = e - 64 + BitVec.ofNat 32 (64 - k) := by
    rw [hsplit]
    abel
  have hdist := toNat_sub_add (x := x) (a := e - 64) (k := 64 - k) (by omega)
  rw [haddr, hdist]
  omega

/-- Pushes leave a row alone that is not in the next 64 bytes of the stack. -/
theorem loadWords_of_apart {a : Word} {n : ℕ}
    (h : ∀ x : Word, (x - a).toNat < 4 * n → 64 ≤ (x - (s.reg .esp - 64)).toNat) (ws : List Word)
    (hws : ws.length ≤ 16) : (s.pushAll ws).mem.loadWords a n = s.mem.loadWords a n := by
  refine loadWords_congr fun x hx => ?_
  rw [mem_pushAll s ws (by omega), esp_pushAll]
  refine storeWords_of_outside _ ?_
  rw [List.length_reverse]
  exact le_of_apart (h x hx) (by omega)

theorem length_words (i : Isr) : i.words.length ≤ 2 := by
  rw [Isr.words]
  split
  · exact le_rfl
  · exact Nat.le_succ 1

theorem number_entered (i : Isr) (s : X86.Cpu) :
    (i.entered s).mem.loadWord (i.context s + 40) = i.number ∧
      (i.entered s).mem.loadWord (i.context s + 44) = i.error s := by
  have hcontext := i.contextAt_entered s
  have hnumber := word_contextAt (i.entered s).mem (i.context s) (k := 10) (by decide)
  have herror := word_contextAt (i.entered s).mem (i.context s) (k := 11) (by decide)
  rw [hcontext] at hnumber herror
  exact ⟨hnumber.symm, herror.symm⟩

theorem toInt_number (i : Isr) : i.number.toInt = i.pushes.2 := by
  cases i
  all_goals rfl

/-- Up to the comparison. -/
theorem reaches_compared {c : Code × X86.Cpu}
    (hexception : 0 < i.pushes.2 → Reaches (step (callMachine run) (code img i))
      (target .handleException (commonCode img), compared (i.entered s)) c)
    (hpic : i.pushes.2 < 0 → Reaches (step (callMachine run) (code img i))
      (target .handlePic (commonCode img), compared (i.entered s)) c)
    (hsyscall : i.pushes.2 = 0 → Reaches (step (callMachine run) (code img i))
      (target .handleSyscall (commonCode img), compared (i.entered s)) c) :
    Reaches (step (callMachine run) (code img i)) (code img i, s) c := by
  have hnumber := (number_entered i s).1
  refine reaches_common i s ?_
  rcases lt_trichotomy i.pushes.2 0 with hneg | hzero | hpos
  · exact reaches_pic hnumber (by rwa [toInt_number]) (hpic hneg)
  · have hword : i.number = 0 := by
      rw [Isr.number, hzero]
      rfl
    exact reaches_syscall (hnumber.trans hword) (hsyscall hzero)
  · exact reaches_exception hnumber (by rwa [toInt_number]) (hexception hpos)

/-- The processor at `common_isr` with the context on the stack at `a`. -/
structure Entered (i : Isr) (s : X86.Cpu) (t : X86.Cpu) : Prop where
  esp : t.reg .esp = i.context s
  context : contextAt t.mem (i.context s) = (i.program s).enter (i.error s) i.number
  out : t.out = s.out

theorem entered_compared (i : Isr) (s : X86.Cpu) : Entered i s (compared (i.entered s)) :=
  ⟨esp_compared _, i.contextAt_entered s, out_pushAll s _⟩

theorem ebp_entered (i : Isr) (s : X86.Cpu) :
    (compared (i.entered s)).reg .ebp = (compared (i.entered s)).reg .esp := by
  rw [ebp_compared, esp_compared]

theorem eax_entered (i : Isr) (s : X86.Cpu) : (compared (i.entered s)).reg .eax = s.reg .eax := by
  rw [eax_compared, Isr.entered, reg_pushAll _ _ _ (by decide)]

/-- The entry of a table, when the context is on the stack and perhaps one word more. -/
theorem syscall_loaded (hready : Ready img s) (ws : List Word) (hws : ws.length ≤ 16) {n : Syscall}
    (hn : syscallOf (s.reg .eax) = some n) :
    (s.pushAll ws).mem.loadWord (img.syscallTable + BitVec.ofNat 32 (4 * (s.reg .eax - 1).toNat)) =
      img.syscall n := by
  rcases syscallOf_cases (s.reg .eax) with ⟨-, hnone⟩ | ⟨-, -, hnone⟩ | ⟨-, -, hlt, hsome⟩
  · cases hn.symm.trans hnone
  · cases hn.symm.trans hnone
  have hrow := loadWords_of_apart (n := 12) (fun x hx => hready.apart x (Or.inl hx)) ws hws
  rw [hready.syscalls] at hrow
  rw [hn] at hsome
  rw [← getD_loadWords _ _ hlt 0, hrow, Image.syscallWords, List.getD_eq_getElem?_getD,
    List.getElem?_map, ← hsome]
  rfl

/-- The function for the number in `eax`. -/
theorem syscall_entered (hready : Ready img s) {n : Syscall} (hn : syscallOf (s.reg .eax) = some n) :
    (compared (Isr.syscall.entered s)).mem.loadWord (img.syscallTable +
      BitVec.ofNat 32 (4 * ((compared (Isr.syscall.entered s)).reg .eax - 1).toNat)) =
        img.syscall n := by
  rw [eax_entered]
  exact syscall_loaded hready (Isr.syscall.words ++ Isr.saved s)
    (Nat.add_le_add (length_words .syscall) (by decide : 10 ≤ 14)) hn

theorem handler_loaded (hready : Ready img s) (ws : List Word) (hws : ws.length ≤ 16) {n : ℕ}
    (hn : n < 16) {h : Handler} (hh : picIsrJmpTab[n]? = some (some h)) :
    (s.pushAll ws).mem.loadWord (img.picTable + BitVec.ofNat 32 (4 * n)) = img.handler h := by
  have hrow := loadWords_of_apart (n := 16) (fun x hx => hready.apart x (Or.inr hx)) ws hws
  rw [hready.handlers] at hrow
  rw [← getD_loadWords _ _ hn 0, hrow, Image.picWords, List.getD_eq_getElem?_getD, List.getElem?_map,
    hh]
  rfl

/-- **A system call.**  For each number in `eax` the function in the table is called, with the registers
of the program as its arguments, and its result takes the place of `eax`; a number that is not in the
table gives -1 and calls nothing. -/
theorem syscall_linkage (hready : Ready img s)
    (hret : ∀ n, syscallOf (s.reg .eax) = some n →
      Returns run (img.syscall n) (Isr.syscall.context s))
    (hsig : Returns run img.checkSignals (Isr.syscall.context s - 4)) :
    let a := Isr.syscall.context s
    ∃ s₁ s₂ t, t ∈ result (callMachine run) (code img .syscall) s ∧ Entered .syscall s s₁ ∧
      (syscallOf (s.reg .eax) = none → s₂.out = s.out ∧
        contextAt s₂.mem a = ((frame s).enter 0 0).setReg 6 (-1)) ∧
      (∀ n, syscallOf (s.reg .eax) = some n → ∃ s', Called run (img.syscall n) [] s₁ s' ∧
        s₂.out = s'.out ∧ contextAt s₂.mem a = (contextAt s'.mem a).setReg 6 (s'.reg .eax)) ∧
      s₂.reg .esp = a ∧ Resumes img run a s₂ t := by
  intro a
  obtain ⟨s₁, hs₁⟩ : ∃ s₁, s₁ = compared (Isr.syscall.entered s) := ⟨_, rfl⟩
  have hentered : Entered .syscall s s₁ := hs₁ ▸ entered_compared .syscall s
  have hebp : s₁.reg .ebp = s₁.reg .esp := hs₁ ▸ ebp_entered _ s
  have heax : s₁.reg .eax = s.reg .eax := hs₁ ▸ eax_entered .syscall s
  -- what is done, up to `common_isr__return`
  obtain ⟨s₂, hesp, hnone, hsome, hreach⟩ : ∃ s₂, s₂.reg .esp = a ∧
      (syscallOf (s.reg .eax) = none → s₂.out = s.out ∧
        contextAt s₂.mem a = ((frame s).enter 0 0).setReg 6 (-1)) ∧
      (∀ n, syscallOf (s.reg .eax) = some n → ∃ s', Called run (img.syscall n) [] s₁ s' ∧
        s₂.out = s'.out ∧ contextAt s₂.mem a = (contextAt s'.mem a).setReg 6 (s'.reg .eax)) ∧
      ∀ c, Reaches (step (callMachine run) (code img .syscall)) (returnCode img, s₂) c →
        Reaches (step (callMachine run) (code img .syscall))
          (target .handleSyscall (commonCode img), s₁) c := by
    cases hnumber : syscallOf (s.reg .eax) with
    | none =>
      obtain ⟨s₂, hesp, hmem, hout, hreach⟩ := reaches_syscallError img run
        (i := .syscall) hebp (heax ▸ hnumber)
      refine ⟨s₂, hesp.trans hentered.esp, fun _ => ⟨hout.trans hentered.out, ?_⟩, nofun, hreach⟩
      rw [hmem, hentered.esp, contextAt_storeWord]
      exact congrArg (fun c : HwContext => c.setReg 6 (-1)) hentered.context
    | some n =>
      have hf : s₁.mem.loadWord (img.syscallTable + BitVec.ofNat 32 (4 * (s₁.reg .eax - 1).toNat)) =
          img.syscall n := hs₁ ▸ syscall_entered hready hnumber
      obtain ⟨s', s₂, hcalled, hesp, hmem, hout, hreach⟩ := reaches_syscallCode (i := .syscall) hebp
        (heax ▸ hnumber) hf (hentered.esp ▸ hret n hnumber)
      refine ⟨s₂, hesp.trans hentered.esp, nofun, fun n' hn' => ?_, hreach⟩
      cases hn'
      exact ⟨s', hcalled, hout, by rw [hmem, hentered.esp, contextAt_storeWord]⟩
  have hsig' : Returns run img.checkSignals (s₂.reg .esp - 4) := by
    rw [hesp]
    exact hsig
  obtain ⟨t, ht, hresumes⟩ := reaches_return (code img .syscall) s₂ hsig'
  rw [hesp] at hresumes
  refine ⟨s₁, s₂, t, mem_result (reaches_compared (fun h => absurd h (by decide))
    (fun h => absurd h (by decide)) fun _ => hs₁ ▸ hreach _ ht), hentered, hnone, hsome, hesp, hresumes⟩

/-- The system calls from 0x100000 on, and so on. -/
def someImage : Image where
  syscallTable := 0x1000
  picTable := 0x2000
  syscall n := 0x100000 + BitVec.ofNat 32 (syscallJmpTab.idxOf n)
  handler h := 0x200000 + BitVec.ofNat 32 (picIsrJmpTab.idxOf (some h))
  exceptionHandler := 0x300000
  checkSignals := 0x300001
  sigreturn := 0x300002
  after _ := 0

/-- A program that is interrupted with the tables in memory. -/
def someCpu (eax : Word) : X86.Cpu where
  reg r := if r = .eax then eax else if r = .esp then 0x8000 else 0
  seg _ := 0
  zf := false
  cf := false
  df := false
  lt := false
  mem := (Memory.storeWords (fun _ => 0) 0x1000 someImage.syscallWords).storeWords 0x2000
    someImage.picWords
  out := []

/-- Functions that return at once, with 7 in `eax`. -/
def returning : Functions := fun _ s => s.drop.set .eax 7

theorem ready_someCpu (eax : Word) : Ready someImage (someCpu eax) where
  syscalls := by
    have hout : SameOn (Memory.storeWords (fun _ => 0) 0x1000 someImage.syscallWords) (someCpu eax).mem
        0x1000 (4 * 12) := by
      intro x hx
      refine storeWords_of_outside _ ?_
      have hlen : someImage.picWords.length = 16 := rfl
      rw [hlen]
      bv_omega
    rw [show someImage.syscallTable = 0x1000 from rfl, loadWords_congr hout]
    exact loadWords_storeWords _ _ someImage.syscallWords (by decide)
  handlers := loadWords_storeWords _ _ someImage.picWords (by decide)
  apart x hx := by
    have hesp : (someCpu eax).reg .esp = 0x8000 := rfl
    rw [hesp]
    change (x - 0x1000).toNat < 48 ∨ (x - 0x2000).toNat < 64 at hx
    bv_omega

theorem returns_returning (f p : Word) : Returns returning f p := by
  intro s ret hesp
  rw [returning, reg_set_of_ne _ _ _ _ (by decide), reg_set_of_ne _ _ _ _ (by decide), esp_drop, esp_push,
    hesp, reg_drop _ _ (by decide), reg_push _ _ _ (by decide)]
  exact ⟨sub_add_cancel _ _, rfl⟩

theorem keepsArgument_returning (f p : Word) : KeepsArgument returning f p := by
  intro s ret hesp
  have hbehind := loadWord_storeWord_of_le (k := 4) (by decide) (by decide) s.mem (s.reg .esp - 4) ret
  have hback : s.reg .esp - 4 + BitVec.ofNat 32 4 = p := (sub_add_cancel _ _).trans hesp
  rw [hback] at hbehind
  rw [returning, mem_set, mem_drop, mem_push, hbehind]

/-- System call 3, which is `syscall_read`, returns 7. -/
theorem syscall_linkage_read :
    ∃ t ∈ result (callMachine returning) (code someImage .syscall) (someCpu 3), (frame t).eax = 7 := by
  obtain ⟨s₁, s₂, t, ht, -, -, hsome, hesp, s₃, ⟨u, ret, hu, humem, -, rfl⟩, hframe, -⟩ :=
    syscall_linkage (ready_someCpu 3) (fun n _ => returns_returning (someImage.syscall n) _)
      (returns_returning someImage.checkSignals _)
  obtain ⟨s', ⟨v, ret', -, -, -, hs'⟩, -, hcontext⟩ := hsome .read rfl
  have heax : s'.reg .eax = 7 := by
    rw [hs']
    exact reg_set_self _ _ _
  rw [heax] at hcontext
  have hkept := contextAt_storeWords s₂.mem (s₂.reg .esp) (k := 8)
    (le_refl (4 * [ret, Isr.syscall.context (someCpu 3)].length)) (by decide)
  rw [hu, hesp] at humem
  rw [hesp, hcontext] at hkept
  refine ⟨t, ht, ?_⟩
  rw [hframe, returning, mem_set, mem_drop, humem]
  exact congrArg (fun c => (selectors (Signals.Cpu.leave c)).eax) hkept

/-! ## `syscall_sigreturn` -/

/-- The state at the end of `syscall_sigreturn`. -/
def sigreturnEnd (img : Image) (run : Functions) (s : X86.Cpu) : X86.Cpu :=
  let t := (s.exec (.leal (rel 4 .esp) .eax)).exec (.push (.reg .eax))
  let t := run img.sigreturn (t.push (img.after .handleSyscall))
  ((t.exec (.addl 4 .esp)).exec (.load (.mem (rel 28 .esp)) .eax)).drop

theorem mem_result_sigreturn (img : Image) (run : Functions) (s : X86.Cpu) :
    sigreturnEnd img run s ∈ result (callMachine run) (syscallSigreturn img) s :=
  mem_result (reaches_op (reaches_op (reaches_op (reaches_op (reaches_op (reaches_op
    Relation.ReflTransGen.refl))))))

/-- It calls `_syscall_sigreturn` with the address behind the return address, and takes `eax` from the
context there. -/
theorem sigreturnEnd_spec (s : X86.Cpu) (hret : Returns run img.sigreturn (s.reg .esp - 4)) :
    ∃ s', Called run img.sigreturn [s.reg .esp + 4] s s' ∧ (sigreturnEnd img run s).mem = s'.mem ∧
      (sigreturnEnd img run s).out = s'.out ∧ (sigreturnEnd img run s).reg .esp = s.reg .esp + 4 ∧
      (sigreturnEnd img run s).reg .ebp = s.reg .ebp ∧
      (sigreturnEnd img run s).reg .eax = s'.mem.loadWord (s.reg .esp + 4 + 24) := by
  obtain ⟨u, hu⟩ : ∃ u, u = (s.exec (.leal (rel 4 .esp) .eax)).exec (.push (.reg .eax)) := ⟨_, rfl⟩
  have hesp : u.reg .esp = s.reg .esp - 4 := by
    rw [hu]
    simp [exec]
  have hebp : u.reg .ebp = s.reg .ebp := by
    rw [hu]
    simp [exec]
  have hmem : u.mem = s.mem.storeWord (u.reg .esp) (s.reg .esp + 4) := by
    rw [hu]
    simp [exec, value, address, rel, add_comm]
  obtain ⟨s', hs'⟩ : ∃ s', s' = run img.sigreturn (u.push (img.after .handleSyscall)) := ⟨_, rfl⟩
  have hend : sigreturnEnd img run s =
      ((s'.exec (.addl 4 .esp)).exec (.load (.mem (rel 28 .esp)) .eax)).drop := by
    rw [hs', hu]
    rfl
  have hback : s'.reg .esp = s.reg .esp - 4 := hs' ▸ (hret u _ hesp).1
  have hkept : s'.reg .ebp = s.reg .ebp := by
    rw [hs', (hret u _ hesp).2, hebp]
  have hsum : s.reg .esp + 4 + 24 = s.reg .esp + 28 := add_assoc _ _ _
  refine ⟨s', ?_, by rw [hend]; rfl, by rw [hend]; rfl, ?_, ?_, ?_⟩
  · rw [hs']
    exact called_push hesp hmem (by rw [hu]; rfl) (by simp) _
  · rw [hend]
    simp [exec, hback]
  · rw [hend]
    simp [exec, hkept]
  · rw [hend, hsum]
    simp [exec, value, address, rel, hback, add_comm]

/-- **The system call of `sigreturn_linkage`.**  `_syscall_sigreturn` is called with the context on the
stack, and the program goes on with the whole context that it leaves: what is stored over `eax` is what
is there. -/
theorem sigreturn_resumes (hready : Ready img s) (hten : s.reg .eax = 10)
    (hcode : ∀ s, run (img.syscall .sigreturn) s ∈
      result (callMachine run) (syscallSigreturn img) s)
    (hret : Returns run img.sigreturn (Isr.syscall.context s - 8))
    (hsig : Returns run img.checkSignals (Isr.syscall.context s - 4)) :
    let a := Isr.syscall.context s
    ∃ s₁ u ret s' s₂ t, t ∈ result (callMachine run) (code img .syscall) s ∧ Entered .syscall s s₁ ∧
      u.reg .esp = a - 4 ∧ u.mem = s₁.mem.storeWord (a - 4) ret ∧ u.out = s.out ∧
      Called run img.sigreturn [a] u s' ∧ contextAt s₂.mem a = contextAt s'.mem a ∧
      s₂.out = s'.out ∧ s₂.reg .esp = a ∧ Resumes img run a s₂ t := by
  intro a
  have hrun : ∀ s, run (img.syscall .sigreturn) s = sigreturnEnd img run s := fun s =>
    Part.mem_unique (hcode s) (mem_result_sigreturn img run s)
  have hinner : ∀ v : X86.Cpu, v.reg .esp = a - 4 → Returns run img.sigreturn (v.reg .esp - 4) := by
    intro v hv
    rw [hv, sub_sub]
    exact hret
  obtain ⟨s₁, hs₁⟩ : ∃ s₁, s₁ = compared (Isr.syscall.entered s) := ⟨_, rfl⟩
  have hentered : Entered .syscall s s₁ := hs₁ ▸ entered_compared .syscall s
  have hreturns : Returns run (img.syscall .sigreturn) (s₁.reg .esp) := by
    intro v ret hv
    rw [hentered.esp] at hv ⊢
    have hesp : (v.push ret).reg .esp = a - 4 := by rw [esp_push, hv]
    obtain ⟨-, -, -, -, hback, hebp, -⟩ := sigreturnEnd_spec (v.push ret) (hinner _ hesp)
    rw [hrun, hback, hebp, hesp, sub_add_cancel, reg_push _ _ _ (by decide)]
    exact ⟨rfl, rfl⟩
  have hebp : s₁.reg .ebp = s₁.reg .esp := hs₁ ▸ ebp_entered _ s
  have heax : s₁.reg .eax = s.reg .eax := hs₁ ▸ eax_entered .syscall s
  have hnumber : syscallOf (s.reg .eax) = some .sigreturn := by
    rw [hten]
    rfl
  have hf : s₁.mem.loadWord (img.syscallTable + BitVec.ofNat 32 (4 * (s₁.reg .eax - 1).toNat)) =
      img.syscall .sigreturn := hs₁ ▸ syscall_entered hready hnumber
  obtain ⟨v, s₂, ⟨u, ret, huesp, humem, huout, hv⟩, hesp, hmem, hout, hreach⟩ :=
    reaches_syscallCode (i := .syscall) hebp (heax ▸ hnumber) hf hreturns
  have haddr : u.reg .esp = a - 4 := by
    rw [huesp, hentered.esp]
    rfl
  rw [hrun] at hv
  obtain ⟨s', hcalled, hvmem, hvout, -, -, hveax⟩ := sigreturnEnd_spec u (hinner u haddr)
  rw [← hv] at hvmem hvout hveax
  have hback : u.reg .esp + 4 = a := by
    rw [haddr, sub_add_cancel]
  rw [hback] at hcalled hveax
  have hesp' : s₂.reg .esp = a := hesp.trans hentered.esp
  have hsig' : Returns run img.checkSignals (s₂.reg .esp - 4) := by
    rw [hesp']
    exact hsig
  obtain ⟨t, ht, hresumes⟩ := reaches_return (code img .syscall) s₂ hsig'
  rw [hesp'] at hresumes
  refine ⟨s₁, u, ret, s', s₂, t, mem_result (reaches_compared (fun h => absurd h (by decide))
    (fun h => absurd h (by decide)) fun _ => hs₁ ▸ hreach _ ht), hentered, haddr, ?_,
      huout.trans hentered.out, hcalled, ?_, hout.trans hvout, hesp', hresumes⟩
  · rw [humem, haddr]
    rfl
  · have hsame : (contextAt s'.mem a).regs 6 = s'.mem.loadWord (a + 24) :=
      getD_loadWords s'.mem a (k := 6) (by decide : 6 < contextSize) 0
    rw [hmem, hentered.esp, contextAt_storeWord, hvmem, hveax, ← hsame]
    exact congrArg (fun regs => { contextAt s'.mem a with regs := regs }) (Function.update_eq_self ..)

/-- Functions that return at once, but for `syscall_sigreturn`. -/
def returningToContext : Functions := fun f s =>
  if f = someImage.syscall .sigreturn then sigreturnEnd someImage returning s else returning f s

/-- `eax` is what is in the context, and not what `_syscall_sigreturn` returns. -/
theorem sigreturn_resumes_ten :
    ∃ t ∈ result (callMachine returningToContext) (code someImage .syscall) (someCpu 10),
      (frame t).eax = 10 := by
  have hreturns : ∀ f p, f ≠ someImage.syscall .sigreturn → Returns returningToContext f p := by
    intro f p hf s ret hesp
    rw [returningToContext, if_neg hf]
    exact returns_returning f p s ret hesp
  have hcode : ∀ s, returningToContext (someImage.syscall .sigreturn) s ∈
      result (callMachine returningToContext) (syscallSigreturn someImage) s := by
    intro s
    have hinner : sigreturnEnd someImage returningToContext s = sigreturnEnd someImage returning s := by
      rw [sigreturnEnd, sigreturnEnd, returningToContext, if_neg (by decide)]
    rw [returningToContext, if_pos rfl, ← hinner]
    exact mem_result_sigreturn someImage returningToContext s
  obtain ⟨s₁, u, ret, s', s₂, t, ht, hentered, huesp, humem, -, ⟨v, ret', hvesp, hvmem, -, hs'⟩, hcontext, -,
    hesp, s₃, ⟨x, ret'', hx, hxmem, -, hs₃⟩, hframe, -⟩ := sigreturn_resumes (ready_someCpu 10) rfl hcode
      (hreturns _ _ (by decide)) (hreturns _ _ (by decide))
  refine ⟨t, ht, ?_⟩
  -- neither of the two functions touches the context
  have hfirst : contextAt s'.mem (Isr.syscall.context (someCpu 10)) =
      contextAt s₁.mem (Isr.syscall.context (someCpu 10)) := by
    have hbelow := contextAt_storeWords s₁.mem (Isr.syscall.context (someCpu 10)) (k := 4)
      (le_refl (4 * [ret].length)) (by decide)
    have hkept := contextAt_storeWords u.mem (Isr.syscall.context (someCpu 10)) (k := 12)
      (Nat.le_add_right (4 * [ret', Isr.syscall.context (someCpu 10)].length) 4) (by decide)
    have hvaddr : v.reg .esp = Isr.syscall.context (someCpu 10) - BitVec.ofNat 32 12 := by
      rw [hvesp, huesp, sub_sub]
      rfl
    rw [hvaddr] at hvmem
    rw [hs', returningToContext, if_neg (by decide), returning, mem_set, mem_drop, hvmem, hkept, humem]
    exact hbelow
  have hlast : contextAt s₃.mem (Isr.syscall.context (someCpu 10)) =
      contextAt s₂.mem (Isr.syscall.context (someCpu 10)) := by
    have hkept := contextAt_storeWords s₂.mem (Isr.syscall.context (someCpu 10)) (k := 8)
      (le_refl (4 * [ret'', Isr.syscall.context (someCpu 10)].length)) (by decide)
    rw [hx, hesp] at hxmem
    rw [hs₃, returningToContext, if_neg (by decide), returning, mem_set, mem_drop, hxmem]
    exact hkept
  rw [hframe, hlast, hcontext, hfirst, hentered.context]
  rfl

/-- The line of a controller that an entry is for. -/
def Isr.line (i : Isr) : ℕ := (-i.pushes.2 - 1).toNat

/-- The function that is called for an interrupt or an exception, and its arguments. -/
def Isr.callee (img : Image) (i : Isr) (s : X86.Cpu) : Option (Word × List Word) :=
  if 0 < i.pushes.2 then some (img.exceptionHandler, [i.number - 1, i.error s])
  else if i.pushes.2 < 0 then
    (picIsrJmpTab[i.line]?).join.map fun h => (img.handler h, [BitVec.ofNat 32 i.line])
  else none

/-- What is written to the ports at the end of an interrupt. -/
def Isr.acknowledged (i : Isr) : List (BitVec 16 × BitVec 8) := if i.pushes.2 < 0 then eoi i.line else []

theorem line_lt (i : Isr) : i.line < 16 := by
  cases i
  all_goals decide

theorem number_of_line (i : Isr) (hneg : i.pushes.2 < 0) : -i.number - 1 = BitVec.ofNat 32 i.line := by
  revert hneg
  cases i
  all_goals decide

/-- A frame has its selectors in lower halves. -/
theorem selectors_program (i : Isr) (s : X86.Cpu) : selectors (i.program s) = i.program s := by
  have hframe : ∀ s : X86.Cpu, selectors (frame s) = frame s := by
    intro s
    have hhalf : ∀ v : BitVec 16, (v.setWidth 32).setWidth 16 = v := fun v =>
      (BitVec.setWidth_setWidth_of_le v (by decide)).trans (BitVec.setWidth_eq v)
    rw [selectors, frame, hhalf, hhalf, hhalf]
  rw [Isr.program]
  split
  · exact hframe s
  · exact hframe s.drop

/-- Behind the number and the error code the stack is as it was. -/
theorem context_add (i : Isr) (s : X86.Cpu) :
    i.context s + 48 = (if i.pushes.1 then s else s.drop).reg .esp := by
  rw [i.context_eq]
  cases hzero : i.pushes.1 with
  | true =>
    have hlen : i.words.length = 2 := congrArg List.length (if_pos hzero)
    rw [hlen]
    exact sub_add_cancel _ _
  | false =>
    have hlen : i.words.length = 1 := congrArg List.length (if_neg (ne_true_of_eq_false hzero))
    rw [hlen, if_neg Bool.false_ne_true, esp_drop, sub_add_eq_add_sub, add_sub_assoc]
    rfl

/-- **An interrupt or an exception.**  The function for it is called, an interrupt is acknowledged to its
controllers, `check_signals` is called, and the program goes on from the context; so it goes on as it
was if the context is.  The calls have to return.  The one of `pit_isr` does not when it switches to
another process or starts a shell. -/
theorem interrupt_linkage (hready : Ready img s) {f : Word} {args : List Word}
    (hf : i.callee img s = some (f, args))
    (hret : Returns run f (i.context s - BitVec.ofNat 32 (4 * args.length)))
    (hkeep : i.pushes.2 < 0 → KeepsArgument run f (i.context s - 4))
    (hsig : Returns run img.checkSignals (i.context s - 4)) :
    ∃ s₁ s' s₂ t, t ∈ result (callMachine run) (code img i) s ∧ Entered i s s₁ ∧
      Called run f args s₁ s' ∧ s₂.reg .esp = i.context s ∧ s₂.mem = s'.mem ∧
      s₂.out = i.acknowledged ++ s'.out ∧ Resumes img run (i.context s) s₂ t ∧
      t.reg .esp = (if i.pushes.1 then s else s.drop).reg .esp ∧
      (contextAt t.mem (i.context s) = contextAt s₁.mem (i.context s) → frame t = i.program s) := by
  obtain ⟨s₁, hs₁⟩ : ∃ s₁, s₁ = compared (i.entered s) := ⟨_, rfl⟩
  have hentered : Entered i s s₁ := hs₁ ▸ entered_compared i s
  have hebp : s₁.reg .ebp = s₁.reg .esp := hs₁ ▸ ebp_entered _ s
  have hnumber : s₁.mem.loadWord (s₁.reg .esp + 40) = i.number := by
    rw [hentered.esp, hs₁]
    exact (number_entered i s).1
  have herror : s₁.mem.loadWord (s₁.reg .esp + 44) = i.error s := by
    rw [hentered.esp, hs₁]
    exact (number_entered i s).2
  -- what is done, up to `common_isr__return`
  obtain ⟨s', s₂, hcalled, hesp, hmem, hout, hreach⟩ : ∃ s' s₂, Called run f args s₁ s' ∧
      s₂.reg .esp = i.context s ∧ s₂.mem = s'.mem ∧ s₂.out = i.acknowledged ++ s'.out ∧
      ∀ c, Reaches (step (callMachine run) (code img i)) (returnCode img, s₂) c →
        Reaches (step (callMachine run) (code img i)) (code img i, s) c := by
    rcases lt_trichotomy i.pushes.2 0 with hneg | hzero | hpos
    · rw [Isr.callee, if_neg (not_lt_of_gt hneg), if_pos hneg, Option.map_eq_some_iff] at hf
      obtain ⟨h, hh, hfun⟩ := hf
      cases hfun
      have hentry : picIsrJmpTab[i.line]? = some (some h) := Option.join_eq_some_iff.mp hh
      have hload : (s₁.mem.storeWord (s₁.reg .esp - 4) (BitVec.ofNat 32 i.line)).loadWord
          (img.picTable + BitVec.ofNat 32 (4 * i.line)) = img.handler h := by
        have hrow := handler_loaded hready (i.words ++ Isr.saved s ++ [BitVec.ofNat 32 i.line])
          (by
            rw [List.length_append, List.length_append]
            exact Nat.add_le_add (Nat.add_le_add (length_words i) (le_refl 10)) (by decide : 1 ≤ 4))
          (line_lt i) hentry
        rw [pushAll_append, mem_push] at hrow
        rw [hs₁, mem_compared, esp_compared]
        exact hrow
      obtain ⟨s', s₂, hcalled, hesp, hmem, hout, hreach⟩ := reaches_picCode (i := i) (line_lt i) hebp
        (by rw [hnumber, number_of_line i hneg]) hload (hentered.esp ▸ hret)
        (hentered.esp ▸ hkeep hneg)
      refine ⟨s', s₂, hcalled, hesp.trans hentered.esp, hmem, ?_, fun c hc => ?_⟩
      · rw [hout, Isr.acknowledged, if_pos hneg]
      · exact reaches_compared (fun h => absurd h (not_lt_of_gt hneg)) (fun _ => hs₁ ▸ hreach c hc)
          fun h => absurd h hneg.ne
    · rw [Isr.callee, hzero] at hf
      cases hf
    · rw [Isr.callee, if_pos hpos] at hf
      cases hf
      obtain ⟨s', s₂, hcalled, hesp, hmem, hout, hreach⟩ := reaches_exceptionCode
        (.label .handlePic :: (picCode img ++ returnCode img))
        ((target_code i (by decide)).trans rfl : target .return (code img i) = returnCode img)
        (hentered.esp ▸ hret) hebp
      rw [hnumber, herror] at hcalled
      refine ⟨s', s₂, hcalled, hesp.trans hentered.esp, hmem, ?_, fun c hc => ?_⟩
      · rw [hout, Isr.acknowledged, if_neg (not_lt_of_gt hpos), List.nil_append]
      · exact reaches_compared (fun _ => hs₁ ▸ hreach c hc) (fun h => absurd h (not_lt_of_gt hpos))
          fun h => absurd h hpos.ne'
  obtain ⟨t, ht, hresumes⟩ := reaches_return (code img i) s₂ (hesp ▸ hsig)
  rw [hesp] at hresumes
  refine ⟨s₁, s', s₂, t, mem_result (hreach _ ht), hentered, hcalled, hesp, hmem, hout, hresumes, ?_, ?_⟩
  · obtain ⟨-, -, -, -, -, hstack⟩ := hresumes
    rw [hstack, context_add]
  · intro hsame
    obtain ⟨s₃, -, hframe, htmem, -⟩ := hresumes
    rw [hframe, ← htmem, hsame, hentered.context, Signals.Cpu.leave_enter, selectors_program]

/-- The clock is acknowledged to both controllers. -/
theorem interrupt_linkage_rtc :
    ∃ t ∈ result (callMachine returning) (code someImage .rtc) (someCpu 0),
      t.out = [(0xA0, 0x20), (0x20, 0x20)] := by
  have hf : Isr.rtc.callee someImage (someCpu 0) = some (someImage.handler .rtcIsr, [8]) := rfl
  obtain ⟨s₁, s', s₂, t, ht, hentered, ⟨u, ret, -, -, huout, rfl⟩, -, -, hout, ⟨s₃, ⟨v, ret', -, -, hvout,
    rfl⟩, -, -, htout, -⟩, -⟩ := interrupt_linkage (ready_someCpu 0) hf (returns_returning _ _)
      (fun _ => keepsArgument_returning _ _) (returns_returning _ _)
  refine ⟨t, ht, ?_⟩
  rw [htout, returning, out_set, out_drop, hvout, hout, returning, out_set, out_drop, huout, hentered.out]
  rfl

end entry

end Linkage
end CoreOS
