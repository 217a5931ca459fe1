import CoreOS.Lib.Memory
import Mathlib.Data.List.GetD

/-!
# Signals

A signal is delivered on the way back to a user program.  `check_signals` copies the registers of the
program, as the entry code of the interrupt has left them on the kernel stack, to the stack of the
program, puts the number of the signal and the address of `sigreturn_linkage` on top, and makes the
program go on in the handler.  When the handler returns it runs into the linkage, which makes a system
call, and `_syscall_sigreturn` takes the registers back from where they were put.

Three pieces of code have to agree about one layout: the pushes of `common_isr`, the structure
`hw_context_t`, and the constants in the linkage and in `syscall_sigreturn`.  So a context is both a
structure, for the code in C, and a row of words, for the code in assembly.

The memory is that of the program.  Its stack may be anywhere in it.
-/

namespace CoreOS
namespace Signals

/-- A machine word. -/
abbrev Word : Type := BitVec 32

/-! ## Contexts -/

/-- `hw_context_t`. -/
structure HwContext where
  regs : Fin 10 → Word
  irqNum : Word
  error : Word
  addr : Word
  cs : Word
  eflags : Word
  esp : Word
  ds : Word

/-- `sizeof(hw_context_t) / sizeof(uint32_t)`. -/
def contextSize : ℕ := 17

namespace HwContext

/-- The words of a context, as they are in memory. -/
def words (c : HwContext) : List Word :=
  List.ofFn c.regs ++ [c.irqNum, c.error, c.addr, c.cs, c.eflags, c.esp, c.ds]

/-- The context at a row of words. -/
def ofWords (ws : List Word) : HwContext where
  regs i := ws.getD i 0
  irqNum := ws.getD 10 0
  error := ws.getD 11 0
  addr := ws.getD 12 0
  cs := ws.getD 13 0
  eflags := ws.getD 14 0
  esp := ws.getD 15 0
  ds := ws.getD 16 0

/-- The word at a byte offset, as assembly code reads it. -/
def word (c : HwContext) (offset : ℕ) : Word := c.words.getD (offset / 4) 0

/-- The context after assembly code has stored a word at a byte offset. -/
def setWord (c : HwContext) (offset : ℕ) (v : Word) : HwContext := ofWords (c.words.set (offset / 4) v)

@[simp] theorem length_words (c : HwContext) : c.words.length = contextSize := rfl

/-- The two views are of one thing. -/
@[simp] theorem ofWords_words (c : HwContext) : ofWords c.words = c := by
  obtain ⟨regs, irqNum, error, addr, cs, eflags, esp, ds⟩ := c
  rw [ofWords, mk.injEq]
  refine ⟨?_, rfl, rfl, rfl, rfl, rfl, rfl, rfl⟩
  ext i : 1
  have hi : (i : ℕ) < (List.ofFn regs).length := by
    rw [List.length_ofFn]
    exact i.isLt
  rw [words, List.getD_append _ _ _ _ hi, List.getD_eq_getElem _ _ hi, List.getElem_ofFn]

/-- A register, overwritten. -/
def setReg (c : HwContext) (k : Fin 10) (v : Word) : HwContext :=
  { c with regs := Function.update c.regs k v }

theorem words_setReg (c : HwContext) (k : Fin 10) (v : Word) :
    (c.setReg k v).words = c.words.set k v := by
  have hregs : List.ofFn (Function.update c.regs k v) = (List.ofFn c.regs).set k v := by
    refine List.ext_getElem (by simp) fun i hi hi' => ?_
    rw [List.getElem_ofFn, List.getElem_set, List.getElem_ofFn, Function.update_apply]
    exact if_congr (by rw [Fin.ext_iff, eq_comm]) rfl rfl
  have hk : (k : ℕ) < (List.ofFn c.regs).length := by
    rw [List.length_ofFn]
    exact k.isLt
  rw [words, words, List.set_append_left _ _ hk, setReg, hregs]

end HwContext

/-! ## The processor -/

/-- The registers of a program. -/
structure Cpu where
  ebx : Word
  ecx : Word
  edx : Word
  esi : Word
  edi : Word
  ebp : Word
  eax : Word
  ds : Word
  es : Word
  fs : Word
  eip : Word
  cs : Word
  eflags : Word
  esp : Word
  ss : Word

/-- Push words, the first one first.  The head of the list is the top of the stack. -/
def push (stack ws : List Word) : List Word := ws.foldl (fun st w => w :: st) stack

namespace Cpu

/-- An interrupt out of a program: what the processor pushes, what the entry of the vector pushes, and
what `common_isr` pushes, make a context. -/
def enter (u : Cpu) (error irqNum : Word) : HwContext :=
  let stack := push [] [u.ss, u.esp, u.eflags, u.cs, u.eip]
  let stack := push stack [error, irqNum]
  let stack := push stack [u.fs, u.es, u.ds, u.eax, u.ebp, u.edi, u.esi, u.edx, u.ecx, u.ebx]
  HwContext.ofWords stack

/-- `common_isr__return`: the pops, and `iret`. -/
def leave (c : HwContext) : Cpu where
  ebx := c.word 0
  ecx := c.word 4
  edx := c.word 8
  esi := c.word 12
  edi := c.word 16
  ebp := c.word 20
  eax := c.word 24
  ds := c.word 28
  es := c.word 32
  fs := c.word 36
  eip := c.word 48
  cs := c.word 52
  eflags := c.word 56
  esp := c.word 60
  ss := c.word 64

/-- **A program that is interrupted and not disturbed goes on as if nothing had been.** -/
theorem leave_enter (u : Cpu) (error irqNum : Word) : leave (u.enter error irqNum) = u := rfl

end Cpu

/-- The six arithmetic flags. -/
def arithFlags : Word := 0x8D5

/-- `eflags` after `add` of `b` to `a`: carry, parity, auxiliary carry, zero, sign, overflow. -/
def addFlags (eflags a b : Word) : Word :=
  let r := a + b
  let flag (bit : ℕ) (on : Bool) : Word := if on then 1 <<< bit else 0
  let ones := (List.range 8).countP fun i => r.getLsbD i
  (eflags &&& ~~~arithFlags) ||| flag 0 (r < a) ||| flag 2 (ones % 2 == 0) |||
    flag 4 (15 < (a &&& 15) + (b &&& 15)) ||| flag 6 (r == 0) ||| flag 7 r.msb |||
    flag 11 (a.msb == b.msb && r.msb != a.msb)

/-! ## Delivery -/

/-- `SIG_SIZE`. -/
abbrev sigSize : ℕ := 5

/-- `SIG_DIV_ZERO`. -/
def sigDivZero : Fin sigSize := 0

/-- `SIG_SEGFAULT`. -/
def sigSegfault : Fin sigSize := 1

/-- `SIG_ALARM`. -/
def sigAlarm : Fin sigSize := 3

/-- `SIG_FLAG`. -/
def sigFlag (i : Fin sigSize) : BitVec 8 := 1 <<< i.val

/-- The part of `PCB_t` that signals use.  The null handler is 0. -/
structure Pcb where
  signals : BitVec 8
  signalHandlers : Fin sigSize → Word
  /-- Whether `parent` is not null. -/
  hasParent : Bool

/-- An interrupt that is being handled. -/
structure Trap where
  context : HwContext
  mem : Memory 32
  pcb : Pcb
  /-- The program has halted, and its parent goes on instead. -/
  halted : Bool

/-- `USER_CS`. -/
def userCs : Word := 0x23

/-- `TASK_IMG_START_ADDR`. -/
def taskImgStartAddr : Word := 0x08048000

/-- `ELF_ENTRY_OFFSET`. -/
def elfEntryOffset : Word := 24

/-- `TASK_VIRT_PAGE_END`. -/
def taskVirtPageEnd : Word := 0x8400000

namespace Trap

/-- `_syscall_halt(256, context)`: a program without a parent begins again, and any other is left for
its parent. -/
def halt (t : Trap) : Trap :=
  if t.pcb.hasParent then { t with halted := true }
  else
    { t with
      context :=
        { t.context with
          addr := t.mem.loadWord (taskImgStartAddr + elfEntryOffset)
          esp := taskVirtPageEnd } }

@[simp] theorem eflags_halt (t : Trap) : t.halt.context.eflags = t.context.eflags := by
  unfold halt
  split
  · rfl
  · rfl

/-- `task_pcb->signals &= ~mask`. -/
def clearSignal (t : Trap) (i : Fin sigSize) : Trap :=
  { t with pcb := { t.pcb with signals := t.pcb.signals &&& ~~~sigFlag i } }

/-- The branch of `check_signals` for a signal with a handler. -/
def deliver (linkage : Word) (t : Trap) (i : Fin sigSize) : Trap :=
  let userEsp := t.context.esp - BitVec.ofNat 32 (4 * contextSize)
  let mem := t.mem.storeWords userEsp t.context.words
  let userEsp := userEsp - 4
  let mem := mem.storeWord userEsp (BitVec.ofNat 32 i)
  let userEsp := userEsp - 4
  let mem := mem.storeWord userEsp linkage
  { t with
    mem := mem
    context := { t.context with esp := userEsp, addr := t.pcb.signalHandlers i } }

/-- The loop of `check_signals`, over the signals that are left. -/
def checkFrom (linkage : Word) : List (Fin sigSize) → Trap → Trap
  | [], t => t
  | i :: is, t =>
    if t.pcb.signals &&& sigFlag i = 0 then checkFrom linkage is t
    else
      let t := t.clearSignal i
      if t.pcb.signalHandlers i ≠ 0 then t.deliver linkage i
      else if i.val < 3 then
        let t := t.halt
        if t.halted then t else checkFrom linkage is t
      else checkFrom linkage is t

/-- `check_signals`. -/
def checkSignals (linkage : Word) (t : Trap) : Trap :=
  if t.pcb.signals = 0 then t
  else if t.context.cs ≠ userCs then t
  else checkFrom linkage (List.finRange sigSize) t

/-! ## Return -/

/-- `_syscall_sigreturn`. -/
def sigreturn (t : Trap) : Trap :=
  let saved := HwContext.ofWords (t.mem.loadWords t.context.esp contextSize)
  { t with context := { t.context with esp := saved.esp, addr := saved.addr, regs := saved.regs } }

end Trap

/-- The system calls. -/
inductive Syscall where
  | halt
  | execute
  | read
  | write
  | «open»
  | close
  | getargs
  | vidmap
  | setHandler
  | sigreturn
  | malloc
  | free
  deriving DecidableEq

/-- `SYSCALL_JMP_TAB`. -/
def syscallJmpTab : List Syscall :=
  [.halt, .execute, .read, .write, .open, .close, .getargs, .vidmap, .setHandler, .sigreturn, .malloc,
    .free]

/-- The system call with a number, if there is one. -/
def syscallOf (eax : Word) : Option Syscall :=
  if eax.toInt < 1 then none
  else if 12 < eax.toInt then none
  else syscallJmpTab[(eax - 1).toNat]?

namespace Trap

/-- The handler of a system call, `syscall_sigreturn` with it.  The address of the context is that of
the word after the return address, so that 28 bytes from the stack pointer are 24 from the context.
What the other calls return is not modelled. -/
def handleSyscall (t : Trap) : Trap :=
  match syscallOf (t.context.word 24) with
  | some .sigreturn =>
    let t := t.sigreturn
    let eax := t.context.word (28 - 4)
    { t with context := t.context.setWord 24 eax }
  | _ => t

end Trap

/-! ## The program -/

/-- A program that runs. -/
structure Task where
  cpu : Cpu
  mem : Memory 32
  pcb : Pcb
  halted : Bool

namespace Task

/-- The program is interrupted. -/
def enter (t : Task) (error irqNum : Word) : Trap where
  context := t.cpu.enter error irqNum
  mem := t.mem
  pcb := t.pcb
  halted := t.halted

/-- `ret`. -/
def ret (t : Task) : Task :=
  { t with cpu := { t.cpu with eip := t.mem.loadWord t.cpu.esp, esp := t.cpu.esp + 4 } }

/-- `sigreturn_linkage`, up to its `int`, which is behind its tenth byte. -/
def runLinkage (linkage : Word) (t : Task) : Task :=
  { t with
    cpu :=
      { t.cpu with
        eflags := addFlags t.cpu.eflags t.cpu.esp 4
        esp := t.cpu.esp + 4
        eax := 10
        eip := linkage + 10 } }

end Task

/-- `common_isr__return`. -/
def Trap.leave (linkage : Word) (t : Trap) : Task :=
  let t := t.checkSignals linkage
  { cpu := Cpu.leave t.context, mem := t.mem, pcb := t.pcb, halted := t.halted }

namespace Task

/-- The system call the linkage makes. -/
def sigreturn (linkage : Word) (t : Task) : Trap :=
  ((t.runLinkage linkage).enter 0 0).handleSyscall

/-- The `ret` of a handler.  If it leads to the linkage the rest follows. -/
def handlerRet (linkage : Word) (t : Task) : Task :=
  let t := t.ret
  if t.cpu.eip = linkage then (t.sigreturn linkage).leave linkage else t

/-- An interrupt, an exception or a system call that is over. -/
def interrupt (linkage : Word) (t : Task) (error irqNum : Word) : Task :=
  (t.enter error irqNum).leave linkage

end Task

end Signals
end CoreOS
