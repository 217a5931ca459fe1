import CoreOS.Lib.Assembly
import CoreOS.Lib.Memory

/-!
# A part of the x86 instruction set

The general registers, the flags that conditional jumps and string instructions look at, segment
selectors, a byte memory, and what has been written to ports.  All segments begin at 0, so that a
selector does not change an address.  A string instruction with `rep` is the plain one as often as
`ecx` says.

The stack is the memory from `esp` on.  Pushes in a row are one row of words (`pushAll_eq`).  A call
is one step together with all that the function does: what a function does is a parameter, and what a
caller needs of it is a hypothesis (`Called`).
-/

namespace CoreOS
namespace X86

open Assembly

/-- The general registers. -/
inductive Reg where
  | eax
  | ecx
  | edx
  | ebx
  | esp
  | ebp
  | esi
  | edi
  deriving DecidableEq

/-- The segment registers that code can load. -/
inductive Seg where
  | ds
  | es
  | fs
  deriving DecidableEq

structure Cpu where
  reg : Reg → BitVec 32
  seg : Seg → BitVec 16
  zf : Bool
  cf : Bool
  df : Bool
  /-- Whether the sign and the overflow flag differ. -/
  lt : Bool
  mem : Memory 32
  /-- The ports and the bytes, the last one first. -/
  out : List (BitVec 16 × BitVec 8)

/-- The size of what a string instruction moves. -/
inductive Width where
  | byte
  | word
  | long

/-- The size in bytes. -/
def Width.bytes : Width → ℕ
  | byte => 1
  | word => 2
  | long => 4

/-- String instructions. -/
inductive StringOp where
  | stos (w : Width)
  | movs (w : Width)

/-- `disp(base, index, scale)`. -/
structure Addr where
  disp : BitVec 32
  base : Option Reg
  index : Option (Reg × BitVec 32)

/-- What an instruction reads. -/
inductive Operand where
  | imm (v : BitVec 32)
  | reg (r : Reg)
  | mem (a : Addr)

/-- Instructions; in each of them the destination is the last operand. -/
inductive Instr where
  | testl (src dst : Reg)
  | testlImm (imm : BitVec 32) (dst : Reg)
  | cmp (src dst : Reg)
  | cmpImm (imm : BitVec 32) (dst : Operand)
  | addl (imm : BitVec 32) (dst : Reg)
  | subl (imm : BitVec 32) (dst : Reg)
  | sublMem (imm : BitVec 32) (dst : Addr)
  | negl (dst : Reg)
  | andl (imm : BitVec 32) (dst : Reg)
  | shrl (count : ℕ) (dst : Reg)
  | movl (src dst : Reg)
  | load (src : Operand) (dst : Reg)
  | store (src : Operand) (dst : Addr)
  | leal (src : Addr) (dst : Reg)
  | push (src : Operand)
  | pushSeg (src : Seg)
  | pop (dst : Reg)
  | popSeg (dst : Seg)
  /-- `movb $imm, %al`. -/
  | movbImm (imm : BitVec 8)
  /-- `movb (base), %al`. -/
  | movbLoad (base : Reg)
  /-- `movb %al, (base)`. -/
  | movbStore (base : Reg)
  /-- `outb %al, $port`. -/
  | outb (port : BitVec 16)
  /-- `movw %ds, %dx`. -/
  | movwDsDx
  /-- `movw %dx, %es`. -/
  | movwDxEs
  | cld
  | std
  | rep (op : StringOp)

/-- Conditions of jumps. -/
inductive Cond where
  | always
  | z
  | ae
  | l
  | g
  | ge

namespace Cpu

/-- A register is written. -/
def set (s : Cpu) (r : Reg) (v : BitVec 32) : Cpu := { s with reg := Function.update s.reg r v }

/-- A segment register is loaded. -/
def setSeg (s : Cpu) (g : Seg) (v : BitVec 16) : Cpu := { s with seg := Function.update s.seg g v }

/-- An arithmetic instruction sets the flags. -/
def flags (s : Cpu) (v : BitVec 32) (carry less : Bool) : Cpu :=
  { s with zf := v == 0, cf := carry, lt := less }

/-- Whether a subtraction borrows. -/
def below (a b : BitVec 32) : Bool := a < b

/-- Whether a sum of signed numbers is negative. -/
def addLess (a b : BitVec 32) : Bool := a.toInt + b.toInt < 0

/-- An address. -/
def address (s : Cpu) (a : Addr) : BitVec 32 :=
  a.disp + a.base.elim 0 s.reg + a.index.elim 0 fun p => s.reg p.1 * p.2

/-- A value that is read. -/
def value (s : Cpu) : Operand → BitVec 32
  | .imm v => v
  | .reg r => s.reg r
  | .mem a => s.mem.loadWord (s.address a)

/-- A word is put on the stack. -/
def push (s : Cpu) (v : BitVec 32) : Cpu :=
  let t := s.set .esp (s.reg .esp - 4)
  { t with mem := t.mem.storeWord (t.reg .esp) v }

/-- The word on top of the stack. -/
def top (s : Cpu) : BitVec 32 := s.mem.loadWord (s.reg .esp)

/-- The word on top of the stack is taken off. -/
def drop (s : Cpu) : Cpu := s.set .esp (s.reg .esp + 4)

/-- Where a string instruction goes on after `n` bytes at `a`. -/
def advance (s : Cpu) (a : BitVec 32) (n : ℕ) : BitVec 32 :=
  if s.df then a - BitVec.ofNat 32 n else a + BitVec.ofNat 32 n

/-- Byte `i` of a register. -/
def regByte (s : Cpu) (r : Reg) (i : ℕ) : BitVec 8 := (s.reg r).extractLsb' (8 * i) 8

/-- A string instruction without `rep`. -/
def string (s : Cpu) : StringOp → Cpu
  | .stos w =>
    let t := { s with mem := s.mem.put (s.reg .edi) w.bytes (s.regByte .eax) }
    t.set .edi (s.advance (s.reg .edi) w.bytes)
  | .movs w =>
    let t := { s with
      mem := s.mem.put (s.reg .edi) w.bytes fun i => s.mem (s.reg .esi + BitVec.ofNat 32 i) }
    (t.set .esi (s.advance (s.reg .esi) w.bytes)).set .edi (s.advance (s.reg .edi) w.bytes)

/-- One round of `rep`. -/
def repeatOnce (op : StringOp) (s : Cpu) : Cpu :=
  let t := s.string op
  t.set .ecx (t.reg .ecx - 1)

/-- An instruction. -/
def exec (i : Instr) (s : Cpu) : Cpu :=
  match i with
  | .testl src dst =>
    let v := s.reg dst &&& s.reg src
    s.flags v false v.msb
  | .testlImm imm dst =>
    let v := s.reg dst &&& imm
    s.flags v false v.msb
  | .cmp src dst =>
    s.flags (s.reg dst - s.reg src) (below (s.reg dst) (s.reg src)) ((s.reg dst).slt (s.reg src))
  | .cmpImm imm dst =>
    s.flags (s.value dst - imm) (below (s.value dst) imm) ((s.value dst).slt imm)
  | .addl imm dst =>
    let v := s.reg dst + imm
    (s.set dst v).flags v (below v imm) (addLess (s.reg dst) imm)
  | .subl imm dst =>
    let v := s.reg dst - imm
    (s.set dst v).flags v (below (s.reg dst) imm) ((s.reg dst).slt imm)
  | .sublMem imm dst =>
    let w := s.mem.loadWord (s.address dst)
    let t := { s with mem := s.mem.storeWord (s.address dst) (w - imm) }
    t.flags (w - imm) (below w imm) (w.slt imm)
  | .negl dst =>
    let v := -s.reg dst
    (s.set dst v).flags v (s.reg dst != 0) ((0#32).slt (s.reg dst))
  | .andl imm dst =>
    let v := s.reg dst &&& imm
    (s.set dst v).flags v false v.msb
  | .shrl count dst =>
    -- the overflow flag is that of a shift by one bit; otherwise it is not defined
    let v := s.reg dst >>> count
    (s.set dst v).flags v ((s.reg dst).getLsbD (count - 1)) (s.reg dst).msb
  | .movl src dst => s.set dst (s.reg src)
  | .load src dst => s.set dst (s.value src)
  | .store src dst => { s with mem := s.mem.storeWord (s.address dst) (s.value src) }
  | .leal src dst => s.set dst (s.address src)
  | .push src => s.push (s.value src)
  | .pushSeg src => s.push ((s.seg src).setWidth 32)
  | .pop dst => s.drop.set dst s.top
  | .popSeg dst => s.drop.setSeg dst (s.top.setWidth 16)
  | .movbImm imm => s.set .eax ((s.reg .eax).extractLsb' 8 24 ++ imm)
  | .movbLoad base => s.set .eax ((s.reg .eax).extractLsb' 8 24 ++ s.mem (s.reg base))
  | .movbStore base =>
    { s with mem := s.mem.put (s.reg base) 1 fun _ => s.regByte .eax 0 }
  | .outb port => { s with out := (port, s.regByte .eax 0) :: s.out }
  | .movwDsDx => s.set .edx ((s.reg .edx).extractLsb' 16 16 ++ s.seg .ds)
  | .movwDxEs => s.setSeg .es ((s.reg .edx).setWidth 16)
  | .cld => { s with df := false }
  | .std => { s with df := true }
  | .rep op => (repeatOnce op)^[(s.reg .ecx).toNat] s

/-- A condition. -/
def holds (c : Cond) (s : Cpu) : Bool :=
  match c with
  | .always => true
  | .z => s.zf
  | .ae => !s.cf
  | .l => s.lt
  | .g => !s.zf && !s.lt
  | .ge => !s.lt

end Cpu

/-- The processor. -/
def machine : Machine Instr Cond Cpu where
  exec := Cpu.exec
  holds := Cpu.holds

@[simp] theorem machine_exec (i : Instr) (s : Cpu) : machine.exec i s = s.exec i := rfl

/-! ## Registers -/

namespace Cpu

variable (s : Cpu) (r r' : Reg) (v : BitVec 32) (carry less : Bool)

@[simp] theorem reg_set_self : (s.set r v).reg r = v := Function.update_self ..

@[simp] theorem reg_set_of_ne (h : r' ≠ r) : (s.set r v).reg r' = s.reg r' :=
  Function.update_of_ne h ..

@[simp] theorem mem_set : (s.set r v).mem = s.mem := rfl

@[simp] theorem df_set : (s.set r v).df = s.df := rfl

@[simp] theorem zf_set : (s.set r v).zf = s.zf := rfl

@[simp] theorem cf_set : (s.set r v).cf = s.cf := rfl

@[simp] theorem seg_set : (s.set r v).seg = s.seg := rfl

@[simp] theorem out_set : (s.set r v).out = s.out := rfl

@[simp] theorem reg_setSeg (g : Seg) (w : BitVec 16) : (s.setSeg g w).reg = s.reg := rfl

@[simp] theorem mem_setSeg (g : Seg) (w : BitVec 16) : (s.setSeg g w).mem = s.mem := rfl

@[simp] theorem out_setSeg (g : Seg) (w : BitVec 16) : (s.setSeg g w).out = s.out := rfl

@[simp] theorem seg_setSeg_self (g : Seg) (w : BitVec 16) : (s.setSeg g w).seg g = w :=
  Function.update_self ..

@[simp] theorem seg_setSeg_of_ne (g g' : Seg) (w : BitVec 16) (h : g' ≠ g) :
    (s.setSeg g w).seg g' = s.seg g' :=
  Function.update_of_ne h ..

@[simp] theorem reg_flags : (s.flags v carry less).reg = s.reg := rfl

@[simp] theorem mem_flags : (s.flags v carry less).mem = s.mem := rfl

@[simp] theorem seg_flags : (s.flags v carry less).seg = s.seg := rfl

@[simp] theorem out_flags : (s.flags v carry less).out = s.out := rfl

@[simp] theorem df_flags : (s.flags v carry less).df = s.df := rfl

@[simp] theorem zf_flags : (s.flags v carry less).zf = (v == 0) := rfl

@[simp] theorem cf_flags : (s.flags v carry less).cf = carry := rfl

/-- What has been loaded is in `%al`. -/
theorem regByte_movbLoad : (s.exec (.movbLoad r)).regByte .eax 0 = s.mem (s.reg r) := by
  rw [regByte, exec, reg_set_self]
  exact BitVec.extractLsb'_append_eq_right

theorem regByte_movbImm (b : BitVec 8) : (s.exec (.movbImm b)).regByte .eax 0 = b := by
  rw [regByte, exec, reg_set_self]
  exact BitVec.extractLsb'_append_eq_right

theorem out_movbImm (b : BitVec 8) : (s.exec (.movbImm b)).out = s.out := rfl

theorem out_outb (p : BitVec 16) : (s.exec (.outb p)).out = (p, s.regByte .eax 0) :: s.out := rfl

theorem regByte_outb (p : BitVec 16) (i : ℕ) : (s.exec (.outb p)).regByte r i = s.regByte r i := rfl

variable {s}

theorem advance_of_up (h : s.df = false) (a : BitVec 32) (n : ℕ) :
    s.advance a n = a + BitVec.ofNat 32 n := by
  rw [advance, h]
  rfl

theorem advance_of_down (h : s.df = true) (a : BitVec 32) (n : ℕ) :
    s.advance a n = a - BitVec.ofNat 32 n := by
  rw [advance, h]
  rfl

end Cpu

/-! ## Repetition -/

/-- **The rule of `rep`.**  `P k` holds when `k` rounds are done. -/
theorem repeat_spec {o : StringOp} {P : ℕ → Cpu → Prop} {n : ℕ}
    (hround : ∀ k < n, ∀ s, P k s → P (k + 1) (s.repeatOnce o)) {s : Cpu} (h : P 0 s)
    (hn : (s.reg .ecx).toNat = n) : P n (s.exec (.rep o)) := by
  have hiter : ∀ k ≤ n, P k ((Cpu.repeatOnce o)^[k] s) := by
    intro k hk
    induction k with
    | zero => exact h
    | succ k ih =>
      rw [Function.iterate_succ_apply']
      exact hround k hk _ (ih (Nat.le_of_succ_le hk))
  show P n ((Cpu.repeatOnce o)^[(s.reg .ecx).toNat] s)
  rw [hn]
  exact hiter n le_rfl

/-! ## Conditions -/

namespace Cpu

variable (s : Cpu) (imm : BitVec 32) (d : Operand)

/-- Less, after a comparison. -/
theorem holds_l_cmpImm : (s.exec (.cmpImm imm d)).holds .l = decide ((s.value d).toInt < imm.toInt) :=
  rfl

/-- Greater or equal, after a comparison. -/
theorem holds_ge_cmpImm :
    (s.exec (.cmpImm imm d)).holds .ge = decide (imm.toInt ≤ (s.value d).toInt) := by
  show (!decide ((s.value d).toInt < imm.toInt)) = _
  rw [← decide_not, decide_eq_decide]
  exact not_lt

/-- Greater, after a comparison. -/
theorem holds_g_cmpImm : (s.exec (.cmpImm imm d)).holds .g = decide (imm.toInt < (s.value d).toInt) := by
  show (!(s.value d - imm == 0) && !decide ((s.value d).toInt < imm.toInt)) = _
  have hzero : s.value d - imm = 0 ↔ (s.value d).toInt = imm.toInt := by
    rw [sub_eq_zero, BitVec.toInt_inj]
  rw [Bool.beq_eq_decide_eq, ← decide_not, ← decide_not, ← Bool.decide_and, decide_eq_decide, hzero]
  omega

end Cpu

/-! ## The stack -/

namespace Cpu

variable (s : Cpu) (r : Reg) (v : BitVec 32)

/-- Words are put on the stack, the first one first. -/
def pushAll (s : Cpu) (vs : List (BitVec 32)) : Cpu := vs.foldl push s

@[simp] theorem esp_push : (s.push v).reg .esp = s.reg .esp - 4 := by
  show (s.set .esp _).reg .esp = _
  exact reg_set_self ..

@[simp] theorem reg_push (h : r ≠ .esp) : (s.push v).reg r = s.reg r := reg_set_of_ne _ _ _ _ h

@[simp] theorem mem_push : (s.push v).mem = s.mem.storeWord (s.reg .esp - 4) v := by
  show s.mem.storeWord ((s.set .esp (s.reg .esp - 4)).reg .esp) v = _
  rw [reg_set_self]

@[simp] theorem seg_push : (s.push v).seg = s.seg := rfl

@[simp] theorem out_push : (s.push v).out = s.out := rfl

@[simp] theorem esp_drop : s.drop.reg .esp = s.reg .esp + 4 := reg_set_self ..

@[simp] theorem reg_drop (h : r ≠ .esp) : s.drop.reg r = s.reg r := reg_set_of_ne _ _ _ _ h

@[simp] theorem mem_drop : s.drop.mem = s.mem := rfl

@[simp] theorem seg_drop : s.drop.seg = s.seg := rfl

@[simp] theorem out_drop : s.drop.out = s.out := rfl

theorem pushAll_append (vs : List (BitVec 32)) : s.pushAll (vs ++ [v]) = (s.pushAll vs).push v := by
  rw [pushAll, List.foldl_append]
  rfl

variable (vs : List (BitVec 32))

theorem esp_pushAll : (s.pushAll vs).reg .esp = s.reg .esp - BitVec.ofNat 32 (4 * vs.length) := by
  induction vs using List.reverseRecOn with
  | nil => exact (BitVec.sub_zero _).symm
  | append_singleton vs v ih =>
    rw [pushAll_append, esp_push, ih, List.length_append, List.length_singleton, Nat.mul_succ,
      BitVec.ofNat_add, sub_add_eq_sub_sub]
    rfl

theorem reg_pushAll (h : r ≠ .esp) : (s.pushAll vs).reg r = s.reg r := by
  induction vs generalizing s with
  | nil => rfl
  | cons v vs ih => exact (ih (s.push v)).trans (reg_push s r v h)

theorem seg_pushAll : (s.pushAll vs).seg = s.seg := by
  induction vs generalizing s with
  | nil => rfl
  | cons v vs ih => exact ih (s.push v)

theorem out_pushAll : (s.pushAll vs).out = s.out := by
  induction vs generalizing s with
  | nil => rfl
  | cons v vs ih => exact ih (s.push v)

/-- **Pushes in a row are one row of words.** -/
theorem mem_pushAll (h : 4 * vs.length ≤ 2 ^ 32) :
    (s.pushAll vs).mem = s.mem.storeWords ((s.pushAll vs).reg .esp) vs.reverse := by
  induction vs using List.reverseRecOn with
  | nil => rfl
  | append_singleton vs v ih =>
    rw [List.length_append, List.length_singleton] at h
    have hback : (s.pushAll vs).reg .esp = (s.pushAll vs).reg .esp - 4 + 4 :=
      (sub_add_cancel _ _).symm
    rw [pushAll_append, mem_push, ih (by omega), esp_push, List.reverse_append, List.reverse_singleton,
      List.singleton_append]
    nth_rewrite 1 [hback]
    exact Memory.storeWord_storeWords _ _ _ _ (by rwa [List.length_reverse])

/-- What is on the stack after pushes in a row: the words, and what was there before. -/
theorem loadWords_pushAll (n : ℕ) (h : 4 * (vs.length + n) ≤ 2 ^ 32) :
    (s.pushAll vs).mem.loadWords ((s.pushAll vs).reg .esp) (vs.length + n) =
      vs.reverse ++ s.mem.loadWords (s.reg .esp) n := by
  have hold : (s.pushAll vs).reg .esp + BitVec.ofNat 32 (4 * vs.length) = s.reg .esp := by
    rw [esp_pushAll]
    exact sub_add_cancel _ _
  have hnew := Memory.loadWords_storeWords s.mem ((s.pushAll vs).reg .esp) vs.reverse
    (by rw [List.length_reverse]; omega)
  rw [List.length_reverse] at hnew
  have hframe := Memory.loadWords_storeWords_before s.mem ((s.pushAll vs).reg .esp) vs.reverse n
    (by rwa [List.length_reverse])
  rw [List.length_reverse, hold] at hframe
  rw [Memory.loadWords_add, mem_pushAll s vs (by omega), hnew, hold, hframe]

end Cpu

/-! ## Calls -/

/-- An instruction, a call, or the return at the end.  A call has the address of the line behind it. -/
inductive CallInstr where
  | plain (i : Instr)
  | call (f ret : BitVec 32)
  | callReg (f : Reg) (ret : BitVec 32)
  | ret

/-- What functions do, by their addresses, from the first instruction to the return. -/
abbrev Functions : Type := BitVec 32 → Cpu → Cpu

/-- An instruction of code that calls functions. -/
def execCall (run : Functions) (i : CallInstr) (s : Cpu) : Cpu :=
  match i with
  | .plain i => s.exec i
  | .call f ret => run f (s.push ret)
  | .callReg f ret => run (s.reg f) (s.push ret)
  | .ret => s.drop

/-- The processor, with functions that can be called. -/
def callMachine (run : Functions) : Machine CallInstr Cond Cpu where
  exec := execCall run
  holds := Cpu.holds

/-- **A call, as the function sees it**: the arguments are on the stack behind a return address, and the
rest is as it was. -/
def Called (run : Functions) (f : BitVec 32) (args : List (BitVec 32)) (s s' : Cpu) : Prop :=
  ∃ t ret, t.reg .esp = s.reg .esp - BitVec.ofNat 32 (4 * (args.length + 1)) ∧
    t.mem = s.mem.storeWords (t.reg .esp) (ret :: args) ∧ t.out = s.out ∧ s' = run f t

/-- A call of the function with the stack pointer at `p` returns: the return address is taken off the
stack, and the pointer to the frame is kept. -/
def Returns (run : Functions) (f p : BitVec 32) : Prop :=
  ∀ (s : Cpu) (ret : BitVec 32), s.reg .esp = p →
    (run f (s.push ret)).reg .esp = p ∧ (run f (s.push ret)).reg .ebp = s.reg .ebp

/-- The first argument of such a call is still on the stack after the return. -/
def KeepsArgument (run : Functions) (f p : BitVec 32) : Prop :=
  ∀ (s : Cpu) (ret : BitVec 32), s.reg .esp = p → (run f (s.push ret)).mem.loadWord p = s.mem.loadWord p

/-- The arguments are on the stack, and the function is called. -/
theorem called_push {run : Functions} {f : BitVec 32} {args : List (BitVec 32)} {s t : Cpu}
    (hesp : t.reg .esp = s.reg .esp - BitVec.ofNat 32 (4 * args.length))
    (hmem : t.mem = s.mem.storeWords (t.reg .esp) args) (hout : t.out = s.out)
    (hargs : 4 * (args.length + 1) ≤ 2 ^ 32) (ret : BitVec 32) :
    Called run f args s (run f (t.push ret)) := by
  refine ⟨t.push ret, ret, ?_, ?_, hout, rfl⟩
  · rw [Cpu.esp_push, hesp, Nat.mul_succ, BitVec.ofNat_add, sub_add_eq_sub_sub]
    rfl
  · have hback : t.reg .esp = t.reg .esp - 4 + 4 := (sub_add_cancel _ _).symm
    rw [Cpu.mem_push, hmem, Cpu.esp_push]
    nth_rewrite 1 [hback]
    exact Memory.storeWord_storeWords _ _ _ _ hargs

end X86
end CoreOS
