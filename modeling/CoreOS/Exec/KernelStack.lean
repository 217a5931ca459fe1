import CoreOS.Exec.Format
import CoreOS.Lib.Blocks

/-!
# `_syscall_execute` on the kernel stack

`Execute` gives the function a frame, and nothing is below the frame.  In the kernel the stack of a
process has an end: it shares 8 KB with the PCB of the process, which lies at `TASK_KSTACK_TOP`, right
where the stack would grow into it.  `filename` and `copied_args` are arrays whose lengths come from the
command, and nothing compares these with the room that is left.

## What is on the stack

A call takes the stack pointer down by the saved registers and the variables of fixed size, then by the
room of `filename`, then by the room of `copied_args`, and the functions that are called use some bytes
below that.  How many bytes these are, and to what multiple an array is rounded up, is up to the
compiler; a `Layout` holds its choices, with the stack pointer at the call.  What the compiler stores in
the frame, and what the called functions leave behind, is a `Leftover`.

The function stores nothing else before its last check.  So a call that fails is one that stores four
blocks of bytes and gives the kernel back as it was (`failed_execute`).

## When a failed call changes nothing

The memory between the PCB and the stack pointer is free, and what a call leaves there does not matter.
Everything else does: the PCB with the descriptors and with the `esp` and `ebp` to which a child
returns, below it the stacks and the PCBs of other processes, and above it the frames of the callers.
`failed_execute_iff` says when none of it changes, whatever it holds: when no pid is free, since the
function gives up before it looks at the command, and when the arrays fit.  For a longer word
`byte_stored` says what is stored instead: the word, over the PCB.
-/

namespace CoreOS
namespace Exec

open FileSys Signals Memory

/-! ## Where the stack ends -/

/-- `sizeof(PCB_t)`: eight `FILE`s of 20 bytes, `parent`, `cmd_args`, `esp` and `ebp`, the three bytes
`signals`, `pid` and `term_ind` with one of padding, `malloc_obj_count` and five handlers. -/
def sizeofPcb : ℕ := 8 * 20 + 4 * 4 + 4 + 4 + 5 * 4

/-- `&((PCB_t *) 0)->esp`. -/
def espOffset : ℕ := 8 * 20 + 2 * 4

/-- `TASK_KSTACK_TOP`. -/
def taskKstackTop (c : ℕ) : Word := BitVec.ofNat 32 (0x800000 - 0x2000 * (c + 1))

/-- The first byte behind the PCB of a process. -/
def pcbEnd (c : ℕ) : Word := taskKstackTop c + BitVec.ofNat 32 sizeofPcb

/-- **How a call is laid out** on the kernel stack of process `p`. -/
structure Layout (p : ℕ) where
  /-- `esp` before the call. -/
  esp : Word
  /-- The saved registers and the local variables of fixed size. -/
  frameSize : ℕ
  /-- The room that an array of `n` bytes is given. -/
  roomFor : ℕ → ℕ
  le_roomFor : ∀ n, n ≤ roomFor n
  /-- Twice a rounding to 16 bytes, at most. -/
  roomFor_le : ∀ n, roomFor n ≤ n + 30
  /-- What the functions that are called use below the arrays. -/
  calls : ℕ
  calls_pos : 0 < calls
  /-- The stack pointer is in the stack of the process, and the frame has room there. -/
  frame_fits : frameSize ≤ (esp - pcbEnd p).toNat
  in_stack : (esp - pcbEnd p).toNat ≤ 0x2000 - sizeofPcb

/-- What the frame holds in the end, and the bytes that the called functions have left behind. -/
structure Leftover where
  frame : CStr
  calls : CStr

namespace Layout

variable {p : ℕ} (layout : Layout p) (command : Str) (frame : Frame) (left : Leftover)

/-- The bytes between the PCB and the stack pointer. -/
def free : ℕ := (layout.esp - pcbEnd p).toNat

/-- How far below the stack pointer `filename` begins. -/
def depthOfFilename : ℕ := layout.frameSize + layout.roomFor ((firstWord command).length + 1)

/-- How far below it `copied_args` begins. -/
def depthOfArgs : ℕ := layout.depthOfFilename command + layout.roomFor ((argLen command).toNat + 1)

/-- All the bytes that the call uses. -/
def need : ℕ := layout.depthOfArgs command + layout.calls

/-- **The call fits on the stack.** -/
def Fits : Prop := layout.need command ≤ layout.free

instance : Decidable (layout.Fits command) := inferInstanceAs (Decidable (_ ≤ _))

/-- The address of `filename`. -/
def filename : Word := layout.esp - BitVec.ofNat 32 (layout.depthOfFilename command)

/-- The registers and the variables of fixed size. -/
def frameBlock : Block 32 :=
  ⟨layout.esp - BitVec.ofNat 32 layout.frameSize, layout.frameSize, left.frame⟩

/-- What the called functions leave below `filename`. -/
def callsBlock : Block 32 :=
  ⟨layout.esp - BitVec.ofNat 32 (layout.need command),
    layout.roomFor ((argLen command).toNat + 1) + layout.calls, left.calls⟩

/-- `copied_args`, into which nothing is copied if there are no arguments. -/
def argsBlock : Block 32 :=
  ⟨layout.esp - BitVec.ofNat 32 (layout.depthOfArgs command),
    if argText command = [] then 0 else (argLen command).toNat + 1, frame.copiedArgs⟩

/-- What is stored once there is a pid: the arrays, and what is called for them and for the file. -/
def arrays : List (Block 32) :=
  [⟨layout.filename command, (firstWord command).length + 1, frame.filename⟩,
    layout.callsBlock command left, layout.argsBlock command frame]

end Layout

/-- `_syscall_execute`, with what the memory of the kernel holds when the checks are over. -/
def State.executeOnStack (s : State) (fs : Image) (frame : Frame) (command : Str) (termInd : BitVec 8)
    (layout : Layout s.sys.cur) (left : Leftover) (mem : Memory 32) : Exit × Memory 32 :=
  let m := (Machine.mk s frame).parse command
  (s.syscallExecute fs frame command termInd,
    mem.putAll (layout.frameBlock left ::
      if s.sys.files.procs.freePid = none then [] else layout.arrays command m.frame left))

/-! ## What is stored -/

section layout

variable {p : ℕ} {layout : Layout p} {command : Str} {frame : Frame} {left : Leftover}

theorem Layout.free_lt (layout : Layout p) : layout.free < 2 ^ 32 := (layout.esp - pcbEnd p).isLt

theorem Layout.need_eq (layout : Layout p) (command : Str) : layout.need command =
    layout.depthOfFilename command +
      (layout.roomFor ((argLen command).toNat + 1) + layout.calls) :=
  Nat.add_assoc _ _ _

/-- Each array has the room that it needs. -/
theorem Layout.lt_depthOfFilename (layout : Layout p) (command : Str) :
    layout.frameSize + (firstWord command).length < layout.depthOfFilename command :=
  Nat.add_lt_add_left (layout.le_roomFor _) _

theorem Layout.size_argsBlock_le (layout : Layout p) (command : Str) (frame : Frame) :
    (layout.argsBlock command frame).size ≤
      layout.depthOfArgs command - layout.depthOfFilename command := by
  have hroom := layout.le_roomFor ((argLen command).toNat + 1)
  have hdepth : layout.depthOfArgs command =
    layout.depthOfFilename command + layout.roomFor ((argLen command).toNat + 1) := rfl
  dsimp only [Layout.argsBlock]
  split_ifs <;> omega

/-- The lowest block is the lowest one by far: no address wraps around. -/
theorem Layout.need_lt (layout : Layout p) (hname : (firstWord command).length < layout.free)
    (hcalls : layout.calls ≤ layout.free) : layout.need command < 2 ^ 32 := by
  have hstack : layout.free ≤ 0x2000 - sizeofPcb := layout.in_stack
  have hframe : layout.frameSize ≤ layout.free := layout.frame_fits
  have hword := layout.roomFor_le ((firstWord command).length + 1)
  have hargs := layout.roomFor_le ((argLen command).toNat + 1)
  have hlen := (argLen command).isLt
  rw [need_eq, depthOfFilename]
  omega

theorem Layout.within_frameBlock (layout : Layout p) (left : Leftover) :
    (layout.frameBlock left).Within (pcbEnd p) layout.free := by
  right
  have hfits := layout.frame_fits
  show (layout.esp - BitVec.ofNat 32 layout.frameSize - pcbEnd p).toNat + layout.frameSize ≤ layout.free
  rw [toNat_sub_ofNat_sub hfits, free]
  omega

/-- **The arrays and the calls keep to the free part of the stack** if the call fits there. -/
theorem Layout.within_arrays_iff :
    (∀ b ∈ layout.arrays command frame left, b.Within (pcbEnd p) layout.free) ↔
      layout.Fits command := by
  have hneed := layout.need_eq command
  have hword := layout.lt_depthOfFilename command
  constructor
  · intro h
    have hname := (h _ List.mem_cons_self).resolve_left (Nat.succ_ne_zero _)
    have hpos : (layout.callsBlock command left).size ≠ 0 := by
      have hcalls := layout.calls_pos
      dsimp only [callsBlock]
      omega
    have hcalls : (layout.esp - BitVec.ofNat 32 (layout.need command) - pcbEnd p).toNat +
        (layout.roomFor ((argLen command).toNat + 1) + layout.calls) ≤ layout.free :=
      (h (layout.callsBlock command left) (List.mem_cons_of_mem _ List.mem_cons_self)).resolve_left hpos
    by_contra hnot
    -- the lowest byte is below the PCB, and so far from its end
    have hlow : (layout.esp - pcbEnd p).toNat < layout.need command := Nat.lt_of_not_le hnot
    have hlt : layout.need command < 2 ^ 32 := layout.need_lt (by dsimp only at hname; omega) (by omega)
    have hfree : layout.free = (layout.esp - pcbEnd p).toNat := rfl
    rw [toNat_sub_ofNat_sub_of_lt hlow hlt] at hcalls
    omega
  · intro hfits b hb
    have hdist : ∀ k, k ≤ layout.need command →
        (layout.esp - BitVec.ofNat 32 k - pcbEnd p).toNat = layout.free - k :=
      fun k hk => toNat_sub_ofNat_sub (hk.trans hfits)
    have hle : layout.need command ≤ layout.free := hfits
    have hargs := layout.size_argsBlock_le command frame
    have hdepth : layout.depthOfArgs command ≤ layout.need command := Nat.le_add_right _ _
    right
    simp only [arrays, List.mem_cons, List.not_mem_nil, or_false] at hb
    rcases hb with rfl | rfl | rfl
    · show (layout.esp - BitVec.ofNat 32 (layout.depthOfFilename command) - pcbEnd p).toNat +
        ((firstWord command).length + 1) ≤ layout.free
      rw [hdist _ (by omega)]
      omega
    · show (layout.esp - BitVec.ofNat 32 (layout.need command) - pcbEnd p).toNat +
        (layout.roomFor ((argLen command).toNat + 1) + layout.calls) ≤ layout.free
      rw [hdist _ le_rfl]
      omega
    · show (layout.esp - BitVec.ofNat 32 (layout.depthOfArgs command) - pcbEnd p).toNat +
        (layout.argsBlock command frame).size ≤ layout.free
      rw [hdist _ hdepth]
      omega

/-- **The first word is stored** below the frame, wherever that is. -/
theorem Layout.byte_stored (layout : Layout p) (left : Leftover) (mem : Memory 32)
    (hlt : layout.need command < 2 ^ 32) {j : ℕ} (hj : j ≤ (firstWord command).length) :
    mem.putAll (layout.frameBlock left :: layout.arrays command frame left)
      (layout.filename command + BitVec.ofNat 32 j) = frame.filename j := by
  have hneed := layout.need_eq command
  have hword := layout.lt_depthOfFilename command
  have hpos : (layout.filename command + BitVec.ofNat 32 j - layout.filename command).toNat = j := by
    rw [add_sub_cancel_left, BitVec.toNat_ofNat, Nat.mod_eq_of_lt (by omega)]
  -- the other two blocks are below it
  have hbelow : ∀ k, layout.depthOfFilename command ≤ k → k ≤ layout.need command →
      (layout.filename command + BitVec.ofNat 32 j - (layout.esp - BitVec.ofNat 32 k)).toNat =
        k - layout.depthOfFilename command + j := fun k hk hle =>
    toNat_sub_ofNat_add_sub hk (by omega)
  have hnone : ∀ c ∈ [layout.callsBlock command left, layout.argsBlock command frame],
      ¬ c.Covers (layout.filename command + BitVec.ofNat 32 j) := by
    intro c hc hcov
    rcases List.mem_pair.mp hc with rfl | rfl
    · have hin : (layout.filename command + BitVec.ofNat 32 j -
          (layout.esp - BitVec.ofNat 32 (layout.need command))).toNat <
          layout.roomFor ((argLen command).toNat + 1) + layout.calls := hcov
      rw [hbelow _ (by omega) le_rfl] at hin
      omega
    · have hsize := layout.size_argsBlock_le command frame
      have hin : (layout.filename command + BitVec.ofNat 32 j -
          (layout.esp - BitVec.ofNat 32 (layout.depthOfArgs command))).toNat <
          (layout.argsBlock command frame).size := hcov
      rw [hbelow (layout.depthOfArgs command) (Nat.le_add_right _ _) (Nat.le_add_right _ _)] at hin
      omega
  have hcovers : Block.Covers ⟨layout.filename command, (firstWord command).length + 1, frame.filename⟩
      (layout.filename command + BitVec.ofNat 32 j) := by
    rw [Block.Covers, hpos]
    exact Nat.lt_succ_of_le hj
  have hstored := putAll_of_covers mem [layout.frameBlock left] hcovers hnone
  rw [hpos] at hstored
  exact hstored

/-- So it is in a call that has got a pid. -/
theorem word_stored (s : State) (fs : Image) (frame : Frame) (command : Str) (termInd : BitVec 8)
    (layout : Layout s.sys.cur) (left : Leftover) (mem : Memory 32)
    (hpid : s.sys.files.procs.freePid ≠ none) (hlt : layout.need command < 2 ^ 32) {j : ℕ}
    (hj : j < (firstWord command).length) :
    (s.executeOnStack fs frame command termInd layout left mem).2
      (layout.filename command + BitVec.ofNat 32 j) = (firstWord command)[j] := by
  have hcopy := isString_copyString command.ne_nul frame.filename (length_firstWord_le command)
  rw [firstWord_eq_take] at hcopy
  dsimp only [State.executeOnStack]
  rw [if_neg hpid, layout.byte_stored left mem hlt hj.le]
  exact hcopy.byte j hj

end layout

/-! ## Failing -/

section failing

variable (s : State) (fs : Image) (frame : Frame) (command : Str) (termInd : BitVec 8)
  (layout : Layout s.sys.cur)

/-- The function returns -1: no pid is free, there is no file of that name, or the file does not pass the
checks. -/
def Fails : Prop :=
  s.sys.files.procs.freePid = none ∨ fs.readDentryByName (cstr (firstWord command)) = none ∨
    FormatFails fs frame command

/-- **A failed call changes nothing.**  It returns -1 with the kernel as it was, and whatever the memory
held, every byte of it outside of the free part of the caller's stack is what it was. -/
def ChangesNothing : Prop :=
  Fails s fs frame command → ∀ (left : Leftover) (mem : Memory 32),
    let r := s.executeOnStack fs frame command termInd layout left mem
    r.1 = .returns (-1) s ∧
      ∀ x : Word, layout.free ≤ (x - pcbEnd s.sys.cur).toNat → r.2 x = mem x

/-- **When a failed call changes nothing**: when no pid is free, and when the call fits on the stack of
its caller. -/
theorem failed_execute_iff : ChangesNothing s fs frame command termInd layout ↔
    s.sys.files.procs.freePid = none ∨ ¬ Fails s fs frame command ∨ layout.Fits command := by
  have hframe := layout.within_frameBlock
  have hexit := (failed_execute s fs frame command termInd).2
  constructor
  · intro h
    by_cases hpid : s.sys.files.procs.freePid = none
    · exact Or.inl hpid
    by_cases hfails : Fails s fs frame command
    · have hsame := h hfails ⟨fun _ => 0, fun _ => 0⟩
      dsimp only [State.executeOnStack] at hsame
      rw [if_neg hpid] at hsame
      have hwithin := (putAll_eq_outside_iff layout.free_lt).mp fun m x hx => (hsame m).2 x hx
      exact Or.inr (Or.inr (Layout.within_arrays_iff.mp fun b hb =>
        hwithin b (List.mem_cons_of_mem _ hb)))
    · exact Or.inr (Or.inl hfails)
  · intro h hfails left mem
    refine ⟨hexit hfails, fun x hx => ?_⟩
    dsimp only [State.executeOnStack]
    refine (putAll_eq_outside_iff layout.free_lt).mpr (fun b hb => ?_) mem x hx
    rcases List.mem_cons.mp hb with rfl | hb
    · exact hframe left
    split_ifs at hb with hpid
    · exact absurd hb List.not_mem_nil
    · have hfits := (h.resolve_left hpid).resolve_left (not_not.mpr hfails)
      exact Layout.within_arrays_iff.mpr hfits b hb

end failing

/-! ## A word of 8192 bytes -/

/-- The first shell, on a machine without anything else. -/
def shell : State :=
  { idle with sys :=
    { idle.sys with files := Files.step emptyFile idle.sys.files (.tick true 0) } }

/-- A call by the shell: 256 bytes of its stack are in use, and arrays are rounded up to multiples of 16
bytes. -/
def shellLayout : Layout shell.sys.cur where
  esp := 0x7FDF00
  frameSize := 400
  roomFor n := 16 * ((n + 15) / 16)
  le_roomFor := by omega
  roomFor_le := by omega
  calls := 128
  calls_pos := by decide
  frame_fits := by decide
  in_stack := by decide

/-- The command of 8192 letters `A`. -/
def longCommand : Str := ⟨List.replicate 8192 0x41, fun c hc => by
  rw [List.eq_of_mem_replicate hc]
  decide⟩

theorem firstWord_longCommand : firstWord longCommand = List.replicate 8192 0x41 :=
  List.takeWhile_replicate.trans (if_pos (by decide))

theorem argText_longCommand : argText longCommand = [] := by
  rw [argText, firstWord_longCommand, longCommand, List.drop_length, List.dropWhile_nil]

/-- **The PCB is overwritten**: with the letters of the command, from the `FILE` of the first descriptor
to the last handler. -/
theorem pcb_overwritten (frame : Frame) (left : Leftover) (mem : Memory 32) {i : ℕ}
    (hi : i < sizeofPcb) :
    (shell.executeOnStack emptyFile frame longCommand (-1) shellLayout left mem).2
      (taskKstackTop shell.sys.cur + BitVec.ofNat 32 i) = 0x41 := by
  have hlen : (firstWord longCommand).length = 8192 := by
    rw [firstWord_longCommand, List.length_replicate]
  have hdepth : shellLayout.depthOfFilename longCommand = 8608 := by
    rw [Layout.depthOfFilename, hlen]
    rfl
  have hneed : shellLayout.need longCommand = 8752 := by
    rw [Layout.need_eq, hdepth, argLen, argText_longCommand]
    rfl
  -- the PCB begins at index 672 of `filename`
  have haddr : taskKstackTop shell.sys.cur + BitVec.ofNat 32 i =
      shellLayout.filename longCommand + BitVec.ofNat 32 (672 + i) := by
    have hbase : taskKstackTop shell.sys.cur =
        shellLayout.esp - BitVec.ofNat 32 8608 + BitVec.ofNat 32 672 := by decide
    rw [Layout.filename, hdepth, BitVec.ofNat_add, ← add_assoc, hbase]
  have hin : 672 + i < (firstWord longCommand).length := by
    rw [hlen]
    unfold sizeofPcb at hi
    omega
  have hletter : (firstWord longCommand)[672 + i] ∈ List.replicate 8192 (0x41 : BitVec 8) := by
    rw [← firstWord_longCommand]
    exact List.getElem_mem hin
  rw [haddr, word_stored _ _ _ _ _ _ _ _ (by decide) (by rw [hneed]; decide) hin]
  exact List.eq_of_mem_replicate hletter

/-- **The failing command.**  The file that a shell is to execute has a name of 8192 letters.  There is
no such file, and the PCB of the shell is gone: its saved `esp` is `0x41414141`. -/
theorem not_failed_execute : ¬ ∀ s fs frame command termInd (layout : Layout s.sys.cur),
    ChangesNothing s fs frame command termInd layout := by
  intro h
  have hname : emptyFile.readDentryByName (cstr (firstWord longCommand)) = none := by
    rw [firstWord_longCommand]
    decide
  have hsame := (h shell emptyFile staleFrame longCommand (-1) shellLayout (Or.inr (Or.inl hname))
    ⟨fun _ => 0, fun _ => 0⟩ fun _ => 0).2
  have hesp := pcb_overwritten staleFrame ⟨fun _ => 0, fun _ => 0⟩ (fun _ => 0)
    (i := espOffset) (by decide)
  rw [hsame _ (by decide)] at hesp
  exact absurd hesp (by decide)

end Exec
end CoreOS
