import CoreOS.Files.Syscalls
import CoreOS.Signals.Delivery

/-!
# The system call interrupt

`common_isr__handle_syscall`, which takes the number of a system call from `eax` and jumps through
`SYSCALL_JMP_TAB`, and the calls that take an index or an address from the next registers.

There are three tables that a call may index: the jump table, and the `open_files` and the
`signal_handlers` in the PCB of the running process.  `syscall_vidmap` stores a word at an address it
is given.  `touched` records these accesses where the code makes them, so that a statement about them
is one about the code.

In C an index past the end of an array goes on into what is behind it.  `signal_handlers` is the last
member of `PCB_t`, and `behind` holds the words after it.
-/

namespace CoreOS
namespace Sys

open FileSys Signals

/-- `TASK_VIRT_PAGE_BEG`. -/
def taskVirtPageBeg : Word := 0x8000000

/-- `TASK_VIDMEM_START`. -/
def taskVidmemStart : Word := 0x8800000

/-- The registers in which a program passes a system call and its arguments. -/
structure Regs where
  eax : Word
  ebx : Word
  ecx : Word
  edx : Word

/-- An access to a table at an index, or the store of a word at an address of the program. -/
inductive Access where
  | jmpTab (i : ℤ)
  | openFiles (fd : ℤ)
  | signalHandlers (signum : ℤ)
  | screenStart (a : Word)
  deriving DecidableEq

/-- The kernel and the programs. -/
structure State where
  files : Files.State
  /-- The words behind the PCB of each process. -/
  behind : ℕ → ℕ → Word
  /-- The memory of each program, as the program sees it. -/
  mem : ℕ → Memory 32

/-- What a call finds besides the state: the file system, the loop that `term_read` waits in, and the
memory of the program that a command names, if there is one that can be loaded. -/
structure Env where
  fs : Image
  canon : Bool
  load : Option (Memory 32)

/-- How a call ends. -/
inductive Exit where
  /-- At `common_isr__switch_end`, with a value for `eax`. -/
  | returns (ret : Word) (s : State)
  /-- In a new program. -/
  | starts (s : State)
  /-- Not yet. -/
  | waits
  /-- In one of the calls that use none of the tables. -/
  | elsewhere (c : Syscall)

/-- What a call touches, and how it ends. -/
structure Outcome where
  touched : List Access
  exit : Exit

namespace State

variable (s : State)

/-- `get_cur_pcb`. -/
def cur : ℕ := s.files.procs.cur

/-- Bytes stored in the memory of the running program. -/
def storeBytes (buf : Word) (bytes : List (BitVec 8)) : State :=
  { s with mem := Function.update s.mem s.cur fun a => bytes.getD (a - buf).toNat (s.mem s.cur a) }

/-- The memory of the running program from a pointer on. -/
def bytesFrom (buf : Word) : CStr := fun i => s.mem s.cur (buf + BitVec.ofNat 32 i)

/-- `task_pcb->signal_handlers[signum] = handler`. -/
def storeHandler (signum : ℕ) (handler : Word) : State :=
  if signum < sigSize then
    let pcb := s.files.procs.pcbs s.cur
    let v := if handler = 0 then none else some handler
    let pcb := { pcb with signalHandlers := Function.update pcb.signalHandlers signum v }
    { s with
      files := { s.files with
        procs := { s.files.procs with pcbs := Function.update s.files.procs.pcbs s.cur pcb } } }
  else
    { s with
      behind := Function.update s.behind s.cur
        (Function.update (s.behind s.cur) (signum - sigSize) handler) }

/-! ## The calls -/

/-- -1 is returned before anything is touched. -/
def refuse : Outcome := ⟨[], .returns (-1) s⟩

/-- `syscall_read`. -/
def syscallRead (env : Env) (fd buf nbytes : Word) : Outcome :=
  if buf = 0 then s.refuse
  else if fd.toInt < 0 ∨ taskMaxFiles ≤ fd.toInt then s.refuse
  else
    let f : FilePtr := ⟨s.cur, fd.toInt.toNat⟩
    { touched := [.openFiles fd.toInt]
      exit :=
        if (s.files.file f).used = false then .returns (-1) s
        else
          match s.files.opsRead env.fs f nbytes env.canon with
          | none => .waits
          | some (ret, bytes, files) =>
            .returns (BitVec.ofInt 32 ret) ({ s with files := files }.storeBytes buf bytes) }

/-- `syscall_write`. -/
def syscallWrite (fd buf nbytes : Word) : Outcome :=
  if buf = 0 then s.refuse
  else if fd.toInt < 0 ∨ taskMaxFiles ≤ fd.toInt then s.refuse
  else
    let f : FilePtr := ⟨s.cur, fd.toInt.toNat⟩
    { touched := [.openFiles fd.toInt]
      exit :=
        if (s.files.file f).used = false then .returns (-1) s
        else
          let r := s.files.opsWrite f (s.bytesFrom buf) nbytes
          .returns (BitVec.ofInt 32 r.1) { s with files := r.2 } }

/-- The descriptors that the loop of `syscall_open` looks at, of those that are left. -/
def tried : List ℕ → List ℕ
  | [] => []
  | fd :: fds => fd :: if (s.files.file ⟨s.cur, fd⟩).used then tried fds else []

/-- `syscall_open`. -/
def syscallOpen (env : Env) (filename : Word) : Outcome :=
  match env.fs.readDentryByName (s.bytesFrom filename) with
  | none => s.refuse
  | some _ =>
    { touched := (s.tried (List.range' 2 (taskMaxFiles - 2))).map fun fd : ℕ => .openFiles fd
      exit :=
        match s.files.syscallOpen env.fs s.cur (s.bytesFrom filename) with
        | none => .waits
        | some (ret, files) => .returns (BitVec.ofInt 32 ret) { s with files := files } }

/-- `syscall_close`. -/
def syscallClose (fd : Word) : Outcome :=
  if fd.toInt < 0 ∨ taskMaxFiles ≤ fd.toInt then s.refuse
  else
    let f : FilePtr := ⟨s.cur, fd.toInt.toNat⟩
    { touched := [.openFiles fd.toInt]
      exit :=
        if (s.files.file f).used = false then .returns (-1) s
        else
          let r := s.files.opsClose f
          if r.1 ≠ 0 then .returns (-1) { s with files := r.2 }
          else .returns 0 { s with files := r.2.setUsed f false } }

/-- `syscall_vidmap`. -/
def syscallVidmap (screenStart : Word) : Outcome :=
  if screenStart < taskVirtPageBeg ∨ taskVirtPageEnd ≤ screenStart then s.refuse
  else
    let mem := (s.mem s.cur).storeWord screenStart taskVidmemStart
    { touched := [.screenStart screenStart]
      exit := .returns (mem.loadWord screenStart)
        { s with mem := Function.update s.mem s.cur mem } }

/-- `syscall_set_handler`. -/
def syscallSetHandler (signum handler : Word) : Outcome :=
  if signum.toInt < 0 ∨ sigSize < signum.toInt then s.refuse
  else
    { touched := [.signalHandlers signum.toInt]
      exit := .returns 0 (s.storeHandler signum.toInt.toNat handler) }

/-- `syscall_halt`.  What it does to the context of a program without a parent is not in this
state. -/
def syscallHalt (status : Word) : Outcome :=
  match (s.files.procs.pcbs s.cur).parent with
  | none => ⟨[], .returns 0 s⟩
  | some _ =>
    { touched := (List.range' 2 (taskMaxFiles - 2)).map fun fd : ℕ => .openFiles fd
      exit := .returns (status &&& 0xFF) { s with files := s.files.halt } }

/-- `syscall_execute`. -/
def syscallExecute (env : Env) : Outcome :=
  match s.files.execute none env.load.isSome with
  | none => s.refuse
  | some files =>
    let s' : State := { s with files := files }
    { touched :=
        [.openFiles 0, .openFiles 1] ++
          ((List.range' 2 (taskMaxFiles - 2)).map fun fd : ℕ => .openFiles fd) ++
          (List.range sigSize).map fun signum : ℕ => .signalHandlers signum
      exit := .starts { s' with
        mem := Function.update s'.mem s'.cur (env.load.getD (s'.mem s'.cur)) } }

/-- The function at an entry of the jump table. -/
def call (env : Env) (r : Regs) : Syscall → Outcome
  | .halt => s.syscallHalt r.ebx
  | .execute => s.syscallExecute env
  | .read => s.syscallRead env r.ebx r.ecx r.edx
  | .write => s.syscallWrite r.ebx r.ecx r.edx
  | .open => s.syscallOpen env r.ebx
  | .close => s.syscallClose r.ebx
  | .vidmap => s.syscallVidmap r.ebx
  | .setHandler => s.syscallSetHandler r.ebx r.ecx
  | .getargs => ⟨[], .elsewhere .getargs⟩
  | .sigreturn => ⟨[], .elsewhere .sigreturn⟩
  | .malloc => ⟨[], .elsewhere .malloc⟩
  | .free => ⟨[], .elsewhere .free⟩

/-- `common_isr__handle_syscall`.  The last branch is for an index past the jump table. -/
def handleSyscall (env : Env) (r : Regs) : Outcome :=
  if r.eax.toInt < 1 then s.refuse
  else if 12 < r.eax.toInt then s.refuse
  else
    let i := (r.eax - 1).toNat
    let o :=
      match syscallJmpTab[i]? with
      | some c => s.call env r c
      | none => ⟨[], .waits⟩
    ⟨.jmpTab i :: o.touched, o.exit⟩

/-! ## The files behind the calls -/

variable {s}

@[simp] theorem storeBytes_nil (buf : Word) : s.storeBytes buf [] = s := by
  unfold storeBytes
  simp only [List.getD_nil, Function.update_eq_self]

/-- `syscall_read` is the call of the file descriptors. -/
theorem exit_syscallRead (env : Env) (fd buf nbytes : Word) :
    (s.syscallRead env fd buf nbytes).exit =
      match s.files.syscallRead env.fs s.cur fd.toInt (buf ≠ 0) nbytes env.canon with
      | none => .waits
      | some (ret, bytes, files) =>
        .returns (BitVec.ofInt 32 ret) ({ s with files := files }.storeBytes buf bytes) := by
  unfold syscallRead Files.State.syscallRead
  by_cases hbuf : buf = 0
  · rw [if_pos hbuf, if_pos (decide_eq_false (not_not.mpr hbuf))]
    exact congrArg (Exit.returns (-1)) (storeBytes_nil buf).symm
  · have hflag : ¬ decide (buf ≠ 0) = false := by
      rw [decide_eq_true hbuf]
      exact Bool.noConfusion
    rw [if_neg hbuf, if_neg hflag]
    by_cases hfd : fd.toInt < 0 ∨ taskMaxFiles ≤ fd.toInt
    · rw [if_pos hfd, if_pos hfd]
      exact congrArg (Exit.returns (-1)) (storeBytes_nil buf).symm
    · rw [if_neg hfd, if_neg hfd]
      by_cases hused : (s.files.file ⟨s.cur, fd.toInt.toNat⟩).used = false
      · simp only [if_pos hused]
        exact congrArg (Exit.returns (-1)) (storeBytes_nil buf).symm
      · simp only [if_neg hused]

/-- So is `syscall_write`. -/
theorem exit_syscallWrite (fd buf nbytes : Word) :
    (s.syscallWrite fd buf nbytes).exit =
      let r := s.files.syscallWrite s.cur fd.toInt (if buf = 0 then none else some (s.bytesFrom buf))
        nbytes
      .returns (BitVec.ofInt 32 r.1) { s with files := r.2 } := by
  unfold syscallWrite Files.State.syscallWrite
  by_cases hbuf : buf = 0
  · rw [if_pos hbuf, if_pos hbuf]
    rfl
  · rw [if_neg hbuf, if_neg hbuf]
    by_cases hfd : fd.toInt < 0 ∨ taskMaxFiles ≤ fd.toInt
    · simp only [if_pos hfd]
      rfl
    · simp only [if_neg hfd]
      by_cases hused : (s.files.file ⟨s.cur, fd.toInt.toNat⟩).used = false
      · simp only [if_pos hused]
        rfl
      · simp only [if_neg hused]

/-- So is `syscall_close`. -/
theorem exit_syscallClose (fd : Word) :
    (s.syscallClose fd).exit =
      let r := s.files.syscallClose s.cur fd.toInt
      .returns (BitVec.ofInt 32 r.1) { s with files := r.2 } := by
  unfold syscallClose Files.State.syscallClose
  by_cases hfd : fd.toInt < 0 ∨ taskMaxFiles ≤ fd.toInt
  · rw [if_pos hfd, if_pos hfd]
    rfl
  · rw [if_neg hfd, if_neg hfd]
    by_cases hused : (s.files.file ⟨s.cur, fd.toInt.toNat⟩).used = false
    · simp only [if_pos hused]
      rfl
    · simp only [if_neg hused]
      by_cases hret : (s.files.opsClose ⟨s.cur, fd.toInt.toNat⟩).1 ≠ 0
      · simp only [if_pos hret]
        rfl
      · simp only [if_neg hret]
        rfl

theorem exit_syscallSetHandler {signum : Word} (handler : Word)
    (h : 0 ≤ signum.toInt ∧ signum.toInt ≤ sigSize) :
    (s.syscallSetHandler signum handler).exit =
      .returns 0 (s.storeHandler signum.toInt.toNat handler) := by
  have hcheck : ¬ (signum.toInt < 0 ∨ sigSize < signum.toInt) := by omega
  unfold syscallSetHandler
  rw [if_neg hcheck]

/-- A handler past the array is stored behind the PCB. -/
theorem behind_storeHandler (signum : ℕ) (handler : Word) (h : sigSize ≤ signum) :
    (s.storeHandler signum handler).behind s.cur (signum - sigSize) = handler := by
  unfold storeHandler
  rw [if_neg (Nat.not_lt.mpr h)]
  simp only [Function.update_self]

/-- `syscall_vidmap` loads the word it has stored. -/
theorem exit_syscallVidmap {screenStart : Word}
    (h : taskVirtPageBeg ≤ screenStart ∧ screenStart < taskVirtPageEnd) :
    (s.syscallVidmap screenStart).exit =
      let mem := (s.mem s.cur).storeWord screenStart taskVidmemStart
      .returns taskVidmemStart { s with mem := Function.update s.mem s.cur mem } := by
  have hcheck : ¬ (screenStart < taskVirtPageBeg ∨ taskVirtPageEnd ≤ screenStart) := by
    rw [not_or, BitVec.not_lt, BitVec.not_le]
    exact h
  have hwidth : 4 ≤ 2 ^ 32 := by decide
  unfold syscallVidmap
  rw [if_neg hcheck]
  simp only [Memory.loadWord_storeWord hwidth]

end State

end Sys
end CoreOS
