import CoreOS.FileSys.Names
import CoreOS.FileSys.ReadExtent
import CoreOS.Heap.Malloc
import CoreOS.Sys.Dispatch

/-!
# `_syscall_execute`

The whole function: the search for a pid, the command line, the format checks, the copy of the image
into the page of the new process, and its PCB.  `Proc`, `Files` and `Sys` know the last part of it and
take the answer of the checks for a parameter; `syscallExecute_refines` says which answer that is.

A `NUL`-terminated string is the list of the bytes before its `NUL`, and a pointer into it is what is
left of the list.  The local variables are a `Frame`; before anything is stored in them they hold what
earlier calls left on the kernel stack.  A callee that is given the address of one of them, or of
anything else, acts on the `Machine`, the frame and the kernel together.

The frame has all the room it needs here.  `filename` and `copied_args` are arrays of variable length on
a stack that has an end; `KernelStack` puts this function on that stack, and says what becomes of the PCB
below it when the command is too long.
-/

namespace CoreOS
namespace Exec

open FileSys Signals

/-! ## Constants -/

/-- `BUF_SIZE`. -/
def bufSize : ℕ := 256

/-- `TASK_IMG_START_ADDR`. -/
def taskImgStartAddr : Word := 0x08048000

/-- `ELF_ENTRY_OFFSET`. -/
def elfEntryOffset : ℕ := 24

/-- `KERNEL_DS`. -/
def kernelDs : BitVec 16 := 0x18

/-- `MALLOC_HEAP_MAP_START`. -/
def mallocHeapMapStart : Word := Sys.taskVirtPageBeg + BitVec.ofNat 32 Heap.pcbSize

/-! ## Strings -/

/-- A `NUL`-terminated string. -/
structure Str where
  bytes : List (BitVec 8)
  ne_nul : ∀ c ∈ bytes, c ≠ 0

/-- The memory at a pointer to a string. -/
def cstr (u : List (BitVec 8)) : CStr := fun i => u.getD i 0

/-- `strlen`. -/
def strlen (u : List (BitVec 8)) : BitVec 32 := BitVec.ofNat 32 u.length

theorem ne_zero_of_mem_textFrom {s : CStr} {k i : ℕ} {c : BitVec 8} (h : c ∈ textFrom s k i) :
    c ≠ 0 := by
  induction k generalizing i with
  | zero => simp [textFrom] at h
  | succ k ih =>
    rw [textFrom] at h
    split at h
    · simp at h
    · rename_i hne
      rcases List.mem_cons.mp h with rfl | h
      · exact hne
      · exact ih h

/-- The string in an array of `n` bytes. -/
def Str.ofArray (a : CStr) (n : ℕ) : Str := ⟨text a n, fun _ h => ne_zero_of_mem_textFrom h⟩

/-! ## The state -/

/-- The kernel and the programs, with the parts of a PCB that only this function and its callees
use. -/
structure State where
  sys : Sys.State
  /-- `esp` of each PCB -/
  esp : ℕ → Word
  /-- `ebp` of each PCB -/
  ebp : ℕ → Word
  /-- `cmd_args` of each PCB, with the string it points to -/
  cmdArgs : ℕ → Option Str
  /-- `tss.ss0` -/
  ss0 : BitVec 16

/-- The stack frame: the registers that are saved, and the local variables. -/
structure Frame where
  esp : Word
  ebp : Word
  filename : CStr
  copiedArgs : CStr
  f : FILE
  buf : CStr

/-- What the function and its callees work on. -/
structure Machine where
  kernel : State
  frame : Frame

/-! ## The command line -/

/-- `c > ' '`, for an `int8_t`. -/
def isWordChar (c : BitVec 8) : Bool := decide (0x20 < c.toInt)

/-- The first word of a command. -/
def firstWord (command : Str) : List (BitVec 8) := command.bytes.takeWhile isWordChar

/-- `args`, before an empty one is replaced by `NULL`. -/
def argText (command : Str) : List (BitVec 8) :=
  (command.bytes.drop (firstWord command).length).dropWhile fun c => c = 0x20

/-- `arg_len`, a `uint8_t`. -/
def argLen (command : Str) : BitVec 8 := (strlen (argText command)).setWidth 8

/-- `a[n] = 0` after a bounded copy of `u` to `a`. -/
def copyString (a : CStr) (u : List (BitVec 8)) (n : ℕ) : CStr :=
  Function.update (strncpy a (cstr u) (n + 1)) n 0

/-- Stages 1 and 2: the copies of the name and of the arguments. -/
def Machine.parse (m : Machine) (command : Str) : Machine :=
  let filename := copyString m.frame.filename command.bytes (firstWord command).length
  let copiedArgs :=
    if argText command = [] then m.frame.copiedArgs
    else copyString m.frame.copiedArgs (argText command) (argLen command).toNat
  { m with frame := { m.frame with filename := filename, copiedArgs := copiedArgs } }

/-- `args ? copied_args : NULL`. -/
def Frame.cmdArgs (frame : Frame) (command : Str) : Option Str :=
  if argText command = [] then none
  else some (Str.ofArray frame.copiedArgs ((argLen command).toNat + 1))

/-! ## The format checks -/

/-- The bytes `7F 45 4C 46` are at the front of the buffer. -/
def HasMagic (buf : CStr) : Prop := buf 0 = 0x7F ∧ buf 1 = 0x45 ∧ buf 2 = 0x4C ∧ buf 3 = 0x46

instance (buf : CStr) : Decidable (HasMagic buf) := inferInstanceAs (Decidable (_ ∧ _))

/-- `*((int32_t *) (buf + ELF_ENTRY_OFFSET))`. -/
def entryAddr (buf : CStr) : Word :=
  buf (elfEntryOffset + 3) ++ buf (elfEntryOffset + 2) ++ buf (elfEntryOffset + 1) ++
    buf elfEntryOffset

/-- `fs_open(filename, &f)`. -/
def Machine.fsOpen (m : Machine) (fs : Image) : ℤ × Machine :=
  let (ret, f) := fs.fsOpen m.frame.filename m.frame.f
  (ret, { m with frame := { m.frame with f := f } })

/-- `fs_file_read(buf, BUF_SIZE, &f)`. -/
def Machine.fsFileRead (m : Machine) (fs : Image) : ℤ × Machine :=
  let (ret, bytes, f) := fs.fsFileRead (BitVec.ofNat 32 bufSize) m.frame.f
  (ret, { m with frame := { m.frame with buf := storeBytes m.frame.buf bytes, f := f } })

/-- `fs_file_close(&f)`. -/
def Machine.fsFileClose (m : Machine) : ℤ × Machine := (0, m)

/-- Stage 3, up to the last check: the entry address and the number of bytes read, or `none` when the
function returns -1. -/
def Machine.checkFormat (m : Machine) (fs : Image) : Option (Word × ℤ) × Machine :=
  let (ret, m) := m.fsOpen fs
  if ret = -1 then (none, m)
  else
    let (readSize, m) := m.fsFileRead fs
    if ¬ HasMagic m.frame.buf then (none, m.fsFileClose.2)
    else if (entryAddr m.frame.buf).toInt < taskImgStartAddr.toInt then (none, m.fsFileClose.2)
    else (some (entryAddr m.frame.buf, readSize), m)

/-! ## The image -/

/-- `memcpy`. -/
def memcpy (m : Memory 32) (dest : Word) (src : CStr) (n : ℕ) : Memory 32 := fun a =>
  if (a - dest).toNat < n then src (a - dest).toNat else m a

/-- The variables of the copying loop, and the memory of the new process. -/
structure Copying where
  buf : CStr
  readSize : ℤ
  f : FILE
  taskImgCur : Word
  mem : Memory 32

/-- The two statements that copy what has been read. -/
def Copying.copy (c : Copying) : Copying :=
  { c with
    mem := memcpy c.mem c.taskImgCur c.buf c.readSize.toNat
    taskImgCur := c.taskImgCur + BitVec.ofInt 32 c.readSize }

/-- The loop condition: read on. -/
def Copying.read (fs : Image) (c : Copying) : Copying :=
  let (readSize, bytes, f) := fs.fsFileRead (BitVec.ofNat 32 bufSize) c.f
  { c with buf := storeBytes c.buf bytes, readSize := readSize, f := f }

/-- The loop, `k` rounds of it at most. -/
def copyLoop (fs : Image) : ℕ → Copying → Copying
  | 0, c => c
  | k + 1, c =>
    let c := c.read fs
    if 0 < c.readSize then copyLoop fs k c.copy else c

/-- Stage 4: the image, on a page that held `mem`, when `read_size` bytes of it are in the buffer.
`copyImage_ends` says that these are rounds enough. -/
def Frame.copyImage (frame : Frame) (fs : Image) (readSize : ℤ) (mem : Memory 32) : Copying :=
  copyLoop fs ((fs.fileSize frame.f.inode).toNat + 1)
    (Copying.copy ⟨frame.buf, readSize, frame.f, taskImgStartAddr, mem⟩)

/-! ## The new process -/

/-- `malloc_objs[0]`, unused and of `MALLOC_HEAP_SIZE` blocks: the flag is the lowest bit of the two
bytes. -/
def initHeap (mem : Memory 32) : Memory 32 :=
  let v : BitVec 16 := BitVec.ofNat 16 (2 * Heap.mallocHeapSize)
  Function.update (Function.update mem mallocHeapMapStart (v.setWidth 8)) (mallocHeapMapStart + 1)
    ((v >>> 8).setWidth 8)

/-- `term_ind`, an `int8_t`: -1, an index into `terms`, or neither. -/
def termArg (termInd : BitVec 8) : Option (Option (Fin Proc.termNum)) :=
  if termInd = -1 then some none
  else if h : termInd.toNat < Proc.termNum then some (some ⟨termInd.toNat, h⟩)
  else none

/-- Stages 4 and 5. -/
def Machine.start (m : Machine) (fs : Image) (command : Str) (readSize : ℤ) (pid : ℕ)
    (termInd : Option (Fin Proc.termNum)) : State :=
  let s := m.kernel
  let files := s.sys.files
  { sys :=
      { s.sys with
        files :=
          Files.State.syncPids { files.setUpFiles pid with procs := files.procs.launch pid termInd }
        mem := Function.update s.sys.mem pid
          (initHeap (m.frame.copyImage fs readSize (s.sys.mem pid)).mem) }
    esp := Function.update s.esp s.sys.cur m.frame.esp
    ebp := Function.update s.ebp s.sys.cur m.frame.ebp
    cmdArgs := Function.update s.cmdArgs pid (m.frame.cmdArgs command)
    ss0 := kernelDs }

/-- How the function ends. -/
inductive Exit where
  /-- It returns to its caller. -/
  | returns (ret : ℤ) (s : State)
  /-- At the entry address, in the new process. -/
  | starts (entry : Word) (s : State)
  /-- It stores outside of `terms`. -/
  | strays (entry : Word)

/-- `_syscall_execute`. -/
def State.syscallExecute (s : State) (fs : Image) (frame : Frame) (command : Str)
    (termInd : BitVec 8) : Exit :=
  match s.sys.files.procs.freePid with
  | none => .returns (-1) s
  | some pid =>
    match ((Machine.mk s frame).parse command).checkFormat fs with
    | (none, m) => .returns (-1) m.kernel
    | (some (entry, readSize), m) =>
      match termArg termInd with
      | none => .strays entry
      | some t => .starts entry (m.start fs command readSize pid t)

/-! ## Every way out -/

section exits

variable (m : Machine) (fs : Image) (command : Str)

@[simp] theorem parse_kernel : (m.parse command).kernel = m.kernel := rfl

@[simp] theorem fsOpen_kernel : (m.fsOpen fs).2.kernel = m.kernel := rfl

@[simp] theorem fsFileRead_kernel : (m.fsFileRead fs).2.kernel = m.kernel := rfl

@[simp] theorem fsFileClose_kernel : m.fsFileClose.2.kernel = m.kernel := rfl

/-- None of the callees before the last check reaches the kernel. -/
@[simp] theorem checkFormat_kernel : (m.checkFormat fs).2.kernel = m.kernel := by
  unfold Machine.checkFormat
  dsimp only
  split
  · simp
  · split
    · simp
    · split <;> simp

end exits

/-! ## The end of the copy -/

section copying

variable {fs : Image} {c : Copying}

/-- How much a read of `BUF_SIZE` bytes delivers. -/
theorem rounds_bufSize (size : ℕ) {offset : ℕ} (hwrap : offset + bufSize < 2 ^ 32) :
    rounds size offset bufSize = min bufSize (size - offset) := by
  unfold rounds
  unfold bufSize at *
  dsimp only
  split <;> split <;> omega

@[simp] theorem read_inode (fs : Image) (c : Copying) : (c.read fs).f.inode = c.f.inode := rfl

@[simp] theorem copy_f (c : Copying) : c.copy.f = c.f := rfl

/-- A read that delivers something gets on in the file, and not beyond its end. -/
theorem read_pos (hsize : (fs.fileSize c.f.inode).toNat ≤ 2 ^ 32 - bufSize)
    (hread : 0 < (c.read fs).readSize) :
    c.f.pos.toNat < (c.read fs).f.pos.toNat ∧
      (c.read fs).f.pos.toNat ≤ (fs.fileSize c.f.inode).toNat := by
  have hret : (c.read fs).readSize =
      (fs.readData c.f.inode c.f.pos (BitVec.ofNat 32 bufSize)).ret := rfl
  have hposEq : (c.read fs).f.pos = c.f.pos + BitVec.ofInt 32 (c.read fs).readSize := rfl
  by_cases hrefused : fs.inodeCount.toInt < c.f.inode.toInt ∨ c.f.inode.toInt < 0
  · rw [hret, Image.readData_of_refused hrefused] at hread
    exact absurd hread (lt_irrefl _)
  have hpos : 0 ≤ c.f.inode.toInt := by omega
  have hcount : c.f.inode.toInt ≤ fs.inodeCount.toInt := by omega
  by_cases hend : fs.fileSize c.f.inode ≤ c.f.pos
  · rw [hret, Image.readData_of_end hpos hcount hend] at hread
    exact absurd hread (lt_irrefl _)
  · rw [BitVec.not_le] at hend
    obtain ⟨hrounds, -, -⟩ := Image.readData_eq hpos hcount hend (BitVec.ofNat 32 bufSize)
    rw [BitVec.lt_def] at hend
    rw [show (BitVec.ofNat 32 bufSize).toNat = bufSize from rfl, rounds_bufSize _ (by omega)] at hrounds
    rw [hposEq, hret, hrounds, BitVec.ofInt_natCast, BitVec.toNat_add, BitVec.toNat_ofNat]
    unfold bufSize at *
    omega

theorem copyLoop_ends {k : ℕ} (hsize : (fs.fileSize c.f.inode).toNat ≤ 2 ^ 32 - bufSize)
    (hk : (fs.fileSize c.f.inode).toNat - c.f.pos.toNat < k) : (copyLoop fs k c).readSize ≤ 0 := by
  induction k generalizing c with
  | zero => omega
  | succ k ih =>
    rw [copyLoop]
    split
    · rename_i hread
      obtain ⟨hnext, hle⟩ := read_pos hsize hread
      refine ih ?_ ?_
      · rw [copy_f, read_inode]
        exact hsize
      · rw [copy_f, read_inode]
        omega
    · rename_i hdone
      exact not_lt.mp hdone

/-- **The loop ends by itself.**  The rounds it is given are enough, unless the file is so long that
the position wraps around. -/
theorem copyImage_ends {frame : Frame} (readSize : ℤ) (mem : Memory 32)
    (hsize : (fs.fileSize frame.f.inode).toNat ≤ 2 ^ 32 - bufSize) :
    (frame.copyImage fs readSize mem).readSize ≤ 0 :=
  copyLoop_ends hsize (Nat.lt_succ_of_le (Nat.sub_le _ _))

end copying

/-! ## The name -/

theorem cstr_ne_zero {u : List (BitVec 8)} (h : ∀ c ∈ u, c ≠ 0) {i : ℕ} (hi : i < u.length) :
    cstr u i ≠ 0 := by
  rw [cstr, List.getD_eq_getElem _ _ hi]
  exact h _ (List.getElem_mem hi)

theorem isString_cstr {u : List (BitVec 8)} (h : ∀ c ∈ u, c ≠ 0) : IsString (cstr u) u where
  byte k hk := by rw [cstr, List.getD_eq_getElem _ _ hk]
  byte_ne := h
  nul := by rw [cstr, List.getD_eq_default _ _ (Nat.le_refl _)]

/-- A bounded copy with a `NUL` after it is a string. -/
theorem isString_copyString {u : List (BitVec 8)} (h : ∀ c ∈ u, c ≠ 0) (a : CStr) {n : ℕ}
    (hn : n ≤ u.length) : IsString (copyString a u n) (u.take n) where
  byte k hk := by
    rw [List.length_take] at hk
    have hall : ∀ j ≤ k, cstr u j ≠ 0 := fun j hj => cstr_ne_zero h (by omega)
    rw [copyString, Function.update_of_ne (by omega), strncpy, if_pos (by omega), if_pos hall, cstr,
      List.getD_eq_getElem _ _ (by omega), List.getElem_take]
  byte_ne c hc := h c (List.mem_of_mem_take hc)
  nul := by
    rw [List.length_take, Nat.min_eq_left hn, copyString, Function.update_self]

theorem firstWord_eq_take (command : Str) :
    command.bytes.take (firstWord command).length = firstWord command :=
  (List.prefix_iff_eq_take.mp (List.takeWhile_prefix _)).symm

theorem firstWord_ne_nul {command : Str} {c : BitVec 8} (h : c ∈ firstWord command) : c ≠ 0 :=
  command.ne_nul c ((List.takeWhile_prefix _).subset h)

theorem length_firstWord_le (command : Str) : (firstWord command).length ≤ command.bytes.length :=
  (List.takeWhile_prefix _).length_le

/-- The lookup sees the name only. -/
theorem findDentry_congr {fs : Image} {s t : CStr} (h : name s = name t) (k i : ℕ) :
    fs.findDentry s k i = fs.findDentry t k i := by
  induction k generalizing i with
  | zero => rfl
  | succ k ih =>
    have hiff : strncmp (fs.dentryName i) s maxNameLength = 0 ↔
        strncmp (fs.dentryName i) t maxNameLength = 0 := by
      rw [strncmp_eq_zero_iff, strncmp_eq_zero_iff, ← name, ← name, ← name, h]
    rw [Image.findDentry, Image.findDentry, ih]
    exact if_congr hiff rfl rfl

theorem readDentryByName_congr {fs : Image} {s t : CStr} (h : name s = name t) :
    fs.readDentryByName s = fs.readDentryByName t := by
  rw [Image.readDentryByName, Image.readDentryByName, fnLength_eq, fnLength_eq, h,
    findDentry_congr h]

/-- The name that is looked up is the first word of the command. -/
theorem readDentryByName_parse (m : Machine) (fs : Image) (command : Str) :
    fs.readDentryByName (m.parse command).frame.filename =
      fs.readDentryByName (cstr (firstWord command)) := by
  have hcopy := isString_copyString command.ne_nul m.frame.filename (length_firstWord_le command)
  rw [firstWord_eq_take] at hcopy
  exact readDentryByName_congr
    (hcopy.name_eq.trans (isString_cstr fun _ => firstWord_ne_nul).name_eq.symm)

/-! ## What the checks find -/

/-- The buffer after the first read, when the name is that of `dent`. -/
def headerOf (fs : Image) (frame : Frame) (dent : Dentry) : CStr :=
  storeBytes frame.buf (fs.readData dent.inodeNum 0 (BitVec.ofNat 32 bufSize)).buf

/-- The buffer passes both checks. -/
def Passes (buf : CStr) : Prop :=
  HasMagic buf ∧ taskImgStartAddr.toInt ≤ (entryAddr buf).toInt

instance (buf : CStr) : Decidable (Passes buf) := inferInstanceAs (Decidable (_ ∧ _))

/-- `fs_open` does not look at the type of the entry, except to choose a table of functions. -/
theorem fsOpen_of_found {fs : Image} {fname : CStr} {dent : Dentry}
    (h : fs.readDentryByName fname = some dent) (f : FILE) :
    (fs.fsOpen fname f).1 = 0 ∧ (fs.fsOpen fname f).2.inode = dent.inodeNum ∧
      (fs.fsOpen fname f).2.pos = 0 := by
  unfold Image.fsOpen
  rw [h]
  dsimp only
  split <;> exact ⟨rfl, rfl, rfl⟩

section checks

variable {m : Machine} {fs : Image} {command : Str}

theorem checkFormat_of_missing (h : fs.readDentryByName (cstr (firstWord command)) = none) :
    ((m.parse command).checkFormat fs).1 = none := by
  have hopen : ((m.parse command).fsOpen fs).1 = -1 := by
    rw [← readDentryByName_parse m] at h
    simp only [Machine.fsOpen, Image.fsOpen, h]
  rw [Machine.checkFormat]
  simp only [hopen, if_true]

theorem checkFormat_of_found {dent : Dentry}
    (h : fs.readDentryByName (cstr (firstWord command)) = some dent) :
    ((m.parse command).checkFormat fs).1 =
      if Passes (headerOf fs m.frame dent) then
        some (entryAddr (headerOf fs m.frame dent),
          (fs.readData dent.inodeNum 0 (BitVec.ofNat 32 bufSize)).ret)
      else none := by
  rw [← readDentryByName_parse m] at h
  obtain ⟨hret, hinode, hpos⟩ := fsOpen_of_found h (m.parse command).frame.f
  have hopen : ((m.parse command).fsOpen fs).1 = 0 := hret
  have hbuf : ((((m.parse command).fsOpen fs).2.fsFileRead fs).2.frame.buf) =
      headerOf fs m.frame dent := by
    unfold headerOf
    rw [← hinode, ← hpos]
    rfl
  have hsize : (((m.parse command).fsOpen fs).2.fsFileRead fs).1 =
      (fs.readData dent.inodeNum 0 (BitVec.ofNat 32 bufSize)).ret := by
    rw [← hinode, ← hpos]
    rfl
  rw [Machine.checkFormat]
  simp only [hopen, hbuf, hsize]
  rw [if_neg (by decide)]
  by_cases hmagic : HasMagic (headerOf fs m.frame dent)
  · rw [if_neg (not_not.mpr hmagic)]
    by_cases hentry : (entryAddr (headerOf fs m.frame dent)).toInt < taskImgStartAddr.toInt
    · rw [if_pos hentry, if_neg fun h' => by have := h'.2; omega]
    · rw [if_neg hentry, if_pos ⟨hmagic, by omega⟩]
  · rw [if_pos hmagic, if_neg fun h' => hmagic h'.1]

end checks

/-! ## Failing -/

section failing

variable (s : State) (fs : Image) (frame : Frame) (command : Str) (termInd : BitVec 8)

/-- The bytes read do not pass the checks. -/
def FormatFails : Prop :=
  ∃ dent, fs.readDentryByName (cstr (firstWord command)) = some dent ∧
    ¬ Passes (headerOf fs frame dent)

/-- The three ways to fail, and the only way not to. -/
theorem syscallExecute_cases :
    ((s.sys.files.procs.freePid = none ∨
        fs.readDentryByName (cstr (firstWord command)) = none ∨ FormatFails fs frame command) ∧
      s.syscallExecute fs frame command termInd = .returns (-1) s) ∨
    ∃ pid dent, s.sys.files.procs.freePid = some pid ∧
      fs.readDentryByName (cstr (firstWord command)) = some dent ∧
      Passes (headerOf fs frame dent) ∧
      s.syscallExecute fs frame command termInd =
        match termArg termInd with
        | none => .strays (entryAddr (headerOf fs frame dent))
        | some t => .starts (entryAddr (headerOf fs frame dent))
          ((((Machine.mk s frame).parse command).checkFormat fs).2.start fs command
            (fs.readData dent.inodeNum 0 (BitVec.ofNat 32 bufSize)).ret pid t) := by
  cases hpid : s.sys.files.procs.freePid with
  | none => exact Or.inl ⟨Or.inl rfl, by rw [State.syscallExecute, hpid]⟩
  | some pid =>
    have hkernel := checkFormat_kernel ((Machine.mk s frame).parse command) fs
    rw [parse_kernel] at hkernel
    have hexec : s.syscallExecute fs frame command termInd =
        match ((Machine.mk s frame).parse command).checkFormat fs with
        | (none, m) => .returns (-1) m.kernel
        | (some (entry, readSize), m) =>
          match termArg termInd with
          | none => .strays entry
          | some t => .starts entry (m.start fs command readSize pid t) := by
      rw [State.syscallExecute, hpid]
    have hfail : (((Machine.mk s frame).parse command).checkFormat fs).1 = none →
        s.syscallExecute fs frame command termInd = .returns (-1) s := by
      intro hnone
      rw [hexec]
      split
      · rename_i m heq
        rw [heq] at hkernel
        rw [show m.kernel = s from hkernel]
      · rename_i heq
        rw [heq] at hnone
        exact absurd hnone (by simp)
    cases hdent : fs.readDentryByName (cstr (firstWord command)) with
    | none =>
      exact Or.inl ⟨Or.inr (Or.inl rfl), hfail (checkFormat_of_missing hdent)⟩
    | some dent =>
      have hcheck := checkFormat_of_found (m := Machine.mk s frame) hdent
      by_cases hpasses : Passes (headerOf fs frame dent)
      · right
        rw [if_pos hpasses] at hcheck
        refine ⟨pid, dent, rfl, rfl, hpasses, ?_⟩
        rw [hexec]
        split
        · rename_i heq
          rw [heq] at hcheck
          exact absurd hcheck (by simp)
        · rename_i entry readSize m heq
          rw [heq] at hcheck ⊢
          obtain ⟨rfl, rfl⟩ : entry = _ ∧ readSize = _ := by simpa using hcheck
          rfl
      · rw [if_neg hpasses] at hcheck
        exact Or.inl ⟨Or.inr (Or.inr ⟨dent, hdent, hpasses⟩), hfail hcheck⟩

/-- **A failed `execute` gives the kernel back.**  When the function returns it returns -1, and none of its
statements has changed the processes with their PCBs and open files, the terminals, the pages, the TSS,
the clock or the memory of a program.  It does return when no pid is free, when there is no file of
that name, and when the file does not pass the checks. -/
theorem failed_execute :
    (∀ ret s', s.syscallExecute fs frame command termInd = .returns ret s' → ret = -1 ∧ s' = s) ∧
    (s.sys.files.procs.freePid = none ∨
        fs.readDentryByName (cstr (firstWord command)) = none ∨ FormatFails fs frame command →
      s.syscallExecute fs frame command termInd = .returns (-1) s) := by
  rcases syscallExecute_cases s fs frame command termInd with
    ⟨-, hexec⟩ | ⟨pid, dent, hpid, hdent, hpasses, hexec⟩
  · refine ⟨fun ret s' h => ?_, fun _ => hexec⟩
    rw [hexec] at h
    obtain ⟨rfl, rfl⟩ : -1 = ret ∧ s = s' := by simpa using h
    exact ⟨rfl, rfl⟩
  · refine ⟨fun ret s' h => ?_, ?_⟩
    · rw [hexec] at h
      cases hterm : termArg termInd with
      | none => simp [hterm] at h
      | some t => simp [hterm] at h
    · rintro (h | h | ⟨dent', h, hfails⟩)
      · exact nomatch hpid.symm.trans h
      · exact nomatch hdent.symm.trans h
      · obtain rfl : dent = dent' := Option.some.inj (hdent.symm.trans h)
        exact absurd hpasses hfails

/-- **The checks are the parameter of the other models.**  Seen from the system call interrupt, which
passes -1 for `term_ind`, this is `syscall_execute` with a program to load exactly when the checks
pass. -/
theorem syscallExecute_refines (canon : Bool) :
    match s.syscallExecute fs frame command (-1) with
    | .returns _ s' => (s.sys.syscallExecute ⟨fs, canon, none⟩).exit = .returns (-1) s'.sys
    | .starts _ s' => (s.sys.syscallExecute ⟨fs, canon, some (s'.sys.mem s'.sys.cur)⟩).exit =
        .starts s'.sys
    | .strays _ => False := by
  have hterm : termArg (-1) = some none := by decide
  rcases syscallExecute_cases s fs frame command (-1) with
    ⟨-, hexec⟩ | ⟨pid, dent, hpid, -, -, hexec⟩
  · have hcoarse : s.sys.files.execute none false = none := by
      unfold Files.State.execute Proc.Table.execute
      cases s.sys.files.procs.freePid <;> rfl
    rw [hexec]
    simp only [Sys.State.syscallExecute, Option.isSome_none, hcoarse]
    rfl
  · have hcoarse : s.sys.files.execute none true = some (Files.State.syncPids
        { s.sys.files.setUpFiles pid with procs := s.sys.files.procs.launch pid none }) := by
      unfold Files.State.execute Proc.Table.execute
      rw [hpid]
      rfl
    rw [hexec, hterm]
    simp only [Sys.State.syscallExecute, Option.isSome_some, hcoarse]
    have hkernel := checkFormat_kernel ((Machine.mk s frame).parse command) fs
    rw [parse_kernel] at hkernel
    unfold Machine.start
    rw [hkernel]
    -- the memory of the new process is stored where it is looked up
    have hself := Function.update_self pid (initHeap
      ((((Machine.mk s frame).parse command).checkFormat fs).2.frame.copyImage fs
        (fs.readData dent.inodeNum 0 (BitVec.ofNat 32 bufSize)).ret (s.sys.mem pid)).mem) s.sys.mem
    exact congrArg (fun mem => Sys.Exit.starts ⟨_, _, Function.update s.sys.mem pid mem⟩) hself

end failing

end Exec
end CoreOS
