import CoreOS.FileSys.Image
import CoreOS.Proc.Table
import CoreOS.Rtc.Driver
import CoreOS.Term.System

/-!
# File descriptors

`syscall_open`, `syscall_close`, `syscall_read` and `syscall_write`, and what `_syscall_execute` and
`_syscall_halt` do to the open files of a process.

A descriptor is an index into the `open_files` of the running process.  The entry names a table of
functions, and the system calls only check the descriptor and go through the table: to the terminal,
to the clock driver or to the file system.  The state puts the components together.  The `FILE`s of
all processes are memory that the clock driver writes to as well, and are kept with it.

A call that waits is a step when it returns: `syscallRead` begins at the test that ends the waiting
loop, and is `none` as long as the loop goes on.  What happens meanwhile are other steps.

The signals are kept, but `check_signals`, which comes after a call or an interrupt, is not part of a
step.
-/

namespace CoreOS
namespace Files

open FileSys

/-- The processes, the open files with the clock driver, and the terminals. -/
structure State where
  procs : Proc.Table
  rtc : Rtc.Driver
  terms : Term.System

namespace State

/-- `open_files[fd]` of process `pid`. -/
def file (s : State) (f : FilePtr) : FILE := s.rtc.files f

/-- `*f = v`. -/
def setFile (s : State) (f : FilePtr) (v : FILE) : State := { s with rtc := s.rtc.setFile f v }

/-! ## The tables of file operations -/

/-- `term_read`, by a process of terminal `t`, from the test that ends the waiting loop.  `canon`
says which of its two loops that is. -/
def termRead (s : State) (t : Fin Term.termNum) (canon : Bool) (nbytes : BitVec 32) :
    Option (ℤ × List (BitVec 8) × State) :=
  (Term.System.readResult canon nbytes.toNat (s.terms.load t)).map fun r =>
    (r.1.length, r.1, { s with terms := s.terms.store t r.2 })

/-- `file_ops->read`: the value returned, the bytes stored in the buffer, and the state. -/
def opsRead (s : State) (fs : Image) (f : FilePtr) (nbytes : BitVec 32) (canon : Bool) :
    Option (ℤ × List (BitVec 8) × State) :=
  match (s.file f).fileOps with
  | .stdin => s.termRead (s.procs.pcbs f.pid).termInd canon nbytes
  | .stdout => some (-1, [], s)
  | .rtc => (s.rtc.rtcRead f).map fun r => (r.1, [], { s with rtc := r.2 })
  | .file =>
    let (ret, buf, v) := fs.fsFileRead nbytes (s.file f)
    some (ret, buf, s.setFile f v)
  | .dir =>
    let (ret, buf, v) := fs.fsDirRead (s.file f)
    some (ret, (buf.map fun b => (List.range maxNameLength).map b).getD [], s.setFile f v)

/-- `file_ops->write`.  The buffer is the memory from a pointer on. -/
def opsWrite (s : State) (f : FilePtr) (buf : CStr) (nbytes : BitVec 32) : ℤ × State :=
  match (s.file f).fileOps with
  | .stdin => (-1, s)
  | .stdout =>
    (nbytes.toInt, { s with
      terms := s.terms.termWrite (s.procs.pcbs f.pid).termInd ((List.range nbytes.toNat).map buf) })
  | .rtc =>
    let (ret, rtc) := s.rtc.rtcWrite (some (buf 3 ++ buf 2 ++ buf 1 ++ buf 0)) nbytes f
    (ret, { s with rtc := rtc })
  | .file => (-1, s)
  | .dir => (-1, s)

/-- `file_ops->close`. -/
def opsClose (s : State) (f : FilePtr) : ℤ × State :=
  match (s.file f).fileOps with
  | .stdin => (-1, s)
  | .stdout => (-1, s)
  | .rtc =>
    let (ret, rtc) := s.rtc.rtcClose f
    (ret, { s with rtc := rtc })
  | .file => (0, s)
  | .dir => (0, s)

/-! ## The system calls, by process `pid` -/

/-- `syscall_read`.  `buf` is whether the buffer is not `NULL`. -/
def syscallRead (s : State) (fs : Image) (pid : ℕ) (fd : ℤ) (buf : Bool) (nbytes : BitVec 32)
    (canon : Bool) : Option (ℤ × List (BitVec 8) × State) :=
  if buf = false then some (-1, [], s)
  else if fd < 0 ∨ taskMaxFiles ≤ fd then some (-1, [], s)
  else if (s.file ⟨pid, fd.toNat⟩).used = false then some (-1, [], s)
  else s.opsRead fs ⟨pid, fd.toNat⟩ nbytes canon

/-- `syscall_write`.  `buf` is `none` for `NULL`. -/
def syscallWrite (s : State) (pid : ℕ) (fd : ℤ) (buf : Option CStr) (nbytes : BitVec 32) :
    ℤ × State :=
  match buf with
  | none => (-1, s)
  | some buf =>
    if fd < 0 ∨ taskMaxFiles ≤ fd then (-1, s)
    else if (s.file ⟨pid, fd.toNat⟩).used = false then (-1, s)
    else s.opsWrite ⟨pid, fd.toNat⟩ buf nbytes

/-- The search for a descriptor in `syscall_open`. -/
def freeFd (s : State) (pid : ℕ) : Option ℕ :=
  (List.range' 2 (taskMaxFiles - 2)).find? fun fd => !(s.file ⟨pid, fd⟩).used

/-- `rtc_open` or `fs_open`, by the type of the directory entry. -/
def openFile (s : State) (fs : Image) (filename : CStr) (dent : Dentry) (f : FilePtr) :
    Option (ℤ × State) :=
  if dent.filetype = fileTypeRtc then
    (s.rtc.rtcOpen f).map fun r => (r.1, { s with rtc := r.2 })
  else
    let (ret, v) := fs.fsOpen filename (s.file f)
    some (ret, s.setFile f v)

/-- `flags.used = used`. -/
def setUsed (s : State) (f : FilePtr) (used : Bool) : State :=
  s.setFile f { s.file f with used := used }

/-- `syscall_open`.  It does not return when `rtc_open` does not. -/
def syscallOpen (s : State) (fs : Image) (pid : ℕ) (filename : CStr) : Option (ℤ × State) :=
  match fs.readDentryByName filename with
  | none => some (-1, s)
  | some dent =>
    match s.freeFd pid with
    | none => some (-1, s)
    | some fd =>
      (s.openFile fs filename dent ⟨pid, fd⟩).map fun r =>
        if r.1 ≠ 0 then (-1, r.2) else (fd, r.2.setUsed ⟨pid, fd⟩ true)

/-- `syscall_close`. -/
def syscallClose (s : State) (pid : ℕ) (fd : ℤ) : ℤ × State :=
  if fd < 0 ∨ taskMaxFiles ≤ fd then (-1, s)
  else if (s.file ⟨pid, fd.toNat⟩).used = false then (-1, s)
  else
    let r := s.opsClose ⟨pid, fd.toNat⟩
    if r.1 ≠ 0 then (-1, r.2) else (0, r.2.setUsed ⟨pid, fd.toNat⟩ false)

/-! ## Starting and ending a process -/

/-- The entry `fd` of a new process: the terminal is open, and nothing else. -/
def newFile (fd : ℕ) (v : FILE) : FILE :=
  if fd = 0 then { v with used := true, type := .term, fileOps := .stdin }
  else if fd = 1 then { v with used := true, type := .term, fileOps := .stdout }
  else if fd < taskMaxFiles then { v with used := false }
  else v

/-- The open files and the signals of process `pid`, as `_syscall_execute` sets them up. -/
def setUpFiles (s : State) (pid : ℕ) : State :=
  { s with
    rtc := { s.rtc with
      files := fun f => if f.pid = pid then newFile f.fd (s.rtc.files f) else s.rtc.files f
      signals := Function.update s.rtc.signals pid 0 }
    terms := { s.terms with signals := Function.update s.terms.signals pid 0 } }

/-- `terms[t].cur_pid`, for the terminals. -/
def syncPids (s : State) : State :=
  { s with terms := { s.terms with
      data := fun t => { s.terms.data t with curPid := s.procs.curPid t } } }

/-- `_syscall_execute`.  The new process is the running one when it starts. -/
def execute (s : State) (termInd : Option (Fin Proc.termNum)) (loads : Bool) : Option State :=
  (s.procs.execute termInd loads).map fun procs =>
    syncPids { s.setUpFiles procs.cur with procs := procs }

/-- The loop of `_syscall_halt` that closes the files of process `pid`. -/
def closeFiles (s : State) (pid : ℕ) : State :=
  (List.range' 2 (taskMaxFiles - 2)).foldl
    (fun s fd => if (s.file ⟨pid, fd⟩).used then (s.opsClose ⟨pid, fd⟩).2 else s) s

/-- `_syscall_halt`. -/
def halt (s : State) : State :=
  match (s.procs.pcbs s.procs.cur).parent with
  | none => s
  | some _ =>
    let s := s.closeFiles s.procs.cur
    syncPids { s with procs := s.procs.halt }

/-- `pit_isr`. -/
def pitIsr (s : State) (loads : Bool) (nextPid : ℕ) : State :=
  let s := { s with procs := { s.procs with curProcInd := s.procs.curProcInd + 1 } }
  if s.procs.curPid s.procs.curProcInd = 0 then
    match s.execute (some s.procs.curProcInd) loads with
    | none => { s with procs := s.procs.switchTo nextPid }
    | some s' => s'
  else { s with procs := s.procs.switchTo (s.procs.curPid s.procs.curProcInd) }

end State

/-! ## Runs -/

/-- One step: a system call of the running process returns, a process is started or ended, or an
interrupt is handled. -/
inductive Op where
  | open (filename : CStr)
  | close (fd : ℤ)
  | read (fd : ℤ) (buf : Bool) (nbytes : BitVec 32) (canon : Bool)
  | write (fd : ℤ) (buf : Option CStr) (nbytes : BitVec 32)
  | execute (loads : Bool)
  | halt
  | tick (loads : Bool) (nextPid : ℕ)
  | rtcIsr
  | term (o : Term.Op)

/-- The state after a step, on a file system image.  A call that does not return yet changes
nothing. -/
def step (fs : Image) (s : State) : Op → State
  | .open filename => ((s.syscallOpen fs s.procs.cur filename).map Prod.snd).getD s
  | .close fd => (s.syscallClose s.procs.cur fd).2
  | .read fd buf nbytes canon =>
    ((s.syscallRead fs s.procs.cur fd buf nbytes canon).map fun r => r.2.2).getD s
  | .write fd buf nbytes => (s.syscallWrite s.procs.cur fd buf nbytes).2
  | .execute loads => (s.execute none loads).getD s
  | .halt => s.halt
  | .tick loads nextPid => s.pitIsr loads nextPid
  | .rtcIsr => { s with rtc := s.rtc.rtcIsr s.procs.cur }
  | .term o =>
    let terms := Term.step s.terms o
    { s with terms := terms, procs := s.procs.switchTerm terms.curTermInd }

/-- The state after the drivers have been set up and before the first process. -/
def boot (pcbs : ℕ → Proc.PCB) (esp0 : ℕ) (files : FilePtr → FILE) (signals : ℕ → BitVec 8)
    (regA : BitVec 8) (pages : Term.PagePtr → Term.Screen) : State where
  procs := Proc.boot pcbs esp0
  rtc := (Rtc.Driver.boot files signals regA).initRtc
  terms := Term.System.initTerm pages signals

end Files
end CoreOS
