import Mathlib.Algebra.Ring.Nat
import Mathlib.Data.Int.Notation
import Mathlib.Data.Nat.Notation

/-!
# Files as the kernel keeps them

The `FILE` of `task.h`, which is what a file descriptor designates.  One type serves the terminal,
the directory, regular files and the clock, and each driver stores what it needs in `inode` and
`pos`: the clock packs three numbers into `inode` and counts down in `pos`.

A `FILE` of a process lives in its PCB, and drivers hold on to it by address.  An address is the pid
of the PCB and the descriptor.
-/

namespace CoreOS

/-- `MAX_PROC_NUM`. -/
def maxProcNum : ℕ := 10

/-- `TASK_MAX_FILES`. -/
def taskMaxFiles : ℕ := 8

/-- A terminal's index counts from 0. -/
instance neZeroTermNum : NeZero 3 := ⟨by decide⟩

/-- The tables of file operations. -/
inductive FileOps where
  | stdin
  | stdout
  | rtc
  | file
  | dir
  deriving DecidableEq

/-- `task_file_flags_type_t`. -/
inductive FileType where
  | reg
  | dir
  | rtc
  | term
  deriving DecidableEq

/-- `FILE`. -/
structure FILE where
  fileOps : FileOps
  inode : BitVec 32
  pos : BitVec 32
  /-- `flags.type` -/
  type : FileType
  /-- `flags.used` -/
  used : Bool
  deriving DecidableEq

/-- The address of `open_files[fd]` in the PCB of process `pid`. -/
structure FilePtr where
  pid : ℕ
  fd : ℕ
  deriving DecidableEq

end CoreOS
