import CoreOS.Kernel.File
import Mathlib.Logic.Function.Iterate

/-!
# The file system image

The functions of `file_sys.c`.  The image is a stretch of memory that begins at the boot block: the
counts of directory entries, inodes and data blocks, the directory entries (64 bytes each), then one
block of 4096 bytes for each inode and after these the data blocks.

The code never copies the image into data structures of its own, it computes addresses and loads
words.  The model does the same: the memory is a function on 32-bit addresses, and all address
arithmetic wraps around as it does in the code.  `read_data` also records the address of every word
it loads, since it loads four bytes for each one it stores.
-/

namespace CoreOS
namespace FileSys

/-- `MAX_NAME_LENGTH`. -/
def maxNameLength : ℕ := 32

/-- `BLOCK_SIZE`. -/
def blockSize : ℕ := 0x1000

/-- The word at an address, least significant byte first. -/
def load32 (mem : BitVec 32 → BitVec 8) (a : BitVec 32) : BitVec 32 :=
  mem (a + 3) ++ mem (a + 2) ++ mem (a + 1) ++ mem a

/-- A string argument: the bytes from a pointer on. -/
abbrev CStr : Type := ℕ → BitVec 8

/-- The memory, and where `fs_init` found the boot block in it. -/
structure Image where
  mem : BitVec 32 → BitVec 8
  bblockPtr : BitVec 32

/-- `dentry_t`, less its reserved bytes. -/
structure Dentry where
  filename : CStr
  filetype : BitVec 32
  inodeNum : BitVec 32

/-- `FILE_TYPE_RTC`. -/
def fileTypeRtc : BitVec 32 := 0

/-- `FILE_TYPE_DIR`. -/
def fileTypeDir : BitVec 32 := 1

/-- `FILE_TYPE_REG`. -/
def fileTypeReg : BitVec 32 := 2

/-! ## Strings -/

/-- The loop of `strncmp`, with `k` characters left, at character `i`. -/
def strncmpFrom (s₁ s₂ : CStr) : ℕ → ℕ → ℤ
  | 0, _ => 0
  | k + 1, i =>
    if s₁ i ≠ s₂ i ∨ s₁ i = 0 ∨ s₂ i = 0 then (s₁ i).toInt - (s₂ i).toInt
    else strncmpFrom s₁ s₂ k (i + 1)

/-- `strncmp`. -/
def strncmp (s₁ s₂ : CStr) (n : ℕ) : ℤ := strncmpFrom s₁ s₂ n 0

/-- The loop of `fn_length`, with `k` characters left, after `len` of them. -/
def fnLengthFrom (fname : CStr) : ℕ → ℕ → ℕ
  | 0, len => len
  | k + 1, len => if fname len = 0 then len else fnLengthFrom fname k (len + 1)

/-- `fn_length`. -/
def fnLength (fname : CStr) : ℕ := fnLengthFrom fname maxNameLength 0

/-- The bytes `strncpy` leaves in the first `n` places of a buffer that held `dest`. -/
def strncpy (dest src : CStr) (n : ℕ) : CStr := fun i =>
  if i < n then (if ∀ j ≤ i, src j ≠ 0 then src i else 0) else dest i

namespace Image

variable (fs : Image)

/-! ## The parts of the image -/

/-- The number of directory entries. -/
def numDentries : BitVec 32 := load32 fs.mem fs.bblockPtr

/-- `*(bblock_ptr + BBLOCK_COUNT_OFF)`. -/
def inodeCount : BitVec 32 := load32 fs.mem (fs.bblockPtr + 4)

/-- `*(bblock_ptr + 2 * BOOT_ENTRIES_OFF)`. -/
def dataBlockCount : BitVec 32 := load32 fs.mem (fs.bblockPtr + 8)

/-- `&dentries[i]`. -/
def dentryAddr (i : ℕ) : BitVec 32 := fs.bblockPtr + 64 + BitVec.ofNat 32 (64 * i)

/-- `dentries[i].filename`. -/
def dentryName (i : ℕ) : CStr := fun k => fs.mem (fs.dentryAddr i + BitVec.ofNat 32 k)

/-- `&inodes[inode_num].file_size`. -/
def fileSizeAddr (inodeNum : BitVec 32) : BitVec 32 :=
  fs.bblockPtr + BitVec.ofNat 32 blockSize + inodeNum * BitVec.ofNat 32 blockSize

/-- `inodes[inode_num].file_size`. -/
def fileSize (inodeNum : BitVec 32) : BitVec 32 := load32 fs.mem (fs.fileSizeAddr inodeNum)

/-- `&inodes[inode_num].data_blocks[k]`. -/
def dataBlocksAddr (inodeNum : BitVec 32) (k : ℕ) : BitVec 32 :=
  fs.fileSizeAddr inodeNum + 4 + BitVec.ofNat 32 (4 * k)

/-- `inodes[inode_num].data_blocks[k]`. -/
def dataBlocks (inodeNum : BitVec 32) (k : ℕ) : BitVec 32 :=
  load32 fs.mem (fs.dataBlocksAddr inodeNum k)

/-! ## Directory entries -/

/-- `read_dentry_by_index`: `none` for -1, else what it puts in the caller's `dentry`. -/
def readDentryByIndex (index : BitVec 32) : Option Dentry :=
  if fs.numDentries ≤ index then none
  else some
    { filename := strncpy (fun _ => 0) (fs.dentryName index.toNat) maxNameLength
      filetype := load32 fs.mem (fs.dentryAddr index.toNat + 32)
      inodeNum := load32 fs.mem (fs.dentryAddr index.toNat + 36) }

/-- The loop of `read_dentry_by_name`, with `k` entries left, at entry `i`. -/
def findDentry (fname : CStr) : ℕ → ℕ → Option Dentry
  | 0, _ => none
  | k + 1, i =>
    if strncmp (fs.dentryName i) fname maxNameLength = 0 then
      fs.readDentryByIndex (BitVec.ofNat 32 i)
    else findDentry fname k (i + 1)

/-- `read_dentry_by_name`: `none` for -1, else what it puts in the caller's `dentry`. -/
def readDentryByName (fname : CStr) : Option Dentry :=
  if fnLength fname = 0 then none
  else fs.findDentry fname fs.numDentries.toInt.toNat 0

/-- `fs_open`: the value returned and the `FILE` after the call. -/
def fsOpen (filename : CStr) (file : FILE) : ℤ × FILE :=
  match fs.readDentryByName filename with
  | none => (-1, file)
  | some dent =>
    if dent.filetype = fileTypeReg then
      (0, { file with pos := 0, inode := dent.inodeNum, fileOps := .file, type := .reg })
    else
      (0, { file with pos := 0, inode := dent.inodeNum, fileOps := .dir, type := .dir })

/-! ## `read_data` -/

/-- The variables of the loop of `read_data`: `buf` holds the bytes stored so far, `loads` the
addresses of the words loaded so far, the latest first. -/
structure ReadState where
  i : ℕ
  startingIndex : ℕ
  curByte : BitVec 32
  numBytes : ℕ
  buf : List (BitVec 8)
  loads : List (BitVec 32)

/-- The test at the top of the loop: move on to the next data block. -/
def switchBlock (inodeNum : BitVec 32) (dataOffset : ℕ) (st : ReadState) : ReadState :=
  if (st.i + dataOffset) % blockSize = 0 ∧ st.i + dataOffset ≠ 0 then
    { st with
      startingIndex := st.startingIndex + 1
      curByte := fs.bblockPtr + fs.inodeCount * BitVec.ofNat 32 blockSize +
        fs.dataBlocks inodeNum (st.startingIndex + 1) * BitVec.ofNat 32 blockSize +
        BitVec.ofNat 32 blockSize
      loads := fs.dataBlocksAddr inodeNum (st.startingIndex + 1) :: st.loads }
  else st

/-- One round of the loop of `read_data`. -/
def readRound (inodeNum : BitVec 32) (dataOffset : ℕ) (st : ReadState) : ReadState :=
  let st := fs.switchBlock inodeNum dataOffset st
  { st with
    i := st.i + 1
    curByte := st.curByte + 1
    numBytes := st.numBytes + 1
    buf := st.buf ++ [(load32 fs.mem st.curByte).setWidth 8]
    loads := st.curByte :: st.loads }

/-- The variables of the loop of `read_data` before its first round. -/
def readStart (inodeNum offset : BitVec 32) : ReadState where
  i := 0
  startingIndex := offset.toNat / blockSize
  curByte := fs.bblockPtr + fs.inodeCount * BitVec.ofNat 32 blockSize +
    fs.dataBlocks inodeNum (offset.toNat / blockSize) * BitVec.ofNat 32 blockSize +
    BitVec.ofNat 32 (offset.toNat % blockSize) + BitVec.ofNat 32 blockSize
  numBytes := 0
  buf := []
  loads := [fs.dataBlocksAddr inodeNum (offset.toNat / blockSize)]

/-- What a call of `read_data` returns, stores in the buffer and loads. -/
structure ReadResult where
  ret : ℤ
  buf : List (BitVec 8)
  loads : List (BitVec 32)

/-- `read_data`.  `actual_len` is signed, and a negative one makes no rounds at all. -/
def readData (inodeNum offset length : BitVec 32) : ReadResult :=
  if fs.inodeCount.toInt < inodeNum.toInt ∨ inodeNum.toInt < 0 then
    ⟨0, [], [fs.bblockPtr + 4]⟩
  else
    let counts := [fs.fileSizeAddr inodeNum, fs.bblockPtr + 8, fs.bblockPtr + 4]
    if fs.fileSize inodeNum ≤ offset then ⟨0, [], counts⟩
    else
      let actualLen :=
        if fs.fileSize inodeNum < length + offset then fs.fileSize inodeNum - offset else length
      let st := (fs.readRound inodeNum (offset.toNat % blockSize))^[actualLen.toInt.toNat]
        (fs.readStart inodeNum offset)
      ⟨st.numBytes, st.buf, st.loads ++ counts⟩

/-! ## The operations of files and directories -/

/-- `fs_file_read`: what `read_data` returns and stores, and the `FILE` after the call. -/
def fsFileRead (length : BitVec 32) (file : FILE) : ℤ × List (BitVec 8) × FILE :=
  let r := fs.readData file.inode file.pos length
  (r.ret, r.buf, { file with pos := file.pos + BitVec.ofInt 32 r.ret })

/-- `fs_dir_read`: the value returned, the 32 bytes stored in the buffer if it is written at all, and
the `FILE` after the call. -/
def fsDirRead (file : FILE) : ℤ × Option CStr × FILE :=
  match fs.readDentryByIndex file.pos with
  | none => (0, none, file)
  | some dent =>
    let buf := strncpy (fun _ => 0) dent.filename maxNameLength
    (fnLength buf, some buf, { file with pos := file.pos + 1 })

end Image

end FileSys
end CoreOS
