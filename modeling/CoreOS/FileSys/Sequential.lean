import CoreOS.FileSys.ReadData
import CoreOS.Lib.Runs

/-!
# Reading a file in pieces

A program opens a file and reads it with buffers of any sizes.  However the reads are cut, and
wherever they fall on the boundaries of the data blocks, it gets the contents of the file once, in
order, and nothing after the end.

A reader is the `FILE` together with what it has delivered so far.
-/

namespace CoreOS
namespace FileSys

open Runs Image

/-- A `FILE` and the bytes read through it so far. -/
structure Reader where
  file : FILE
  got : List (BitVec 8)

/-- One call of `fs_file_read`. -/
def Reader.read (fs : Image) (r : Reader) (length : BitVec 32) : Reader :=
  ⟨(fs.fsFileRead length r.file).2.2, r.got ++ (fs.fsFileRead length r.file).2.1⟩

/-- The end of the read does not wrap around. -/
def InRange (r : Reader) (length : BitVec 32) : Prop := r.file.pos.toNat + length.toNat < 2 ^ 32

instance (r : Reader) (length : BitVec 32) : Decidable (InRange r length) :=
  inferInstanceAs (Decidable (_ < _))

/-- The reader has delivered the first `n` bytes of the file and stands right after them. -/
structure At (fs : Image) (inode : BitVec 32) (n : ℕ) (r : Reader) : Prop where
  inode_eq : r.file.inode = inode
  pos_eq : r.file.pos.toNat = n
  got_eq : r.got = (fs.contents inode).take n

variable {fs : Image} {inode : BitVec 32}

/-- At the end of the file a read returns 0 and changes nothing. -/
theorem fsFileRead_of_end {file : FILE} (hend : (fs.fileSize file.inode).toNat ≤ file.pos.toNat)
    (length : BitVec 32) : fs.fsFileRead length file = (0, [], file) := by
  have hread : (fs.readData file.inode file.pos length).ret = 0 ∧
      (fs.readData file.inode file.pos length).buf = [] := by
    unfold readData
    split
    · exact ⟨rfl, rfl⟩
    · rw [if_pos (BitVec.le_def.mpr hend)]
      exact ⟨rfl, rfl⟩
  rw [fsFileRead, hread.1, hread.2]
  simp

/-- **One read** moves the reader on by `length` bytes, or to the end of the file. -/
theorem at_read (hpos : 0 ≤ inode.toInt) (hcount : inode.toInt < fs.inodeCount.toInt)
    (hsize : (fs.fileSize inode).toNat ≤ 1023 * 4096) {n : ℕ}
    (hn : n ≤ (fs.fileSize inode).toNat) {r : Reader} (hr : At fs inode n r) {length : BitVec 32}
    (hrange : InRange r length) :
    At fs inode (min (n + length.toNat) (fs.fileSize inode).toNat) (r.read fs length) := by
  have hlen : (fs.contents inode).length = (fs.fileSize inode).toNat := by simp [contents]
  rw [InRange, hr.pos_eq] at hrange
  obtain ⟨hbuf, hret⟩ := readData_spec fs r.file.pos length hpos (Int.le_of_lt hcount) (by omega)
    (by rw [hr.pos_eq]; exact hrange)
  rw [hr.pos_eq] at hbuf hret
  have hcountRead : (((fs.contents inode).drop n).take length.toNat).length =
      min length.toNat ((fs.fileSize inode).toNat - n) := by
    rw [List.length_take, List.length_drop, hlen]
  rw [hcountRead] at hret
  refine ⟨hr.inode_eq, ?_, ?_⟩
  · show (r.file.pos + BitVec.ofInt 32 (fs.readData r.file.inode r.file.pos length).ret).toNat = _
    rw [hr.inode_eq, hret, BitVec.toNat_add, hr.pos_eq, BitVec.ofInt_natCast, BitVec.toNat_ofNat]
    omega
  · show r.got ++ (fs.readData r.file.inode r.file.pos length).buf = _
    rw [hr.inode_eq, hbuf, hr.got_eq, ← List.take_add, List.take_eq_take_min, hlen]

/-- The invariant of a whole sequence of reads. -/
theorem at_run (hpos : 0 ≤ inode.toInt) (hcount : inode.toInt < fs.inodeCount.toInt)
    (hsize : (fs.fileSize inode).toNat ≤ 1023 * 4096) (lengths : List (BitVec 32)) {n : ℕ}
    {r : Reader} (hr : At fs inode (min n (fs.fileSize inode).toNat) r)
    (h : Meets (Reader.read fs) InRange r lengths) :
    At fs inode (min (n + (lengths.map BitVec.toNat).sum) (fs.fileSize inode).toNat)
      (run (Reader.read fs) r lengths) := by
  induction lengths generalizing n r with
  | nil => exact hr
  | cons length lengths ih =>
    have hstep := at_read hpos hcount hsize (Nat.min_le_right ..) hr h.1
    have hmin : min (min n (fs.fileSize inode).toNat + length.toNat) (fs.fileSize inode).toNat =
        min (n + length.toNat) (fs.fileSize inode).toNat := by omega
    rw [hmin] at hstep
    have hrest := ih hstep h.2
    rw [List.map_cons, List.sum_cons, ← Nat.add_assoc]
    exact hrest

/-- A `FILE` that has just been opened stands at the start. -/
theorem pos_of_fsOpen {name : CStr} {file₀ file : FILE} (h : fs.fsOpen name file₀ = (0, file)) :
    file.pos = 0 := by
  unfold fsOpen at h
  split at h
  · simp at h
  · split at h
    · exact congrArg (FILE.pos ∘ Prod.snd) h.symm
    · exact congrArg (FILE.pos ∘ Prod.snd) h.symm

/-- **Sequential reading.**  A file that has been opened is read with any sequence of
lengths.  What is delivered is the beginning of the file, as many bytes as were asked for in total
or the whole file; the position is that number; and once the file is exhausted every further read
returns 0, delivers nothing and leaves the `FILE` as it is. -/
theorem sequential_read {name : CStr} {file₀ file : FILE} (hopen : fs.fsOpen name file₀ = (0, file))
    (hpos : 0 ≤ file.inode.toInt) (hcount : file.inode.toInt < fs.inodeCount.toInt)
    (hsize : (fs.fileSize file.inode).toNat ≤ 1023 * 4096) (lengths : List (BitVec 32))
    (h : Meets (Reader.read fs) InRange ⟨file, []⟩ lengths) :
    let total := (lengths.map BitVec.toNat).sum
    let size := (fs.fileSize file.inode).toNat
    let r := run (Reader.read fs) ⟨file, []⟩ lengths
    r.got = (fs.contents file.inode).take (min total size) ∧ r.file.pos.toNat = min total size ∧
      (size ≤ total → ∀ length, fs.fsFileRead length r.file = (0, [], r.file)) := by
  intro total size r
  have hstart : At fs file.inode (min 0 size) ⟨file, []⟩ :=
    ⟨rfl, by rw [Nat.zero_min]; exact congrArg BitVec.toNat (pos_of_fsOpen hopen), by simp⟩
  have hr := at_run hpos hcount hsize lengths hstart h
  rw [Nat.zero_add] at hr
  refine ⟨hr.got_eq, hr.pos_eq, fun hall length => fsFileRead_of_end ?_ length⟩
  rw [hr.inode_eq, hr.pos_eq]
  exact Nat.le_min.mpr ⟨hall, Nat.le_refl _⟩

/-- An image with one file, `a`, that holds the three bytes `xyz`. -/
def oneFile : Image where
  bblockPtr := 0
  mem a :=
    if a = 0 ∨ a = 4 ∨ a = 8 then 1
    else if a = 64 then 0x61
    else if a = 96 then 2
    else if a = 4096 then 3
    else if a = 8192 then 0x78
    else if a = 8193 then 0x79
    else if a = 8194 then 0x7A
    else 0

/-- The file is read with lengths 2, 0 and 5. -/
theorem sequential_read_oneFile :
    let name : CStr := fun k => if k = 0 then 0x61 else 0
    let file : FILE := ⟨.file, 0, 0, .reg, false⟩
    oneFile.fsOpen name ⟨.dir, 7, 7, .term, false⟩ = (0, file) ∧
      (run (Reader.read oneFile) ⟨file, []⟩ [2, 0, 5]).got = [0x78, 0x79, 0x7A] ∧
      oneFile.fsFileRead 9 (run (Reader.read oneFile) ⟨file, []⟩ [2, 0, 5]).file =
        (0, [], (run (Reader.read oneFile) ⟨file, []⟩ [2, 0, 5]).file) := by
  intro name file
  have hopen : oneFile.fsOpen name ⟨.dir, 7, 7, .term, false⟩ = (0, file) := by decide
  obtain ⟨hgot, -, hend⟩ := sequential_read hopen (by decide) (by decide) (by decide) [2, 0, 5]
    ⟨by decide, by decide, by decide, trivial⟩
  refine ⟨hopen, hgot.trans (by decide), hend (by decide) 9⟩

end FileSys
end CoreOS
