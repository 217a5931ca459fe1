import CoreOS.FileSys.Image
import Mathlib.Data.List.Range

/-!
# What `read_data` delivers

A file is the bytes of its data blocks, in the order of the inode's block list: byte `k` is byte
`k % 4096` of block `data_blocks[k / 4096]`, and block `b` lies `1 + inode_count + b` blocks after
the boot block.  `fileByte` says so with plain numbers.

`read_data` walks through the blocks with two running variables, the index into the block list and
the address of the current byte.  At the point where a byte is loaded, after the test that moves on
to the next block, both are functions of the position in the file alone (`switchBlock_iterate`).
Everything about what is stored follows.
-/

namespace CoreOS
namespace FileSys
namespace Image

variable (fs : Image)

/-- Byte `off` of data block `b`. -/
def blockByte (b off : ℕ) : BitVec 8 :=
  fs.mem (BitVec.ofNat 32
    (fs.bblockPtr.toNat + blockSize * (1 + fs.inodeCount.toNat + b) + off))

/-- Byte `k` of the file of an inode. -/
def fileByte (inodeNum : BitVec 32) (k : ℕ) : BitVec 8 :=
  fs.blockByte (fs.dataBlocks inodeNum (k / blockSize)).toNat (k % blockSize)

/-- The contents of the file of an inode. -/
def contents (inodeNum : BitVec 32) : List (BitVec 8) :=
  (List.range (fs.fileSize inodeNum).toNat).map (fs.fileByte inodeNum)

/-- The address the code computes for byte `k` of a file. -/
def byteAddr (inodeNum : BitVec 32) (k : ℕ) : BitVec 32 :=
  fs.bblockPtr + fs.inodeCount * BitVec.ofNat 32 blockSize +
    fs.dataBlocks inodeNum (k / blockSize) * BitVec.ofNat 32 blockSize +
    BitVec.ofNat 32 (k % blockSize) + BitVec.ofNat 32 blockSize

variable {fs} {inodeNum offset : BitVec 32}

theorem setWidth_load32 (mem : BitVec 32 → BitVec 8) (a : BitVec 32) :
    (load32 mem a).setWidth 8 = mem a := by
  rw [load32, BitVec.setWidth_append, dif_pos (Nat.le_refl 8), BitVec.setWidth_eq]

theorem load_byteAddr (k : ℕ) :
    (load32 fs.mem (fs.byteAddr inodeNum k)).setWidth 8 = fs.fileByte inodeNum k := by
  rw [setWidth_load32, fileByte, blockByte]
  refine congrArg fs.mem (BitVec.eq_of_toNat_eq ?_)
  unfold byteAddr
  simp only [BitVec.toNat_add, BitVec.toNat_mul, BitVec.toNat_ofNat, blockSize]
  omega

/-- Inside a block the next byte of the file is the next byte of the memory. -/
theorem byteAddr_succ {k : ℕ} (h : (k + 1) % blockSize ≠ 0) :
    fs.byteAddr inodeNum k + 1 = fs.byteAddr inodeNum (k + 1) := by
  have hdiv : (k + 1) / blockSize = k / blockSize := by
    unfold blockSize at h ⊢
    omega
  have hmod : (k + 1) % blockSize = k % blockSize + 1 := by
    unfold blockSize at h ⊢
    omega
  have hcast : BitVec.ofNat 32 (k % blockSize + 1) = BitVec.ofNat 32 (k % blockSize) + 1 :=
    BitVec.ofNat_add ..
  rw [byteAddr, byteAddr, hdiv, hmod, hcast]
  ac_rfl

/-- The test at the top of the loop changes neither the counters nor the buffer. -/
theorem switchBlock_frame (fs : Image) (inodeNum : BitVec 32) (d : ℕ) (st : ReadState) :
    (fs.switchBlock inodeNum d st).i = st.i ∧
      (fs.switchBlock inodeNum d st).numBytes = st.numBytes ∧
      (fs.switchBlock inodeNum d st).buf = st.buf := by
  unfold switchBlock
  split <;> exact ⟨rfl, rfl, rfl⟩

/-- **The test at the top of the loop** makes the two running variables, which point behind byte
`offset + n` of the file, point at the next byte: in the same block, or at the front of the next
one. -/
theorem switchBlock_next {n : ℕ} {st : ReadState} (hi : st.i = n + 1)
    (hindex : st.startingIndex = (offset.toNat + n) / blockSize)
    (hbyte : st.curByte = fs.byteAddr inodeNum (offset.toNat + n) + 1) :
    (fs.switchBlock inodeNum (offset.toNat % blockSize) st).startingIndex =
        (offset.toNat + (n + 1)) / blockSize ∧
      (fs.switchBlock inodeNum (offset.toNat % blockSize) st).curByte =
        fs.byteAddr inodeNum (offset.toNat + (n + 1)) := by
  rw [switchBlock, hi, hindex]
  by_cases hedge : (offset.toNat + n + 1) % blockSize = 0
  · have htaken : (n + 1 + offset.toNat % blockSize) % blockSize = 0 ∧
        n + 1 + offset.toNat % blockSize ≠ 0 := by
      unfold blockSize at hedge ⊢
      omega
    have hnext : (offset.toNat + n) / blockSize + 1 = (offset.toNat + (n + 1)) / blockSize := by
      unfold blockSize at hedge ⊢
      omega
    have hmod : (offset.toNat + (n + 1)) % blockSize = 0 := hedge
    rw [if_pos htaken, hnext]
    refine ⟨rfl, ?_⟩
    rw [byteAddr, hmod]
    simp
  · have hnot : ¬ ((n + 1 + offset.toNat % blockSize) % blockSize = 0 ∧
        n + 1 + offset.toNat % blockSize ≠ 0) := by
      unfold blockSize at hedge ⊢
      omega
    rw [if_neg hnot, hindex, hbyte]
    refine ⟨?_, byteAddr_succ hedge⟩
    unfold blockSize at hedge ⊢
    omega

/-- **Where the loop is.**  When round `n` loads its byte, the two running variables point at byte
`offset + n` of the file. -/
theorem switchBlock_iterate (fs : Image) (inodeNum offset : BitVec 32) (n : ℕ) :
    let st := (fs.readRound inodeNum (offset.toNat % blockSize))^[n] (fs.readStart inodeNum offset)
    st.i = n ∧ st.numBytes = n ∧
      st.buf = (List.range n).map (fun k => fs.fileByte inodeNum (offset.toNat + k)) ∧
      (fs.switchBlock inodeNum (offset.toNat % blockSize) st).startingIndex =
        (offset.toNat + n) / blockSize ∧
      (fs.switchBlock inodeNum (offset.toNat % blockSize) st).curByte =
        fs.byteAddr inodeNum (offset.toNat + n) := by
  induction n with
  | zero =>
    have hstay : fs.switchBlock inodeNum (offset.toNat % blockSize) (fs.readStart inodeNum offset) =
        fs.readStart inodeNum offset := by
      have hzero : (fs.readStart inodeNum offset).i = 0 := rfl
      rw [switchBlock, hzero, blockSize, if_neg (by omega)]
    refine ⟨rfl, rfl, rfl, ?_, ?_⟩
    · rw [Function.iterate_zero_apply, hstay]
      rfl
    · rw [Function.iterate_zero_apply, hstay]
      rfl
  | succ n ih =>
    obtain ⟨hi, hnum, hbuf, hindex, hbyte⟩ := ih
    rw [Function.iterate_succ_apply']
    set st := (fs.readRound inodeNum (offset.toNat % blockSize))^[n] (fs.readStart inodeNum offset)
    set st' := fs.readRound inodeNum (offset.toNat % blockSize) st with hst'
    obtain ⟨hsi, hsn, hsb⟩ := switchBlock_frame fs inodeNum (offset.toNat % blockSize) st
    have hi' : st'.i = n + 1 := by rw [hst', readRound, hsi, hi]
    have hindex' : st'.startingIndex = (offset.toNat + n) / blockSize := by
      rw [hst', readRound, hindex]
    have hbyte' : st'.curByte = fs.byteAddr inodeNum (offset.toNat + n) + 1 := by
      rw [hst', readRound, hbyte]
    refine ⟨hi', by rw [hst', readRound, hsn, hnum], ?_, switchBlock_next hi' hindex' hbyte'⟩
    rw [hst', readRound, hsb, hbuf, hbyte, load_byteAddr, List.range_succ, List.map_append]
    rfl

/-- The bytes of a file from `offset` on, as many as `n`, none beyond its end. -/
theorem take_drop_contents {n : ℕ} (h : offset.toNat + n ≤ (fs.fileSize inodeNum).toNat) :
    ((fs.contents inodeNum).drop offset.toNat).take n =
      (List.range n).map fun k => fs.fileByte inodeNum (offset.toNat + k) := by
  refine List.ext_getElem ?_ fun k h₁ h₂ => ?_
  · simp [contents]
    omega
  · simp [contents]

/-- **`read_data`** on an inode of the image, when the sum of `offset` and `length` does not wrap
around: it stores the bytes from `offset` on, up to `length` of them or to the end of the file, and
returns how many. -/
theorem readData_spec (fs : Image) {inodeNum : BitVec 32} (offset length : BitVec 32)
    (hpos : 0 ≤ inodeNum.toInt)
    (hcount : inodeNum.toInt ≤ fs.inodeCount.toInt)
    (hsize : (fs.fileSize inodeNum).toNat < 2 ^ 31) (hsum : offset.toNat + length.toNat < 2 ^ 32) :
    (fs.readData inodeNum offset length).buf =
        ((fs.contents inodeNum).drop offset.toNat).take length.toNat ∧
      (fs.readData inodeNum offset length).ret =
        (((fs.contents inodeNum).drop offset.toNat).take length.toNat).length := by
  have hlen : (fs.contents inodeNum).length = (fs.fileSize inodeNum).toNat := by simp [contents]
  rw [readData, if_neg (by omega)]
  by_cases hend : fs.fileSize inodeNum ≤ offset
  · have hle : (fs.contents inodeNum).length ≤ offset.toNat := by
      rw [hlen]
      exact hend
    rw [if_pos hend, List.drop_eq_nil_of_le hle, List.take_nil]
    exact ⟨rfl, rfl⟩
  · rw [if_neg hend]
    rw [BitVec.not_le, BitVec.lt_def] at hend
    have hadd : (length + offset).toNat = offset.toNat + length.toNat := by
      rw [BitVec.toNat_add, Nat.mod_eq_of_lt (by omega), Nat.add_comm]
    -- the number of rounds is what is left of the file, or `length` if that is less
    set n := min length.toNat ((fs.fileSize inodeNum).toNat - offset.toNat) with hn
    have hrounds : (if fs.fileSize inodeNum < length + offset then fs.fileSize inodeNum - offset
        else length).toInt.toNat = n := by
      split
      · rename_i hlong
        rw [BitVec.lt_def, hadd] at hlong
        have hsub : (fs.fileSize inodeNum - offset).toNat =
            (fs.fileSize inodeNum).toNat - offset.toNat :=
          BitVec.toNat_sub_of_le (BitVec.le_def.mpr hend.le)
        rw [BitVec.toInt_eq_toNat_of_lt (by omega), Int.toNat_natCast, hsub]
        omega
      · rename_i hshort
        rw [BitVec.lt_def, hadd] at hshort
        rw [BitVec.toInt_eq_toNat_of_lt (by omega), Int.toNat_natCast]
        omega
    have htake : ((fs.contents inodeNum).drop offset.toNat).take length.toNat =
        ((fs.contents inodeNum).drop offset.toNat).take n := by
      rw [List.take_eq_take_min, List.length_drop, hlen]
    obtain ⟨-, hnum, hbuf, -⟩ := switchBlock_iterate fs inodeNum offset n
    simp only [hrounds]
    rw [hnum, hbuf, htake, take_drop_contents (by omega)]
    exact ⟨rfl, by simp⟩

/-- `actual_len` is at most `length`, also when the sum of `offset` and `length` wraps around. -/
theorem toNat_actualLen_le {size offset : BitVec 32} (h : offset < size) (length : BitVec 32) :
    (if size < length + offset then size - offset else length).toNat ≤ length.toNat := by
  split
  · rename_i hlong
    rw [BitVec.lt_def] at h
    rw [BitVec.lt_def, BitVec.toNat_add] at hlong
    have hmod := Nat.mod_le (length.toNat + offset.toNat) (2 ^ 32)
    rw [BitVec.toNat_sub_of_le (BitVec.le_def.mpr h.le)]
    omega
  · exact le_rfl

/-- **`read_data`** returns the number of bytes it stores, which is at most `length`, on any image and
for any arguments. -/
theorem readData_length (fs : Image) (inodeNum offset length : BitVec 32) :
    (fs.readData inodeNum offset length).ret = (fs.readData inodeNum offset length).buf.length ∧
      (fs.readData inodeNum offset length).buf.length ≤ length.toNat := by
  unfold readData
  split
  · exact ⟨rfl, Nat.zero_le _⟩
  · dsimp only
    split
    · exact ⟨rfl, Nat.zero_le _⟩
    · rename_i hend
      have hle := toNat_actualLen_le (BitVec.not_le.mp hend) length
      set actualLen := if fs.fileSize inodeNum < length + offset then fs.fileSize inodeNum - offset
        else length
      obtain ⟨-, hnum, hbuf, -⟩ := switchBlock_iterate fs inodeNum offset actualLen.toInt.toNat
      have hrounds : actualLen.toInt.toNat ≤ actualLen.toNat := by
        rw [BitVec.toInt_eq_toNat_cond]
        split <;> omega
      rw [hnum, hbuf, List.length_map, List.length_range]
      exact ⟨rfl, hrounds.trans hle⟩

end Image
end FileSys
end CoreOS
