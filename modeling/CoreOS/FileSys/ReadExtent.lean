import CoreOS.FileSys.Sequential
import Mathlib.Data.List.GetD

/-!
# How far `read_data` goes

`ReadData` says what a read of ordinary length delivers.  This file drops the restrictions on the
arguments and asks three questions.

* *Which bytes* come back, for any offset and any length?  `readData_delivers`: never a wrong one,
  and never one beyond `length` or beyond the end of the file.
* *How many* come back?  The code adds `offset` and `length` in 32 bits and keeps the result in a
  signed variable, so that a long read that starts inside the file may deliver nothing; and it lets
  `inode_count` pass as an inode number.  `readsFully_iff` is the exact condition.
* *Which bytes of memory* are loaded?  Each byte is fetched as a word of four, block numbers are not
  checked at all, and the inode number is checked against the wrong bound.  `staysInside_iff` is the
  exact condition for a read to stay in the image.

All three rest on `readData_eq`, which replaces the loop by the number of its rounds.
-/

namespace CoreOS
namespace FileSys

/-- The buffer of the caller once some bytes have been stored from its start on. -/
def storeBytes (buf : CStr) (bytes : List (BitVec 8)) : CStr := fun i => bytes.getD i (buf i)

theorem storeBytes_of_lt {buf : CStr} {bytes : List (BitVec 8)} {i : ℕ} (h : i < bytes.length) :
    storeBytes buf bytes i = bytes[i] := by
  rw [storeBytes, List.getD_eq_getElem _ _ h]

theorem storeBytes_of_le {buf : CStr} {bytes : List (BitVec 8)} {i : ℕ} (h : bytes.length ≤ i) :
    storeBytes buf bytes i = buf i := by
  rw [storeBytes, List.getD_eq_default _ _ h]

/-- The number of rounds the loop of `read_data` makes when it is reached. -/
def rounds (size offset length : ℕ) : ℕ :=
  let actualLen := if offset + length < 2 ^ 32 then min length (size - offset) else length
  if actualLen < 2 ^ 31 then actualLen else 0

namespace Image

variable {fs : Image} {inodeNum offset : BitVec 32}

/-- A word as the bound of a loop with a signed counter. -/
theorem toNat_toInt (x : BitVec 32) : x.toInt.toNat = if x.toNat < 2 ^ 31 then x.toNat else 0 := by
  have hlt := x.isLt
  rw [BitVec.toInt_eq_toNat_cond]
  split <;> split <;> omega

theorem actualLen_rounds {size : BitVec 32} (h : offset < size) (length : BitVec 32) :
    (if size < length + offset then size - offset else length).toInt.toNat =
      rounds size.toNat offset.toNat length.toNat := by
  rw [BitVec.lt_def] at h
  have hsub : (size - offset).toNat = size.toNat - offset.toNat :=
    BitVec.toNat_sub_of_le (BitVec.le_def.mpr h.le)
  have hlen : (if size < length + offset then size - offset else length).toNat =
      if offset.toNat + length.toNat < 2 ^ 32 then min length.toNat (size.toNat - offset.toNat)
      else length.toNat := by
    by_cases hwrap : offset.toNat + length.toNat < 2 ^ 32
    · rw [if_pos hwrap]
      have hadd : (length + offset).toNat = length.toNat + offset.toNat := by
        rw [BitVec.toNat_add, Nat.mod_eq_of_lt (by omega)]
      split
      · rename_i hlong
        rw [BitVec.lt_def, hadd] at hlong
        omega
      · rename_i hshort
        rw [BitVec.lt_def, hadd] at hshort
        omega
    · -- the sum wraps around to a position before `offset`
      have hlen := length.isLt
      have hadd : (length + offset).toNat = length.toNat + offset.toNat - 2 ^ 32 := by
        rw [BitVec.toNat_add]
        omega
      rw [if_neg hwrap, if_neg (by rw [BitVec.lt_def, hadd]; omega)]
  rw [rounds, ← hlen, toNat_toInt]

/-- **`read_data` past its checks.** -/
theorem readData_eq (hpos : 0 ≤ inodeNum.toInt) (hcount : inodeNum.toInt ≤ fs.inodeCount.toInt)
    (hoff : offset < fs.fileSize inodeNum) (length : BitVec 32) :
    let n := rounds (fs.fileSize inodeNum).toNat offset.toNat length.toNat
    (fs.readData inodeNum offset length).ret = n ∧
      (fs.readData inodeNum offset length).buf =
        (List.range n).map (fun k => fs.fileByte inodeNum (offset.toNat + k)) ∧
      (fs.readData inodeNum offset length).loads =
        ((fs.readRound inodeNum (offset.toNat % blockSize))^[n]
          (fs.readStart inodeNum offset)).loads ++
          [fs.fileSizeAddr inodeNum, fs.bblockPtr + 8, fs.bblockPtr + 4] := by
  intro n
  obtain ⟨-, hnum, hbuf, -⟩ := switchBlock_iterate fs inodeNum offset n
  rw [readData, if_neg (by omega), if_neg (BitVec.not_le.mpr hoff)]
  dsimp only
  rw [actualLen_rounds hoff, hnum, hbuf]
  exact ⟨rfl, rfl, rfl⟩

/-- `read_data` refuses the inode number. -/
theorem readData_of_refused (h : fs.inodeCount.toInt < inodeNum.toInt ∨ inodeNum.toInt < 0)
    (length : BitVec 32) : fs.readData inodeNum offset length = ⟨0, [], [fs.bblockPtr + 4]⟩ := by
  rw [readData, if_pos h]

/-- `read_data` finds nothing left. -/
theorem readData_of_end (hpos : 0 ≤ inodeNum.toInt) (hcount : inodeNum.toInt ≤ fs.inodeCount.toInt)
    (hend : fs.fileSize inodeNum ≤ offset) (length : BitVec 32) :
    fs.readData inodeNum offset length =
      ⟨0, [], [fs.fileSizeAddr inodeNum, fs.bblockPtr + 8, fs.bblockPtr + 4]⟩ := by
  rw [readData, if_neg (by omega)]
  dsimp only
  rw [if_pos hend]

/-! ## Which bytes -/

/-- A file of the image is small, so a length that wraps around makes no rounds. -/
theorem rounds_le {size : ℕ} (hsize : size ≤ 1023 * 4096) {offset length : ℕ} (hoff : offset < size)
    (hlen : length < 2 ^ 32) :
    rounds size offset length ≤ length ∧ rounds size offset length ≤ size - offset := by
  unfold rounds
  dsimp only
  split <;> split <;> omega

/-- **`read_data` delivers the right bytes.**  If it returns `n` then it stores `n` bytes, no more
than `length` and no more than the file has left; the `k`-th is the byte at `(offset + k) % 4096` of
the data block the inode lists at `(offset + k) / 4096`; and the rest of the buffer is left alone. -/
theorem readData_delivers (fs : Image) {inodeNum : BitVec 32} (hpos : 0 ≤ inodeNum.toInt)
    (hcount : inodeNum.toInt < fs.inodeCount.toInt)
    (hsize : (fs.fileSize inodeNum).toNat ≤ 1023 * 4096) (offset length : BitVec 32) (buf : CStr) :
    ∃ n : ℕ, (fs.readData inodeNum offset length).ret = n ∧
      (fs.readData inodeNum offset length).buf.length = n ∧
      n ≤ length.toNat ∧ n ≤ (fs.fileSize inodeNum).toNat - offset.toNat ∧
      (fs.fileSize inodeNum ≤ offset → n = 0) ∧
      (∀ k < n, storeBytes buf (fs.readData inodeNum offset length).buf k =
        fs.blockByte (fs.dataBlocks inodeNum ((offset.toNat + k) / blockSize)).toNat
          ((offset.toNat + k) % blockSize)) ∧
      ∀ k, n ≤ k → storeBytes buf (fs.readData inodeNum offset length).buf k = buf k := by
  by_cases hend : fs.fileSize inodeNum ≤ offset
  · rw [readData_of_end hpos (Int.le_of_lt hcount) hend]
    exact ⟨0, rfl, rfl, Nat.zero_le _, Nat.zero_le _, fun _ => rfl,
      fun k hk => absurd hk (Nat.not_lt_zero k), fun k _ => rfl⟩
  · have hoff : offset < fs.fileSize inodeNum := BitVec.not_le.mp hend
    obtain ⟨hret, hbuf, -⟩ := readData_eq hpos (Int.le_of_lt hcount) hoff length
    set n := rounds (fs.fileSize inodeNum).toNat offset.toNat length.toNat
    obtain ⟨hle, hleft⟩ := rounds_le hsize (BitVec.lt_def.mp hoff) length.isLt
    have hlen : (fs.readData inodeNum offset length).buf.length = n := by
      rw [hbuf, List.length_map, List.length_range]
    refine ⟨n, hret, hlen, hle, hleft, fun h => absurd h hend, fun k hk => ?_, fun k hk => ?_⟩
    · rw [storeBytes_of_lt (by omega)]
      simp only [hbuf, List.getElem_map, List.getElem_range]
      rfl
    · exact storeBytes_of_le (by omega)

/-- The last two bytes of the only file of an image, which is `xyz`, and nothing behind them. -/
theorem readData_delivers_oneFile :
    let r := oneFile.readData 0 1 5
    r.ret = 2 ∧ storeBytes (fun _ => 7) r.buf 0 = 0x79 ∧ storeBytes (fun _ => 7) r.buf 1 = 0x7A ∧
      ∀ k, 2 ≤ k → storeBytes (fun _ => 7) r.buf k = 7 := by
  intro r
  have hpos : 0 ≤ (0 : BitVec 32).toInt := by decide
  have htwo : r.ret = 2 := by decide
  obtain ⟨n, hret, -, -, -, -, hbytes, hrest⟩ :=
    readData_delivers oneFile hpos (by decide) (by decide) 1 5 fun _ => 7
  obtain rfl : n = 2 := Int.ofNat_inj.mp (hret.symm.trans htwo)
  exact ⟨htwo, (hbytes 0 (by decide)).trans (by decide), (hbytes 1 (by decide)).trans (by decide), hrest⟩

/-! ## How many -/

/-- No file of the image is longer than its block list allows. -/
def SizesFit (fs : Image) : Prop :=
  ∀ i : BitVec 32, 0 ≤ i.toInt → i.toInt < fs.inodeCount.toInt →
    (fs.fileSize i).toNat ≤ 1023 * 4096

/-- **What `read_data` should return**: all that is left of a file, up to `length`, and nothing when
there is no such file or nothing is left. -/
structure ReadsFully (fs : Image) (inodeNum offset length : BitVec 32) : Prop where
  inside : 0 ≤ inodeNum.toInt → inodeNum.toInt < fs.inodeCount.toInt →
    offset < fs.fileSize inodeNum → (fs.readData inodeNum offset length).ret =
      (min length.toNat ((fs.fileSize inodeNum).toNat - offset.toNat) : ℕ)
  outside : ¬ (0 ≤ inodeNum.toInt ∧ inodeNum.toInt < fs.inodeCount.toInt ∧
      offset < fs.fileSize inodeNum) →
    (fs.readData inodeNum offset length).ret = 0 ∧ (fs.readData inodeNum offset length).buf = []

/-- The arguments `read_data` treats as it should.

* A read inside a file must not reach beyond `2 ^ 32`.
* The inode number just past the last one takes the words of data block 0 for an inode.  A read of
  that must find nothing left, or ask for nothing, or have its length stored as a negative one. -/
structure LengthFits (fs : Image) (inodeNum offset length : BitVec 32) : Prop where
  inside : 0 ≤ inodeNum.toInt → inodeNum.toInt < fs.inodeCount.toInt →
    offset < fs.fileSize inodeNum → offset.toNat + length.toNat < 2 ^ 32
  past : 0 ≤ inodeNum.toInt → inodeNum.toInt = fs.inodeCount.toInt →
    fs.fileSize inodeNum ≤ offset ∨ length = 0 ∨
      (2 ^ 31 ≤ length.toNat ∧ (2 ^ 32 ≤ offset.toNat + length.toNat ∨
        2 ^ 31 ≤ (fs.fileSize inodeNum).toNat - offset.toNat))

theorem rounds_eq_min_iff {size offset length : ℕ} (hsize : size ≤ 1023 * 4096) (hoff : offset < size)
    (hlen : length < 2 ^ 32) :
    rounds size offset length = min length (size - offset) ↔ offset + length < 2 ^ 32 := by
  unfold rounds
  dsimp only
  split <;> split <;> omega

theorem rounds_eq_zero_iff {size offset : ℕ} (hoff : offset < size) (length : ℕ)
    (hsize : size < 2 ^ 32) :
    rounds size offset length = 0 ↔ length = 0 ∨
      (2 ^ 31 ≤ length ∧ (2 ^ 32 ≤ offset + length ∨ 2 ^ 31 ≤ size - offset)) := by
  unfold rounds
  dsimp only
  split <;> split <;> omega

/-- **When `read_data` returns what it should.** -/
theorem readsFully_iff {fs : Image} (hsizes : fs.SizesFit) (inodeNum offset length : BitVec 32) :
    fs.ReadsFully inodeNum offset length ↔ fs.LengthFits inodeNum offset length := by
  by_cases hpos : inodeNum.toInt < 0
  · refine iff_of_true ⟨fun h => by omega, fun _ => ?_⟩ ⟨fun h => by omega, fun h => by omega⟩
    rw [readData_of_refused (Or.inr hpos)]
    exact ⟨rfl, rfl⟩
  have hpos : 0 ≤ inodeNum.toInt := by omega
  rcases Int.lt_trichotomy inodeNum.toInt fs.inodeCount.toInt with hcount | hcount | hcount
  · -- an inode of the image
    by_cases hend : fs.fileSize inodeNum ≤ offset
    · have hoff : ¬ offset < fs.fileSize inodeNum := BitVec.not_lt.mpr hend
      refine iff_of_true ⟨fun _ _ h => absurd h hoff, fun _ => ?_⟩
        ⟨fun _ _ h => absurd h hoff, fun _ h => by omega⟩
      rw [readData_of_end hpos (Int.le_of_lt hcount) hend]
      exact ⟨rfl, rfl⟩
    · have hoff : offset < fs.fileSize inodeNum := BitVec.not_le.mp hend
      have hiff := rounds_eq_min_iff (hsizes inodeNum hpos hcount) (BitVec.lt_def.mp hoff)
        length.isLt
      obtain ⟨hret, -, -⟩ := readData_eq hpos (Int.le_of_lt hcount) hoff length
      constructor
      · intro h
        have hmin := h.inside hpos hcount hoff
        rw [hret] at hmin
        exact ⟨fun _ _ _ => hiff.mp (Int.natCast_inj.mp hmin), fun _ h' => by omega⟩
      · intro h
        refine ⟨fun _ _ _ => ?_, fun h' => absurd ⟨hpos, hcount, hoff⟩ h'⟩
        rw [hret, hiff.mpr (h.inside hpos hcount hoff)]
  · -- the inode number just past the last one
    by_cases hend : fs.fileSize inodeNum ≤ offset
    · refine iff_of_true ⟨fun _ h => by omega, fun _ => ?_⟩
        ⟨fun _ h => by omega, fun _ _ => Or.inl hend⟩
      rw [readData_of_end hpos (Int.le_of_eq hcount) hend]
      exact ⟨rfl, rfl⟩
    · have hoff : offset < fs.fileSize inodeNum := BitVec.not_le.mp hend
      have hiff := rounds_eq_zero_iff (BitVec.lt_def.mp hoff) length.toNat
        (fs.fileSize inodeNum).isLt
      have hzero : length.toNat = 0 ↔ length = 0 := by
        rw [← BitVec.toNat_inj]
        rfl
      rw [hzero] at hiff
      obtain ⟨hret, hbuf, -⟩ := readData_eq hpos (Int.le_of_eq hcount) hoff length
      constructor
      · intro h
        have hnone := (h.outside fun h' => by omega).1
        rw [hret] at hnone
        exact ⟨fun _ h' => by omega,
          fun _ _ => Or.inr (hiff.mp (Int.natCast_eq_zero.mp hnone))⟩
      · intro h
        have hnone := hiff.mpr ((h.past hpos hcount).resolve_left hend)
        refine ⟨fun _ h' => by omega, fun _ => ?_⟩
        rw [hret, hbuf, hnone]
        exact ⟨rfl, rfl⟩
  · refine iff_of_true ⟨fun _ h => by omega, fun _ => ?_⟩ ⟨fun _ h => by omega, fun _ h => by omega⟩
    rw [readData_of_refused (Or.inl hcount)]
    exact ⟨rfl, rfl⟩

theorem sizesFit_oneFile : oneFile.SizesFit := by
  intro i hpos hcount
  have hone : oneFile.inodeCount.toInt = 1 := by decide
  have hzero : i = 0 := by
    rw [hone] at hcount
    exact BitVec.eq_of_toInt_eq (by simp; omega)
  rw [hzero]
  decide

/-- All of the only file of an image. -/
theorem readsFully_oneFile : oneFile.ReadsFully 0 0 4096 :=
  (readsFully_iff sizesFit_oneFile 0 0 4096).mpr
    ⟨fun _ _ _ => by decide, fun _ h => absurd h (by decide)⟩

/-- **The failing read.**  After one byte of a file of three, a read of `2 ^ 32 - 1` bytes returns
0. -/
theorem not_readsFully : ¬ ∀ fs : Image, fs.SizesFit →
    ∀ inodeNum offset length, fs.ReadsFully inodeNum offset length := by
  intro h
  have hread := (h oneFile sizesFit_oneFile 0 1 0xFFFFFFFF).inside (by decide) (by decide)
    (by decide)
  exact absurd hread (by decide)

/-! ## Which bytes of memory -/

variable (fs)

/-- The size of the image: the boot block, the inodes and the data blocks. -/
def imageSize : ℕ := blockSize * (1 + fs.inodeCount.toNat + fs.dataBlockCount.toNat)

/-- An address lies in the image. -/
def Inside (a : BitVec 32) : Prop := (a - fs.bblockPtr).toNat < fs.imageSize

/-- Every byte of every word the call loads lies in the image. -/
def StaysInside (inodeNum offset length : BitVec 32) : Prop :=
  ∀ a ∈ (fs.readData inodeNum offset length).loads, ∀ t < 4, fs.Inside (a + BitVec.ofNat 32 t)

/-- Entry `idx` of the block list of an inode lies in the image. -/
def BlockListFits (inodeNum : BitVec 32) (idx : ℕ) : Prop :=
  (blockSize * (1 + inodeNum.toNat) + 4 + 4 * idx) % 2 ^ 32 < fs.imageSize

/-- Byte `k` of a file lies in a block of the image, and if that is the last block of all then three
more bytes follow in it. -/
def ByteFits (inodeNum : BitVec 32) (k : ℕ) : Prop :=
  let block := (1 + fs.inodeCount.toNat + (fs.dataBlocks inodeNum (k / blockSize)).toNat) % 2 ^ 20
  let last := fs.inodeCount.toNat + fs.dataBlockCount.toNat
  block < last ∨ (block = last ∧ k % blockSize < blockSize - 3)

/-- The arguments for which `read_data` stays in the image. -/
def ReadFits (inodeNum offset length : BitVec 32) : Prop :=
  fs.imageSize = 2 ^ 32 ∨ inodeNum.toInt < 0 ∨ fs.inodeCount.toInt < inodeNum.toInt ∨
    (inodeNum.toNat < fs.inodeCount.toNat + fs.dataBlockCount.toNat ∧
      (fs.fileSize inodeNum ≤ offset ∨
        (fs.BlockListFits inodeNum (offset.toNat / blockSize) ∧
          ∀ k < rounds (fs.fileSize inodeNum).toNat offset.toNat length.toNat,
            fs.BlockListFits inodeNum ((offset.toNat + k) / blockSize) ∧
              fs.ByteFits inodeNum (offset.toNat + k))))

variable {fs}

/-- **What the loop loads**: the block list entry of the first byte and, in each round, the word at
the current byte and, when a block begins there, its block list entry. -/
theorem mem_loads_iterate {n : ℕ} {a : BitVec 32} :
    a ∈ ((fs.readRound inodeNum (offset.toNat % blockSize))^[n]
        (fs.readStart inodeNum offset)).loads ↔
      a = fs.dataBlocksAddr inodeNum (offset.toNat / blockSize) ∨
        ∃ k < n, a = fs.byteAddr inodeNum (offset.toNat + k) ∨
          (0 < k ∧ (offset.toNat + k) % blockSize = 0 ∧
            a = fs.dataBlocksAddr inodeNum ((offset.toNat + k) / blockSize)) := by
  induction n with
  | zero => simp [readStart]
  | succ n ih =>
    obtain ⟨hi, -, -, hindex, hbyte⟩ := switchBlock_iterate fs inodeNum offset n
    rw [Function.iterate_succ_apply']
    set st := (fs.readRound inodeNum (offset.toNat % blockSize))^[n] (fs.readStart inodeNum offset)
    have hround : (fs.readRound inodeNum (offset.toNat % blockSize) st).loads =
        fs.byteAddr inodeNum (offset.toNat + n) ::
          (fs.switchBlock inodeNum (offset.toNat % blockSize) st).loads := by
      rw [readRound, hbyte]
    have hswitch : a ∈ (fs.switchBlock inodeNum (offset.toNat % blockSize) st).loads ↔
        a ∈ st.loads ∨ (0 < n ∧ (offset.toNat + n) % blockSize = 0 ∧
          a = fs.dataBlocksAddr inodeNum ((offset.toNat + n) / blockSize)) := by
      unfold switchBlock at hindex ⊢
      rw [hi] at hindex ⊢
      by_cases hedge : (n + offset.toNat % blockSize) % blockSize = 0 ∧
          n + offset.toNat % blockSize ≠ 0
      · have hstart : 0 < n ∧ (offset.toNat + n) % blockSize = 0 := by
          unfold blockSize at hedge ⊢
          omega
        rw [if_pos hedge] at hindex ⊢
        rw [List.mem_cons, show st.startingIndex + 1 = _ from hindex]
        simp only [hstart, true_and]
        exact or_comm
      · have hstart : ¬ (0 < n ∧ (offset.toNat + n) % blockSize = 0) := by
          unfold blockSize at hedge ⊢
          omega
        rw [if_neg hedge, ← and_assoc]
        simp only [hstart, false_and, or_false]
    rw [hround, List.mem_cons, hswitch, ih]
    constructor
    · rintro (h | (h | ⟨k, hk, h⟩) | h)
      · exact Or.inr ⟨n, by omega, Or.inl h⟩
      · exact Or.inl h
      · exact Or.inr ⟨k, by omega, h⟩
      · exact Or.inr ⟨n, by omega, Or.inr h⟩
    · rintro (h | ⟨k, hk, h⟩)
      · exact Or.inr (Or.inl (Or.inl h))
      · rcases Nat.eq_or_lt_of_le (Nat.le_of_lt_succ hk) with rfl | hlt
        · rcases h with h | h
          · exact Or.inl h
          · exact Or.inr (Or.inr h)
        · exact Or.inr (Or.inl (Or.inr ⟨k, hlt, h⟩))

/-- The words the loop loads, in the order of the file: for each byte its block list entry and the
word at it. -/
theorem forall_loads_iterate {n : ℕ} {P : BitVec 32 → Prop} :
    (∀ a ∈ ((fs.readRound inodeNum (offset.toNat % blockSize))^[n]
        (fs.readStart inodeNum offset)).loads, P a) ↔
      P (fs.dataBlocksAddr inodeNum (offset.toNat / blockSize)) ∧
        ∀ k < n, P (fs.dataBlocksAddr inodeNum ((offset.toNat + k) / blockSize)) ∧
          P (fs.byteAddr inodeNum (offset.toNat + k)) := by
  simp only [mem_loads_iterate]
  constructor
  · intro h
    have hfirst := h _ (Or.inl rfl)
    refine ⟨hfirst, fun k hk => ⟨?_, h _ (Or.inr ⟨k, hk, Or.inl rfl⟩)⟩⟩
    by_cases hsame : (offset.toNat + k) / blockSize = offset.toNat / blockSize
    · rw [hsame]
      exact hfirst
    · -- the block of byte `k` was entered in an earlier round
      set edge := blockSize * ((offset.toNat + k) / blockSize) - offset.toNat with hedge
      have hpos : 0 < edge := by
        unfold blockSize at hsame hedge
        omega
      have hle : edge ≤ k := by
        unfold blockSize at hedge
        omega
      have hmul : offset.toNat + edge = blockSize * ((offset.toNat + k) / blockSize) := by
        omega
      refine h _ (Or.inr ⟨edge, by omega, Or.inr ⟨hpos, ?_, ?_⟩⟩)
      · rw [hmul, Nat.mul_mod_right]
      · rw [hmul, Nat.mul_div_cancel_left _ (by decide)]
  · rintro ⟨hfirst, hrest⟩ a (rfl | ⟨k, hk, rfl | ⟨-, -, rfl⟩⟩)
    · exact hfirst
    · exact (hrest k hk).2
    · exact (hrest k hk).1

/-! ### Distances from the boot block -/

theorem sub_bblockPtr_of_eq {a : BitVec 32} {n : ℕ} (h : a = fs.bblockPtr + BitVec.ofNat 32 n) :
    (a - fs.bblockPtr).toNat = n % 2 ^ 32 := by
  rw [h, BitVec.add_comm, BitVec.add_sub_cancel, BitVec.toNat_ofNat]

theorem ofNat_mul_toNat (n : ℕ) (x : BitVec 32) :
    BitVec.ofNat 32 (n * x.toNat) = x * BitVec.ofNat 32 n := by
  rw [BitVec.ofNat_mul, BitVec.ofNat_toNat, BitVec.setWidth_eq, BitVec.mul_comm]

theorem fileSizeAddr_eq (fs : Image) (inodeNum : BitVec 32) : fs.fileSizeAddr inodeNum =
    fs.bblockPtr + BitVec.ofNat 32 (blockSize * (1 + inodeNum.toNat)) := by
  rw [fileSizeAddr, Nat.mul_add, Nat.mul_one, BitVec.ofNat_add, ofNat_mul_toNat, BitVec.add_assoc]

theorem dataBlocksAddr_eq (fs : Image) (inodeNum : BitVec 32) (idx : ℕ) :
    fs.dataBlocksAddr inodeNum idx =
      fs.bblockPtr + BitVec.ofNat 32 (blockSize * (1 + inodeNum.toNat) + 4 + 4 * idx) := by
  rw [dataBlocksAddr, fileSizeAddr_eq, BitVec.ofNat_add, BitVec.ofNat_add, BitVec.add_assoc,
    BitVec.add_assoc, BitVec.add_assoc]
  rfl

theorem byteAddr_eq (fs : Image) (inodeNum : BitVec 32) (k : ℕ) :
    fs.byteAddr inodeNum k = fs.bblockPtr + BitVec.ofNat 32 (blockSize *
      (1 + fs.inodeCount.toNat + (fs.dataBlocks inodeNum (k / blockSize)).toNat) +
        k % blockSize) := by
  rw [byteAddr, Nat.mul_add, Nat.mul_add, Nat.mul_one, BitVec.ofNat_add, BitVec.ofNat_add,
    BitVec.ofNat_add, ofNat_mul_toNat, ofNat_mul_toNat]
  ac_rfl

/-- A word lies in the image when its last byte does, or when the image is the whole memory. -/
theorem word_inside_iff (hfit : fs.bblockPtr.toNat + fs.imageSize ≤ 2 ^ 32) (a : BitVec 32) :
    (∀ t < 4, fs.Inside (a + BitVec.ofNat 32 t)) ↔
      fs.imageSize = 2 ^ 32 ∨ (a - fs.bblockPtr).toNat + 3 < fs.imageSize := by
  have hrel := (a - fs.bblockPtr).isLt
  have hbyte : ∀ t, fs.Inside (a + BitVec.ofNat 32 t) ↔
      ((a - fs.bblockPtr).toNat + t) % 2 ^ 32 < fs.imageSize := fun t => by
    rw [Inside, BitVec.add_sub_comm, BitVec.toNat_add]
    simp
  simp only [hbyte]
  constructor
  · intro h
    have h0 := h 0 (by omega)
    have h3 := h 3 (by omega)
    unfold imageSize blockSize at h0 h3 hfit ⊢
    omega
  · rintro (hall | hlast) t ht
    · rw [hall]
      exact Nat.mod_lt _ (by omega)
    · omega

/-! ## The words that are loaded -/

theorem bootWord_inside (fs : Image) {off : BitVec 32} (hoff : off.toNat + 3 < blockSize) :
    (fs.bblockPtr + off - fs.bblockPtr).toNat + 3 < fs.imageSize := by
  rw [BitVec.add_comm, BitVec.add_sub_cancel]
  unfold imageSize blockSize at *
  omega

theorem fileSizeWord_inside_iff (hfit : fs.bblockPtr.toNat + fs.imageSize ≤ 2 ^ 32)
    (hall : fs.imageSize ≠ 2 ^ 32) {inodeNum : BitVec 32} (hle : inodeNum.toNat ≤ fs.inodeCount.toNat) :
    (fs.fileSizeAddr inodeNum - fs.bblockPtr).toNat + 3 < fs.imageSize ↔
      inodeNum.toNat < fs.inodeCount.toNat + fs.dataBlockCount.toNat := by
  rw [sub_bblockPtr_of_eq (fileSizeAddr_eq fs inodeNum)]
  unfold imageSize blockSize at *
  omega

theorem blockListWord_inside_iff (fs : Image) (inodeNum : BitVec 32) (idx : ℕ) :
    (fs.dataBlocksAddr inodeNum idx - fs.bblockPtr).toNat + 3 < fs.imageSize ↔
      fs.BlockListFits inodeNum idx := by
  rw [sub_bblockPtr_of_eq (dataBlocksAddr_eq fs inodeNum idx), BlockListFits]
  unfold imageSize blockSize
  omega

theorem byteWord_inside_iff (fs : Image) (inodeNum : BitVec 32) (k : ℕ) :
    (fs.byteAddr inodeNum k - fs.bblockPtr).toNat + 3 < fs.imageSize ↔ fs.ByteFits inodeNum k := by
  rw [sub_bblockPtr_of_eq (byteAddr_eq fs inodeNum k), ByteFits]
  unfold imageSize blockSize
  omega

/-- **When `read_data` stays in the image.**  The image is any stretch of memory that does not wrap
around; its inodes, sizes and block lists are arbitrary. -/
theorem staysInside_iff (fs : Image) (hfit : fs.bblockPtr.toNat + fs.imageSize ≤ 2 ^ 32)
    (inodeNum offset length : BitVec 32) :
    fs.StaysInside inodeNum offset length ↔ fs.ReadFits inodeNum offset length := by
  by_cases hall : fs.imageSize = 2 ^ 32
  · refine iff_of_true (fun a _ => ?_) (Or.inl hall)
    exact (word_inside_iff hfit a).mpr (Or.inl hall)
  have hword : ∀ a, (∀ t < 4, fs.Inside (a + BitVec.ofNat 32 t)) ↔
      (a - fs.bblockPtr).toNat + 3 < fs.imageSize := fun a => by
    rw [word_inside_iff hfit]
    exact or_iff_right hall
  simp only [StaysInside, hword, ReadFits, hall, false_or]
  by_cases hneg : inodeNum.toInt < 0
  · rw [readData_of_refused (Or.inr hneg)]
    refine iff_of_true ?_ (Or.inl hneg)
    exact List.forall_mem_singleton.mpr (fs.bootWord_inside (by decide))
  by_cases hpast : fs.inodeCount.toInt < inodeNum.toInt
  · rw [readData_of_refused (Or.inl hpast)]
    refine iff_of_true ?_ (Or.inr (Or.inl hpast))
    exact List.forall_mem_singleton.mpr (fs.bootWord_inside (by decide))
  have hcount : inodeNum.toInt ≤ fs.inodeCount.toInt := by omega
  have hle : inodeNum.toNat ≤ fs.inodeCount.toNat := by
    have hlt₁ := inodeNum.isLt
    have hlt₂ := fs.inodeCount.isLt
    rw [BitVec.toInt_eq_toNat_cond] at hcount hneg
    rw [BitVec.toInt_eq_toNat_cond] at hcount
    split at hneg <;> split at hcount <;> omega
  have hsizeWord := fileSizeWord_inside_iff hfit hall hle
  have hcounts : (∀ a ∈ [fs.fileSizeAddr inodeNum, fs.bblockPtr + 8, fs.bblockPtr + 4],
      (a - fs.bblockPtr).toNat + 3 < fs.imageSize) ↔
      inodeNum.toNat < fs.inodeCount.toNat + fs.dataBlockCount.toNat := by
    simp only [List.mem_cons, List.not_mem_nil, or_false, forall_eq_or_imp, forall_eq, hsizeWord]
    exact and_iff_left ⟨fs.bootWord_inside (by decide), fs.bootWord_inside (by decide)⟩
  simp only [hneg, hpast, false_or]
  by_cases hend : fs.fileSize inodeNum ≤ offset
  · rw [readData_of_end (by omega) hcount hend, hcounts]
    simp only [hend, true_or, and_true]
  · obtain ⟨-, -, hloads⟩ := readData_eq (by omega) hcount (BitVec.not_le.mp hend) length
    rw [hloads, List.forall_mem_append, hcounts, and_comm, forall_loads_iterate]
    simp only [hend, false_or, blockListWord_inside_iff, byteWord_inside_iff]

/-- An image with one file that fills its only data block.  The block is the last of the image. -/
def fullBlock : Image where
  bblockPtr := 0x1000
  mem a := if a = 0x1000 ∨ a = 0x1004 ∨ a = 0x1008 then 1 else if a = 0x2001 then 0x10 else 0

/-- A read that ends three bytes before the end of the image. -/
theorem staysInside_fullBlock : fullBlock.StaysInside 0 4091 2 := by
  refine (staysInside_iff fullBlock (by decide) 0 4091 2).mpr ?_
  refine Or.inr (Or.inr (Or.inr ⟨by decide, Or.inr ⟨?_, ?_⟩⟩))
  · unfold BlockListFits
    decide
  · unfold BlockListFits ByteFits
    decide

/-- **The failing read.**  The last byte of the image is fetched together with the three bytes after
the image. -/
theorem not_staysInside : ¬ ∀ fs : Image, fs.bblockPtr.toNat + fs.imageSize ≤ 2 ^ 32 →
    ∀ inodeNum offset length, fs.StaysInside inodeNum offset length := by
  intro h
  have hload := h fullBlock (by decide) 0 4095 1 0x3FFF (by decide) 3 (by omega)
  exact absurd hload (by unfold Inside; decide)

end Image
end FileSys
end CoreOS
