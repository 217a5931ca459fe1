import CoreOS.Exec.Format

/-!
# Where the image goes

The copying loop of `_syscall_execute` reads 256 bytes at a time and stores them one behind the other
from `0x08048000` on, until a read delivers nothing.  `copyLoop_loads` says what this amounts to: the
bytes of the file at their places, and no other byte changed.

Nothing compares the length of the file with the room there is.  The user page ends at `0x8400000`,
which leaves 3,899,392 bytes, and a file can have up to 4,190,208.
-/

namespace CoreOS
namespace Exec

open FileSys Signals

/-- The room between the start of the image and the end of the user page. -/
def imageRoom : ℕ := taskVirtPageEnd.toNat - taskImgStartAddr.toNat

/-! ## One copy behind another -/

theorem memcpy_of_lt {mem : Memory 32} {dest : Word} {src : CStr} {n : ℕ} {a : Word}
    (h : (a - dest).toNat < n) : memcpy mem dest src n a = src (a - dest).toNat :=
  if_pos h

theorem memcpy_of_le {mem : Memory 32} {dest : Word} {src : CStr} {n : ℕ} {a : Word}
    (h : n ≤ (a - dest).toNat) : memcpy mem dest src n a = mem a :=
  if_neg (Nat.not_lt.mpr h)

/-- Two copies, the second where the first one ended. -/
theorem memcpy_memcpy (mem : Memory 32) (dest : Word) {src buf : CStr} {p n : ℕ}
    (hsum : p + n < 2 ^ 32) (hbuf : ∀ k < n, buf k = src (p + k)) :
    memcpy (memcpy mem dest src p) (dest + BitVec.ofNat 32 p) buf n =
      memcpy mem dest src (p + n) := by
  ext1 a
  have hp : (BitVec.ofNat 32 p).toNat = p := by
    rw [BitVec.toNat_ofNat, Nat.mod_eq_of_lt (by omega)]
  have hlt := (a - dest).isLt
  have hdist : (a - (dest + BitVec.ofNat 32 p)).toNat =
      if p ≤ (a - dest).toNat then (a - dest).toNat - p else (a - dest).toNat + 2 ^ 32 - p := by
    rw [← BitVec.sub_sub, BitVec.toNat_sub, hp]
    split <;> omega
  by_cases hlow : (a - dest).toNat < p
  · rw [if_neg (Nat.not_le.mpr hlow)] at hdist
    rw [memcpy_of_le (by omega), memcpy_of_lt hlow, memcpy_of_lt (by omega)]
  · rw [if_pos (Nat.not_lt.mp hlow)] at hdist
    by_cases hin : (a - dest).toNat < p + n
    · rw [memcpy_of_lt (by omega), memcpy_of_lt hin, hbuf _ (by omega), hdist]
      congr 1
      omega
    · rw [memcpy_of_le (by omega), memcpy_of_le (by omega), memcpy_of_le (by omega)]

/-! ## The loop -/

section loop

variable {fs : Image} {inodeNum : BitVec 32}

/-- An inode number that `read_data` does not refuse, of a file that is no longer than its block list
allows. -/
structure IsReadable (fs : Image) (inodeNum : BitVec 32) : Prop where
  nonneg : 0 ≤ inodeNum.toInt
  le_count : inodeNum.toInt ≤ fs.inodeCount.toInt
  size_le : (fs.fileSize inodeNum).toNat ≤ 1023 * 4096

/-- A read of `BUF_SIZE` bytes at position `p` delivers the next bytes of the file. -/
theorem IsReadable.readData (h : IsReadable fs inodeNum) {p : ℕ}
    (hp : p ≤ (fs.fileSize inodeNum).toNat) :
    (fs.readData inodeNum (BitVec.ofNat 32 p) (BitVec.ofNat 32 bufSize)).ret =
        ((min bufSize ((fs.fileSize inodeNum).toNat - p) : ℕ) : ℤ) ∧
      ∀ (buf : CStr) (k : ℕ), k < min bufSize ((fs.fileSize inodeNum).toNat - p) →
        storeBytes buf (fs.readData inodeNum (BitVec.ofNat 32 p) (BitVec.ofNat 32 bufSize)).buf k =
          fs.fileByte inodeNum (p + k) := by
  have hsize := h.size_le
  have hpos : (BitVec.ofNat 32 p).toNat = p := by
    rw [BitVec.toNat_ofNat, Nat.mod_eq_of_lt (by omega)]
  by_cases hend : fs.fileSize inodeNum ≤ BitVec.ofNat 32 p
  · rw [Image.readData_of_end h.nonneg h.le_count hend]
    rw [BitVec.le_def, hpos] at hend
    rw [Nat.sub_eq_zero_of_le hend, Nat.min_zero]
    exact ⟨rfl, fun _ k hk => absurd hk (Nat.not_lt_zero k)⟩
  · rw [BitVec.not_le] at hend
    obtain ⟨hret, hbuf, -⟩ := Image.readData_eq h.nonneg h.le_count hend (BitVec.ofNat 32 bufSize)
    rw [hpos, show (BitVec.ofNat 32 bufSize).toNat = bufSize from rfl,
      rounds_bufSize _ (by unfold bufSize; omega)] at hret hbuf
    refine ⟨hret, fun buf k hk => ?_⟩
    rw [storeBytes_of_lt (by rw [hbuf, List.length_map, List.length_range]; exact hk)]
    simp only [hbuf, List.getElem_map, List.getElem_range]

/-- The first `p` bytes of the file are in place, on a page that held `mem`. -/
structure Loaded (fs : Image) (inodeNum : BitVec 32) (mem : Memory 32) (p : ℕ) (c : Copying) :
    Prop where
  inode_eq : c.f.inode = inodeNum
  pos_eq : c.f.pos = BitVec.ofNat 32 p
  cur_eq : c.taskImgCur = taskImgStartAddr + BitVec.ofNat 32 p
  mem_eq : c.mem = memcpy mem taskImgStartAddr (fs.fileByte inodeNum) p

variable {mem : Memory 32} {p : ℕ} {c : Copying}

/-- What has been read goes behind what is in place. -/
theorem loaded_copy (hcur : c.taskImgCur = taskImgStartAddr + BitVec.ofNat 32 p)
    (hmem : c.mem = memcpy mem taskImgStartAddr (fs.fileByte inodeNum) p)
    (hinode : c.f.inode = inodeNum) {n : ℕ} (hn : c.readSize = n)
    (hpos : c.f.pos = BitVec.ofNat 32 (p + n)) (hsum : p + n < 2 ^ 32)
    (hbuf : ∀ k < n, c.buf k = fs.fileByte inodeNum (p + k)) :
    Loaded fs inodeNum mem (p + n) c.copy where
  inode_eq := hinode
  pos_eq := hpos
  cur_eq := by
    show c.taskImgCur + BitVec.ofInt 32 c.readSize = _
    rw [hcur, hn, BitVec.ofInt_natCast, BitVec.add_assoc, ← BitVec.ofNat_add]
  mem_eq := by
    show memcpy c.mem c.taskImgCur c.buf c.readSize.toNat = _
    rw [hcur, hmem, hn, Int.toNat_natCast, memcpy_memcpy _ _ hsum hbuf]

/-- **The loop puts the whole file in place**, and ends. -/
theorem copyLoop_loads (h : IsReadable fs inodeNum) {k : ℕ} (hc : Loaded fs inodeNum mem p c)
    (hp : p ≤ (fs.fileSize inodeNum).toNat) (hk : (fs.fileSize inodeNum).toNat - p < k) :
    (copyLoop fs k c).readSize ≤ 0 ∧
      (copyLoop fs k c).mem =
        memcpy mem taskImgStartAddr (fs.fileByte inodeNum) (fs.fileSize inodeNum).toNat := by
  have hsize := h.size_le
  induction k generalizing c p with
  | zero => omega
  | succ k ih =>
    obtain ⟨hret, hbytes⟩ := h.readData hp
    have hreadSize : (c.read fs).readSize =
        ((min bufSize ((fs.fileSize inodeNum).toNat - p) : ℕ) : ℤ) := by
      rw [← hret, ← hc.inode_eq, ← hc.pos_eq]
      rfl
    have hbuf : (c.read fs).buf = storeBytes c.buf
        (fs.readData inodeNum (BitVec.ofNat 32 p) (BitVec.ofNat 32 bufSize)).buf := by
      rw [← hc.inode_eq, ← hc.pos_eq]
      rfl
    have hpos : (c.read fs).f.pos = BitVec.ofNat 32
        (p + min bufSize ((fs.fileSize inodeNum).toNat - p)) := by
      show c.f.pos + BitVec.ofInt 32 (c.read fs).readSize = _
      rw [hreadSize, hc.pos_eq, BitVec.ofInt_natCast, ← BitVec.ofNat_add]
    rw [copyLoop]
    by_cases hleft : p < (fs.fileSize inodeNum).toNat
    · have hsome : 0 < min bufSize ((fs.fileSize inodeNum).toNat - p) := by
        unfold bufSize
        omega
      have hmore : 0 < (c.read fs).readSize := by
        rw [hreadSize]
        exact_mod_cast hsome
      have hnext : Loaded fs inodeNum mem _ (c.read fs).copy :=
        loaded_copy (c := c.read fs) hc.cur_eq hc.mem_eq hc.inode_eq hreadSize hpos (by omega)
          (fun j hj => by rw [hbuf, hbytes _ j hj])
      rw [if_pos hmore]
      exact ih hnext (by omega) (by omega)
    · have hdone : ¬ 0 < (c.read fs).readSize := by
        rw [hreadSize, Nat.sub_eq_zero_of_le (Nat.not_lt.mp hleft), Nat.min_zero]
        exact lt_irrefl _
      have hall : p = (fs.fileSize inodeNum).toNat := by omega
      rw [if_neg hdone]
      refine ⟨not_lt.mp hdone, ?_⟩
      rw [← hall]
      exact hc.mem_eq

end loop

/-! ## Loading a program -/

/-- What the copying loop of `_syscall_execute` leaves when the page held `mem`, if the checks have
passed. -/
def State.load (s : State) (fs : Image) (frame : Frame) (command : Str) (mem : Memory 32) :
    Option Copying :=
  match ((Machine.mk s frame).parse command).checkFormat fs with
  | (none, _) => none
  | (some (_, readSize), m) => some (m.frame.copyImage fs readSize mem)

/-- An address of the user page. -/
def InUserPage (a : Word) : Prop := Sys.taskVirtPageBeg ≤ a ∧ a < taskVirtPageEnd

/-- **The program is loaded into its page**: the loop ends by its own condition, the bytes of the file
are at their places, and whatever the memory held, no byte outside of the page has changed. -/
def LoadsInPage (s : State) (fs : Image) (frame : Frame) (command : Str) (dent : Dentry) : Prop :=
  ∀ mem, ∃ c, s.load fs frame command mem = some c ∧ c.readSize ≤ 0 ∧
    (∀ k < (fs.fileSize dent.inodeNum).toNat,
      c.mem (taskImgStartAddr + BitVec.ofNat 32 k) = fs.fileByte dent.inodeNum k) ∧
    ∀ a, ¬ InUserPage a → c.mem a = mem a

section load

variable {s : State} {fs : Image} {frame : Frame} {command : Str} {dent : Dentry}

theorem machine_fsOpen_of_found {m : Machine}
    (h : fs.readDentryByName m.frame.filename = some dent) :
    (m.fsOpen fs).1 = 0 ∧ (m.fsOpen fs).2.frame.f.inode = dent.inodeNum ∧
      (m.fsOpen fs).2.frame.f.pos = 0 :=
  fsOpen_of_found h m.frame.f

/-- The checks leave the frame as the first read does. -/
theorem checkFormat_frame (m : Machine) (fs : Image) (hopen : (m.fsOpen fs).1 ≠ -1) :
    (m.checkFormat fs).2.frame = ((m.fsOpen fs).2.fsFileRead fs).2.frame := by
  rw [Machine.checkFormat]
  dsimp only
  rw [if_neg hopen]
  split
  · rfl
  · split <;> rfl

theorem fsFileRead_frame (fs : Image) (m : Machine) :
    (m.fsFileRead fs).2.frame.f.inode = m.frame.f.inode ∧
      (m.fsFileRead fs).2.frame.f.pos = m.frame.f.pos + BitVec.ofInt 32
        (fs.readData m.frame.f.inode m.frame.f.pos (BitVec.ofNat 32 bufSize)).ret ∧
      (m.fsFileRead fs).2.frame.buf = storeBytes m.frame.buf
        (fs.readData m.frame.f.inode m.frame.f.pos (BitVec.ofNat 32 bufSize)).buf :=
  ⟨rfl, rfl, rfl⟩

/-- Past the checks, the first bytes of the file are in the buffer. -/
theorem checkFormat_of_passes (hdent : fs.readDentryByName (cstr (firstWord command)) = some dent)
    (hpasses : Passes (headerOf fs frame dent)) :
    ∃ entry m, ((Machine.mk s frame).parse command).checkFormat fs =
        (some (entry, (fs.readData dent.inodeNum 0 (BitVec.ofNat 32 bufSize)).ret), m) ∧
      m.frame.f.inode = dent.inodeNum ∧
      m.frame.f.pos = BitVec.ofInt 32 (fs.readData dent.inodeNum 0 (BitVec.ofNat 32 bufSize)).ret ∧
      m.frame.buf = headerOf fs frame dent := by
  have hcheck := checkFormat_of_found (m := Machine.mk s frame) hdent
  rw [if_pos hpasses] at hcheck
  rw [← readDentryByName_parse (Machine.mk s frame)] at hdent
  obtain ⟨hret, hinode, hpos⟩ := machine_fsOpen_of_found hdent
  have hopen : (((Machine.mk s frame).parse command).fsOpen fs).1 ≠ -1 := by
    rw [hret]
    decide
  have hframe := checkFormat_frame _ fs hopen
  obtain ⟨hinode', hpos', hbuf'⟩ := fsFileRead_frame fs (((Machine.mk s frame).parse command).fsOpen fs).2
  refine ⟨_, _, Prod.ext hcheck rfl, ?_, ?_, ?_⟩
  · rw [hframe, hinode', hinode]
  · rw [hframe, hpos', hinode, hpos]
    exact BitVec.zero_add _
  · rw [hframe, hbuf', hinode, hpos]
    rfl

/-- **Loading copies the file**, whatever its length. -/
theorem load_eq (hdent : fs.readDentryByName (cstr (firstWord command)) = some dent)
    (hpasses : Passes (headerOf fs frame dent)) (hfile : IsReadable fs dent.inodeNum)
    (mem : Memory 32) :
    ∃ c, s.load fs frame command mem = some c ∧ c.readSize ≤ 0 ∧
      c.mem = memcpy mem taskImgStartAddr (fs.fileByte dent.inodeNum)
        (fs.fileSize dent.inodeNum).toNat := by
  obtain ⟨entry, m, hcheck, hinode, hpos, hbuf⟩ := checkFormat_of_passes (s := s) hdent hpasses
  obtain ⟨hret, hbytes⟩ := hfile.readData (Nat.zero_le _)
  have hzero : (0 : BitVec 32) = BitVec.ofNat 32 0 := rfl
  have hsize := hfile.size_le
  rw [Nat.sub_zero] at hret hbytes
  have hstart : Loaded fs dent.inodeNum mem
      (0 + min bufSize (fs.fileSize dent.inodeNum).toNat)
      (Copying.copy ⟨m.frame.buf, (fs.readData dent.inodeNum 0 (BitVec.ofNat 32 bufSize)).ret,
        m.frame.f, taskImgStartAddr, mem⟩) := by
    refine loaded_copy ?_ ?_ hinode hret ?_ (by omega) fun k hk => ?_
    · rw [BitVec.add_zero]
    · ext1 a
      exact (memcpy_of_le (Nat.zero_le _)).symm
    · show m.frame.f.pos = _
      rw [hpos, hzero, hret, BitVec.ofInt_natCast, Nat.zero_add]
    · show m.frame.buf k = _
      rw [hbuf]
      exact hbytes frame.buf k hk
  refine ⟨m.frame.copyImage fs _ mem, by rw [State.load, hcheck], ?_⟩
  rw [Frame.copyImage, hinode]
  exact copyLoop_loads hfile hstart (by omega) (by omega)

/-- The bytes a file of `n` bytes takes are in the page exactly when there is room for them. -/
theorem memcpy_inUserPage_iff (src : CStr) {n : ℕ} (hn : n ≤ 1023 * 4096) :
    (∀ mem a, ¬ InUserPage a → memcpy mem taskImgStartAddr src n a = mem a) ↔ n ≤ imageRoom := by
  have hroom : imageRoom = 3899392 := by decide
  have hstart : taskImgStartAddr.toNat = 0x8048000 := rfl
  have hbeg : Sys.taskVirtPageBeg.toNat = 0x8000000 := rfl
  have hend : taskVirtPageEnd.toNat = 0x8400000 := rfl
  rw [hroom]
  constructor
  · intro h
    by_contra hlong
    -- the first byte behind the page, on a memory that holds something else there
    have hdist : (taskVirtPageEnd - taskImgStartAddr).toNat = 3899392 := by decide
    have hout : ¬ InUserPage taskVirtPageEnd := fun hin => absurd hin.2 (BitVec.lt_irrefl _)
    have hsame := h (fun _ => ~~~ src 3899392) taskVirtPageEnd hout
    rw [memcpy_of_lt (by omega), hdist] at hsame
    have hbit := congrArg (fun v => v.getLsbD 0) hsame
    simp at hbit
  · intro hle mem a hout
    refine memcpy_of_le ?_
    by_contra hlow
    refine hout ?_
    rw [InUserPage, BitVec.le_def, BitVec.lt_def, hbeg, hend]
    have hlt := a.isLt
    rw [BitVec.toNat_sub, hstart] at hlow
    omega

theorem fits_of_loadsInPage (hdent : fs.readDentryByName (cstr (firstWord command)) = some dent)
    (hpasses : Passes (headerOf fs frame dent)) (hfile : IsReadable fs dent.inodeNum)
    (h : LoadsInPage s fs frame command dent) :
    (fs.fileSize dent.inodeNum).toNat ≤ imageRoom := by
  refine (memcpy_inUserPage_iff (fs.fileByte dent.inodeNum) hfile.size_le).mp ?_
  intro mem a hout
  obtain ⟨c, hc, -, -, houtside⟩ := h mem
  obtain ⟨c', hc', -, hmem⟩ := load_eq hdent hpasses hfile mem
  obtain rfl : c = c' := Option.some.inj (hc.symm.trans hc')
  rw [← hmem]
  exact houtside a hout

end load

/-- **When a program is loaded into its page.**  Of the files that pass the checks, exactly those are
that have no more than 3,899,392 bytes. -/
theorem loadsInPage_iff (s : State) (fs : Image) (frame : Frame) (command : Str) (dent : Dentry)
    (hdent : fs.readDentryByName (cstr (firstWord command)) = some dent)
    (hpasses : Passes (headerOf fs frame dent)) (hfile : IsReadable fs dent.inodeNum) :
    LoadsInPage s fs frame command dent ↔ (fs.fileSize dent.inodeNum).toNat ≤ 3899392 := by
  constructor
  · exact fits_of_loadsInPage hdent hpasses hfile
  · intro hfits mem
    obtain ⟨c, hc, hends, hmem⟩ := load_eq (s := s) hdent hpasses hfile mem
    refine ⟨c, hc, hends, fun k hk => ?_, ?_⟩
    · have hsize := hfile.size_le
      have hdist : (taskImgStartAddr + BitVec.ofNat 32 k - taskImgStartAddr).toNat = k := by
        rw [BitVec.add_comm, BitVec.add_sub_cancel, BitVec.toNat_ofNat, Nat.mod_eq_of_lt (by omega)]
      rw [hmem, memcpy_of_lt (by omega), hdist]
    · intro a hout
      rw [hmem]
      exact (memcpy_inUserPage_iff _ hfile.size_le).mpr hfits mem a hout

/-- An image with one file, `a`, that is the header of a program and zeros up to `size` bytes, all of
them in block 0. -/
def programOf (size : BitVec 32) : Image where
  bblockPtr := 0
  mem a :=
    if a = 0 ∨ a = 4 ∨ a = 8 then 1
    else if a = 64 then 0x61
    else if a = 96 then 2
    else if 4096 ≤ a ∧ a < 4100 then (size >>> (8 * (a.toNat - 4096))).setWidth 8
    else if 8192 ≤ a then header (a.toNat - 8192)
    else 0

/-- The first file of an image, when it passes the checks. -/
theorem exists_program {fs : Image} {frame : Frame} {command : Str}
    (hname : (fs.readDentryByName (cstr (firstWord command))).map Dentry.inodeNum = some 0)
    (hpasses : ∀ dent : Dentry, dent.inodeNum = 0 → Passes (front fs frame dent))
    (hfile : IsReadable fs 0) :
    ∃ dent, fs.readDentryByName (cstr (firstWord command)) = some dent ∧ dent.inodeNum = 0 ∧
      Passes (headerOf fs frame dent) ∧ IsReadable fs dent.inodeNum := by
  obtain ⟨dent, hdent, hinode⟩ := Option.map_eq_some_iff.mp hname
  refine ⟨dent, hdent, hinode, ?_, hinode ▸ hfile⟩
  exact (passes_congr fun _ => headerOf_eq_front fs frame dent).mpr (hpasses dent hinode)

/-- A program of 28 bytes. -/
theorem loadsInPage_iff_small : ∃ dent,
    (programOf 28).readDentryByName (cstr (firstWord commandA)) = some dent ∧
    (LoadsInPage idle (programOf 28) staleFrame commandA dent ↔
      ((programOf 28).fileSize dent.inodeNum).toNat ≤ 3899392) := by
  obtain ⟨dent, hdent, -, hpasses, hfile⟩ := exists_program
    (show ((programOf 28).readDentryByName (cstr (firstWord commandA))).map Dentry.inodeNum = some 0
      by decide)
    (fun dent hinode => show Passes (front _ staleFrame dent) by unfold front; rw [hinode]; decide)
    ⟨by decide, by decide, by decide⟩
  exact ⟨dent, hdent, loadsInPage_iff idle _ staleFrame commandA dent hdent hpasses hfile⟩

/-- **The failing file.**  A program of 3,899,393 bytes passes the checks, and its last byte goes to
the address `0x8400000`. -/
theorem not_loadsInPage : ¬ ∀ s fs frame command dent,
    fs.readDentryByName (cstr (firstWord command)) = some dent → Passes (headerOf fs frame dent) →
    IsReadable fs dent.inodeNum → LoadsInPage s fs frame command dent := by
  intro h
  obtain ⟨dent, hdent, hinode, hpasses, hfile⟩ := exists_program
    (show ((programOf 3899393).readDentryByName (cstr (firstWord commandA))).map Dentry.inodeNum =
      some 0 by decide)
    (fun dent hinode => show Passes (front _ staleFrame dent) by unfold front; rw [hinode]; decide)
    ⟨by decide, by decide, by decide⟩
  have hfits := fits_of_loadsInPage hdent hpasses hfile
    (h idle (programOf 3899393) staleFrame commandA dent hdent hpasses hfile)
  rw [hinode] at hfits
  exact absurd hfits (by decide)

end Exec
end CoreOS
