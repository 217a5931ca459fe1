import CoreOS.Exec.Execute

/-!
# Which programs `execute` accepts

`execute` is meant to start executables: regular files with the magic bytes in front and an entry
address in the image (`IsExecutable`).  The code looks at the bytes in its buffer.  They are the bytes
of the file only as far as the file goes, and behind that what an earlier call left on the stack; and
it looks at the data of the inode whatever the type of the entry is.  `accepts_iff` says when it is
right all the same, for given contents of the buffer.
-/

namespace CoreOS
namespace Exec

open FileSys Signals

/-- **An executable**, by its name: a regular file of at least 28 bytes, with the magic bytes and an
entry address that is not below the image. -/
structure IsExecutable (fs : Image) (word : List (BitVec 8)) (entry : Word) (dent : Dentry) : Prop where
  found : fs.readDentryByName (cstr word) = some dent
  regular : dent.filetype = fileTypeReg
  inode_nonneg : 0 ≤ dent.inodeNum.toInt
  inode_lt : dent.inodeNum.toInt < fs.inodeCount.toInt
  long : 28 ≤ (fs.fileSize dent.inodeNum).toNat
  magic : HasMagic (fs.fileByte dent.inodeNum)
  entry_eq : entry = entryAddr (fs.fileByte dent.inodeNum)
  entry_le : taskImgStartAddr.toInt ≤ entry.toInt

/-- The entry address of an exit past the checks. -/
def Exit.entry : Exit → Option Word
  | .returns _ _ => none
  | .starts entry _ => some entry
  | .strays entry => some entry

/-- **What the checks are for.** -/
def AcceptsExactly (s : State) (fs : Image) (frame : Frame) (command : Str) (termInd : BitVec 8) :
    Prop :=
  ∀ entry, (s.syscallExecute fs frame command termInd).entry = some entry ↔
    ∃ dent, IsExecutable fs (firstWord command) entry dent

/-- The front of the buffer: the bytes of the file as far as it goes, and then what was left there.  The
inode numbers in range are those up to `inode_count`, and the type of the entry does not matter. -/
def front (fs : Image) (frame : Frame) (dent : Dentry) : CStr := fun k =>
  if 0 ≤ dent.inodeNum.toInt ∧ dent.inodeNum.toInt ≤ fs.inodeCount.toInt ∧
      k < (fs.fileSize dent.inodeNum).toNat then
    fs.fileByte dent.inodeNum k
  else frame.buf k

/-- The commands that are treated as they should be: there is no entry of that name, or it is a regular
file of at least 28 bytes, or the front of the buffer has no magic bytes or a lower entry address. -/
def FormatFits (fs : Image) (frame : Frame) (command : Str) : Prop :=
  ∀ dent, fs.readDentryByName (cstr (firstWord command)) = some dent →
    (dent.filetype = fileTypeReg ∧ 0 ≤ dent.inodeNum.toInt ∧
      dent.inodeNum.toInt < fs.inodeCount.toInt ∧ 28 ≤ (fs.fileSize dent.inodeNum).toNat) ∨
    ¬ Passes (front fs frame dent)

variable {s : State} {fs : Image} {frame : Frame} {command : Str} {termInd : BitVec 8}

/-- The entry address is that of the buffer. -/
theorem entry_syscallExecute (hpid : s.sys.files.procs.freePid ≠ none) (entry : Word) :
    (s.syscallExecute fs frame command termInd).entry = some entry ↔
      ∃ dent, fs.readDentryByName (cstr (firstWord command)) = some dent ∧
        Passes (headerOf fs frame dent) ∧ entry = entryAddr (headerOf fs frame dent) := by
  rcases syscallExecute_cases s fs frame command termInd with
    ⟨hwhy, hexec⟩ | ⟨pid, dent, -, hdent, hpasses, hexec⟩
  · rw [hexec]
    refine iff_of_false (fun h => nomatch h) ?_
    rintro ⟨dent, hdent, hpasses, -⟩
    rcases hwhy with h | h | ⟨dent', h, hfails⟩
    · exact hpid h
    · exact nomatch hdent.symm.trans h
    · obtain rfl : dent = dent' := Option.some.inj (hdent.symm.trans h)
      exact hfails hpasses
  · have hentry : (s.syscallExecute fs frame command termInd).entry =
        some (entryAddr (headerOf fs frame dent)) := by
      rw [hexec]
      cases termArg termInd <;> rfl
    rw [hentry, Option.some.injEq]
    constructor
    · exact fun h => ⟨dent, hdent, hpasses, h.symm⟩
    · rintro ⟨dent', hdent', -, rfl⟩
      obtain rfl : dent = dent' := Option.some.inj (hdent.symm.trans hdent')
      rfl

/-- Past the checks a program starts, if `term_ind` is a terminal or -1. -/
theorem starts_of_entry (s : State) (fs : Image) (frame : Frame) (command : Str) {termInd : BitVec 8}
    (hterm : termArg termInd ≠ none) {entry : Word}
    (h : (s.syscallExecute fs frame command termInd).entry = some entry) :
    ∃ s', s.syscallExecute fs frame command termInd = .starts entry s' := by
  rcases syscallExecute_cases s fs frame command termInd with
    ⟨-, hexec⟩ | ⟨pid, dent, -, -, -, hexec⟩
  · rw [hexec] at h
    exact nomatch h
  · obtain ⟨t, ht⟩ := Option.ne_none_iff_exists'.mp hterm
    rw [hexec, ht] at h ⊢
    exact ⟨_, by rw [Option.some.inj h]⟩

/-- What a read of `BUF_SIZE` bytes leaves at the front of the buffer. -/
theorem headerOf_eq_front (fs : Image) (frame : Frame) (dent : Dentry) {k : ℕ} (hk : k < 28) :
    headerOf fs frame dent k = front fs frame dent k := by
  have hsize : (BitVec.ofNat 32 bufSize).toNat = 256 := rfl
  have hzero : (0 : BitVec 32).toNat = 0 := rfl
  unfold front headerOf
  by_cases hrefused :
      fs.inodeCount.toInt < dent.inodeNum.toInt ∨ dent.inodeNum.toInt < 0
  · rw [Image.readData_of_refused hrefused, storeBytes_of_le (Nat.zero_le _), if_neg (by omega)]
  · have hpos : 0 ≤ dent.inodeNum.toInt := by omega
    have hcount : dent.inodeNum.toInt ≤ fs.inodeCount.toInt := by omega
    by_cases hempty : fs.fileSize dent.inodeNum ≤ 0
    · rw [Image.readData_of_end hpos hcount hempty, storeBytes_of_le (Nat.zero_le _)]
      rw [BitVec.le_def, hzero] at hempty
      rw [if_neg (by omega)]
    · rw [BitVec.not_le] at hempty
      obtain ⟨-, hbuf, -⟩ := Image.readData_eq hpos hcount hempty (BitVec.ofNat 32 bufSize)
      rw [BitVec.lt_def, hzero] at hempty
      rw [hsize, hzero] at hbuf
      have hrounds : rounds (fs.fileSize dent.inodeNum).toNat 0 256 =
          min 256 (fs.fileSize dent.inodeNum).toNat := rounds_bufSize _ (by decide)
      have hlen : (fs.readData dent.inodeNum 0 (BitVec.ofNat 32 bufSize)).buf.length =
          min 256 (fs.fileSize dent.inodeNum).toNat := by
        rw [hbuf, List.length_map, List.length_range, hrounds]
      by_cases hlong : k < (fs.fileSize dent.inodeNum).toNat
      · rw [storeBytes_of_lt (by omega), if_pos ⟨hpos, hcount, hlong⟩]
        simp only [hbuf, List.getElem_map, List.getElem_range, Nat.zero_add]
      · rw [storeBytes_of_le (by omega), if_neg (by omega)]

/-- In a file of 28 bytes or more the checks see the file. -/
theorem front_eq_fileByte (frame : Frame) {dent : Dentry} (hpos : 0 ≤ dent.inodeNum.toInt)
    (hcount : dent.inodeNum.toInt < fs.inodeCount.toInt)
    (hlong : 28 ≤ (fs.fileSize dent.inodeNum).toNat) {k : ℕ} (hk : k < 28) :
    front fs frame dent k = fs.fileByte dent.inodeNum k :=
  if_pos ⟨hpos, Int.le_of_lt hcount, by omega⟩

/-- The checks look at no byte beyond the first 28. -/
theorem header_congr {buf buf' : CStr} (h : ∀ k < 28, buf k = buf' k) :
    (HasMagic buf ↔ HasMagic buf') ∧ entryAddr buf = entryAddr buf' := by
  unfold HasMagic entryAddr elfEntryOffset
  rw [h 0 (by omega), h 1 (by omega), h 2 (by omega), h 3 (by omega), h (24 + 3) (by omega),
    h (24 + 2) (by omega), h (24 + 1) (by omega), h 24 (by omega)]
  exact ⟨Iff.rfl, rfl⟩

theorem passes_congr {buf buf' : CStr} (h : ∀ k < 28, buf k = buf' k) : Passes buf ↔ Passes buf' := by
  obtain ⟨hmagic, hentry⟩ := header_congr h
  unfold Passes
  rw [hmagic, hentry]

/-- **When `execute` accepts exactly the executables.** -/
theorem accepts_iff (hpid : s.sys.files.procs.freePid ≠ none) :
    AcceptsExactly s fs frame command termInd ↔ FormatFits fs frame command := by
  unfold AcceptsExactly
  simp only [entry_syscallExecute hpid]
  constructor
  · intro h dent hdent
    by_cases hpasses : Passes (headerOf fs frame dent)
    · obtain ⟨dent', hexec⟩ := (h _).mp ⟨dent, hdent, hpasses, rfl⟩
      obtain rfl : dent = dent' := Option.some.inj (hdent.symm.trans hexec.found)
      exact Or.inl ⟨hexec.regular, hexec.inode_nonneg, hexec.inode_lt, hexec.long⟩
    · exact Or.inr fun hfront =>
        hpasses ((passes_congr fun _ => headerOf_eq_front fs frame dent).mpr hfront)
  · intro hfits entry
    constructor
    · rintro ⟨dent, hdent, hpasses, rfl⟩
      have hfront := (passes_congr fun _ => headerOf_eq_front fs frame dent).mp hpasses
      obtain ⟨hreg, hpos, hcount, hlong⟩ := (hfits dent hdent).resolve_right (not_not.mpr hfront)
      obtain ⟨hmagic, hentry⟩ := header_congr fun k hk =>
        (headerOf_eq_front fs frame dent hk).trans (front_eq_fileByte frame hpos hcount hlong hk)
      exact ⟨dent, hdent, hreg, hpos, hcount, hlong, hmagic.mp hpasses.1, hentry, hpasses.2⟩
    · rintro ⟨dent, hexec⟩
      obtain ⟨hmagic, hentry⟩ := header_congr fun k hk =>
        (headerOf_eq_front fs frame dent hk).trans
          (front_eq_fileByte frame hexec.inode_nonneg hexec.inode_lt hexec.long hk)
      have heq : entry = entryAddr (headerOf fs frame dent) := hexec.entry_eq.trans hentry.symm
      refine ⟨dent, hexec.found, ⟨hmagic.mpr hexec.magic, ?_⟩, heq⟩
      rw [← heq]
      exact hexec.entry_le

/-! ## A buffer with a header in it -/

/-- A kernel that has just been set up. -/
def idle : State where
  sys :=
    { files := Files.boot (fun _ => ⟨none, 0, 0, 0, 0, fun _ => none⟩) 0
        (fun _ => ⟨.dir, 7, 7, .term, false⟩) (fun _ => 0) 0 (fun _ _ => 0)
      behind := fun _ _ => 0
      mem := fun _ _ => 0 }
  esp := fun _ => 0
  ebp := fun _ => 0
  cmdArgs := fun _ => none
  ss0 := 0

/-- The first 28 bytes of a program that begins at `0x08048000`. -/
def header : CStr := cstr
  [0x7F, 0x45, 0x4C, 0x46, 0, 0, 0, 0, 0, 0, 0, 0, 0, 0, 0, 0, 0, 0, 0, 0, 0, 0, 0, 0, 0, 0x80, 4, 8]

/-- A frame in which an earlier call has left the header of a program. -/
def staleFrame : Frame := ⟨0, 0, fun _ => 7, fun _ => 7, ⟨.dir, 7, 7, .term, false⟩, header⟩

/-- The command `a`. -/
def commandA : Str := ⟨[0x61], by decide⟩

/-- An image with one file, `a`, that is empty. -/
def emptyFile : Image where
  bblockPtr := 0
  mem a :=
    if a = 0 ∨ a = 4 ∨ a = 8 then 1
    else if a = 64 then 0x61
    else if a = 96 then 2
    else 0

/-- An image with one file, `a`, that is the header of a program and nothing else. -/
def headerOnly : Image where
  bblockPtr := 0
  mem a :=
    if a = 0 ∨ a = 4 ∨ a = 8 then 1
    else if a = 64 then 0x61
    else if a = 96 then 2
    else if a = 4096 then 28
    else if 8192 ≤ a then header (a.toNat - 8192)
    else 0

/-- A file of three bytes that are not the magic ones is rejected, whatever is in the buffer. -/
theorem accepts_oneFile : AcceptsExactly idle oneFile staleFrame commandA 0 := by
  refine (accepts_iff (by decide)).mpr fun dent hdent => Or.inr ?_
  have hinode : (oneFile.readDentryByName (cstr (firstWord commandA))).map Dentry.inodeNum =
      some 0 := by decide
  rw [hdent] at hinode
  rintro ⟨⟨hmagic, -⟩, -⟩
  rw [front, show dent.inodeNum = 0 from Option.some.inj hinode] at hmagic
  exact absurd hmagic (by decide)

/-- **The failing command.**  The file `a` is empty, and the buffer holds the header of a program that
was started before: it is accepted. -/
theorem not_accepts : ¬ ∀ s fs frame command termInd, s.sys.files.procs.freePid ≠ none →
    AcceptsExactly s fs frame command termInd := by
  intro h
  have hidle := h idle emptyFile staleFrame commandA 0 (by decide) 0x08048000
  have hentry : (idle.syscallExecute emptyFile staleFrame commandA 0).entry = some 0x08048000 := by
    decide
  obtain ⟨dent, hexec⟩ := hidle.mp hentry
  have hinode : (emptyFile.readDentryByName (cstr (firstWord commandA))).map Dentry.inodeNum =
      some 0 := by decide
  rw [hexec.found] at hinode
  have hlong := hexec.long
  rw [show dent.inodeNum = 0 from Option.some.inj hinode] at hlong
  exact absurd hlong (by decide)

end Exec
end CoreOS
