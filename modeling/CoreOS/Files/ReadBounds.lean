import CoreOS.FileSys.ReadData
import CoreOS.Files.RtcRegistry

/-!
# How much `syscall_read` delivers

`syscall_read` passes its length on, and what becomes of it is up to the four implementations behind
it.  Regular files and the terminal in line mode take the smaller of the length and what there is,
and the clock stores nothing.  The other two do not look at their length at all: a read of a
directory stores a name padded to 32 bytes, and the terminal in canonical mode stores the one byte it
waited for.
-/

namespace CoreOS

/-! ## The four implementations -/

namespace FileSys

theorem fnLengthFrom_le (fname : CStr) (k len : ℕ) : fnLengthFrom fname k len ≤ len + k := by
  induction k generalizing len with
  | zero => exact le_rfl
  | succ k ih =>
    unfold fnLengthFrom
    split
    · omega
    · have hrest := ih (len + 1)
      omega

theorem fnLength_le (fname : CStr) : fnLength fname ≤ maxNameLength := by
  have hle := fnLengthFrom_le fname maxNameLength 0
  rw [Nat.zero_add] at hle
  exact hle

/-- A read of a directory stores nothing at the end of it, and a whole name before. -/
theorem Image.fsDirRead_cases (fs : Image) (file : FILE) :
    (¬ file.pos < fs.numDentries ∧ fs.fsDirRead file = (0, none, file)) ∨
      (file.pos < fs.numDentries ∧ ∃ (buf : CStr) (file' : FILE),
        fs.fsDirRead file = ((fnLength buf : ℤ), some buf, file')) := by
  rw [fsDirRead, readDentryByIndex]
  by_cases hend : fs.numDentries ≤ file.pos
  · rw [if_pos hend]
    exact Or.inl ⟨BitVec.not_lt.mpr hend, rfl⟩
  · rw [if_neg hend]
    exact Or.inr ⟨BitVec.not_le.mp hend, _, _, rfl⟩

end FileSys

namespace Term

theorem length_readCanon {c c' : Console} {bytes : List (BitVec 8)}
    (h : c.readCanon = some (bytes, c')) : bytes.length = 1 := by
  rw [Console.readCanon] at h
  split at h
  · cases h
  · cases h
    rfl

theorem length_readLine {c c' : Console} {nbytes : ℕ} {bytes : List (BitVec 8)}
    (h : c.readLine nbytes = some (bytes, c')) : bytes.length ≤ nbytes := by
  rw [Console.readLine] at h
  split at h
  · cases h
  · cases h
    rw [List.length_map, List.length_range]
    exact Nat.min_le_left ..

end Term

/-! ## The system call -/

namespace Files

variable {s s' : State} {fs : FileSys.Image} {f : FilePtr} {nbytes : BitVec 32} {canon : Bool}
  {ret : ℤ} {bytes : List (BitVec 8)}

/-- What a read may deliver: bytes for the first `nbytes` places of the buffer, and a result that is
-1 or at most `nbytes`. -/
def WithinLength (nbytes : BitVec 32) (ret : ℤ) (bytes : List (BitVec 8)) : Prop :=
  bytes.length ≤ nbytes.toNat ∧ (ret = -1 ∨ ret ≤ nbytes.toNat)

instance (nbytes : BitVec 32) (ret : ℤ) (bytes : List (BitVec 8)) :
    Decidable (WithinLength nbytes ret bytes) :=
  inferInstanceAs (Decidable (_ ∧ _))

/-- There is room for what a read of descriptor `f` stores whatever its length is: a byte for the
terminal in canonical mode, 32 for a directory that has not been read to its end. -/
def RoomFor (s : State) (fs : FileSys.Image) (f : FilePtr) (nbytes : BitVec 32) (canon : Bool) :
    Prop :=
  ((s.file f).fileOps = .stdin → canon = true → 1 ≤ nbytes.toNat) ∧
    ((s.file f).fileOps = .dir → (s.file f).pos < fs.numDentries →
      FileSys.maxNameLength ≤ nbytes.toNat)

instance (s : State) (fs : FileSys.Image) (f : FilePtr) (nbytes : BitVec 32) (canon : Bool) :
    Decidable (RoomFor s fs f nbytes canon) :=
  inferInstanceAs (Decidable (_ ∧ _))

/-- `term_read`, in either mode. -/
theorem withinLength_termRead (h : s.opsRead fs f nbytes canon = some (ret, bytes, s'))
    (hops : (s.file f).fileOps = .stdin) :
    WithinLength nbytes ret bytes ↔ (canon = true → 1 ≤ nbytes.toNat) := by
  unfold State.opsRead at h
  simp only [hops, State.termRead] at h
  obtain ⟨⟨line, c'⟩, hresult, hr⟩ := Option.map_eq_some_iff.mp h
  cases hr
  cases canon with
  | true =>
    have hlen : line.length = 1 := Term.length_readCanon hresult
    simp only [WithinLength, hlen, true_implies]
    refine ⟨fun hfits => hfits.1, fun hroom => ⟨hroom, Or.inr ?_⟩⟩
    exact Int.ofNat_le.mpr hroom
  | false =>
    have hlen : line.length ≤ nbytes.toNat := Term.length_readLine hresult
    refine ⟨fun _ hfalse => Bool.noConfusion hfalse, fun _ => ⟨hlen, Or.inr ?_⟩⟩
    exact Int.ofNat_le.mpr hlen

/-- `fs_dir_read`. -/
theorem withinLength_fsDirRead (h : s.opsRead fs f nbytes canon = some (ret, bytes, s'))
    (hops : (s.file f).fileOps = .dir) :
    WithinLength nbytes ret bytes ↔
      ((s.file f).pos < fs.numDentries → FileSys.maxNameLength ≤ nbytes.toNat) := by
  unfold State.opsRead at h
  simp only [hops] at h
  obtain ⟨hend, hread⟩ | ⟨hentry, buf, file', hread⟩ := fs.fsDirRead_cases (s.file f)
  · rw [hread] at h
    cases h
    exact ⟨fun _ hpos => absurd hpos hend, fun _ => ⟨Nat.zero_le _, Or.inr (Int.natCast_nonneg _)⟩⟩
  · rw [hread] at h
    cases h
    have hname := FileSys.fnLength_le buf
    have hlen : ((List.range FileSys.maxNameLength).map buf).length = FileSys.maxNameLength := by
      rw [List.length_map, List.length_range]
    constructor
    · rintro ⟨hfits, -⟩ -
      exact hlen.symm.le.trans hfits
    · intro hroom
      have hfits := hroom hentry
      exact ⟨hlen.le.trans hfits, Or.inr (Int.ofNat_le.mpr (hname.trans hfits))⟩

/-- Every open descriptor. -/
theorem withinLength_opsRead (h : s.opsRead fs f nbytes canon = some (ret, bytes, s')) :
    WithinLength nbytes ret bytes ↔ RoomFor s fs f nbytes canon := by
  cases hops : (s.file f).fileOps with
  | stdin =>
    rw [withinLength_termRead h hops]
    simp [RoomFor, hops]
  | dir =>
    rw [withinLength_fsDirRead h hops]
    simp [RoomFor, hops]
  | stdout =>
    unfold State.opsRead at h
    simp only [hops] at h
    cases h
    simp [RoomFor, WithinLength, hops]
  | rtc =>
    unfold State.opsRead at h
    simp only [hops] at h
    obtain ⟨⟨r, d⟩, hd, hr⟩ := Option.map_eq_some_iff.mp h
    cases hr
    have hzero := (alike_rtcRead hops hd f).1
    simp [RoomFor, WithinLength, hops, hzero]
  | file =>
    unfold State.opsRead at h
    simp only [hops] at h
    cases h
    obtain ⟨hret, hlen⟩ := fs.readData_length (s.file f).inode (s.file f).pos nbytes
    refine ⟨fun _ => by simp [RoomFor, hops], fun _ => ⟨hlen, Or.inr ?_⟩⟩
    exact hret.le.trans (Int.ofNat_le.mpr hlen)

/-- **When `syscall_read` over-delivers.**  In every state, for every open descriptor and every
`nbytes`, a read that returns stores into the first `nbytes` places of the buffer only and returns -1
or at most `nbytes`, exactly if there is room for what the terminal in canonical mode or a directory
stores. -/
theorem syscallRead_withinLength_iff (s s' : State) (fs : FileSys.Image) (pid : ℕ) (fd : ℤ)
    (nbytes : BitVec 32) (canon : Bool) (ret : ℤ) (bytes : List (BitVec 8))
    (hfd : 0 ≤ fd ∧ fd < taskMaxFiles) (hopen : (s.file ⟨pid, fd.toNat⟩).used = true)
    (h : s.syscallRead fs pid fd true nbytes canon = some (ret, bytes, s')) :
    WithinLength nbytes ret bytes ↔ RoomFor s fs ⟨pid, fd.toNat⟩ nbytes canon := by
  rw [State.syscallRead, if_neg Bool.noConfusion, if_neg (by omega),
    if_neg (by rw [hopen]; exact Bool.noConfusion)] at h
  exact withinLength_opsRead h

/-- An image with nothing but the directory itself. -/
def justDot : FileSys.Image where
  bblockPtr := 0
  mem a := if a = 0 then 1 else if a = 64 then 0x2E else if a = 96 then 1 else 0

/-- The state in which the shell has opened the directory, at descriptor 2. -/
def dotOpened : State :=
  Runs.run (step justDot) plainBoot [.tick true 0, .open fun k => if k = 0 then 0x2E else 0]

/-- What a read of `n` bytes returns and stores there. -/
def dotRead (n : BitVec 32) : Option (ℤ × List (BitVec 8)) :=
  (dotOpened.syscallRead justDot 1 2 true n false).map fun r => (r.1, r.2.1)

/-- A read of 32 bytes is in order. -/
theorem syscallRead_withinLength_dot :
    ∃ ret bytes s', dotOpened.syscallRead justDot 1 2 true 32 false = some (ret, bytes, s') ∧
      WithinLength 32 ret bytes := by
  have hsome : (dotRead 32).isSome := by decide +kernel
  rw [dotRead, Option.isSome_map] at hsome
  obtain ⟨⟨ret, bytes, s'⟩, hread⟩ := Option.isSome_iff_exists.mp hsome
  refine ⟨ret, bytes, s', hread, ?_⟩
  refine (syscallRead_withinLength_iff dotOpened s' justDot 1 2 32 false ret bytes (by decide)
    (by decide +kernel) hread).mpr ?_
  decide +kernel

/-- A read of ten bytes stores 32. -/
theorem syscallRead_overDelivers_dot :
    (dotOpened.file ⟨1, 2⟩).used = true ∧
      ∃ ret bytes s', dotOpened.syscallRead justDot 1 2 true 10 false = some (ret, bytes, s') ∧
        bytes.length = 32 ∧ ¬ WithinLength 10 ret bytes := by
  refine ⟨by decide +kernel, ?_⟩
  have hname : dotRead 10 = some (1, 0x2E :: List.replicate 31 0) := by decide +kernel
  obtain ⟨⟨ret, bytes, s'⟩, hread, hr⟩ := Option.map_eq_some_iff.mp hname
  cases hr
  exact ⟨_, _, s', hread, rfl, by decide⟩

end Files
end CoreOS
