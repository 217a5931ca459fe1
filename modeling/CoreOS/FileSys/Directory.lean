import CoreOS.FileSys.Names
import CoreOS.FileSys.Sequential
import Mathlib.Data.Nat.Find

/-!
# The directory

Looking a name up, and listing the names.  `Image` says what the three functions put in the caller's
variables; here they are given with the variables themselves, so that a statement about what they
leave alone is a statement about the code.

* `lookup_exact`: `read_dentry_by_name` finds the first entry with the name it is given, cut off at
  32 bytes, and nothing else.
* `listing_exact`: calls of `fs_dir_read` on a `FILE` at position 0 deliver the entries one by one.
-/

namespace CoreOS
namespace FileSys
namespace Image

variable (fs : Image)

/-! ## The functions, with the variables of the caller -/

/-- `read_dentry_by_index`: the value returned and the caller's `dentry` after the call. -/
def readDentryByIndexInto (index : BitVec 32) (dentry : Dentry) : ℤ × Dentry :=
  if fs.numDentries ≤ index then (-1, dentry)
  else (0,
    { filename := strncpy dentry.filename (fs.dentryName index.toNat) maxNameLength
      filetype := load32 fs.mem (fs.dentryAddr index.toNat + 32)
      inodeNum := load32 fs.mem (fs.dentryAddr index.toNat + 36) })

/-- The loop of `read_dentry_by_name`, with `k` entries left, at entry `i`. -/
def findDentryInto (fname : CStr) (dentry : Dentry) : ℕ → ℕ → ℤ × Dentry
  | 0, _ => (-1, dentry)
  | k + 1, i =>
    if strncmp (fs.dentryName i) fname maxNameLength = 0 then
      -- what `read_dentry_by_index` returns is not looked at
      (0, (fs.readDentryByIndexInto (BitVec.ofNat 32 i) dentry).2)
    else findDentryInto fname dentry k (i + 1)

/-- `read_dentry_by_name`: the value returned and the caller's `dentry` after the call. -/
def readDentryByNameInto (fname : CStr) (dentry : Dentry) : ℤ × Dentry :=
  if fnLength fname = 0 then (-1, dentry)
  else fs.findDentryInto fname dentry fs.numDentries.toInt.toNat 0

/-- `fs_dir_read`, with whatever its own variable `read_dentry` holds before: the value returned, and
the buffer and the `FILE` after the call. -/
def fsDirReadInto (buf : CStr) (file : FILE) (readDentry : Dentry) : ℤ × CStr × FILE :=
  let r := fs.readDentryByIndexInto file.pos readDentry
  if r.1 ≠ 0 then (0, buf, file)
  else
    let buf := strncpy buf r.2.filename maxNameLength
    (fnLength buf, buf, { file with pos := file.pos + 1 })

/-- The name of entry `i`. -/
def entryName (i : ℕ) : List (BitVec 8) := name (fs.dentryName i)

variable {fs}

/-- What is filled in is what `read_dentry_by_index` delivers; only the bytes after the name are the
caller's. -/
theorem readDentryByIndexInto_eq (index : BitVec 32) (dentry : Dentry) :
    fs.readDentryByIndexInto index dentry = match fs.readDentryByIndex index with
      | none => (-1, dentry)
      | some d => (0, { d with filename := strncpy dentry.filename d.filename maxNameLength }) := by
  rw [readDentryByIndexInto, readDentryByIndex]
  split
  · rfl
  · simp only [strncpy_strncpy]

theorem findDentryInto_eq (fname : CStr) (dentry : Dentry) {k i : ℕ}
    (h : i + k ≤ fs.numDentries.toNat) :
    fs.findDentryInto fname dentry k i = match fs.findDentry fname k i with
      | none => (-1, dentry)
      | some d => (0, { d with filename := strncpy dentry.filename d.filename maxNameLength }) := by
  induction k generalizing i with
  | zero => rfl
  | succ k ih =>
    rw [findDentryInto, findDentry]
    split
    · -- the entry exists, so the value that is not looked at would be 0
      have hlt := fs.numDentries.isLt
      have hindex : ¬ fs.numDentries ≤ BitVec.ofNat 32 i := by
        rw [BitVec.le_def, BitVec.toNat_ofNat, Nat.mod_eq_of_lt (by omega)]
        omega
      rw [readDentryByIndexInto_eq, readDentryByIndex, if_neg hindex]
    · exact ih (by omega)

theorem toNat_toInt_numDentries (h : 0 ≤ fs.numDentries.toInt) :
    fs.numDentries.toInt.toNat = fs.numDentries.toNat := by
  have hlt := fs.numDentries.isLt
  rw [BitVec.toInt_eq_toNat_cond] at h ⊢
  split at h
  · rename_i hsmall
    rw [if_pos hsmall, Int.toNat_natCast]
  · omega

/-- The two accounts of `read_dentry_by_name` agree. -/
theorem readDentryByNameInto_eq (hn : 0 ≤ fs.numDentries.toInt) (fname : CStr) (dentry : Dentry) :
    fs.readDentryByNameInto fname dentry = match fs.readDentryByName fname with
      | none => (-1, dentry)
      | some d => (0, { d with filename := strncpy dentry.filename d.filename maxNameLength }) := by
  rw [readDentryByNameInto, readDentryByName]
  split
  · rfl
  · exact findDentryInto_eq fname dentry (by rw [toNat_toInt_numDentries hn]; omega)

/-! ## Looking a name up -/

/-- The loop finds the first entry with the name, or none. -/
theorem findDentryInto_of_first {fname : CStr} {j : ℕ} (hmatch : fs.entryName j = name fname)
    (hfirst : ∀ t < j, fs.entryName t ≠ name fname) (dentry : Dentry) {k i : ℕ} (hij : i ≤ j)
    (hjk : j < i + k) : fs.findDentryInto fname dentry k i =
      (0, (fs.readDentryByIndexInto (BitVec.ofNat 32 j) dentry).2) := by
  induction k generalizing i with
  | zero => omega
  | succ k ih =>
    rw [findDentryInto]
    rcases Nat.eq_or_lt_of_le hij with rfl | hlt
    · rw [if_pos ((strncmp_eq_zero_iff ..).mpr hmatch)]
    · rw [if_neg ((strncmp_eq_zero_iff ..).not.mpr (hfirst i hlt))]
      exact ih hlt (by omega)

theorem findDentryInto_of_none {fname : CStr} (dentry : Dentry) {k i : ℕ}
    (h : ∀ j, i ≤ j → j < i + k → fs.entryName j ≠ name fname) :
    fs.findDentryInto fname dentry k i = (-1, dentry) := by
  induction k generalizing i with
  | zero => rfl
  | succ k ih =>
    have hne := (strncmp_eq_zero_iff (fs.dentryName i) fname maxNameLength).not.mpr
      (h i (Nat.le_refl i) (by omega))
    rw [findDentryInto, if_neg hne]
    exact ih fun j h₁ h₂ => h j (by omega) (by omega)

theorem fnLength_eq_zero_iff (s : CStr) : fnLength s = 0 ↔ name s = [] := by
  rw [fnLength_eq, List.length_eq_zero_iff]

/-- An index that names an entry is not refused. -/
theorem readDentryByIndexInto_of_lt {i : ℕ} (hi : i < fs.numDentries.toNat) (dentry : Dentry) :
    fs.readDentryByIndexInto (BitVec.ofNat 32 i) dentry = (0,
      { filename := strncpy dentry.filename (fs.dentryName i) maxNameLength
        filetype := load32 fs.mem (fs.dentryAddr i + 32)
        inodeNum := load32 fs.mem (fs.dentryAddr i + 36) }) := by
  have hlt := fs.numDentries.isLt
  have hindex : (BitVec.ofNat 32 i).toNat = i := by
    rw [BitVec.toNat_ofNat, Nat.mod_eq_of_lt (by omega)]
  rw [readDentryByIndexInto, if_neg (by rw [BitVec.le_def, hindex]; omega), hindex]

/-- `read_dentry_by_name` on a name that some entry has. -/
theorem readDentryByNameInto_of_first (hn : 0 ≤ fs.numDentries.toInt) {fname : CStr}
    (hne : name fname ≠ []) {j : ℕ} (hj : j < fs.numDentries.toNat)
    (hmatch : fs.entryName j = name fname) (hfirst : ∀ t < j, fs.entryName t ≠ name fname)
    (dentry : Dentry) : fs.readDentryByNameInto fname dentry =
      fs.readDentryByIndexInto (BitVec.ofNat 32 j) dentry := by
  rw [readDentryByNameInto, if_neg ((fnLength_eq_zero_iff fname).not.mpr hne),
    toNat_toInt_numDentries hn, findDentryInto_of_first hmatch hfirst dentry (Nat.zero_le j) (by omega),
    readDentryByIndexInto_of_lt hj]

/-- `read_dentry_by_name` on a name that no entry has, or on the empty one. -/
theorem readDentryByNameInto_of_none (hn : 0 ≤ fs.numDentries.toInt) {fname : CStr}
    (h : name fname = [] ∨ ∀ j < fs.numDentries.toNat, fs.entryName j ≠ name fname)
    (dentry : Dentry) : fs.readDentryByNameInto fname dentry = (-1, dentry) := by
  rw [readDentryByNameInto]
  by_cases hempty : fnLength fname = 0
  · rw [if_pos hempty]
  · rw [if_neg hempty, toNat_toInt_numDentries hn]
    have hnone := h.resolve_left ((fnLength_eq_zero_iff fname).not.mp hempty)
    exact findDentryInto_of_none dentry fun j _ hj => hnone j (by omega)

/-- `fs_dir_read` at an entry. -/
theorem fsDirReadInto_of_lt {file : FILE} (hpos : file.pos.toNat < fs.numDentries.toNat) (buf : CStr)
    (readDentry : Dentry) : fs.fsDirReadInto buf file readDentry =
      (((fs.entryName file.pos.toNat).length : ℤ),
        strncpy buf (fs.dentryName file.pos.toNat) maxNameLength,
        { file with pos := file.pos + 1 }) := by
  have hread := readDentryByIndexInto_of_lt hpos readDentry
  rw [BitVec.ofNat_toNat, BitVec.setWidth_eq] at hread
  simp only [fsDirReadInto, hread, ne_eq, not_true_eq_false, if_false, strncpy_strncpy, fnLength_eq,
    name_strncpy]
  rfl

/-- `fs_dir_read` at the end of the directory. -/
theorem fsDirReadInto_of_le {file : FILE} (hpos : fs.numDentries.toNat ≤ file.pos.toNat) (buf : CStr)
    (readDentry : Dentry) : fs.fsDirReadInto buf file readDentry = (0, buf, file) := by
  have hread : fs.readDentryByIndexInto file.pos readDentry = (-1, readDentry) := by
    rw [readDentryByIndexInto, if_pos (BitVec.le_def.mpr hpos)]
  simp [fsDirReadInto, hread]

/-- The entries have names, all different. -/
def NamesDistinct (fs : Image) : Prop :=
  ∀ i < fs.numDentries.toNat, fs.entryName i ≠ [] ∧
    ∀ j < fs.numDentries.toNat, fs.entryName i = fs.entryName j → i = j

section lookup

variable {fname : CStr} {u : List (BitVec 8)}

theorem name_eq_nil_iff (hu : IsString fname u) : name fname = [] ↔ u = [] := by
  rw [hu.name_eq, List.take_eq_nil_iff]
  exact or_iff_right (by decide)

/-! The two outcomes of a lookup. -/

theorem lookup_of_first (hn : 0 ≤ fs.numDentries.toInt) (hu : IsString fname u) {i : ℕ}
    (hi : i < fs.numDentries.toNat) (hne : u ≠ []) (hmatch : fs.entryName i = u.take 32)
    (hfirst : ∀ j < i, fs.entryName j ≠ u.take 32) (dentry : Dentry) :
    fs.readDentryByNameInto fname dentry =
      fs.readDentryByIndexInto (BitVec.ofNat 32 i) dentry := by
  have hname : name fname = u.take 32 := hu.name_eq
  rw [← hname] at hmatch hfirst
  exact readDentryByNameInto_of_first hn ((name_eq_nil_iff hu).not.mpr hne) hi hmatch hfirst dentry

theorem lookup_of_missing (hn : 0 ≤ fs.numDentries.toInt) (hu : IsString fname u)
    (h : ¬ (u ≠ [] ∧ ∃ i < fs.numDentries.toNat, fs.entryName i = u.take 32)) (dentry : Dentry) :
    fs.readDentryByNameInto fname dentry = (-1, dentry) := by
  refine readDentryByNameInto_of_none hn ?_ dentry
  rw [name_eq_nil_iff hu, hu.name_eq]
  by_cases hne : u = []
  · exact Or.inl hne
  · exact Or.inr fun j hj hmatch => h ⟨hne, j, hj, hmatch⟩

/-- The name that a listing delivers leads back to its entry. -/
theorem lookup_of_listed (hn : 0 ≤ fs.numDentries.toInt) (hdistinct : fs.NamesDistinct) {i : ℕ}
    (hi : i < fs.numDentries.toNat) (buf : CStr) {file : FILE} (readDentry : Dentry)
    (hpos : file.pos.toNat = i) (dentry : Dentry) :
    fs.readDentryByNameInto (fs.fsDirReadInto buf file readDentry).2.1 dentry =
      fs.readDentryByIndexInto (BitVec.ofNat 32 i) dentry := by
  have hread := fsDirReadInto_of_lt (show file.pos.toNat < fs.numDentries.toNat by omega) buf
    readDentry
  have hsame : fs.entryName i = name (strncpy buf (fs.dentryName i) maxNameLength) := by
    rw [name_strncpy]
    rfl
  rw [hpos] at hread
  rw [hread]
  refine readDentryByNameInto_of_first hn ?_ hi hsame (fun t ht hmatch => ?_) dentry
  · rw [← hsame]
    exact (hdistinct i hi).1
  · rw [← hsame] at hmatch
    exact absurd ((hdistinct t (by omega)).2 i hi hmatch) (by omega)

/-- A string that stops short of a name, or continues it, does not match it. -/
theorem strncmp_ne_zero_of_proper (hu : IsString fname u) {i : ℕ} (hne : fs.entryName i ≠ u)
    (h : u <+: fs.entryName i ∨ (fs.entryName i <+: u ∧ (fs.entryName i).length < 32)) :
    strncmp (fs.dentryName i) fname maxNameLength ≠ 0 := by
  intro hcmp
  rw [strncmp_eq_zero_iff] at hcmp
  have hmatch : fs.entryName i = u.take 32 := hcmp.trans hu.name_eq
  rcases h with hshort | ⟨hlong, hlen⟩
  · -- `u` begins the name, and the name is `u` cut off
    refine hne (hshort.eq_of_length_le ?_).symm
    rw [hmatch]
    exact List.length_take_le' ..
  · -- a name of less than 32 bytes was not cut off
    refine hne ?_
    rw [hmatch, List.length_take] at hlen
    rw [hmatch, List.take_of_length_le (by omega)]

end lookup

/-- **Lookup is exact.**  For every directory and every string `u`, `read_dentry_by_name` returns 0
exactly when `u` is not empty and is, up to 32 bytes, the name of some entry; it then fills in what
`read_dentry_by_index` does for the first such entry, and otherwise leaves the caller's `dentry`
alone.  So, when the names are distinct, the name that `fs_dir_read` delivers for entry `i` leads
back to entry `i`; and a string that continues a name, or stops short of it, does not match it. -/
theorem lookup_exact (fs : Image) (hn : 0 ≤ fs.numDentries.toInt) {fname : CStr} {u : List (BitVec 8)}
    (hu : IsString fname u) (dentry : Dentry) :
    ((fs.readDentryByNameInto fname dentry).1 = 0 ↔
      u ≠ [] ∧ ∃ i < fs.numDentries.toNat, fs.entryName i = u.take 32) ∧
    (∀ i < fs.numDentries.toNat, u ≠ [] → fs.entryName i = u.take 32 →
      (∀ j < i, fs.entryName j ≠ u.take 32) → fs.readDentryByNameInto fname dentry =
        fs.readDentryByIndexInto (BitVec.ofNat 32 i) dentry) ∧
    (¬ (u ≠ [] ∧ ∃ i < fs.numDentries.toNat, fs.entryName i = u.take 32) →
      fs.readDentryByNameInto fname dentry = (-1, dentry)) ∧
    (fs.NamesDistinct → ∀ i < fs.numDentries.toNat, ∀ (buf : CStr) (file : FILE)
      (readDentry : Dentry), file.pos.toNat = i →
      fs.readDentryByNameInto (fs.fsDirReadInto buf file readDentry).2.1 dentry =
        fs.readDentryByIndexInto (BitVec.ofNat 32 i) dentry) ∧
    ∀ i < fs.numDentries.toNat, fs.entryName i ≠ u →
      u <+: fs.entryName i ∨ (fs.entryName i <+: u ∧ (fs.entryName i).length < 32) →
      strncmp (fs.dentryName i) fname maxNameLength ≠ 0 := by
  have hfound : ∀ i < fs.numDentries.toNat, u ≠ [] → fs.entryName i = u.take 32 →
      (∀ j < i, fs.entryName j ≠ u.take 32) → fs.readDentryByNameInto fname dentry =
        fs.readDentryByIndexInto (BitVec.ofNat 32 i) dentry :=
    fun i hi hne hmatch hfirst => lookup_of_first hn hu hi hne hmatch hfirst dentry
  refine ⟨⟨fun hret => ?_, ?_⟩, hfound, fun h => lookup_of_missing hn hu h dentry, ?_, ?_⟩
  · by_contra h
    rw [lookup_of_missing hn hu h dentry] at hret
    exact absurd (show (-1 : ℤ) = 0 from hret) (by decide)
  · rintro ⟨hne, i, hi, hmatch⟩
    have hex : ∃ t, fs.entryName t = u.take 32 := ⟨i, hmatch⟩
    have hle : Nat.find hex ≤ i := Nat.find_min' hex hmatch
    rw [hfound (Nat.find hex) (by omega) hne (Nat.find_spec hex) fun j hj => Nat.find_min hex hj,
      readDentryByIndexInto_of_lt (by omega)]
  · exact fun hdistinct i hi buf file readDentry hpos =>
      lookup_of_listed hn hdistinct hi buf readDentry hpos dentry
  · exact fun i _ hne h => strncmp_ne_zero_of_proper hu hne h

/-- The string `a`. -/
def letterA : CStr := fun k => if k = 0 then 0x61 else 0

theorem isString_letterA : IsString letterA [0x61] where
  byte k h := by
    have hk : k = 0 := Nat.lt_one_iff.mp h
    subst hk
    rfl
  byte_ne := by decide
  nul := rfl

/-- The only entry of a directory is found by its name. -/
theorem lookup_exact_oneFile :
    (oneFile.readDentryByNameInto letterA ⟨fun _ => 7, 7, 7⟩).1 = 0 ∧
      oneFile.readDentryByNameInto letterA ⟨fun _ => 7, 7, 7⟩ =
        oneFile.readDentryByIndexInto 0 ⟨fun _ => 7, 7, 7⟩ := by
  have hn : 0 ≤ oneFile.numDentries.toInt := by decide
  have hone : oneFile.numDentries.toNat = 1 := by decide
  have hname : oneFile.entryName 0 = [0x61] := by decide
  have h := lookup_exact oneFile hn isString_letterA ⟨fun _ => 7, 7, 7⟩
  exact ⟨h.1.mpr ⟨by simp, 0, by omega, hname⟩,
    h.2.1 0 (by omega) (by simp) hname fun j hj => absurd hj (Nat.not_lt_zero j)⟩

/-! ## Listing the names -/

variable (fs) in
/-- The `FILE` after `k` calls of `fs_dir_read`.  Call `k` is given the buffer, and finds on its stack
the variable, that `calls k` says. -/
def fileAfter (calls : ℕ → CStr × Dentry) (file : FILE) : ℕ → FILE
  | 0 => file
  | k + 1 => (fs.fsDirReadInto (calls k).1 (fileAfter calls file k) (calls k).2).2.2

/-- The position counts the calls, up to the end of the directory. -/
theorem fileAfter_eq {file : FILE} (hpos : file.pos = 0) (calls : ℕ → CStr × Dentry) (k : ℕ) :
    fs.fileAfter calls file k =
      { file with pos := BitVec.ofNat 32 (min k fs.numDentries.toNat) } := by
  induction k with
  | zero =>
    rw [fileAfter, Nat.zero_min, ← BitVec.ofNat_eq_ofNat, ← hpos]
  | succ k ih =>
    have hlt := fs.numDentries.isLt
    have hnow : (fs.fileAfter calls file k).pos.toNat = min k fs.numDentries.toNat := by
      rw [ih, BitVec.toNat_ofNat, Nat.mod_eq_of_lt (by omega)]
    rw [fileAfter]
    rcases Nat.lt_or_ge k fs.numDentries.toNat with hk | hk
    · rw [fsDirReadInto_of_lt (by omega), ih, Nat.min_eq_left hk.le, Nat.min_eq_left hk]
      show { file with pos := BitVec.ofNat 32 k + 1 } = { file with pos := BitVec.ofNat 32 (k + 1) }
      rw [BitVec.ofNat_add]
      rfl
    · rw [fsDirReadInto_of_le (by omega), ih, Nat.min_eq_right hk, Nat.min_eq_right (by omega)]

/-- **Listing enumerates every entry once.**  From position 0, call `k` fills the buffer with the name
of entry `k`, padded with `NUL`s to 32 bytes, returns its length and moves on by one; after the last
entry every call returns 0 and changes nothing. -/
theorem listing_exact (fs : Image) {file : FILE} (hpos : file.pos = 0) (calls : ℕ → CStr × Dentry) :
    (∀ k < fs.numDentries.toNat,
      let r := fs.fsDirReadInto (calls k).1 (fs.fileAfter calls file k) (calls k).2
      (∀ i < 32, r.2.1 i = (fs.entryName k).getD i 0) ∧ (∀ i, 32 ≤ i → r.2.1 i = (calls k).1 i) ∧
        r.1 = (fs.entryName k).length ∧ ((∀ i < 32, fs.dentryName k i ≠ 0) → r.1 = 32) ∧
        (fs.fileAfter calls file k).pos.toNat = k ∧
        r.2.2 = { file with pos := BitVec.ofNat 32 (k + 1) }) ∧
    ∀ k, fs.numDentries.toNat ≤ k →
      fs.fsDirReadInto (calls k).1 (fs.fileAfter calls file k) (calls k).2 =
        (0, (calls k).1, fs.fileAfter calls file k) ∧
      (fs.fileAfter calls file k).pos = fs.numDentries := by
  have hlt := fs.numDentries.isLt
  have hnow : ∀ k, (fs.fileAfter calls file k).pos.toNat = min k fs.numDentries.toNat := fun k => by
    rw [fileAfter_eq hpos, BitVec.toNat_ofNat, Nat.mod_eq_of_lt (by omega)]
  constructor
  · intro k hk r
    have hk' : (fs.fileAfter calls file k).pos.toNat = k := by
      rw [hnow, Nat.min_eq_left hk.le]
    have hr : r = _ := fsDirReadInto_of_lt (by omega) (calls k).1 (calls k).2
    rw [hk'] at hr
    rw [hr]
    refine ⟨fun i hi => strncpy_of_lt _ _ hi, fun i hi => strncpy_of_le _ _ hi, rfl, fun hfull => ?_,
      hk', ?_⟩
    · have hlen : (fs.entryName k).length = 32 :=
        length_textFrom fun i _ hi => hfull i (by rwa [Nat.zero_add] at hi)
      rw [hlen]
      rfl
    · rw [fileAfter_eq hpos, Nat.min_eq_left hk.le, BitVec.ofNat_add]
      rfl
  · intro k hk
    refine ⟨fsDirReadInto_of_le ?_ _ _, BitVec.eq_of_toNat_eq ?_⟩
    · rw [hnow, Nat.min_eq_right hk]
    · rw [hnow, Nat.min_eq_right hk]

/-- A directory of one entry, listed twice. -/
theorem listing_exact_oneFile :
    let file : FILE := ⟨.dir, 0, 0, .dir, true⟩
    let calls : ℕ → CStr × Dentry := fun _ => (fun _ => 7, ⟨fun _ => 7, 7, 7⟩)
    (oneFile.fsDirReadInto (calls 0).1 (oneFile.fileAfter calls file 0) (calls 0).2).1 = 1 ∧
      (oneFile.fileAfter calls file 1).pos = 1 := by
  intro file calls
  have hone : oneFile.numDentries.toNat = 1 := by decide
  have hname : oneFile.entryName 0 = [0x61] := by decide
  have h := listing_exact oneFile (show file.pos = 0 from rfl) calls
  obtain ⟨-, -, hlen, -⟩ := h.1 0 (by omega)
  rw [hname] at hlen
  refine ⟨hlen, (h.2 1 (by omega)).2.trans ?_⟩
  decide

end Image
end FileSys
end CoreOS
