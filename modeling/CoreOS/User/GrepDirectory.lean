import CoreOS.User.Grep
import CoreOS.Exec.Execute

/-!
# `grep` in the whole directory

`main` of `ece391grep.c` reads the names of the directory one after the other and calls `do_one_file`
for each that does not begin with a dot.  The directory stays open at its descriptor while the files are
opened and closed at the next one; since `do_one_file` gives its descriptor back, the next file finds it
free again.

`greps` is about the program in a running system, like the theorems on `cat`, `ls` and `do_one_file`,
the last of which it is built on.  The files may be text files or the clock, which `do_one_file` waits
on for a tick and reports nothing of.
-/

namespace CoreOS
namespace User

open FileSys Files

/-! ## A clock in place of a file -/

namespace OneFile

/-- What is known of `do_one_file` when its file is the clock. -/
def Ticking (m₀ : FdMap) (fd : ℕ) (m : FdMap) (p : OneFile) (l : List (BitVec 8)) : Prop :=
  match p with
  | .opening _ => m = m₀ ∧ l = []
  | .reading fd' _ last => fd' = fd ∧ last = 0 ∧ m = Function.update m₀ fd (some .rtc) ∧ l = []
  | .closing fd' => fd' = fd ∧ m = Function.update m₀ fd (some .rtc) ∧ l = []
  | .returned ret => ret = 0 ∧ m = m₀ ∧ l = []
  | .openFailed => False
  | .readFailed => False
  | .printing _ _ _ _ => False
  | .closeFailed => False

/-- The calls that are still to come. -/
def ticksToCome : OneFile → ℕ
  | .opening _ => 3
  | .reading _ _ _ => 2
  | .closing _ => 1
  | _ => 0

variable {fs : Image} {s fname : List (BitVec 8)} {dent : Dentry} {m₀ m : FdMap} {fd pid : ℕ}
  {l : List (BitVec 8)} {st : State}

/-- A pass through an empty buffer. -/
theorem scan_empty (data : CStr) :
    scan s fname 0 0 1 data 0 = ⟨[], Function.update data 0 0, 0⟩ := by
  rw [scan]
  exact if_neg fun hmove => hmove.2.1 rfl

/-- One call of the function. -/
theorem Ticking.call (hfound : fs.readDentryByName (pointer fname) = some dent)
    (htype : dent.filetype = fileTypeRtc) (hfree : m₀.leastFree = some fd) {p : OneFile} {o : Op}
    {c : Call} {a : Answer} (hrun : Running st pid) (hp : Ticking m₀ fd (fdMap st pid) p l)
    (ho : Promised fs st o) (hmade : made fs pid st o = some (c, a))
    (hc : (doOneFile s fname).call p = some c) :
    Ticking m₀ fd (fdMap (step fs st o) pid) ((doOneFile s fname).resume p a) (l ++ shown pid st o) ∧
      ticksToCome ((doOneFile s fname).resume p a) < ticksToCome p := by
  obtain ⟨hge, hlt, hnone⟩ := leastFree_spec hfree
  cases p with
  | opening data =>
    obtain ⟨hmap₀, rfl⟩ := hp
    cases hc
    rw [← hmap₀] at hfree
    obtain ⟨-, hret, hmap, hshown⟩ := hrun.open ho hmade hfound hfree
    have hnext : (doOneFile s fname).resume (.opening data) a = .reading fd data 0 := by
      show (if a.ret = -1 then OneFile.openFailed else .reading a.ret data 0) = _
      rw [hret, if_neg (by omega)]
    have hentry : Entry.ofDentry dent = .rtc := if_pos htype
    rw [hnext, hshown]
    refine ⟨⟨rfl, rfl, ?_, rfl⟩, Nat.lt_succ_self _⟩
    rw [hmap, hmap₀, hentry]
  | openFailed => exact hp.elim
  | reading fd' data last =>
    obtain ⟨rfl, rfl, hmap₀, rfl⟩ := hp
    cases hc
    have hentry : fdMap st pid fd = some .rtc := by rw [hmap₀, Function.update_self]
    obtain ⟨hret, hbytes, hmap, hshown⟩ := hrun.read_rtc ho hentry hmade
    have hnext : (doOneFile s fname).resume (.reading fd data 0) a = .closing fd := by
      show (if a.ret = -1 then OneFile.readFailed else proceed fd a.ret (scan s fname a.ret
        (0 + a.ret.toNat) (0 + a.ret.toNat + 1) (storeAt data 0 a.bytes) 0)) = _
      rw [hret, if_neg (by decide)]
      show proceed fd 0 (scan s fname 0 0 1 (storeAt data 0 a.bytes) 0) = _
      rw [scan_empty]
      rfl
    rw [hnext, hshown, hmap]
    exact ⟨⟨rfl, hmap₀, rfl⟩, Nat.lt_succ_self _⟩
  | readFailed => exact hp.elim
  | printing fd' cnt string pass => exact hp.elim
  | closing fd' =>
    obtain ⟨rfl, hmap₀, rfl⟩ := hp
    cases hc
    have hopen : fdMap st pid fd ≠ none := by
      rw [hmap₀, Function.update_self]
      exact Option.some_ne_none _
    obtain ⟨-, hret, hmap, hshown⟩ := hrun.close ho hge hlt hopen hmade
    have hnext : (doOneFile s fname).resume (.closing fd) a = .returned 0 := by
      show (if a.ret = -1 then OneFile.closeFailed else .returned 0) = _
      rw [hret, if_neg (by decide)]
    rw [hnext, hshown]
    refine ⟨⟨rfl, ?_, rfl⟩, Nat.succ_pos _⟩
    rw [hmap, hmap₀, Function.update_idem, ← hnone, Function.update_eq_self]
  | closeFailed => exact hp.elim
  | returned ret => cases hc

theorem Ticking.nil {p : OneFile} (h : Ticking m₀ fd m p l) : l = [] := by
  cases p with
  | opening data => exact h.2
  | reading fd' data last => exact h.2.2.2
  | closing fd' => exact h.2.2
  | returned ret => exact h.2.2
  | _ => exact h.elim

theorem Ticking.frame {p : OneFile} (h : Ticking m₀ fd m p l) {d : ℕ} (hd : d ≠ fd) : m d = m₀ d := by
  cases p with
  | opening data => rw [h.1]
  | reading fd' data last => rw [h.2.2.1, Function.update_of_ne hd]
  | closing fd' => rw [h.2.1, Function.update_of_ne hd]
  | returned ret => rw [h.2.1]
  | _ => exact h.elim

end OneFile

/-! ## One name of the directory -/

open OneFile

/-- A file that `grep` can deal with: a text file, or the clock. -/
inductive Greppable (fs : Image) (u : List (BitVec 8)) : Prop where
  | text (dent : Dentry) (h : Searchable fs u dent)
  | clock (dent : Dentry) (hfound : fs.readDentryByName (pointer u) = some dent)
    (htype : dent.filetype = fileTypeRtc)

/-- What is written for a name of the directory. -/
def entryOut (fs : Image) (s u : List (BitVec 8)) : List (BitVec 8) :=
  if u.head? = some (ch '.') then []
  else
    match fs.readDentryByName (pointer u) with
    | some dent => if dent.filetype = fileTypeRtc then [] else found s u (fs.contents dent.inodeNum)
    | none => []

/-- What is known of `do_one_file` when it is called for a name of the directory. -/
def entrySound (fs : Image) (s u : List (BitVec 8)) (m₀ : FdMap) (fd : ℕ) (m : FdMap) (p : OneFile)
    (l : List (BitVec 8)) : Prop :=
  match fs.readDentryByName (pointer u) with
  | some dent =>
    if dent.filetype = fileTypeRtc then Ticking m₀ fd m p l
    else OneFile.Sound fs s u dent.inodeNum m₀ fd m p l
  | none => False

/-- The calls that `do_one_file` still makes for it. -/
def entryToCome (fs : Image) (u : List (BitVec 8)) (fd : ℕ) (m : FdMap) (p : OneFile) : ℕ :=
  match fs.readDentryByName (pointer u) with
  | some dent =>
    if dent.filetype = fileTypeRtc then ticksToCome p
    else OneFile.toCome fs dent.inodeNum fd m p
  | none => 0

/-- The calls that are made for a name, with the one that reads the name. -/
def cost (fs : Image) (u : List (BitVec 8)) : ℕ :=
  match fs.readDentryByName (pointer u) with
  | some dent => 6 * (fs.contents dent.inodeNum).length + 5
  | none => 1

section entry

variable {fs : Image} {s u : List (BitVec 8)} {m₀ m : FdMap} {fd pid : ℕ} {p : OneFile}
  {l : List (BitVec 8)} {st : State}

/-- `do_one_file` is called. -/
theorem entrySound_start (s : List (BitVec 8)) (m₀ : FdMap) (fd : ℕ) (h : Greppable fs u)
    {data : CStr} (hguard : data bufSize ≠ nl) :
    entrySound fs s u m₀ fd m₀ (.opening data) [] ∧
      entryToCome fs u fd m₀ (.opening data) < cost fs u := by
  rw [entrySound, entryToCome, cost]
  cases h with
  | text dent h =>
    have htype : dent.filetype ≠ fileTypeRtc := by
      rw [h.type_eq]
      decide
    simp only [h.found, if_neg htype]
    exact ⟨⟨rfl, hguard, rfl⟩, Nat.lt_succ_self _⟩
  | clock dent hfound htype =>
    simp only [hfound, if_pos htype]
    refine ⟨⟨rfl, rfl⟩, ?_⟩
    show 3 < _
    omega

/-- One call of `do_one_file`. -/
theorem entrySound_call (hs : ∀ c ∈ s, c ≠ 0) (hname : u.length < 2 ^ 31) (h : Greppable fs u)
    (hfree : m₀.leastFree = some fd) {o : Op} {c : Call} {a : Answer} (hrun : Running st pid)
    (hp : entrySound fs s u m₀ fd (fdMap st pid) p l) (ho : Promised fs st o)
    (hmade : made fs pid st o = some (c, a)) (hc : (doOneFile s u).call p = some c) :
    entrySound fs s u m₀ fd (fdMap (step fs st o) pid) ((doOneFile s u).resume p a)
        (l ++ shown pid st o) ∧
      entryToCome fs u fd (fdMap (step fs st o) pid) ((doOneFile s u).resume p a) <
        entryToCome fs u fd (fdMap st pid) p := by
  unfold entrySound at hp ⊢
  unfold entryToCome
  cases h with
  | text dent h =>
    have htype : dent.filetype ≠ fileTypeRtc := by
      rw [h.type_eq]
      decide
    simp only [h.found, if_neg htype] at hp ⊢
    exact OneFile.Sound.call hs hname h hfree hrun hp ho hmade hc
  | clock dent hfound htype =>
    simp only [hfound, if_pos htype] at hp ⊢
    exact Ticking.call hfound htype hfree hrun hp ho hmade hc

theorem entrySound_initial (hu : u.head? ≠ some (ch '.')) (h : Greppable fs u)
    (hp : entrySound fs s u m₀ fd m p l) : l <+: entryOut fs s u := by
  unfold entrySound at hp
  rw [entryOut, if_neg hu]
  cases h with
  | text dent h =>
    have htype : dent.filetype ≠ fileTypeRtc := by
      rw [h.type_eq]
      decide
    simp only [h.found, if_neg htype] at hp ⊢
    exact hp.initial
  | clock dent hfound htype =>
    simp only [hfound, if_pos htype] at hp ⊢
    exact hp.nil ▸ List.prefix_refl _

theorem entrySound_frame (hp : entrySound fs s u m₀ fd m p l) {d : ℕ} (hd : d ≠ fd) : m d = m₀ d := by
  unfold entrySound at hp
  cases hfound : fs.readDentryByName (pointer u) with
  | none =>
    rw [hfound] at hp
    exact hp.elim
  | some dent =>
    rw [hfound] at hp
    dsimp only at hp
    split_ifs at hp
    · exact hp.frame hd
    · exact hp.frame hd

/-- `do_one_file` returns. -/
theorem entrySound_returned (hu : u.head? ≠ some (ch '.')) (h : Greppable fs u) {ret : ℤ}
    (hp : entrySound fs s u m₀ fd m (.returned ret) l) :
    ret = 0 ∧ m = m₀ ∧ l = entryOut fs s u := by
  unfold entrySound at hp
  rw [entryOut, if_neg hu]
  cases h with
  | text dent h =>
    have htype : dent.filetype ≠ fileTypeRtc := by
      rw [h.type_eq]
      decide
    simp only [h.found, if_neg htype] at hp ⊢
    exact hp
  | clock dent hfound htype =>
    simp only [hfound, if_pos htype] at hp ⊢
    exact hp

end entry

/-! ## The program -/

/-- Where `main` of `ece391grep.c` is: at its calls, or in `do_one_file`, with its variables.  `k` counts
the calls of `do_one_file`, each of which finds something else in its buffer. -/
inductive Grep where
  | opening (buf : CStr)
  | openFailed
  | reading (fd : ℤ) (buf : CStr) (k : ℕ)
  | readFailed
  | searching (fd : ℤ) (buf : CStr) (k : ℕ) (fname : List (BitVec 8)) (p : OneFile)
  | ended (status : ℤ)

namespace Grep

/-- `main` of `ece391grep.c`, after `ece391_getargs`.  `stack k` is what call `k` of `do_one_file` finds
in its buffer. -/
def main (search : List (BitVec 8)) (stack : ℕ → CStr) : Program Call Answer Grep where
  call
    | .opening _ => some (.open (constant "."))
    | .openFailed => some (fdputs (literal "directory open failed\n"))
    | .reading fd _ _ => some (.read fd true 32)
    | .readFailed => some (fdputs (literal "directory entry read failed\n"))
    | .searching _ _ _ fname p => (doOneFile search fname).call p
    | .ended _ => none
  resume
    | .opening buf, a => if a.ret = -1 then .openFailed else .reading a.ret buf 0
    | .openFailed, _ => .ended 2
    | .reading fd buf k, a =>
      if a.ret = 0 then .ended 0
      else if a.ret = -1 then .readFailed
      else if ch '.' = storeBytes buf a.bytes 0 then .reading fd (storeBytes buf a.bytes) k
      else
        let buf := Function.update (storeBytes buf a.bytes) a.ret.toNat 0
        .searching fd buf (k + 1) (FileSys.text buf 33) (.opening (stack k))
    | .readFailed, _ => .ended 3
    | .searching fd buf k fname p, a =>
      match (doOneFile search fname).resume p a with
      | .returned ret => if ret ≠ 0 then .ended 3 else .reading fd buf k
      | p' => .searching fd buf k fname p'
    | .ended status, _ => .ended status

/-- What is written for the first `k` names. -/
def output (fs : Image) (s : List (BitVec 8)) (k : ℕ) : List (BitVec 8) :=
  ((listed fs).take k).flatMap (entryOut fs s)

/-- The calls that are made for the names from the `k`-th on. -/
def toCost (fs : Image) (k : ℕ) : ℕ := (((listed fs).drop k).map (cost fs)).sum

/-- The descriptors with the directory open, at its entry `k`. -/
def table (m₀ : FdMap) (inode : BitVec 32) (k : ℕ) : FdMap :=
  Function.update m₀ 2 (some (.dir inode (BitVec.ofNat 32 k)))

/-- What is known of the program when it has written `l`. -/
def Sound (fs : Image) (s : List (BitVec 8)) (inode : BitVec 32) (m₀ m : FdMap) (p : Grep)
    (l : List (BitVec 8)) : Prop :=
  match p with
  | .opening _ => m = m₀ ∧ l = []
  | .reading fd _ _ => fd = 2 ∧ ∃ k ≤ (listed fs).length, m = table m₀ inode k ∧ l = output fs s k
  | .searching fd _ _ fname p => fd = 2 ∧ ∃ k, ∃ hk : k < (listed fs).length, fname = (listed fs)[k] ∧
      fname.head? ≠ some (ch '.') ∧ (∀ ret, p ≠ .returned ret) ∧
      ∃ l', l = output fs s k ++ l' ∧ entrySound fs s fname (table m₀ inode (k + 1)) 3 m p l'
  | .ended status => status = 0 ∧ l = output fs s (listed fs).length
  | .openFailed => False
  | .readFailed => False

/-- The entry at which the directory stands. -/
def entryAt (m : FdMap) : ℕ :=
  match m 2 with
  | some (.dir _ pos) => pos.toNat
  | _ => 0

/-- The calls that are still to come, at most. -/
def toCome (fs : Image) (m : FdMap) : Grep → ℕ
  | .opening _ => toCost fs 0 + 2
  | .reading _ _ _ => toCost fs (entryAt m) + 1
  | .searching _ _ _ fname p => entryToCome fs fname 3 m p + toCost fs (entryAt m) + 1
  | .openFailed => 1
  | .readFailed => 1
  | .ended _ => 0

variable {fs : Image} {s : List (BitVec 8)} {stack : ℕ → CStr} {dent : Dentry} {inode : BitVec 32}
  {m₀ m : FdMap} {k pid : ℕ} {l : List (BitVec 8)} {st : State}

theorem leastFree_fresh (h : ∀ fd, 2 ≤ fd → m₀ fd = none) : m₀.leastFree = some 2 := by
  have htwo : m₀ 2 = none := h 2 (Nat.le_refl 2)
  simp [FdMap.leastFree, taskMaxFiles, List.range', htwo]

theorem leastFree_table (h : ∀ fd, 2 ≤ fd → m₀ fd = none) (inode : BitVec 32) (k : ℕ) :
    (table m₀ inode k).leastFree = some 3 := by
  have hthree : m₀ 3 = none := h 3 (by omega)
  simp [FdMap.leastFree, taskMaxFiles, List.range', table, hthree]

theorem entryAt_eq (h : m 2 = some (.dir inode (BitVec.ofNat 32 k))) (hk : k ≤ (listed fs).length) :
    entryAt m = k := by
  have hlt := fs.numDentries.isLt
  have hle : (listed fs).length ≤ fs.numDentries.toNat := by
    obtain hend | ⟨hend, -⟩ := listed_length fs <;> omega
  rw [entryAt, h]
  show (BitVec.ofNat 32 k).toNat = k
  rw [BitVec.toNat_ofNat, Nat.mod_eq_of_lt (by omega)]

theorem output_succ (hk : k < (listed fs).length) :
    output fs s (k + 1) = output fs s k ++ entryOut fs s (listed fs)[k] := by
  rw [output, List.take_succ_eq_append_getElem hk, List.flatMap_append, List.flatMap_singleton, output]

theorem toCost_of_lt (hk : k < (listed fs).length) :
    toCost fs k = cost fs (listed fs)[k] + toCost fs (k + 1) := by
  rw [toCost, List.drop_eq_getElem_cons hk, List.map_cons, List.sum_cons, toCost]

theorem one_le_cost (fs : Image) (u : List (BitVec 8)) : 1 ≤ cost fs u := by
  unfold cost
  split <;> omega

theorem ne_nul_of_listed (hk : k < (listed fs).length) : ∀ c ∈ (listed fs)[k], c ≠ 0 := by
  rw [(listed_getElem hk).2.1]
  exact fun c hc => Exec.ne_zero_of_mem_textFrom hc

/-- The name in the buffer, once it ends with a `NUL`. -/
theorem text_update {buf : CStr} {u : List (BitVec 8)} (hbuf : bytesOf buf u.length = u)
    (hne : ∀ c ∈ u, c ≠ 0) (hlen : u.length ≤ maxNameLength) :
    FileSys.text (Function.update buf u.length 0) 33 = u := by
  have hstring : IsString (Function.update buf u.length 0) u := by
    refine ⟨fun k hk => ?_, hne, Function.update_self ..⟩
    rw [Function.update_of_ne hk.ne]
    have hget : (bytesOf buf u.length)[k]? = u[k]? := by rw [hbuf]
    simpa [bytesOf, hk] using hget
  rw [maxNameLength] at hlen
  rw [FileSys.text, hstring.textFrom_eq 33 (Nat.zero_le _), List.drop_zero,
    List.take_of_length_le (by omega)]

/-- What is assumed of the directory and of the process: the names are names of files that can be dealt
with, the process has opened nothing yet, and no call of `do_one_file` finds a newline behind its
buffer. -/
structure Ready (fs : Image) (s : List (BitVec 8)) (stack : ℕ → CStr) (dent : Dentry) (m₀ : FdMap) :
    Prop where
  folder : Folder fs dent
  greppable : ∀ u ∈ listed fs, u.head? ≠ some (ch '.') → Greppable fs u
  pattern : ∀ c ∈ s, c ≠ 0
  guard : ∀ k, stack k bufSize ≠ nl
  fresh : ∀ fd, 2 ≤ fd → m₀ fd = none

/-- A name has been read. -/
theorem resume_reading (hready : Ready fs s stack dent m₀) {buf : CStr} {j : ℕ} {a : Answer}
    (hk : k < (listed fs).length) (hret : a.ret = (listed fs)[k].length) (hne : (listed fs)[k] ≠ [])
    (hle : (listed fs)[k].length ≤ maxNameLength)
    (hbytes : ∀ buf, bytesOf (storeBytes buf a.bytes) (listed fs)[k].length = (listed fs)[k])
    (hm : m = table m₀ dent.inodeNum (k + 1)) (hl : l = output fs s k) :
    Sound fs s dent.inodeNum m₀ m ((main s stack).resume (.reading 2 buf j) a) l ∧
      toCome fs m ((main s stack).resume (.reading 2 buf j) a) < toCost fs k + 1 := by
  have hpos : 0 < (listed fs)[k].length := List.length_pos_iff.mpr hne
  have hentry : m 2 = some (.dir dent.inodeNum (BitVec.ofNat 32 (k + 1))) := by
    rw [hm, table, Function.update_self]
  have hfirst : storeBytes buf a.bytes 0 = (listed fs)[k][0] := by
    have hget : (bytesOf (storeBytes buf a.bytes) (listed fs)[k].length)[0]? = (listed fs)[k][0]? := by
      rw [hbytes]
    simpa [bytesOf, hpos] using hget
  have hhead : (listed fs)[k].head? = some (listed fs)[k][0] := by
    rw [List.head?_eq_getElem?, List.getElem?_eq_getElem hpos]
  have hcost := one_le_cost fs (listed fs)[k]
  have hnext : (main s stack).resume (.reading 2 buf j) a =
      if ch '.' = storeBytes buf a.bytes 0 then .reading 2 (storeBytes buf a.bytes) j
      else .searching 2 (Function.update (storeBytes buf a.bytes) (listed fs)[k].length 0) (j + 1)
        (listed fs)[k] (.opening (stack j)) := by
    show (if a.ret = 0 then Grep.ended 0 else if a.ret = -1 then .readFailed
      else if ch '.' = storeBytes buf a.bytes 0 then .reading 2 (storeBytes buf a.bytes) j
      else .searching 2 (Function.update (storeBytes buf a.bytes) a.ret.toNat 0) (j + 1)
        (FileSys.text (Function.update (storeBytes buf a.bytes) a.ret.toNat 0) 33)
        (.opening (stack j))) = _
    rw [hret, if_neg (by omega), if_neg (by omega), Int.toNat_natCast,
      text_update (hbytes buf) (ne_nul_of_listed hk) hle]
  rw [hnext, hfirst, toCost_of_lt hk]
  by_cases hdot : ch '.' = (listed fs)[k][0]
  · -- a name that begins with a dot
    have hout : entryOut fs s (listed fs)[k] = [] := if_pos (by rw [hhead, hdot])
    rw [if_pos hdot]
    refine ⟨⟨rfl, k + 1, hk, hm, ?_⟩, ?_⟩
    · rw [output_succ hk, hout, List.append_nil, hl]
    · rw [toCome, entryAt_eq hentry hk]
      omega
  · have hnot : (listed fs)[k].head? ≠ some (ch '.') := by
      rw [hhead]
      exact fun h => hdot (Option.some.inj h).symm
    have hgreppable := hready.greppable _ (List.getElem_mem hk) hnot
    obtain ⟨hsound, hcome⟩ := entrySound_start s m 3 hgreppable (hready.guard j)
    rw [if_neg hdot]
    refine ⟨⟨rfl, k, hk, rfl, hnot, by rintro ret ⟨⟩, [], ?_, hm ▸ hsound⟩, ?_⟩
    · rw [List.append_nil, hl]
    · rw [toCome, entryAt_eq hentry hk]
      omega

/-- Where the program goes on after a call of `do_one_file`. -/
theorem resume_searching (s : List (BitVec 8)) (stack : ℕ → CStr) (buf : CStr) (j : ℕ)
    (fname : List (BitVec 8)) (p : OneFile) (a : Answer) :
    (∃ ret, (doOneFile s fname).resume p a = .returned ret ∧
        (main s stack).resume (.searching 2 buf j fname p) a =
          if ret ≠ 0 then .ended 3 else .reading 2 buf j) ∨
      (∀ ret, (doOneFile s fname).resume p a ≠ .returned ret) ∧
        (main s stack).resume (.searching 2 buf j fname p) a =
          .searching 2 buf j fname ((doOneFile s fname).resume p a) := by
  cases hp : (doOneFile s fname).resume p a with
  | returned ret => exact Or.inl ⟨ret, rfl, by simp only [main, hp]⟩
  | _ => exact Or.inr ⟨by rintro ret ⟨⟩, by simp only [main, hp]⟩

/-- **One call of the program.** -/
theorem Sound.call (hready : Ready fs s stack dent m₀) {p : Grep} {o : Op} {c : Call} {a : Answer}
    (hrun : Running st pid) (hp : Sound fs s dent.inodeNum m₀ (fdMap st pid) p l)
    (ho : Promised fs st o) (hmade : made fs pid st o = some (c, a))
    (hc : (main s stack).call p = some c) :
    Sound fs s dent.inodeNum m₀ (fdMap (step fs st o) pid) ((main s stack).resume p a)
        (l ++ shown pid st o) ∧
      toCome fs (fdMap (step fs st o) pid) ((main s stack).resume p a) <
        toCome fs (fdMap st pid) p := by
  cases p with
  | opening buf =>
    obtain ⟨hmap₀, rfl⟩ := hp
    cases hc
    have hfree : (fdMap st pid).leastFree = some 2 := by
      rw [hmap₀]
      exact leastFree_fresh hready.fresh
    obtain ⟨-, hret, hmap, hshown⟩ := hrun.open ho hmade hready.folder.found hfree
    have htable : fdMap (step fs st o) pid = table m₀ dent.inodeNum 0 := by
      rw [hmap, hmap₀, table, Entry.ofDentry, hready.folder.type_eq]
      rfl
    have hentry : fdMap (step fs st o) pid 2 = some (.dir dent.inodeNum (BitVec.ofNat 32 0)) := by
      rw [htable, table, Function.update_self]
    have hnext : (main s stack).resume (.opening buf) a = .reading 2 buf 0 := by
      show (if a.ret = -1 then Grep.openFailed else .reading a.ret buf 0) = _
      rw [hret]
      rfl
    rw [hnext, hshown]
    refine ⟨⟨rfl, 0, Nat.zero_le _, htable, rfl⟩, ?_⟩
    rw [toCome, toCome, entryAt_eq hentry (Nat.zero_le (listed fs).length)]
    omega
  | openFailed => exact hp.elim
  | reading fd buf j =>
    obtain ⟨rfl, k, hk, hmap₀, rfl⟩ := hp
    cases hc
    have hentry : fdMap st pid 2 = some (.dir dent.inodeNum (BitVec.ofNat 32 k)) := by
      rw [hmap₀, table, Function.update_self]
    obtain ⟨hshown, ⟨hend, hret⟩ | ⟨hlt, hret, hne, hle, hbytes, hmap⟩⟩ :=
      hrun.read_name hentry hk ho hmade
    · have hnext : (main s stack).resume (.reading 2 buf j) a = .ended 0 := by
        show (if a.ret = 0 then Grep.ended 0 else _) = _
        rw [if_pos hret]
      rw [hnext, hshown, List.append_nil, hend]
      exact ⟨⟨rfl, rfl⟩, Nat.succ_pos _⟩
    · have htable : fdMap (step fs st o) pid = table m₀ dent.inodeNum (k + 1) := by
        rw [hmap, hmap₀, table, table, Function.update_idem]
      rw [hshown, List.append_nil, toCome, entryAt_eq hentry hk]
      exact resume_reading hready hlt hret hne hle hbytes htable rfl
  | readFailed => exact hp.elim
  | searching fd buf j fname p =>
    obtain ⟨rfl, k, hk, rfl, hnot, hgoing, l', rfl, hsound⟩ := hp
    have hgreppable := hready.greppable _ (List.getElem_mem hk) hnot
    have hname : (listed fs)[k].length < 2 ^ 31 := by
      rw [(listed_getElem hk).2.1]
      have hle := length_entryName_le fs k
      rw [maxNameLength] at hle
      omega
    obtain ⟨hsound', hcome⟩ := entrySound_call hready.pattern hname hgreppable
      (leastFree_table hready.fresh _ _) hrun hsound ho hmade hc
    have htwo : table m₀ dent.inodeNum (k + 1) 2 =
        some (.dir dent.inodeNum (BitVec.ofNat 32 (k + 1))) := by
      rw [table, Function.update_self]
    have hentry := (entrySound_frame hsound (by decide)).trans htwo
    have hentry' := (entrySound_frame hsound' (by decide)).trans htwo
    rw [toCome, entryAt_eq hentry hk, List.append_assoc]
    obtain ⟨ret, hreturned, hnext⟩ | ⟨hgoing', hnext⟩ :=
      resume_searching s stack buf j (listed fs)[k] p a
    · rw [hreturned] at hsound' hcome
      obtain ⟨rfl, hmap, hout⟩ := entrySound_returned hnot hgreppable hsound'
      rw [hnext, if_neg (fun h => h rfl)]
      refine ⟨⟨rfl, k + 1, hk, hmap, ?_⟩, ?_⟩
      · rw [output_succ hk, hout]
      · rw [toCome, entryAt_eq hentry' hk]
        omega
    · rw [hnext]
      refine ⟨⟨rfl, k, hk, rfl, hnot, hgoing', _, rfl, hsound'⟩, ?_⟩
      rw [toCome, entryAt_eq hentry' hk]
      omega
  | ended status => cases hc

theorem keeps (hready : Ready fs s stack dent m₀) (pid : ℕ) :
    Keeps (main s stack) fs pid (Sound fs s dent.inodeNum m₀) (toCome fs) where
  stays := by
    intro p c hc
    cases p with
    | searching fd buf j fname p =>
      cases p <;> cases hc <;> exact ⟨Call.noConfusion, Call.noConfusion⟩
    | _ => cases hc <;> exact ⟨Call.noConfusion, Call.noConfusion⟩
  call := Sound.call hready

/-- Without a clock in the directory the program never waits. -/
theorem neverWaits (hready : Ready fs s stack dent m₀)
    (htext : ∀ u ∈ listed fs, u.head? ≠ some (ch '.') → ∃ dent, Searchable fs u dent) (pid : ℕ) :
    NeverWaits (main s stack) fs pid (Sound fs s dent.inodeNum m₀) := by
  intro st p l c hrun hp hcur hc
  cases p with
  | opening buf =>
    cases hc
    refine hrun.open_answered hcur fun dent' hname => ?_
    obtain rfl : dent = dent' := Option.some.inj (hready.folder.found.symm.trans hname)
    rw [hready.folder.type_eq]
    decide
  | openFailed => exact hp.elim
  | reading fd buf j =>
    obtain ⟨rfl, k, hk, hmap, -⟩ := hp
    cases hc
    have hentry : fdMap st pid 2 = some (.dir dent.inodeNum (BitVec.ofNat 32 k)) := by
      rw [hmap, table, Function.update_self]
    exact hrun.read_answered hcur (Or.inr hentry) 32
  | readFailed => exact hp.elim
  | searching fd buf j fname p =>
    obtain ⟨rfl, k, hk, rfl, hnot, -, l', -, hsound⟩ := hp
    obtain ⟨dent', hsearch⟩ := htext _ (List.getElem_mem hk) hnot
    have hname : (listed fs)[k].length < 2 ^ 31 := by
      rw [(listed_getElem hk).2.1]
      have hle := length_entryName_le fs k
      rw [maxNameLength] at hle
      omega
    have htype : dent'.filetype ≠ fileTypeRtc := by
      rw [hsearch.type_eq]
      decide
    simp only [entrySound, hsearch.found, if_neg htype] at hsound
    exact OneFile.neverWaits hname hsearch _ 3 pid hrun hsound hcur hc
  | ended status => cases hc

theorem Sound.initial (hready : Ready fs s stack dent m₀) {p : Grep}
    (h : Sound fs s dent.inodeNum m₀ m p l) : l <+: output fs s (listed fs).length := by
  have hfirst : ∀ k, output fs s k <+: output fs s (listed fs).length := by
    intro k
    rw [output, output, List.take_length]
    exact List.IsPrefix.flatMap (List.take_prefix ..) _
  cases p with
  | opening buf => exact h.2 ▸ List.nil_prefix
  | openFailed => exact h.elim
  | reading fd buf j =>
    obtain ⟨-, k, -, -, rfl⟩ := h
    exact hfirst k
  | readFailed => exact h.elim
  | searching fd buf j fname p =>
    obtain ⟨-, k, hk, rfl, hnot, -, l', rfl, hsound⟩ := h
    have hgreppable := hready.greppable _ (List.getElem_mem hk) hnot
    have hpart := entrySound_initial hnot hgreppable hsound
    refine List.IsPrefix.trans ?_ (hfirst (k + 1))
    rw [output_succ hk]
    exact (List.prefix_append_right_inj _).mpr hpart
  | ended status => exact h.2 ▸ List.prefix_refl _

theorem Sound.ended {p : Grep} (h : Sound fs s inode m₀ m p l) (hp : (main s stack).call p = none) :
    p = .ended 0 ∧ l = output fs s (listed fs).length := by
  cases p with
  | searching fd buf j fname p =>
    obtain ⟨-, k, hk, -, -, hgoing, -⟩ := h
    cases p with
    | returned ret => exact absurd rfl (hgoing ret)
    | _ => cases hp
  | ended status => exact ⟨h.1 ▸ rfl, h.2⟩
  | _ => cases hp

/-- **`grep` searches the directory.**  A process that has opened nothing runs `grep`; the files of the
directory, but for those whose names begin with a dot, are text files or the clock.  After any run, in
any company, as long as it is not sent a C-c, what it has written is the beginning of what is to be
reported, file by file and line by line.  When it has ended, its status is 0 and it has written all of
it.  The number of its calls is bounded by the sizes of the files.  If the clock is not among the files,
its next call is always answered when it has the processor. -/
theorem greps (hst : Reachable fs st) (hlive : Live st pid) (hquiet : Unsignalled st pid)
    (hready : Ready fs s stack dent (fdMap st pid)) (buf : CStr) {ops : List Op}
    (hops : Follows (main s stack) fs pid st (.opening buf) ops) :
    let x := after (main s stack) fs pid st (.opening buf) ops
    let out := (listed fs).flatMap (entryOut fs s)
    printed (main s stack) fs pid st (.opening buf) ops <+: out ∧
      ((main s stack).call x.2 = none →
        x.2 = .ended 0 ∧ printed (main s stack) fs pid st (.opening buf) ops = out) ∧
      calls (main s stack) fs pid st (.opening buf) ops ≤ ((listed fs).map (cost fs)).sum + 2 ∧
      ((∀ u ∈ listed fs, u.head? ≠ some (ch '.') → ∃ dent, Searchable fs u dent) →
        ∀ c, (main s stack).call x.2 = some c → x.1.procs.cur = pid →
          ∃ o a, Promised fs x.1 o ∧ made fs pid x.1 o = some (c, a)) := by
  intro x out
  have hkeeps := keeps hready pid
  have hrun : Running st pid := ⟨hst.inv, hlive, hquiet⟩
  have hstart : Sound fs s dent.inodeNum (fdMap st pid) (fdMap st pid) (.opening buf) [] := ⟨rfl, rfl⟩
  obtain ⟨hrun', hsound⟩ := hkeeps.run hrun hstart hops
  have hout : output fs s (listed fs).length = out := by
    rw [output, List.take_length]
  refine ⟨hout ▸ hsound.initial hready, fun hnone => hout ▸ hsound.ended hnone,
    hkeeps.calls_le hrun hstart hops, fun htext c hc hcur => ?_⟩
  exact neverWaits hready htext pid hrun' hsound hcur hc

/-- The shell looks for `xy` in a directory with one file. -/
theorem greps_threeLines :
    let f := main [0x78, 0x79] fun _ _ => 7
    let st := firstShell threeLines
    let p : Grep := .opening fun _ => 7
    ∃ ops, Follows f threeLines 1 st p ops ∧ (after f threeLines 1 st p ops).2 = .ended 0 ∧
      printed f threeLines 1 st p ops = literal "a:xy\na:xyy\n" := by
  intro f st p
  obtain ⟨dent, hfound, hsearch, hcontents⟩ := searchable_threeLines
  obtain ⟨dir, hdir⟩ : ∃ dir, threeLines.readDentryByName (constant ".") = some dir := ⟨_, rfl⟩
  have hlisted : listed threeLines = [[0x2E], [0x61]] := by decide
  have htext : ∀ u ∈ listed threeLines, u.head? ≠ some (ch '.') →
      ∃ dent, Searchable threeLines u dent := by
    rw [hlisted]
    intro u hu hnot
    rcases List.mem_pair.mp hu with rfl | rfl
    · exact absurd rfl hnot
    · exact ⟨dent, hsearch⟩
  have hlow : ∀ fd < 8, 2 ≤ fd → fdMap st 1 fd = none := by decide
  have hfresh : ∀ fd, 2 ≤ fd → fdMap st 1 fd = none := by
    intro fd hfd
    rcases Nat.lt_or_ge fd 8 with hlt | hge
    · exact hlow fd hlt hfd
    · exact fdMap_of_unused (Or.inl hge)
  have hready : Ready threeLines [0x78, 0x79] (fun _ _ => 7) dir (fdMap st 1) := by
    refine ⟨⟨hdir, ?_⟩, fun u hu hnot => ?_, by decide, fun _ => by decide, hfresh⟩
    · cases hdir
      decide
    · obtain ⟨dent, h⟩ := htext u hu hnot
      exact .text dent h
  have hst := reachable_firstShell threeLines
  have hlive : Live st 1 := show _ = true by decide
  have hquiet : Unsignalled st 1 := by decide
  have hstart : Sound threeLines [0x78, 0x79] dir.inodeNum (fdMap st 1) (fdMap st 1) p [] := ⟨rfl, rfl⟩
  obtain ⟨ops, hops, hnone⟩ :=
    (keeps hready 1).ends (neverWaits hready htext 1) ⟨hst.inv, hlive, hquiet⟩ (by decide) hstart
  obtain ⟨-, hend, -⟩ := greps hst hlive hquiet hready _ hops
  refine ⟨ops, hops, (hend hnone).1, (hend hnone).2.trans ?_⟩
  have htype : dent.filetype ≠ fileTypeRtc := by
    rw [hsearch.type_eq]
    decide
  have hdot : entryOut threeLines [0x78, 0x79] [0x2E] = [] := if_pos rfl
  have ha : entryOut threeLines [0x78, 0x79] [0x61] = literal "a:xy\na:xyy\n" := by
    rw [entryOut, if_neg (by decide)]
    simp only [hfound, if_neg htype, hcontents]
    decide
  rw [hlisted, List.flatMap_cons, List.flatMap_singleton, hdot, ha, List.nil_append]

end Grep
end User
end CoreOS
