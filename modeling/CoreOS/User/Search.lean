import CoreOS.User.Process
import CoreOS.User.Support

/-!
# The buffer of `grep`

`do_one_file` of `ece391grep.c` keeps the file in a buffer, as much of it as fits, and goes through the
lines in it after each read.  The last line may not be complete.  Then it is moved to the front of the
buffer, over what was there, and the next read goes on behind it.  A line that fills the buffer is
searched as it is.

`scan` is one pass through the buffer.  It gives the strings that are written, in their order: nothing
looks at what the writes return, so they can be made after it.  `scan_spec` compares the pass with
`found`, which is what a search of the whole text has to report: the pass reports a part of it, and what
is left in the buffer, followed by the rest of the file, accounts for the rest.

The first byte of the pattern is compared on its own before the rest, and as a `char`, where the bytes of
the file are of type `uint8_t`.  So a pattern that begins with a byte from 128 on is found nowhere
(`found_of_not_findable`), in whatever text it is.

The byte after the buffer is looked at when the buffer is full, and nothing is ever read into it.  That
it is not a newline by chance is an assumption.
-/

namespace CoreOS
namespace User

open FileSys

/-- `BUFSIZE` of `ece391grep.c`. -/
def bufSize : ℕ := 1024

/-- A newline. -/
def nl : BitVec 8 := ch '\n'

/-- `n` bytes of a memory from `i` on. -/
def slice (m : CStr) (i n : ℕ) : List (BitVec 8) := bytesOf (fun k => m (i + k)) n

/-- What `ece391_fdputs` writes of the string at `i`, which ends in the array. -/
def stringAt (m : CStr) (i : ℕ) : List (BitVec 8) :=
  slice m i ((strlenFrom m (bufSize + 1) i).getD i - i)

/-- A string in a memory of its own. -/
def pointer (u : List (BitVec 8)) : CStr := fun i => u.getD i 0

/-- The loop that looks for the end of the line, with `k` bytes left. -/
def lineEnd (data : CStr) : ℕ → ℕ → ℕ
  | 0, i => i
  | k + 1, i => if data i ≠ nl then lineEnd data k (i + 1) else i

/-- The loop over `check`, with `k` bytes of the line left: whether the line is reported.  The first byte
of the pattern is a `char` and the byte of the line a `uint8_t`, so the one is taken with its sign and
the other without. -/
def checkLine (s : List (BitVec 8)) (data : CStr) : ℕ → ℕ → Bool
  | 0, _ => false
  | k + 1, check =>
    if (pointer s 0).toInt = (data check).toNat ∧
        strncmp (fun j => data (check + j)) (pointer s) s.length = 0 then true
    else checkLine s data k (check + 1)

/-- What a pass leaves: the strings to write, and the buffer. -/
structure Pass where
  strings : List (List (BitVec 8))
  data : CStr
  last : ℕ

/-- The inner loop of `do_one_file`, at the line from `lineStart` on. -/
def scan (s fname : List (BitVec 8)) (cnt : ℤ) (last : ℕ) : ℕ → CStr → ℕ → Pass
  | 0, data, _ => ⟨[], data, last⟩
  | fuel + 1, data, lineStart =>
    let e := lineEnd data (last - lineStart) lineStart
    if data e ≠ nl ∧ 0 ≠ cnt ∧ lineStart ≠ 0 then
      -- `strcpy` ends, since there is a `NUL` in the array
      let data := Function.update data e 0
      ⟨[], (strcpy (bufSize + 1) data 0 lineStart).getD data, last - lineStart⟩
    else
      let data := Function.update data e 0
      let strings := if checkLine s data (e - lineStart) lineStart then
        [fname, literal ":", stringAt data lineStart, literal "\n"] else []
      if last ≤ e + 1 then ⟨strings, data, 0⟩
      else
        let r := scan s fname cnt last fuel data (e + 1)
        ⟨strings ++ r.strings, r.data, r.last⟩

/-! ## What is to be reported -/

/-- The pattern begins with a byte below 128. -/
def Findable : List (BitVec 8) → Prop
  | [] => False
  | c :: _ => c.toNat < 128

instance : (s : List (BitVec 8)) → Decidable (Findable s)
  | [] => inferInstanceAs (Decidable False)
  | c :: _ => inferInstanceAs (Decidable (c.toNat < 128))

/-- The line is reported.  The empty pattern is found nowhere, and neither is one that begins with a byte
from 128 on. -/
def Matches (s line : List (BitVec 8)) : Prop := Findable s ∧ s <:+: line

instance (s line : List (BitVec 8)) : Decidable (Matches s line) := inferInstanceAs (Decidable (_ ∧ _))

/-- What is written for a line. -/
def report (s fname line : List (BitVec 8)) : List (BitVec 8) :=
  if Matches s line then fname ++ [ch ':'] ++ line ++ [nl] else []

/-- What is written for a text. -/
def found (s fname u : List (BitVec 8)) : List (BitVec 8) :=
  (u.splitOn nl).flatMap (report s fname)

variable {s fname line u v rest : List (BitVec 8)} {data : CStr} {i k last lineStart fuel : ℕ} {cnt : ℤ}

theorem not_matches_nil (s : List (BitVec 8)) : ¬ Matches s [] := by
  rintro ⟨hfind, hinfix⟩
  obtain rfl := List.infix_nil.mp hinfix
  exact hfind

theorem report_nil (s fname : List (BitVec 8)) : report s fname [] = [] :=
  if_neg (not_matches_nil s)

theorem matches_cons {c : BitVec 8} :
    Matches s (c :: line) ↔ (Findable s ∧ s <+: c :: line) ∨ Matches s line := by
  rw [Matches, Matches, List.infix_cons_iff, and_or_left]

theorem found_of_line (hu : nl ∉ u) : found s fname u = report s fname u := by
  rw [found, List.splitOn_eq_singleton hu, List.flatMap_singleton]

theorem found_append (hu : nl ∉ u) :
    found s fname (u ++ nl :: rest) = report s fname u ++ found s fname rest := by
  rw [found, List.splitOn_append_cons_self, List.splitOn_eq_singleton hu]
  rfl

theorem found_nil : found s fname [] = [] := (found_of_line List.not_mem_nil).trans (report_nil s fname)

/-- **A pattern that begins with a byte from 128 on** is found in no text. -/
theorem found_of_not_findable (hs : ¬ Findable s) (fname u : List (BitVec 8)) :
    found s fname u = [] :=
  List.flatMap_eq_nil_iff.mpr fun _ _ => if_neg fun h => hs h.1

/-- A text without a newline is part of a line. -/
theorem exists_line (hu : nl ∉ u) (rest : List (BitVec 8)) :
    ∃ w ∈ (u ++ rest).splitOn nl, u.length ≤ w.length := by
  by_cases hrest : nl ∈ rest
  · obtain ⟨x, y, rfl, hx⟩ := List.eq_append_cons_of_mem hrest
    have hux : nl ∉ u ++ x := fun h => (List.mem_append.mp h).elim hu hx
    refine ⟨u ++ x, ?_, by simp⟩
    rw [← List.append_assoc, List.splitOn_append_cons_self, List.splitOn_eq_singleton hux]
    exact List.mem_append_left _ (List.mem_singleton_self _)
  · have hall : nl ∉ u ++ rest := fun h => (List.mem_append.mp h).elim hu hrest
    refine ⟨u ++ rest, ?_, by simp⟩
    rw [List.splitOn_eq_singleton hall]
    exact List.mem_singleton_self _

/-! ## Pieces of the buffer -/

theorem length_slice (m : CStr) (i n : ℕ) : (slice m i n).length = n := length_bytesOf _ n

theorem getElem_slice {m : CStr} {i n k : ℕ} (hk : k < (slice m i n).length) :
    (slice m i n)[k] = m (i + k) := by
  simp [slice, bytesOf]

theorem mem_slice {m : CStr} {i n : ℕ} {c : BitVec 8} : c ∈ slice m i n ↔ ∃ k < n, m (i + k) = c := by
  simp [slice, bytesOf]

theorem slice_add (m : CStr) (i a b : ℕ) : slice m i (a + b) = slice m i a ++ slice m (i + a) b := by
  rw [slice, bytesOf, List.range_add, List.map_append, List.map_map]
  refine congrArg₂ (· ++ ·) rfl (List.map_congr_left fun k _ => ?_)
  exact congrArg m (Nat.add_assoc i a k).symm

theorem slice_one (m : CStr) (i : ℕ) : slice m i 1 = [m i] := rfl

theorem slice_congr {m m' : CStr} {i i' n : ℕ} (h : ∀ k < n, m (i + k) = m' (i' + k)) :
    slice m i n = slice m' i' n := bytesOf_congr h

theorem hasString_slice {m : CStr} {i n : ℕ} (hne : ∀ k < n, m (i + k) ≠ 0) (hnul : m (i + n) = 0) :
    HasString m i (slice m i n) where
  byte := fun _ hk => (getElem_slice hk).symm
  byte_ne := by
    intro c hc
    obtain ⟨k, hk, rfl⟩ := mem_slice.mp hc
    exact hne k hk
  nul := by rw [length_slice, hnul]

theorem HasString.slice_eq {m : CStr} (h : HasString m i u) : slice m i u.length = u := by
  refine List.ext_getElem (length_slice ..) fun _ hk hk' => ?_
  rw [getElem_slice, h.byte _ hk']

theorem stringAt_eq {m : CStr} (h : HasString m i u) (hlen : u.length ≤ bufSize) : stringAt m i = u := by
  rw [stringAt, strlenFrom_eq h (by omega), Option.getD_some, Nat.add_sub_cancel_left, h.slice_eq]

/-- **The end of the line** is the first newline, or the end of the buffer. -/
theorem lineEnd_spec (data : CStr) (k i : ℕ) :
    i ≤ lineEnd data k i ∧ lineEnd data k i ≤ i + k ∧
      nl ∉ slice data i (lineEnd data k i - i) ∧
      (lineEnd data k i < i + k → data (lineEnd data k i) = nl) := by
  induction k generalizing i with
  | zero =>
    refine ⟨Nat.le_refl _, Nat.le_refl _, ?_, fun h => absurd h (Nat.lt_irrefl _)⟩
    rw [lineEnd, Nat.sub_self]
    exact List.not_mem_nil
  | succ k ih =>
    rw [lineEnd]
    by_cases hnl : data i = nl
    · rw [if_neg fun h => h hnl, Nat.sub_self]
      exact ⟨Nat.le_refl _, by omega, List.not_mem_nil, fun _ => hnl⟩
    · rw [if_pos hnl]
      obtain ⟨hge, hle, hnot, hend⟩ := ih (i + 1)
      refine ⟨by omega, by omega, ?_, fun h => hend (by omega)⟩
      have hsplit : lineEnd data k (i + 1) - i = 1 + (lineEnd data k (i + 1) - (i + 1)) := by omega
      rw [hsplit, slice_add, slice_one, List.singleton_append, List.mem_cons]
      rintro (heq | hmem)
      · exact hnl heq.symm
      · exact hnot hmem

/-! ## Searching a line -/

theorem isString_pointer (hs : ∀ c ∈ s, c ≠ 0) : IsString (pointer s) s where
  byte := fun _ hk => List.getD_eq_getElem _ _ hk
  byte_ne := hs
  nul := List.getD_eq_default _ _ (Nat.le_refl _)

/-- `s_len` of `do_one_file` is the length of the pattern. -/
theorem strlen_pointer (hs : ∀ c ∈ s, c ≠ 0) (hfuel : s.length < fuel) :
    strlen fuel (pointer s) = some s.length := by
  have hpointer := isString_pointer hs
  have hstring : HasString (pointer s) 0 s :=
    { byte := fun k hk => by rw [Nat.zero_add, hpointer.byte k hk]
      byte_ne := hs
      nul := by rw [Nat.zero_add, hpointer.nul] }
  rw [strlen, strlenFrom_eq hstring hfuel, Nat.zero_add]

/-- The comparison finds whether the pattern begins here. -/
theorem strncmp_eq_zero_iff (hs : ∀ c ∈ s, c ≠ 0) (h : HasString data i line) :
    strncmp (fun j => data (i + j)) (pointer s) s.length = 0 ↔ s <+: line := by
  have hline : IsString (fun j => data (i + j)) line := ⟨h.byte, h.byte_ne, h.nul⟩
  rw [strncmp, strncmpFrom_eq_zero_iff, hline.textFrom_eq _ (Nat.zero_le _),
    (isString_pointer hs).textFrom_eq _ (Nat.zero_le _), List.drop_zero, List.drop_zero,
    List.take_length, List.prefix_iff_eq_take, eq_comm]

/-- A `char` and a `uint8_t` compare equal when they are the same byte and its sign bit is clear. -/
theorem toInt_eq_toNat_iff {c d : BitVec 8} : c.toInt = (d.toNat : ℤ) ↔ c = d ∧ c.toNat < 128 := by
  have hc := c.isLt
  have hd := d.isLt
  rw [BitVec.toInt_eq_toNat_cond, BitVec.toNat_eq]
  split_ifs <;> omega

theorem checkLine_iff (hs : ∀ c ∈ s, c ≠ 0) (h : HasString data i line) :
    checkLine s data line.length i = true ↔ Matches s line := by
  induction line generalizing i with
  | nil => exact iff_of_false Bool.false_ne_true (not_matches_nil s)
  | cons c line ih =>
    have hfirst : (pointer s 0).toInt = (data i).toNat ∧
          strncmp (fun j => data (i + j)) (pointer s) s.length = 0 ↔
        Findable s ∧ s <+: c :: line := by
      rw [strncmp_eq_zero_iff hs h]
      refine and_congr_left fun hpre => ?_
      rw [toInt_eq_toNat_iff]
      cases s with
      | nil =>
        refine iff_of_false (fun h0 => h.head.2 ?_) id
        exact h0.1.symm
      | cons d s =>
        have hsame : d = data i := by
          rw [h.head.1]
          exact (List.cons_prefix_cons.mp hpre).1
        exact and_iff_right hsame
    rw [List.length_cons, checkLine, matches_cons, ← ih h.tail, ← hfirst]
    split_ifs with hhere
    · exact iff_of_true rfl (Or.inl hhere)
    · exact (or_iff_right hhere).symm

/-- **A line** in the buffer, with a `NUL` in place of its newline, is reported as it should be. -/
theorem strings_flatten (fname : List (BitVec 8)) (hs : ∀ c ∈ s, c ≠ 0) (h : HasString data i line)
    (hlen : line.length ≤ bufSize) :
    (if checkLine s data line.length i then [fname, literal ":", stringAt data i, literal "\n"]
      else []).flatten = report s fname line := by
  rw [report, stringAt_eq h hlen]
  by_cases hmatch : Matches s line
  · rw [if_pos ((checkLine_iff hs h).mpr hmatch), if_pos hmatch]
    simp [literal, nl]
  · rw [if_neg fun hcheck => hmatch ((checkLine_iff hs h).mp hcheck), if_neg hmatch]
    rfl

theorem length_of_mem_strings (fname : List (BitVec 8)) (h : HasString data i line)
    (hlen : line.length ≤ bufSize) {b : Bool} :
    ∀ v ∈ if b then [fname, literal ":", stringAt data i, literal "\n"] else [],
      v = fname ∨ v.length ≤ bufSize := by
  rw [stringAt_eq h hlen]
  intro v hv
  split_ifs at hv with hb
  · simp only [List.mem_cons, List.not_mem_nil, or_false] at hv
    rcases hv with rfl | rfl | rfl | rfl
    · exact Or.inl rfl
    · exact Or.inr (by decide)
    · exact Or.inr hlen
    · exact Or.inr (by decide)
  · cases hv

/-! ## One pass -/

/-- No line is too long for the buffer. -/
def Short (u : List (BitVec 8)) : Prop := ∀ w ∈ u.splitOn nl, w.length ≤ bufSize

instance (u : List (BitVec 8)) : Decidable (Short u) :=
  inferInstanceAs (Decidable (∀ w ∈ u.splitOn nl, w.length ≤ bufSize))

theorem Short.tail (h : Short (u ++ nl :: rest)) : Short rest := by
  intro w hw
  refine h w ?_
  rw [List.splitOn_append_cons_self]
  exact List.mem_append_right _ hw

theorem Short.cons (h : Short rest) : Short (nl :: rest) := by
  intro w hw
  have hsplit : (nl :: rest).splitOn nl = [[]] ++ rest.splitOn nl :=
    List.splitOn_append_cons_self [] rest
  rw [hsplit] at hw
  rcases List.mem_append.mp hw with hnil | hw
  · rw [List.mem_singleton.mp hnil]
    exact Nat.zero_le _
  · exact h w hw

/-- A line that fills the buffer ends there. -/
theorem Short.nl_of_full {c : BitVec 8} (h : Short (u ++ c :: rest)) (hu : nl ∉ u)
    (hfull : u.length = bufSize) : c = nl := by
  by_contra hc
  have huc : nl ∉ u ++ [c] := by
    intro hmem
    rcases List.mem_append.mp hmem with hmem | hmem
    · exact hu hmem
    · exact hc (List.mem_singleton.mp hmem).symm
  obtain ⟨w, hw, hlen⟩ := exists_line huc rest
  rw [List.append_assoc] at hw
  have hle := h w hw
  rw [List.length_append, List.length_singleton] at hlen
  omega

/-- What is known of the buffer from `i` on, when `rest` is what has not been read. -/
structure Buffered (data : CStr) (i last : ℕ) (rest : List (BitVec 8)) : Prop where
  ne_nul : ∀ k, i ≤ k → k < last → data k ≠ 0
  guard : data bufSize ≠ nl
  last_le : last ≤ bufSize
  short : Short (slice data i (last - i) ++ rest)

/-- The buffer with the line from `i` to `e` cut off. -/
theorem Buffered.hasString {e : ℕ} (h : Buffered data i last rest) (hie : i ≤ e) (hel : e ≤ last) :
    HasString (Function.update data e 0) i (slice data i (e - i)) := by
  have hsame : slice (Function.update data e 0) i (e - i) = slice data i (e - i) :=
    slice_congr fun k hk => Function.update_of_ne (by omega) _ _
  rw [← hsame]
  refine hasString_slice (fun k hk => ?_) ?_
  · rw [Function.update_of_ne (by omega)]
    exact h.ne_nul _ (by omega) (by omega)
  · rw [show i + (e - i) = e by omega, Function.update_self]

theorem Buffered.guard_update (h : Buffered data i last rest) (e : ℕ) :
    Function.update data e 0 bufSize ≠ nl := by
  by_cases he : e = bufSize
  · rw [he, Function.update_self]
    decide
  · rw [Function.update_of_ne (Ne.symm he)]
    exact h.guard

/-- The rest of the buffer, after a line that is complete. -/
theorem Buffered.next {e : ℕ} (h : Buffered data i last rest) (hie : i ≤ e) (hel : e < last)
    (hnl : data e = nl) :
    slice data i (last - i) =
        slice data i (e - i) ++ nl :: slice (Function.update data e 0) (e + 1) (last - (e + 1)) ∧
      Buffered (Function.update data e 0) (e + 1) last rest := by
  have hsame : slice (Function.update data e 0) (e + 1) (last - (e + 1)) =
      slice data (e + 1) (last - (e + 1)) :=
    slice_congr fun k hk => Function.update_of_ne (by omega) _ _
  have hsplit : slice data i (last - i) =
      slice data i (e - i) ++ nl :: slice data (e + 1) (last - (e + 1)) := by
    have hnum : last - i = (e - i) + (1 + (last - (e + 1))) := by omega
    rw [hnum, slice_add, slice_add, slice_one, show i + (e - i) = e by omega, hnl]
    rfl
  rw [hsame]
  refine ⟨hsplit, fun k hk hk' => ?_, h.guard_update e, h.last_le, ?_⟩
  · rw [Function.update_of_ne (by omega)]
    exact h.ne_nul k (by omega) hk'
  · have hshort := h.short
    rw [hsplit, List.append_assoc] at hshort
    rw [hsame]
    exact hshort.tail

/-- What a pass over the buffer achieves. -/
structure Scanned (s fname : List (BitVec 8)) (cnt : ℤ) (n : ℕ) (u rest : List (BitVec 8)) (r : Pass) :
    Prop where
  buffered : Buffered r.data 0 r.last rest
  last_lt : r.last < bufSize
  last_eq : cnt = 0 → r.last = 0
  found_eq : found s fname (u ++ rest) =
    r.strings.flatten ++ found s fname (slice r.data 0 r.last ++ rest)
  strings_le : r.strings.length + 5 * r.last ≤ 5 * n
  length_le : ∀ v ∈ r.strings, v = fname ∨ v.length ≤ bufSize

/-- The last line of the buffer is moved to its front. -/
theorem scanned_move (h : Buffered data i last rest) (hil : i < last) (hi : i ≠ 0) (hcnt : cnt ≠ 0) :
    Scanned s fname cnt (last - i) (slice data i (last - i)) rest
      ⟨[], (strcpy (bufSize + 1) (Function.update data last 0) 0 i).getD (Function.update data last 0),
        last - i⟩ := by
  have hlast := h.last_le
  have hstring := h.hasString hil.le (Nat.le_refl last)
  obtain ⟨data', hcopy, hcopied⟩ := strcpy_copied hstring 0 (Or.inl (Nat.zero_le _))
    (bufSize + 1) (by rw [length_slice]; omega)
  rw [hcopy, Option.getD_some]
  have hmoved : slice data' 0 (last - i) = slice data i (last - i) := by
    have hslice := hcopied.string.slice_eq
    rwa [length_slice] at hslice
  have hfit : last - i < bufSize := by omega
  refine ⟨⟨fun k _ hk => ?_, ?_, hfit.le, ?_⟩, hfit, fun h0 => absurd h0 hcnt, ?_, ?_,
    fun v hv => by cases hv⟩
  · have hmem : data' (0 + k) ∈ slice data' 0 (last - i) := mem_slice.mpr ⟨k, hk, rfl⟩
    rw [Nat.zero_add, hmoved] at hmem
    exact hstring.byte_ne _ hmem
  · show data' bufSize ≠ nl
    rw [hcopied.frame bufSize (Or.inr (by rw [length_slice]; omega))]
    exact h.guard_update last
  · show Short (slice data' 0 (last - i - 0) ++ rest)
    rw [Nat.sub_zero, hmoved]
    exact h.short
  · show _ = [] ++ found s fname (slice data' 0 (last - i) ++ rest)
    rw [hmoved, List.nil_append]
  · show 0 + 5 * (last - i) ≤ _
    omega

/-- The last line of the buffer is searched where it is: the file ends with it, or it fills the
buffer. -/
theorem scanned_search (hs : ∀ c ∈ s, c ≠ 0) (h : Buffered data i last rest) (hil : i ≤ last)
    (hnot : nl ∉ slice data i (last - i)) (hwhole : rest = [] ∨ i = 0 ∧ last = bufSize)
    {strings : List (List (BitVec 8))}
    (hstrings : strings = if checkLine s (Function.update data last 0) (last - i) i then
      [fname, literal ":", stringAt (Function.update data last 0) i, literal "\n"] else []) :
    Scanned s fname cnt (last - i) (slice data i (last - i)) rest
      ⟨strings, Function.update data last 0, 0⟩ := by
  have hlast := h.last_le
  have hstring := h.hasString hil (Nat.le_refl last)
  have hflat : strings.flatten = report s fname (slice data i (last - i)) := by
    rw [hstrings]
    have hline := strings_flatten fname hs hstring (by rw [length_slice]; omega)
    rwa [length_slice] at hline
  have hcount : strings.length ≤ 5 * (last - i) := by
    rw [hstrings]
    split_ifs with hcheck
    · have hpos : 0 < last - i := by
        refine Nat.pos_of_ne_zero fun hzero => ?_
        rw [hzero] at hcheck
        cases hcheck
      show 4 ≤ _
      omega
    · exact Nat.zero_le _
  have hlength : ∀ v ∈ strings, v = fname ∨ v.length ≤ bufSize := by
    rw [hstrings]
    exact length_of_mem_strings fname hstring (by rw [length_slice]; omega)
  -- a line that fills the buffer leaves its newline, an empty line of which nothing is said
  have hrest : found s fname (slice data i (last - i) ++ rest) =
      report s fname (slice data i (last - i)) ++ found s fname rest ∧ Short rest := by
    rcases rest with - | ⟨c, rest⟩
    · refine ⟨by rw [List.append_nil, found_of_line hnot, found_nil, List.append_nil], ?_⟩
      intro w hw
      rw [List.mem_singleton.mp hw]
      exact Nat.zero_le _
    · obtain ⟨rfl, rfl⟩ := hwhole.resolve_left (List.cons_ne_nil _ _)
      obtain rfl : c = nl := h.short.nl_of_full hnot (length_slice _ _ _)
      refine ⟨?_, h.short.tail.cons⟩
      have hempty : found s fname (nl :: rest) = report s fname [] ++ found s fname rest :=
        found_append (u := []) List.not_mem_nil
      rw [found_append hnot, hempty, report_nil, List.nil_append]
  refine ⟨⟨fun k _ hk => absurd hk (Nat.not_lt_zero k), h.guard_update last, Nat.zero_le _, hrest.2⟩,
    Nat.succ_pos _, fun _ => rfl, ?_, hcount, hlength⟩
  show _ = strings.flatten ++ found s fname rest
  rw [hrest.1, hflat]

/-- **One pass** through the buffer: what it reports and what it leaves are all there is to report. -/
theorem scan_spec (hs : ∀ c ∈ s, c ≠ 0) (h : Buffered data i last rest) (hi : i = 0 ∨ i < last)
    (hcnt : cnt = 0 → rest = []) (hfull : rest ≠ [] → last = bufSize) (hfuel : last - i < fuel) :
    Scanned s fname cnt (last - i) (slice data i (last - i)) rest
      (scan s fname cnt last fuel data i) := by
  induction fuel generalizing data i with
  | zero => omega
  | succ fuel ih =>
    obtain ⟨hge, hle, hnot, hend⟩ := lineEnd_spec data (last - i) i
    rw [scan]
    dsimp only
    generalize lineEnd data (last - i) i = e at hge hle hnot hend ⊢
    rcases Nat.lt_or_ge e last with hlt | hge'
    · -- a complete line
      have hnl := hend (by omega)
      obtain ⟨hsplit, hnext⟩ := h.next hge hlt hnl
      have hflat := strings_flatten fname hs (h.hasString hge hlt.le)
        (by have := h.last_le; rw [length_slice]; omega)
      rw [length_slice] at hflat
      have hlength := length_of_mem_strings fname (h.hasString hge hlt.le)
        (by have := h.last_le; rw [length_slice]; omega)
        (b := checkLine s (Function.update data e 0) (e - i) i)
      rw [if_neg fun hmove => hmove.1 hnl, hsplit]
      generalize hstrings : (if checkLine s (Function.update data e 0) (e - i) i then
        [fname, literal ":", stringAt (Function.update data e 0) i, literal "\n"] else []) = strings
        at hflat hlength ⊢
      have hcount : strings.length ≤ 4 := by
        rw [← hstrings]
        split_ifs
        · exact Nat.le_refl 4
        · exact Nat.zero_le 4
      rcases Nat.lt_or_ge (e + 1) last with hmore | hdone
      · have hscanned := ih hnext (Or.inr hmore) (by omega)
        rw [if_neg (by omega)]
        refine ⟨hscanned.buffered, hscanned.last_lt, hscanned.last_eq, ?_, ?_, fun v hv => ?_⟩
        · rw [List.append_assoc, List.cons_append, found_append hnot, hscanned.found_eq, ← hflat,
            List.flatten_append, List.append_assoc]
        · have hle' := hscanned.strings_le
          dsimp only
          rw [List.length_append]
          omega
        · exact (List.mem_append.mp hv).elim (hlength v) (hscanned.length_le v)
      · rw [if_pos hdone]
        have hzero : last - (e + 1) = 0 := by omega
        have hshort := hnext.short
        rw [hzero] at hshort ⊢
        refine ⟨⟨fun k _ hk => absurd hk (Nat.not_lt_zero k), h.guard_update e, Nat.zero_le _, hshort⟩,
          Nat.succ_pos _, fun _ => rfl, ?_, ?_, hlength⟩
        · rw [List.append_assoc, List.cons_append, found_append hnot, ← hflat]
          rfl
        · show strings.length + 5 * 0 ≤ _
          omega
    · -- the last line
      obtain rfl : e = last := by omega
      by_cases hmove : data e ≠ nl ∧ 0 ≠ cnt ∧ i ≠ 0
      · rw [if_pos hmove]
        exact scanned_move h (by omega) hmove.2.2 (Ne.symm hmove.2.1)
      · rw [if_neg hmove, if_pos (Nat.le_succ e)]
        refine scanned_search hs h hge hnot ?_ rfl
        by_cases hrest : rest = []
        · exact Or.inl hrest
        · right
          have hlast := hfull hrest
          refine ⟨?_, hlast⟩
          by_contra hi0
          refine hmove ⟨?_, fun h0 => hrest (hcnt h0.symm), hi0⟩
          rw [hlast]
          exact h.guard

end User
end CoreOS
