import CoreOS.FileSys.Names
import Mathlib.Data.List.Lex

/-!
# Strings in user programs

`ece391_strlen`, `ece391_strcpy`, `ece391_strcmp` and `ece391_strncmp` of `ece391support.c`.  They are
not the functions of the kernel's `lib.c`: they find the end of a string as they go, the copy moves one
byte after the other inside one memory, and the comparison takes bytes as unsigned.

* `strcpy_iff`: a copy comes to an end exactly when it does not run into the string from behind, and
  then it leaves the string at its destination, also when the two places overlap.
* `sign_strncmp`, `sign_strcmp`: the comparisons are the lexicographic order of the first `n` bytes of
  the strings, and of the strings.
-/

namespace CoreOS
namespace User

open FileSys

/-- The loop of `ece391_strlen`. -/
def strlenFrom (s : CStr) : ℕ → ℕ → Option ℕ
  | 0, _ => none
  | fuel + 1, len => if s len ≠ 0 then strlenFrom s fuel (len + 1) else some len

/-- `ece391_strlen`. -/
def strlen (fuel : ℕ) (s : CStr) : Option ℕ := strlenFrom s fuel 0

/-- `ece391_strcpy`, with both strings in the memory `m`. -/
def strcpy : ℕ → CStr → ℕ → ℕ → Option CStr
  | 0, _, _, _ => none
  | fuel + 1, m, dst, src =>
    if m src = 0 then some (Function.update m dst (m src))
    else strcpy fuel (Function.update m dst (m src)) (dst + 1) (src + 1)

/-- The loop of `ece391_strcmp`, at byte `i`. -/
def strcmpFrom (s₁ s₂ : CStr) : ℕ → ℕ → Option ℤ
  | 0, _ => none
  | fuel + 1, i =>
    if s₁ i = s₂ i then (if s₁ i = 0 then some 0 else strcmpFrom s₁ s₂ fuel (i + 1))
    else some ((s₁ i).toNat - (s₂ i).toNat)

/-- `ece391_strcmp`. -/
def strcmp (fuel : ℕ) (s₁ s₂ : CStr) : Option ℤ := strcmpFrom s₁ s₂ fuel 0

/-- The loop of `ece391_strncmp`, at byte `i` with `n` bytes left. -/
def strncmpFrom (s₁ s₂ : CStr) : ℕ → ℕ → ℤ
  | 0, _ => 0
  | n + 1, i =>
    if s₁ i = s₂ i then (if s₁ i = 0 then 0 else strncmpFrom s₁ s₂ n (i + 1))
    else (s₁ i).toNat - (s₂ i).toNat

/-- `ece391_strncmp`. -/
def strncmp (s₁ s₂ : CStr) (n : ℕ) : ℤ := strncmpFrom s₁ s₂ n 0

/-! ## Length -/

/-- The string at `i` in a memory is `u`, followed by a `NUL`. -/
structure HasString (m : CStr) (i : ℕ) (u : List (BitVec 8)) : Prop where
  byte : ∀ k, (h : k < u.length) → m (i + k) = u[k]
  byte_ne : ∀ c ∈ u, c ≠ 0
  nul : m (i + u.length) = 0

theorem HasString.tail {m : CStr} {i : ℕ} {c : BitVec 8} {u : List (BitVec 8)}
    (h : HasString m i (c :: u)) : HasString m (i + 1) u where
  byte := by
    intro k hk
    have hbyte := h.byte (k + 1) (Nat.succ_lt_succ hk)
    rw [Nat.add_right_comm, Nat.add_assoc]
    exact hbyte
  byte_ne := fun c' hc' => h.byte_ne c' (List.mem_cons_of_mem c hc')
  nul := by
    have hnul := h.nul
    rw [List.length_cons] at hnul
    rw [Nat.add_right_comm, Nat.add_assoc]
    exact hnul

theorem HasString.head {m : CStr} {i : ℕ} {c : BitVec 8} {u : List (BitVec 8)}
    (h : HasString m i (c :: u)) : m i = c ∧ m i ≠ 0 := by
  have hbyte : m i = c := h.byte 0 (Nat.succ_pos _)
  exact ⟨hbyte, hbyte ▸ h.byte_ne c List.mem_cons_self⟩

theorem HasString.congr {m m' : CStr} {i : ℕ} {u : List (BitVec 8)} (h : HasString m i u)
    (hsame : ∀ k ≤ u.length, m' (i + k) = m (i + k)) : HasString m' i u where
  byte := fun k hk => (hsame k hk.le).trans (h.byte k hk)
  byte_ne := h.byte_ne
  nul := (hsame _ (Nat.le_refl _)).trans h.nul

theorem strlenFrom_eq {m : CStr} {i : ℕ} {u : List (BitVec 8)} (h : HasString m i u) {fuel : ℕ}
    (hfuel : u.length < fuel) : strlenFrom m fuel i = some (i + u.length) := by
  induction u generalizing i fuel with
  | nil =>
    obtain ⟨fuel, rfl⟩ := Nat.exists_eq_add_of_lt hfuel
    rw [List.length_nil, Nat.zero_add, strlenFrom, if_neg fun hne => hne h.nul]
    rfl
  | cons c u ih =>
    obtain ⟨fuel, rfl⟩ := Nat.exists_eq_add_of_lt hfuel
    rw [strlenFrom, if_pos h.head.2, ih h.tail (by rw [List.length_cons]; omega), List.length_cons]
    congr 1
    omega

/-! ## Copying -/

/-- What a copy leaves: the string at `dst`, and everything else as it was. -/
structure Copied (m m' : CStr) (dst : ℕ) (u : List (BitVec 8)) : Prop where
  string : HasString m' dst u
  frame : ∀ j, j < dst ∨ dst + u.length < j → m' j = m j

/-- **A copy that does not run into the string from behind** ends, whether the two places overlap or
not. -/
theorem strcpy_copied {m : CStr} {src : ℕ} {u : List (BitVec 8)} (h : HasString m src u) (dst : ℕ)
    (hapart : dst ≤ src ∨ src + u.length < dst) (fuel : ℕ) (hfuel : u.length < fuel) :
    ∃ m', strcpy fuel m dst src = some m' ∧ Copied m m' dst u := by
  induction u generalizing m dst src fuel with
  | nil =>
    obtain ⟨fuel, rfl⟩ := Nat.exists_eq_add_of_lt hfuel
    have hnul : m src = 0 := h.nul
    refine ⟨_, if_pos hnul, ⟨fun k hk => absurd hk (Nat.not_lt_zero k), h.byte_ne, ?_⟩, fun j hj => ?_⟩
    · show Function.update m dst (m src) dst = 0
      rw [Function.update_self, hnul]
    · rw [List.length_nil] at hj
      exact Function.update_of_ne (by omega) _ _
  | cons c u ih =>
    obtain ⟨fuel, rfl⟩ := Nat.exists_eq_add_of_lt hfuel
    rw [List.length_cons] at hapart hfuel
    obtain ⟨hc, hne⟩ := h.head
    -- the byte that is written lies before what is still to be read
    have htail : HasString (Function.update m dst (m src)) (src + 1) u :=
      h.tail.congr fun k hk => Function.update_of_ne (by omega) _ _
    obtain ⟨m', hcopy, hstring, hframe⟩ := ih htail (dst + 1) (by omega)
      (u.length + 1 + fuel) (by omega)
    refine ⟨m', ?_, ⟨fun k hk => ?_, h.byte_ne, ?_⟩, fun j hj => ?_⟩
    · rw [strcpy, if_neg hne]
      exact hcopy
    · cases k with
      | zero =>
        rw [Nat.add_zero, hframe dst (Or.inl (Nat.lt_succ_self dst)), Function.update_self]
        exact hc
      | succ k =>
        rw [List.length_cons] at hk
        have hbyte := hstring.byte k (by omega)
        rw [Nat.add_right_comm, Nat.add_assoc] at hbyte
        exact hbyte
    · have hnul := hstring.nul
      rw [Nat.add_right_comm, Nat.add_assoc] at hnul
      exact hnul
    · rw [List.length_cons] at hj
      rw [hframe j (by omega), Function.update_of_ne (by omega)]

/-- **A copy that runs into the string from behind** overwrites the `NUL` before it gets there, and
goes on for ever: the string that is still to be copied never gets shorter. -/
theorem strcpy_runs_on {m : CStr} {dst src : ℕ} (hlt : src < dst)
    (hne : ∀ j, src ≤ j → j < dst → m j ≠ 0) (fuel : ℕ) : strcpy fuel m dst src = none := by
  induction fuel generalizing m dst src with
  | zero => rfl
  | succ fuel ih =>
    have hsrc : m src ≠ 0 := hne src (Nat.le_refl _) hlt
    rw [strcpy, if_neg hsrc]
    refine ih (by omega) fun j hj hj' => ?_
    rcases Nat.lt_or_ge j dst with h | h
    · rw [Function.update_of_ne h.ne]
      exact hne j (by omega) h
    · obtain rfl : j = dst := by omega
      rw [Function.update_self]
      exact hsrc

theorem Copied.unique {m m₁ m₂ : CStr} {dst : ℕ} {u : List (BitVec 8)} (h₁ : Copied m m₁ dst u)
    (h₂ : Copied m m₂ dst u) : m₁ = m₂ := by
  ext j : 1
  by_cases hin : j < dst ∨ dst + u.length < j
  · rw [h₁.frame j hin, h₂.frame j hin]
  · obtain ⟨k, rfl⟩ := Nat.exists_eq_add_of_le (show dst ≤ j by omega)
    rcases Nat.lt_or_ge k u.length with hk | hk
    · rw [h₁.string.byte k hk, h₂.string.byte k hk]
    · obtain rfl : k = u.length := by omega
      rw [h₁.string.nul, h₂.string.nul]

theorem strcpy_mono {fuel : ℕ} {m m' : CStr} {dst src : ℕ} (h : strcpy fuel m dst src = some m')
    (more : ℕ) : strcpy (fuel + more) m dst src = some m' := by
  induction fuel generalizing m dst src with
  | zero => cases h
  | succ fuel ih =>
    rw [Nat.add_right_comm, strcpy]
    rw [strcpy] at h
    split_ifs at h ⊢ with hnul
    · exact h
    · exact ih h

/-- **`ece391_strcpy`** comes to an end exactly when its destination does not lie behind the first byte
of the string and at or before its `NUL`; and then the string is at its destination and nothing else has
changed, also when the two places overlap. -/
theorem strcpy_iff {m : CStr} {dst src : ℕ} {u : List (BitVec 8)} (h : HasString m src u) (m' : CStr) :
    (∃ fuel, strcpy fuel m dst src = some m') ↔
      ¬ (src < dst ∧ dst ≤ src + u.length) ∧ Copied m m' dst u := by
  constructor
  · rintro ⟨fuel, hcopy⟩
    have hapart : ¬ (src < dst ∧ dst ≤ src + u.length) := by
      rintro ⟨hlt, hle⟩
      have hnone : strcpy fuel m dst src = none := by
        refine strcpy_runs_on hlt (fun j hj hj' => ?_) fuel
        obtain ⟨k, rfl⟩ := Nat.exists_eq_add_of_le hj
        rw [h.byte k (by omega)]
        exact h.byte_ne _ (List.getElem_mem _)
      rw [hnone] at hcopy
      cases hcopy
    obtain ⟨m'', hcopy'', hcopied⟩ :=
      strcpy_copied h dst (by omega) (fuel + (u.length + 1)) (by omega)
    cases (strcpy_mono hcopy (u.length + 1)).symm.trans hcopy''
    exact ⟨hapart, hcopied⟩
  · rintro ⟨hapart, hcopied⟩
    obtain ⟨m'', hcopy'', hcopied''⟩ :=
      strcpy_copied h dst (by omega) _ (Nat.lt_succ_self u.length)
    rw [← hcopied''.unique hcopied]
    exact ⟨_, hcopy''⟩

/-- The bytes `ab`, moved down by one over themselves. -/
theorem strcpy_iff_overlapping :
    let m : CStr := fun i => if i = 1 then 0x61 else if i = 2 then 0x62 else 0
    let m' : CStr := fun i => if i = 0 then 0x61 else if i = 1 then 0x62 else 0
    (∃ fuel, strcpy fuel m 0 1 = some m') ∧ ¬ ∃ fuel, strcpy fuel m 2 1 = some m' := by
  intro m m'
  have h : HasString m 1 [0x61, 0x62] := ⟨by decide, by decide, rfl⟩
  have hcopied : Copied m m' 0 [0x61, 0x62] := by
    refine ⟨⟨by decide, by decide, rfl⟩, fun j hj => ?_⟩
    have hj' : 2 < j := hj.resolve_left (Nat.not_lt_zero j)
    simp only [m, m', if_neg (show j ≠ 0 by omega), if_neg (show j ≠ 1 by omega),
      if_neg (show j ≠ 2 by omega)]
  exact ⟨(strcpy_iff h m').mpr ⟨by decide, hcopied⟩,
    fun hex => ((strcpy_iff h m').mp hex).1 (by decide)⟩

/-! ## Comparing -/

/-- The other way round the comparison gives the opposite. -/
theorem strncmpFrom_neg (s t : CStr) (n i : ℕ) : strncmpFrom t s n i = -strncmpFrom s t n i := by
  induction n generalizing i with
  | zero => rfl
  | succ n ih =>
    rw [strncmpFrom, strncmpFrom]
    by_cases heq : s i = t i
    · rw [if_pos heq, if_pos heq.symm, heq]
      split_ifs
      · rfl
      · exact ih (i + 1)
    · rw [if_neg heq, if_neg (Ne.symm heq)]
      omega

/-- The two bytes at which the strings part decide. -/
theorem strncmpFrom_neg_iff (s t : CStr) (n i : ℕ) :
    strncmpFrom s t n i < 0 ↔ textFrom s n i < textFrom t n i := by
  induction n generalizing i with
  | zero => simp [strncmpFrom, textFrom]
  | succ n ih =>
    have hbyte : ((s i).toNat : ℤ) - (t i).toNat < 0 ↔ s i < t i := by
      rw [BitVec.lt_def]
      omega
    rw [strncmpFrom, textFrom, textFrom]
    by_cases heq : s i = t i
    · rw [if_pos heq, ← heq]
      by_cases hnul : s i = 0
      · simp [hnul]
      · rw [if_neg hnul, if_neg hnul, if_neg hnul, ih, List.cons_lt_cons_self]
    · rw [if_neg heq, hbyte]
      by_cases hs : s i = 0
      · have ht : t i ≠ 0 := fun ht => heq (hs.trans ht.symm)
        rw [if_pos hs, if_neg ht, hs]
        refine iff_of_true ?_ (List.nil_lt_cons _ _)
        exact BitVec.lt_of_le_ne (BitVec.le_def.mpr (Nat.zero_le _)) (Ne.symm ht)
      · by_cases ht : t i = 0
        · rw [if_neg hs, if_pos ht, ht]
          exact iff_of_false (BitVec.not_lt_zero) (List.not_lt_nil _)
        · rw [if_neg hs, if_neg ht, List.cons_lt_cons_iff]
          simp [heq]

theorem strncmpFrom_eq_zero_iff (s t : CStr) (n i : ℕ) :
    strncmpFrom s t n i = 0 ↔ textFrom s n i = textFrom t n i := by
  induction n generalizing i with
  | zero => simp [strncmpFrom, textFrom]
  | succ n ih =>
    have hbyte : ((s i).toNat : ℤ) - (t i).toNat = 0 ↔ s i = t i := by
      rw [← BitVec.toNat_inj]
      omega
    rw [strncmpFrom, textFrom, textFrom]
    by_cases heq : s i = t i
    · rw [if_pos heq, ← heq]
      by_cases hnul : s i = 0
      · simp [hnul]
      · rw [if_neg hnul, if_neg hnul, if_neg hnul, ih, List.cons_inj_right]
    · rw [if_neg heq, hbyte]
      refine iff_of_false heq fun htext => ?_
      by_cases hs : s i = 0
      · have ht : t i ≠ 0 := fun ht => heq (hs.trans ht.symm)
        rw [if_pos hs, if_neg ht] at htext
        cases htext
      · by_cases ht : t i = 0
        · rw [if_neg hs, if_pos ht] at htext
          cases htext
        · rw [if_neg hs, if_neg ht] at htext
          exact heq (List.cons.inj htext).1

/-- **`ece391_strncmp`** is the lexicographic order of the first `n` bytes of the strings, as far as
their `NUL`s. -/
theorem sign_strncmp (s t : CStr) (n : ℕ) :
    (strncmp s t n < 0 ↔ FileSys.text s n < FileSys.text t n) ∧
      (strncmp s t n = 0 ↔ FileSys.text s n = FileSys.text t n) ∧
      (0 < strncmp s t n ↔ FileSys.text t n < FileSys.text s n) := by
  have hlt := strncmpFrom_neg_iff s t n 0
  have hgt := strncmpFrom_neg_iff t s n 0
  rw [strncmpFrom_neg] at hgt
  have hpos : 0 < strncmp s t n ↔ FileSys.text t n < FileSys.text s n := by
    rw [FileSys.text, FileSys.text, ← hgt, strncmp]
    omega
  exact ⟨hlt, strncmpFrom_eq_zero_iff s t n 0, hpos⟩

/-- Without a bound the comparison goes to the end of the first string at most. -/
theorem strcmpFrom_eq {s t : CStr} {u : List (BitVec 8)} {i : ℕ} (h : HasString s i u) {fuel n : ℕ}
    (hfuel : u.length < fuel) (hn : u.length < n) :
    strcmpFrom s t fuel i = some (strncmpFrom s t n i) := by
  obtain ⟨fuel, rfl⟩ := Nat.exists_eq_add_of_lt hfuel
  obtain ⟨n, rfl⟩ := Nat.exists_eq_add_of_lt hn
  induction u generalizing i with
  | nil =>
    rw [strcmpFrom, strncmpFrom]
    have hnul : s i = 0 := h.nul
    by_cases heq : s i = t i
    · rw [if_pos heq, if_pos heq, if_pos hnul, if_pos hnul]
    · rw [if_neg heq, if_neg heq]
  | cons c u ih =>
    rw [strcmpFrom, strncmpFrom]
    by_cases heq : s i = t i
    · rw [if_pos heq, if_pos heq, if_neg h.head.2, if_neg h.head.2]
      have hnext := ih h.tail (by omega) (by omega)
      rw [List.length_cons, Nat.add_right_comm u.length 1 fuel, Nat.add_right_comm u.length 1 n]
      exact hnext
    · rw [if_neg heq, if_neg heq]

/-- **`ece391_strcmp`** is the lexicographic order of the strings. -/
theorem sign_strcmp {s t : CStr} {u v : List (BitVec 8)} (hs : IsString s u) (ht : IsString t v) :
    ∃ r, (∀ fuel, u.length < fuel → strcmp fuel s t = some r) ∧ (r < 0 ↔ u < v) ∧ (r = 0 ↔ u = v) ∧
      (0 < r ↔ v < u) := by
  have hstring : HasString s 0 u := by
    refine ⟨fun k hk => ?_, hs.byte_ne, ?_⟩
    · rw [Nat.zero_add]
      exact hs.byte k hk
    · rw [Nat.zero_add]
      exact hs.nul
  set n := u.length + v.length + 1 with hn
  have hu : FileSys.text s n = u := by
    rw [FileSys.text, hs.textFrom_eq n (Nat.zero_le _), List.drop_zero,
      List.take_of_length_le (by omega)]
  have hv : FileSys.text t n = v := by
    rw [FileSys.text, ht.textFrom_eq n (Nat.zero_le _), List.drop_zero,
      List.take_of_length_le (by omega)]
  have hsign := sign_strncmp s t n
  rw [hu, hv] at hsign
  exact ⟨strncmp s t n, fun fuel hfuel => strcmpFrom_eq hstring hfuel (by omega), hsign⟩

/-- `a` comes before `ab`, and that before the byte 0xE4. -/
theorem sign_strcmp_letters :
    let string (u : List (BitVec 8)) : CStr := fun i => u.getD i 0
    (∃ r, strcmp 2 (string [0x61]) (string [0x61, 0x62]) = some r ∧ r < 0) ∧
      ∃ r, strcmp 3 (string [0x61, 0x62]) (string [0xE4]) = some r ∧ r < 0 := by
  intro string
  have ha : IsString (string [0x61]) [0x61] := ⟨by decide, by decide, rfl⟩
  have hab : IsString (string [0x61, 0x62]) [0x61, 0x62] := ⟨by decide, by decide, rfl⟩
  have he : IsString (string [0xE4]) [0xE4] := ⟨by decide, by decide, rfl⟩
  obtain ⟨r, hr, hlt, -⟩ := sign_strcmp ha hab
  obtain ⟨r', hr', hlt', -⟩ := sign_strcmp hab he
  exact ⟨⟨r, hr 2 (by decide), hlt.mpr (by decide)⟩, ⟨r', hr' 3 (by decide), hlt'.mpr (by decide)⟩⟩

end User
end CoreOS
