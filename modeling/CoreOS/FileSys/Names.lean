import CoreOS.FileSys.Image

/-!
# Strings in memory

A string argument is a pointer, and the functions of `lib.c` find its end as they go.  What such a
function reads of it, when it reads at most `n` bytes, is a list: the bytes up to the first `NUL`,
or all `n` if there is none among them (`text`).

* `strncmp` tells texts apart and nothing else (`strncmp_eq_zero_iff`).
* `fn_length` is the length of a text (`fnLength_eq`).
* `strncpy` copies a text and pads it (`strncpy_of_lt`), so what was copied has the same text
  (`name_strncpy`).

Names of files are texts of 32 bytes.
-/

namespace CoreOS
namespace FileSys

/-- The bytes of a string from byte `i` on, up to a `NUL`, and `k` of them at most. -/
def textFrom (s : CStr) : ℕ → ℕ → List (BitVec 8)
  | 0, _ => []
  | k + 1, i => if s i = 0 then [] else s i :: textFrom s k (i + 1)

/-- The text of a string of at most `n` bytes. -/
def text (s : CStr) (n : ℕ) : List (BitVec 8) := textFrom s n 0

/-- The name a string holds: 32 bytes, or fewer and a `NUL`. -/
def name (s : CStr) : List (BitVec 8) := text s maxNameLength

/-- The string at a pointer is `u`, followed by a `NUL`. -/
structure IsString (s : CStr) (u : List (BitVec 8)) : Prop where
  byte : ∀ k, (h : k < u.length) → s k = u[k]
  byte_ne : ∀ c ∈ u, c ≠ 0
  nul : s u.length = 0

/-- Without a `NUL` the text is as long as it may be. -/
theorem length_textFrom {s : CStr} {k i : ℕ} (h : ∀ j, i ≤ j → j < i + k → s j ≠ 0) :
    (textFrom s k i).length = k := by
  induction k generalizing i with
  | zero => rfl
  | succ k ih =>
    rw [textFrom, if_neg (h i (Nat.le_refl i) (by omega)), List.length_cons,
      ih fun j h₁ h₂ => h j (by omega) (by omega)]

/-- Byte `j` of a text: the byte of the string, if no `NUL` comes before it or is it. -/
theorem getD_textFrom (s : CStr) {k i j : ℕ} (hj : j < k) :
    (textFrom s k i).getD j 0 = if ∀ l ≤ j, s (i + l) ≠ 0 then s (i + j) else 0 := by
  induction k generalizing i j with
  | zero => omega
  | succ k ih =>
    rw [textFrom]
    by_cases h0 : s i = 0
    · rw [if_pos h0, if_neg fun h => h 0 (Nat.zero_le _) h0]
      rfl
    · rw [if_neg h0]
      cases j with
      | zero =>
        have hall : ∀ l ≤ 0, s (i + l) ≠ 0 := fun l hl => by
          rwa [Nat.le_zero.mp hl]
        rw [if_pos hall]
        rfl
      | succ j =>
        have hiff : (∀ l ≤ j, s (i + 1 + l) ≠ 0) ↔ ∀ l ≤ j + 1, s (i + l) ≠ 0 := by
          constructor
          · intro h l hl
            cases l with
            | zero => exact h0
            | succ l =>
              rw [← Nat.add_assoc, Nat.add_right_comm]
              exact h l (by omega)
          · intro h l hl
            rw [Nat.add_right_comm]
            exact h (l + 1) (by omega)
        rw [List.getD_cons_succ, ih (by omega)]
        simp only [hiff, show i + 1 + j = i + (j + 1) by omega]

/-- The text of a terminated string is the string, cut off. -/
theorem IsString.textFrom_eq {s : CStr} {u : List (BitVec 8)} (h : IsString s u) (k : ℕ) {i : ℕ}
    (hi : i ≤ u.length) : textFrom s k i = (u.drop i).take k := by
  induction k generalizing i with
  | zero => rfl
  | succ k ih =>
    rw [textFrom]
    rcases Nat.eq_or_lt_of_le hi with rfl | hlt
    · rw [if_pos h.nul, List.drop_length]
      rfl
    · have hne : s i ≠ 0 := by
        rw [h.byte i hlt]
        exact h.byte_ne _ (List.getElem_mem hlt)
      rw [if_neg hne, ih hlt, h.byte i hlt, List.drop_eq_getElem_cons hlt, List.take_succ_cons]

theorem IsString.name_eq {s : CStr} {u : List (BitVec 8)} (h : IsString s u) :
    name s = u.take maxNameLength := by
  rw [name, text, h.textFrom_eq _ (Nat.zero_le _), List.drop_zero]

/-! ## `strncmp` -/

theorem strncmpFrom_eq_zero_iff (s t : CStr) (k i : ℕ) :
    strncmpFrom s t k i = 0 ↔ textFrom s k i = textFrom t k i := by
  induction k generalizing i with
  | zero => simp [strncmpFrom, textFrom]
  | succ k ih =>
    have hsub : (s i).toInt - (t i).toInt = 0 ↔ s i = t i := by
      rw [Int.sub_eq_zero, BitVec.toInt_inj]
    rw [strncmpFrom, textFrom, textFrom]
    by_cases hs : s i = 0
    · rw [if_pos (Or.inr (Or.inl hs)), if_pos hs, hsub, hs]
      by_cases ht : t i = 0
      · simp [ht]
      · rw [if_neg ht]
        exact iff_of_false (fun h => ht h.symm) (by simp)
    · rw [if_neg hs]
      by_cases ht : t i = 0
      · rw [if_pos (Or.inr (Or.inr ht)), if_pos ht, hsub, ht]
        exact iff_of_false hs (by simp)
      · rw [if_neg ht]
        by_cases heq : s i = t i
        · have hgo : ¬ (s i ≠ t i ∨ s i = 0 ∨ t i = 0) := by
            rintro (h | h | h)
            · exact h heq
            · exact hs h
            · exact ht h
          rw [if_neg hgo, ih, heq]
          simp
        · rw [if_pos (Or.inl heq), hsub]
          exact iff_of_false heq (by simp [heq])

theorem strncmp_eq_zero_iff (s t : CStr) (n : ℕ) : strncmp s t n = 0 ↔ text s n = text t n :=
  strncmpFrom_eq_zero_iff s t n 0

/-! ## `fn_length` -/

theorem fnLengthFrom_eq (s : CStr) (k len : ℕ) :
    fnLengthFrom s k len = len + (textFrom s k len).length := by
  induction k generalizing len with
  | zero => rfl
  | succ k ih =>
    rw [fnLengthFrom, textFrom]
    split
    · rfl
    · rw [ih, List.length_cons]
      omega

theorem fnLength_eq (s : CStr) : fnLength s = (name s).length := by
  rw [fnLength, fnLengthFrom_eq, Nat.zero_add]
  rfl

/-! ## `strncpy` -/

/-- The buffer after `strncpy`: the text, padded with `NUL`s. -/
theorem strncpy_of_lt (d s : CStr) {n i : ℕ} (h : i < n) :
    strncpy d s n i = (text s n).getD i 0 := by
  rw [strncpy, if_pos h, text, getD_textFrom s h]
  simp only [Nat.zero_add]

theorem strncpy_of_le (d s : CStr) {n i : ℕ} (h : n ≤ i) : strncpy d s n i = d i := by
  rw [strncpy, if_neg (by omega)]

/-- Copying keeps the text. -/
theorem textFrom_strncpy (d s : CStr) {n k i : ℕ} (hk : i + k ≤ n)
    (h : ∀ l < i, s l ≠ 0) : textFrom (strncpy d s n) k i = textFrom s k i := by
  induction k generalizing i with
  | zero => rfl
  | succ k ih =>
    have hcopy : strncpy d s n i = s i := by
      rw [strncpy, if_pos (by omega)]
      by_cases h0 : s i = 0
      · rw [if_neg fun h' => h' i (Nat.le_refl _) h0, h0]
      · rw [if_pos fun l hl => ?_]
        rcases Nat.eq_or_lt_of_le hl with rfl | hl
        · exact h0
        · exact h l hl
    show (if strncpy d s n i = 0 then [] else strncpy d s n i :: textFrom (strncpy d s n) k (i + 1)) =
      if s i = 0 then [] else s i :: textFrom s k (i + 1)
    rw [hcopy]
    by_cases h0 : s i = 0
    · rw [if_pos h0, if_pos h0]
    · rw [if_neg h0, if_neg h0, ih (by omega) fun l hl => ?_]
      rcases Nat.eq_or_lt_of_le (Nat.le_of_lt_succ hl) with rfl | hl
      · exact h0
      · exact h l hl

theorem name_strncpy (d s : CStr) : name (strncpy d s maxNameLength) = name s :=
  textFrom_strncpy d s (Nat.le_of_eq (Nat.zero_add _)) fun l hl => absurd hl (Nat.not_lt_zero l)

/-- A copy of a copy. -/
theorem strncpy_strncpy (d e s : CStr) (n : ℕ) : strncpy d (strncpy e s n) n = strncpy d s n := by
  funext i
  rcases Nat.lt_or_ge i n with h | h
  · rw [strncpy_of_lt _ _ h, strncpy_of_lt _ _ h, text,
      textFrom_strncpy e s (Nat.le_of_eq (Nat.zero_add n)) fun l hl => absurd hl (Nat.not_lt_zero l)]
    rfl
  · rw [strncpy_of_le _ _ h, strncpy_of_le _ _ h]

end FileSys
end CoreOS
