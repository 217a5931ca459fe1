import Mathlib.Data.List.DropRight
import Mathlib.Data.List.Range
import Mathlib.Logic.Function.Basic

/-!
# A line with a cursor in it

What a line editor edits is a pair of lists: what is before the cursor and what is after it.  This is
a `Zipper`, and inserting, erasing and moving are a few words each.

An editor in an imperative language keeps the line in an array, with a count and the index of the
cursor, and moves part of the array up or down by one place when the line changes.  `ofArray` reads
the zipper off the array, `openAt` and `closeAt` say what the two loops leave in it, and one lemma for
each operation says which change of the three is which operation on the zipper.  The array is a
function on all indices: what lies beyond the count does not show.
-/

namespace CoreOS

/-- A list with a cursor between two of its places. -/
structure Zipper (α : Type*) where
  left : List α
  right : List α
  deriving DecidableEq

namespace Zipper

variable {α : Type*}

/-- An empty line. -/
def empty : Zipper α := ⟨[], []⟩

/-- The whole line. -/
def text (z : Zipper α) : List α := z.left ++ z.right

/-! ## Editing -/

/-- A new element before the cursor. -/
def insert (a : α) (z : Zipper α) : Zipper α := ⟨z.left ++ [a], z.right⟩

/-- The element before the cursor goes. -/
def erase (z : Zipper α) : Zipper α := ⟨z.left.dropLast, z.right⟩

/-- The cursor moves over the element before it. -/
def back (z : Zipper α) : Zipper α := ⟨z.left.dropLast, z.left.getLast?.toList ++ z.right⟩

/-- The cursor moves over the element after it. -/
def forward (z : Zipper α) : Zipper α := ⟨z.left ++ z.right.head?.toList, z.right.tail⟩

/-- The cursor goes to the beginning. -/
def home (z : Zipper α) : Zipper α := ⟨[], z.text⟩

/-- The cursor goes to the end. -/
def toEnd (z : Zipper α) : Zipper α := ⟨z.text, []⟩

/-- Everything before the cursor goes. -/
def eraseAll (z : Zipper α) : Zipper α := ⟨[], z.right⟩

/-- The longest run before the cursor that satisfies `p` goes. -/
def eraseWhile (p : α → Bool) (z : Zipper α) : Zipper α := ⟨z.left.rdropWhile p, z.right⟩

/-- The cursor moves back over the longest run that satisfies `p`. -/
def backWhile (p : α → Bool) (z : Zipper α) : Zipper α :=
  ⟨z.left.rdropWhile p, z.left.rtakeWhile p ++ z.right⟩

/-- The cursor moves forward over the longest run that satisfies `p`. -/
def forwardWhile (p : α → Bool) (z : Zipper α) : Zipper α :=
  ⟨z.left ++ z.right.takeWhile p, z.right.dropWhile p⟩

/-! ## Operations repeated -/

section loops

variable {p : α → Bool} {a : α} {l r : List α}

@[simp] theorem erase_append (l r : List α) (a : α) : erase ⟨l ++ [a], r⟩ = ⟨l, r⟩ := by
  simp [erase]

@[simp] theorem back_append (l r : List α) (a : α) : back ⟨l ++ [a], r⟩ = ⟨l, a :: r⟩ := by
  simp [back]

@[simp] theorem forward_cons (l r : List α) (a : α) : forward ⟨l, a :: r⟩ = ⟨l ++ [a], r⟩ := rfl

/-- At either end of the line there is nothing to do. -/
theorem erase_of_left {z : Zipper α} (h : z.left = []) : z.erase = z := by
  obtain ⟨l, r⟩ := z
  obtain rfl : l = [] := h
  rfl

theorem back_of_left {z : Zipper α} (h : z.left = []) : z.back = z := by
  obtain ⟨l, r⟩ := z
  obtain rfl : l = [] := h
  rfl

theorem forward_of_right {z : Zipper α} (h : z.right = []) : z.forward = z := by
  obtain ⟨l, r⟩ := z
  obtain rfl : r = [] := h
  simp [forward]

theorem erase_iterate (l r : List α) : erase^[l.length] ⟨l, r⟩ = ⟨[], r⟩ := by
  induction l using List.reverseRecOn with
  | nil => rfl
  | append_singleton l a ih =>
    rw [List.length_append, List.length_singleton, Function.iterate_succ_apply, erase_append, ih]

theorem back_iterate (l r : List α) : back^[l.length] ⟨l, r⟩ = ⟨[], l ++ r⟩ := by
  induction l using List.reverseRecOn generalizing r with
  | nil => rfl
  | append_singleton l a ih =>
    rw [List.length_append, List.length_singleton, Function.iterate_succ_apply, back_append, ih,
      List.append_assoc]
    rfl

theorem forward_iterate (l r : List α) : forward^[r.length] ⟨l, r⟩ = ⟨l ++ r, []⟩ := by
  induction r generalizing l with
  | nil => rw [List.append_nil]; rfl
  | cons a r ih =>
    rw [List.length_cons, Function.iterate_succ_apply, forward_cons, ih, List.append_assoc]
    rfl

theorem length_left_erase (z : Zipper α) : z.erase.left.length = z.left.length - 1 := by
  simp [erase]

theorem length_left_back (z : Zipper α) : z.back.left.length = z.left.length - 1 := by
  simp [back]

/-- The element before the cursor, if there is one that satisfies `p`. -/
theorem exists_append_of_any {z : Zipper α} (h : z.left.getLast?.any p = true) :
    ∃ l a, p a = true ∧ z = ⟨l ++ [a], z.right⟩ := by
  obtain ⟨l, r⟩ := z
  rcases List.eq_nil_or_concat l with rfl | ⟨l, a, rfl⟩
  · simp at h
  · exact ⟨l, a, by simpa using h, by simp⟩

/-- A round of the loop that erases. -/
theorem eraseWhile_round {z : Zipper α} (h : z.left.getLast?.any p = true) :
    z.erase.eraseWhile p = z.eraseWhile p := by
  obtain ⟨l, a, ha, hz⟩ := exists_append_of_any h
  rw [hz]
  simp [eraseWhile, ha]

/-- A round of the loop that moves back. -/
theorem backWhile_round {z : Zipper α} (h : z.left.getLast?.any p = true) :
    z.back.backWhile p = z.backWhile p := by
  obtain ⟨l, a, ha, hz⟩ := exists_append_of_any h
  rw [hz]
  simp [backWhile, ha]

/-- A round of the loop that moves forward. -/
theorem forwardWhile_round {z : Zipper α} (h : z.right.head?.any p = true) :
    z.forward.forwardWhile p = z.forwardWhile p := by
  obtain ⟨l, r⟩ := z
  cases r with
  | nil => simp at h
  | cons a r =>
    have ha : p a = true := by simpa using h
    simp [forwardWhile, ha]

/-- The loops end where the run ends. -/
theorem eraseWhile_of_stop {z : Zipper α} (h : z.left.getLast?.any p = false) :
    z.eraseWhile p = z := by
  obtain ⟨l, r⟩ := z
  rcases List.eq_nil_or_concat l with rfl | ⟨l, a, rfl⟩
  · rfl
  · have ha : p a = false := by simpa using h
    simp [eraseWhile, ha]

theorem backWhile_of_stop {z : Zipper α} (h : z.left.getLast?.any p = false) :
    z.backWhile p = z := by
  obtain ⟨l, r⟩ := z
  rcases List.eq_nil_or_concat l with rfl | ⟨l, a, rfl⟩
  · rfl
  · have ha : p a = false := by simpa using h
    simp [backWhile, ha]

theorem forwardWhile_of_stop {z : Zipper α} (h : z.right.head?.any p = false) :
    z.forwardWhile p = z := by
  obtain ⟨l, r⟩ := z
  cases r with
  | nil => simp [forwardWhile]
  | cons a r =>
    have ha : p a = false := by simpa using h
    simp [forwardWhile, ha]

end loops

/-! ## Part of an array -/

/-- The elements `i .. j - 1` of an array. -/
def slice (buf : ℕ → α) (i j : ℕ) : List α := (List.range' i (j - i)).map buf

section slice

variable {buf buf' : ℕ → α} {i j k : ℕ}

@[simp] theorem length_slice (buf : ℕ → α) (i j : ℕ) : (slice buf i j).length = j - i := by
  simp [slice]

theorem slice_self (buf : ℕ → α) (i : ℕ) : slice buf i i = [] := by
  simp [slice]

theorem slice_of_lt (buf : ℕ → α) (h : i < j) : slice buf i j = buf i :: slice buf (i + 1) j := by
  rw [slice, slice, show j - i = (j - (i + 1)) + 1 by omega, List.range'_succ, List.map_cons]

theorem slice_succ (buf : ℕ → α) (h : i ≤ j) : slice buf i (j + 1) = slice buf i j ++ [buf j] := by
  have hlast : i + (j - i) = j := by omega
  rw [slice, slice, show j + 1 - i = (j - i) + 1 by omega, List.range'_1_concat, List.map_append,
    hlast]
  rfl

theorem slice_append (buf : ℕ → α) (hij : i ≤ j) (hjk : j ≤ k) :
    slice buf i j ++ slice buf j k = slice buf i k := by
  have hlen : (j - i) + (k - j) = k - i := by omega
  have hmid : i + (j - i) = j := by omega
  rw [slice, slice, slice, ← List.map_append, ← hlen, ← List.range'_append_1, hmid]

theorem slice_congr (h : ∀ k, i ≤ k → k < j → buf' k = buf k) : slice buf' i j = slice buf i j := by
  refine List.map_congr_left fun k hk => ?_
  rw [List.mem_range'_1] at hk
  exact h k hk.1 (by omega)

/-- The same elements, one place further up. -/
theorem slice_shift (h : ∀ k, i ≤ k → k < j → buf' (k + 1) = buf k) :
    slice buf' (i + 1) (j + 1) = slice buf i j := by
  have hrange : List.range' (i + 1) (j - i) = (List.range' i (j - i)).map (1 + ·) := by
    rw [List.map_add_range', Nat.add_comm]
  rw [slice, slice, Nat.add_sub_add_right, hrange, List.map_map]
  refine List.map_congr_left fun k hk => ?_
  rw [List.mem_range'_1] at hk
  show buf' (1 + k) = buf k
  rw [Nat.add_comm]
  exact h k hk.1 (by omega)

theorem getElem?_slice (buf : ℕ → α) (i j k : ℕ) :
    (slice buf i j)[k]? = if i + k < j then some (buf (i + k)) else none := by
  rw [slice, List.getElem?_map]
  split
  · rw [List.getElem?_range' (by omega), Nat.one_mul]
    rfl
  · rw [List.getElem?_eq_none (by rw [List.length_range']; omega)]
    rfl

end slice

/-! ## A line in an array -/

/-- The line of `n` elements in an array, with the cursor before element `cur`. -/
def ofArray (buf : ℕ → α) (n cur : ℕ) : Zipper α := ⟨slice buf 0 cur, slice buf cur n⟩

/-- The array with the elements from `cur` on moved up by one place. -/
def openAt (buf : ℕ → α) (n cur : ℕ) : ℕ → α := fun k =>
  if cur < k ∧ k ≤ n then buf (k - 1) else buf k

/-- The array with the elements from `cur` on moved down by one place. -/
def closeAt (buf : ℕ → α) (n cur : ℕ) : ℕ → α := fun k =>
  if cur ≤ k + 1 ∧ k + 1 < n then buf (k + 1) else buf k

section array

variable {buf : ℕ → α} {n cur : ℕ}

theorem text_ofArray (h : cur ≤ n) : (ofArray buf n cur).text = slice buf 0 n :=
  slice_append buf (Nat.zero_le cur) h

theorem length_left_ofArray (buf : ℕ → α) (n cur : ℕ) : (ofArray buf n cur).left.length = cur := by
  simp [ofArray]

theorem length_right_ofArray (buf : ℕ → α) (n cur : ℕ) :
    (ofArray buf n cur).right.length = n - cur := by
  simp [ofArray]

/-- The cursor with something before it. -/
theorem ofArray_succ (buf : ℕ → α) (n cur : ℕ) :
    ofArray buf n (cur + 1) = ⟨slice buf 0 cur ++ [buf cur], slice buf (cur + 1) n⟩ := by
  rw [ofArray, slice_succ buf (Nat.zero_le cur)]

/-- The cursor with something after it. -/
theorem ofArray_of_lt (buf : ℕ → α) (h : cur < n) :
    ofArray buf n cur = ⟨slice buf 0 cur, buf cur :: slice buf (cur + 1) n⟩ := by
  rw [ofArray, slice_of_lt buf h]

/-- What is before the cursor. -/
theorem getLast?_left_ofArray (buf : ℕ → α) (n cur : ℕ) (p : α → Bool) :
    (ofArray buf n cur).left.getLast?.any p = true ↔ 0 < cur ∧ p (buf (cur - 1)) = true := by
  cases cur with
  | zero => simp [ofArray, slice_self]
  | succ cur => simp [ofArray_succ]

/-- What is after the cursor. -/
theorem head?_right_ofArray (buf : ℕ → α) (n cur : ℕ) (p : α → Bool) :
    (ofArray buf n cur).right.head?.any p = true ↔ cur < n ∧ p (buf cur) = true := by
  by_cases h : cur < n
  · simp [ofArray_of_lt buf h, h]
  · simp [ofArray, slice, Nat.sub_eq_zero_of_le (Nat.not_lt.mp h), h]

theorem ofArray_back (h : cur < n) : ofArray buf n cur = (ofArray buf n (cur + 1)).back := by
  rw [ofArray_succ, back_append, ofArray_of_lt buf h]

theorem ofArray_forward (h : cur < n) : ofArray buf n (cur + 1) = (ofArray buf n cur).forward := by
  rw [ofArray_of_lt buf h, forward_cons, ofArray_succ]

theorem ofArray_insert (buf : ℕ → α) (n cur : ℕ) (a : α) :
    ofArray (Function.update (openAt buf n cur) cur a) (n + 1) (cur + 1) =
      (ofArray buf n cur).insert a := by
  rw [ofArray_succ, insert, Function.update_self]
  have hleft : slice (Function.update (openAt buf n cur) cur a) 0 cur = slice buf 0 cur := by
    refine slice_congr fun k _ hk => ?_
    rw [Function.update_of_ne (by omega), openAt, if_neg (by omega)]
  have hright : slice (Function.update (openAt buf n cur) cur a) (cur + 1) (n + 1) =
      slice buf cur n := by
    refine slice_shift fun k hcur hk => ?_
    rw [Function.update_of_ne (by omega), openAt, if_pos (by omega), Nat.add_sub_cancel]
  rw [hleft, hright]
  rfl

theorem ofArray_erase (h : cur < n) :
    ofArray (closeAt buf n (cur + 1)) (n - 1) cur = (ofArray buf n (cur + 1)).erase := by
  rw [ofArray_succ, erase_append, ofArray]
  have hleft : slice (closeAt buf n (cur + 1)) 0 cur = slice buf 0 cur := by
    refine slice_congr fun k _ hk => ?_
    rw [closeAt, if_neg (by omega)]
  have hright : slice buf (cur + 1) n = slice (closeAt buf n (cur + 1)) cur (n - 1) := by
    obtain ⟨n, rfl⟩ := Nat.exists_eq_add_one_of_ne_zero (Nat.ne_zero_of_lt h)
    refine slice_shift fun k hcur hk => ?_
    rw [closeAt, if_pos (by omega)]
  rw [hleft, hright]

/-! ## The loops -/

/-- `for (i = n; i > cur; i--) buf[i] = buf[i - 1];` -/
theorem foldl_openAt (buf : ℕ → α) (h : cur ≤ n) :
    (List.range (n - cur)).foldl (fun b j => Function.update b (n - j) (b (n - j - 1))) buf =
      openAt buf n cur := by
  have hrounds : ∀ m ≤ n, (List.range m).foldl
      (fun b j => Function.update b (n - j) (b (n - j - 1))) buf = openAt buf n (n - m) := by
    intro m hm
    induction m with
    | zero =>
      ext k : 1
      rw [openAt, if_neg (by omega)]
      rfl
    | succ m ih =>
      rw [List.range_succ, List.foldl_append, ih (by omega), List.foldl_cons, List.foldl_nil]
      ext k : 1
      by_cases hk : k = n - m
      · subst hk
        rw [Function.update_self, openAt, if_neg (by omega), openAt, if_pos (by omega)]
      · rw [Function.update_of_ne hk, openAt, openAt]
        by_cases hin : n - m < k ∧ k ≤ n
        · rw [if_pos hin, if_pos (by omega)]
        · rw [if_neg hin, if_neg (by omega)]
  rw [hrounds _ (Nat.sub_le n cur), Nat.sub_sub_self h]

/-- `for (i = cur - 1; i < n - 1; i++) buf[i] = buf[i + 1];` -/
theorem foldl_closeAt (buf : ℕ → α) (n cur : ℕ) (h : 0 < cur) :
    (List.range' (cur - 1) (n - 1 - (cur - 1))).foldl
        (fun b i => Function.update b i (b (i + 1))) buf = closeAt buf n cur := by
  have hrounds : ∀ m, (List.range' (cur - 1) m).foldl
      (fun b i => Function.update b i (b (i + 1))) buf = closeAt buf (cur + m) cur := by
    intro m
    induction m with
    | zero =>
      ext k : 1
      rw [closeAt, if_neg (by omega)]
      rfl
    | succ m ih =>
      rw [List.range'_1_concat, List.foldl_append, ih, List.foldl_cons, List.foldl_nil]
      ext k : 1
      by_cases hk : k = cur - 1 + m
      · subst hk
        rw [Function.update_self, closeAt, if_neg (by omega), closeAt, if_pos (by omega)]
      · rw [Function.update_of_ne hk, closeAt, closeAt]
        by_cases hin : cur ≤ k + 1 ∧ k + 1 < cur + m
        · rw [if_pos hin, if_pos (by omega)]
        · rw [if_neg hin, if_neg (by omega)]
  rw [hrounds]
  ext k : 1
  rw [closeAt, closeAt]
  by_cases hin : cur ≤ k + 1 ∧ k + 1 < n
  · rw [if_pos hin, if_pos (by omega)]
  · rw [if_neg hin, if_neg (by omega)]

end array

end Zipper
end CoreOS
