import CoreOS.Term.Drawing

/-!
# The characters on the screen

The cells of the screen are numbered row by row, 80 to a row, and the character of cell `i` is byte
`2 * i` of the video memory.  In these terms a byte that is not a backspace or an end of a line goes
into the cell of the cursor, and the cursor moves on by one cell, and `back` and `forward` are one
cell to the left and one to the right, without regard to rows.

Only the last cell is different: when it has been written the screen scrolls, which takes the
characters and the cursor up by one row.
-/

namespace CoreOS
namespace Term
namespace Console

/-- The character in cell `i`. -/
def charAt (c : Console) (i : ℕ) : BitVec 8 := c.loadVid (2 * i)

/-- Cell `i`: its character and its attribute. -/
def cellAt (c : Console) (i : ℕ) : BitVec 8 × BitVec 8 := (c.charAt i, c.loadVid (2 * i + 1))

/-- The cursor is on cell `i`. -/
structure OnCell (c : Console) (i : ℕ) : Prop where
  lt : i < 2000
  curX : c.curX = (i % 80 : ℕ)
  curY : c.curY = (i / 80 : ℕ)

/-- A byte that `putc` shows as a character. -/
def Plain (b : BitVec 8) : Prop := b ≠ ch '\n' ∧ b ≠ ch '\r' ∧ b ≠ 8

instance (b : BitVec 8) : Decidable (Plain b) := inferInstanceAs (Decidable (_ ∧ _))

section

variable {c : Console} {i : ℕ}

theorem OnCell.pos (h : c.OnCell i) : c.pos = i := by
  rw [Console.pos, h.curX, h.curY, numCols]
  omega

/-- A cursor on the screen is on a cell. -/
theorem onCell_of_range (hx : 0 ≤ c.curX) (hx' : c.curX < numCols) (hy : 0 ≤ c.curY)
    (hy' : c.curY < numRows) : c.OnCell c.pos.toNat := by
  unfold numCols at hx'
  unfold numRows at hy'
  constructor
  · rw [Console.pos, numCols]
    omega
  · rw [Console.pos, numCols]
    omega
  · rw [Console.pos, numCols]
    omega

/-! ## Moving the cursor -/

theorem clamp_of_mem {n x : ℤ} (hx : 0 ≤ x) (hn : x < n) : clamp n x = x := by
  rw [clamp, if_neg (Int.not_lt.mpr hx), if_neg (Int.not_le.mpr hn)]

/-- `setpos` to a cell. -/
theorem onCell_setpos (c : Console) {i : ℕ} (hi : i < 2000) {x y : ℤ} (hx : x = (i % 80 : ℕ))
    (hy : y = (i / 80 : ℕ)) : (c.setpos x y).OnCell i := by
  refine ⟨hi, ?_, ?_⟩
  · show clamp numCols x = _
    rw [clamp_of_mem (by omega) (by rw [numCols]; omega), hx]
  · show clamp numRows y = _
    rw [clamp_of_mem (by omega) (by rw [numRows]; omega), hy]

theorem OnCell.back (h : c.OnCell (i + 1)) : c.back.OnCell i := by
  have hlt := h.lt
  have hx := h.curX
  have hy := h.curY
  rw [Console.back]
  dsimp only
  split
  · refine onCell_setpos _ (by omega) ?_ ?_
    · show c.curX - 1 + numCols = _
      unfold numCols
      omega
    · show c.curY - 1 = _
      omega
  · refine onCell_setpos _ (by omega) ?_ ?_
    · show c.curX - 1 = _
      omega
    · show c.curY = _
      omega

/-- One step to the right, which may lead below the last row. -/
theorem advance_eq (h : c.OnCell i) :
    c.advance.curX = ((i + 1) % 80 : ℕ) ∧ c.advance.curY = ((i + 1) / 80 : ℕ) := by
  have hx := h.curX
  have hy := h.curY
  rw [advance]
  dsimp only
  split
  · rename_i hedge
    unfold numCols at hedge ⊢
    constructor
    · show c.curX + 1 - 80 = _
      omega
    · show c.curY + 1 = _
      omega
  · rename_i hedge
    unfold numCols at hedge
    constructor
    · show c.curX + 1 = _
      omega
    · show c.curY = _
      omega

theorem OnCell.forward (h : c.OnCell i) (hi : i + 1 < 2000) : c.forward.OnCell (i + 1) :=
  onCell_setpos _ hi (advance_eq h).1 (advance_eq h).2

/-! ## Characters -/

theorem cell_eq {x y : ℤ} (h : y * 80 + x = i) : cell x y = 2 * i := by
  rw [cell, numCols]
  omega

theorem loadVid_storeVid (c : Console) {n : ℕ} (hn : n < vidMemSize) (b : BitVec 8) (m : ℕ) :
    (c.storeVid n b).loadVid m = if m = n then b else c.loadVid m := by
  rw [storeVid, dif_pos hn, loadVid, loadVid]
  by_cases hm : m < vidMemSize
  · rw [dif_pos hm, dif_pos hm]
    simp only [Function.update_apply, Fin.mk.injEq]
  · rw [dif_neg hm, dif_neg hm, if_neg]
    omega

/-- A character in cell `i`, with the attribute in force. -/
theorem cellAt_setVidChar (c : Console) {i : ℕ} (hi : i < 2000) {x y : ℤ} (hx : x = (i % 80 : ℕ))
    (hy : y = (i / 80 : ℕ)) (b : BitVec 8) (j : ℕ) :
    (c.setVidChar x y b).cellAt j = if j = i then (b, c.attr) else c.cellAt j := by
  have hon : ¬ offScreen x y := by
    simp only [offScreen, numCols, numRows]
    omega
  have hcell : cell x y = 2 * i := cell_eq (by omega)
  have hsize : 2 * i + 1 < vidMemSize := by
    unfold vidMemSize
    omega
  rw [setVidChar, if_neg hon, hcell, cellAt, charAt, loadVid_storeVid _ hsize, if_neg (by omega),
    loadVid_storeVid _ (Nat.lt_of_succ_lt hsize), loadVid_storeVid _ hsize,
    loadVid_storeVid _ (Nat.lt_of_succ_lt hsize)]
  by_cases hj : j = i
  · rw [if_pos hj, if_pos (by omega), if_pos (by omega)]
  · rw [if_neg hj, if_neg (by omega), if_neg (by omega), if_neg (by omega), cellAt, charAt]

theorem charAt_setVidChar (c : Console) {i : ℕ} (hi : i < 2000) {x y : ℤ} (hx : x = (i % 80 : ℕ))
    (hy : y = (i / 80 : ℕ)) (b : BitVec 8) (j : ℕ) :
    (c.setVidChar x y b).charAt j = if j = i then b else c.charAt j := by
  have h := congrArg Prod.fst (cellAt_setVidChar c hi hx hy b j)
  rw [apply_ite Prod.fst] at h
  exact h

theorem getVidChar_eq (c : Console) {i : ℕ} (hi : i < 2000) {x y : ℤ} (hx : x = (i % 80 : ℕ))
    (hy : y = (i / 80 : ℕ)) : c.getVidChar x y = c.charAt i := by
  have hon : ¬ offScreen x y := by
    simp only [offScreen, numCols, numRows]
    omega
  rw [getVidChar, if_neg hon, cell_eq (i := i) (by omega), charAt]

/-! What moves the cursor leaves the characters alone. -/

theorem cellAt_setattr (c : Console) (a : BitVec 8) (j : ℕ) : (c.setattr a).cellAt j = c.cellAt j :=
  rfl

theorem cellAt_setpos (c : Console) (x y : ℤ) (j : ℕ) : (c.setpos x y).cellAt j = c.cellAt j := rfl

theorem charAt_setpos (c : Console) (x y : ℤ) (j : ℕ) : (c.setpos x y).charAt j = c.charAt j := rfl

theorem charAt_back (c : Console) (j : ℕ) : c.back.charAt j = c.charAt j := by
  rw [back]
  dsimp only
  split
  · rfl
  · rfl

theorem charAt_advance (c : Console) (j : ℕ) : c.advance.charAt j = c.charAt j := by
  rw [advance]
  split
  · rfl
  · rfl

theorem charAt_forward (c : Console) (j : ℕ) : c.forward.charAt j = c.charAt j :=
  charAt_advance c j

/-! ## Scrolling -/

/-- The copying loop of `scroll` when it comes to cell `n`. -/
def Copied (c : Console) (n : ℕ) (c' : Console) : Prop :=
  ∀ j, c'.cellAt j = if j < n then c.cellAt (j + 80) else c.cellAt j

theorem Copied.scrollCell {c' : Console} {x y : ℕ} (h : Copied c (80 * y + x) c') (hx : x < 80)
    (hy : y < 24) : Copied c (80 * y + x + 1) (scrollCell y c' x) := by
  intro j
  -- the loop takes the attribute of the cell below before it writes its character
  have hattr : cell x (y + 1) + 1 = 2 * (80 * y + x + 80) + 1 := by
    rw [cell_eq (i := 80 * y + x + 80) (by omega)]
  have hload : (c'.setattr (c'.loadVid (cell x (y + 1) + 1))).getVidChar x (y + 1) =
      c'.charAt (80 * y + x + 80) :=
    getVidChar_eq _ (by omega) (by omega) (by omega)
  have hsource : c'.cellAt (80 * y + x + 80) = c.cellAt (80 * y + x + 80) :=
    (h _).trans (if_neg (by omega))
  have hcell : (Console.scrollCell y c' x).cellAt j =
      if j = 80 * y + x then c'.cellAt (80 * y + x + 80) else c'.cellAt j := by
    rw [Console.scrollCell, hload, hattr]
    exact cellAt_setVidChar _ (i := 80 * y + x) (by omega) (by omega) (by omega) _ j
  rw [hcell, hsource]
  by_cases hj : j = 80 * y + x
  · rw [if_pos hj, if_pos (by omega), hj]
  · rw [if_neg hj, h j]
    by_cases hlt : j < 80 * y + x
    · rw [if_pos hlt, if_pos (by omega)]
    · rw [if_neg hlt, if_neg (by omega)]

/-- One row. -/
theorem Copied.row {c' : Console} {y : ℕ} (h : Copied c (80 * y) c') (hy : y < 24) {n : ℕ}
    (hn : n ≤ 80) : Copied c (80 * y + n) ((List.range n).foldl (Console.scrollCell y) c') := by
  induction n with
  | zero => exact h
  | succ n ih =>
    rw [List.range_succ, List.foldl_append]
    exact (ih (by omega)).scrollCell (by omega) hy

theorem copied_scrollRows (c : Console) : Copied c 1920 c.scrollRows := by
  have hrows : ∀ n ≤ 24, Copied c (80 * n)
      ((List.range n).foldl (fun c y => (List.range 80).foldl (Console.scrollCell y) c) c) := by
    intro n hn
    induction n with
    | zero => exact fun j => (if_neg (Nat.not_lt_zero j)).symm
    | succ n ih =>
      have hrow := (ih (by omega)).row (by omega) (Nat.le_refl 80)
      rw [List.range_succ (n := n), List.foldl_append, List.foldl_cons, List.foldl_nil,
        Nat.mul_succ]
      exact hrow
  exact hrows 24 (Nat.le_refl 24)

theorem attr_storeVid (c : Console) (n : ℕ) (b : BitVec 8) : (c.storeVid n b).attr = c.attr := by
  rw [storeVid]
  split <;> rfl

theorem attr_setVidChar (c : Console) (x y : ℤ) (b : BitVec 8) :
    (c.setVidChar x y b).attr = c.attr := by
  rw [setVidChar]
  split
  · rfl
  · rw [attr_storeVid, attr_storeVid]

/-- The loop that empties the last row writes blanks with the attribute in force. -/
theorem cellAt_blankRow (c : Console) (j : ℕ) : c.blankRow.cellAt j =
    if 1920 ≤ j ∧ j < 2000 then (ch ' ', c.attr) else c.cellAt j := by
  have hloop : ∀ n ≤ 80, ∃ c' : Console, (List.range n).foldl
      (fun (c : Console) (x : ℕ) => c.setVidChar x (numRows - 1) (ch ' ')) c = c' ∧
      c'.attr = c.attr ∧ ∀ j, c'.cellAt j =
        if 1920 ≤ j ∧ j < 1920 + n then (ch ' ', c.attr) else c.cellAt j := by
    intro n hn
    induction n with
    | zero => exact ⟨c, rfl, rfl, fun j => (if_neg (by omega)).symm⟩
    | succ n ih =>
      obtain ⟨c', hc', hattr, hcells⟩ := ih (by omega)
      rw [List.range_succ, List.foldl_append, hc']
      refine ⟨_, rfl, (attr_setVidChar ..).trans hattr, fun j => ?_⟩
      rw [List.foldl_cons, List.foldl_nil,
        cellAt_setVidChar _ (i := 1920 + n) (by omega) (by omega) (by rw [numRows]; omega), hattr,
        hcells]
      by_cases hj : j = 1920 + n
      · rw [if_pos hj, if_pos (by omega)]
      · rw [if_neg hj]
        exact if_congr (by omega) rfl rfl
  obtain ⟨c', hc', -, hcells⟩ := hloop 80 (Nat.le_refl 80)
  rw [blankRow, hc', hcells]

/-- **`scroll`** takes the cells up by one row, and leaves blanks in the last one. -/
theorem cellAt_scroll (c : Console) {j : ℕ} (hj : j < 2000) :
    c.scroll.cellAt j = if j < 1920 then c.cellAt (j + 80) else (ch ' ', defAttr) := by
  have hrows := copied_scrollRows c j
  rw [scroll, cellAt_setattr, cellAt_setpos, cellAt_blankRow]
  by_cases hlt : j < 1920
  · rw [if_neg (by omega), if_pos hlt, cellAt_setattr, hrows, if_pos hlt]
  · rw [if_pos (by omega), if_neg hlt, setattr]

theorem charAt_scroll (c : Console) {j : ℕ} (hj : j < 1920) :
    c.scroll.charAt j = c.charAt (j + 80) := by
  have h := cellAt_scroll c (j := j) (by omega)
  rw [if_pos hj] at h
  exact congrArg Prod.fst h

theorem curX_of_gauges {c' : Console} (h : c'.gauges = c.gauges) :
    c'.curX = c.curX ∧ c'.curY = c.curY :=
  ⟨congrArg (fun g => g.1) h, congrArg (fun g => g.2.1) h⟩

theorem gauges_scrollLoops (c : Console) :
    (c.scrollRows.setattr defAttr).blankRow.gauges = c.gauges := by
  rw [gauges_blankRow, gauges_setattr, gauges_scrollRows]

theorem OnCell.setattr (h : c.OnCell i) (a : BitVec 8) : (c.setattr a).OnCell i :=
  ⟨h.lt, h.curX, h.curY⟩

/-- **`scroll`** takes the cursor up by one row. -/
theorem OnCell.scroll (h : c.OnCell (i + 80)) : c.scroll.OnCell i := by
  have hlt := h.lt
  have hx := h.curX
  have hy := h.curY
  obtain ⟨hlx, hly⟩ := curX_of_gauges (gauges_scrollLoops c)
  rw [Console.scroll]
  refine (onCell_setpos _ (by omega) ?_ ?_).setattr _
  · rw [hlx]
    omega
  · rw [hly]
    omega

/-- Several rows. -/
theorem scroll_iterate (n : ℕ) (h : c.OnCell (i + 80 * n)) :
    (Console.scroll^[n] c).OnCell i ∧
      ∀ j, j + 80 * n < 2000 → (Console.scroll^[n] c).charAt j = c.charAt (j + 80 * n) := by
  induction n generalizing c with
  | zero => exact ⟨h, fun j _ => rfl⟩
  | succ n ih =>
    have hone : c.scroll.OnCell (i + 80 * n) := OnCell.scroll h
    obtain ⟨hcell, hchars⟩ := ih hone
    rw [Function.iterate_succ_apply]
    refine ⟨hcell, fun j hj => ?_⟩
    rw [hchars j (by omega), charAt_scroll c (by omega)]
    rfl

/-! ## Characters one after the other -/

theorem putc_eq {b : BitVec 8} (hb : Plain b) (c : Console) :
    c.putc b = ((c.setVidChar c.curX c.curY b).advance.scrollIfBelow).showCursor := by
  rw [putc, if_neg hb.1, if_neg hb.2.1, if_neg hb.2.2]
  rfl

theorem OnCell.setVidChar (h : c.OnCell i) (x y : ℤ) (b : BitVec 8) :
    (c.setVidChar x y b).OnCell i := by
  obtain ⟨hx, hy⟩ := curX_of_gauges (gauges_setVidChar c x y b)
  exact ⟨h.lt, hx.trans h.curX, hy.trans h.curY⟩

/-- **A character** goes into the cell of the cursor. -/
theorem OnCell.putc (h : c.OnCell i) (hi : i + 1 < 2000) {b : BitVec 8} (hb : Plain b) :
    (c.putc b).OnCell (i + 1) ∧
      ∀ j, (c.putc b).charAt j = if j = i then b else c.charAt j := by
  obtain ⟨hx, hy⟩ := advance_eq (h.setVidChar c.curX c.curY b)
  have hrow : ¬ numRows ≤ (c.setVidChar c.curX c.curY b).advance.curY := by
    rw [hy, numRows]
    omega
  rw [putc_eq hb, scrollIfBelow, if_neg hrow]
  refine ⟨onCell_setpos _ hi hx hy, fun j => ?_⟩
  rw [showCursor, charAt_setpos, charAt_advance, charAt_setVidChar c h.lt h.curX h.curY]

/-- Below the last row the cursor goes back to it. -/
theorem onCell_scrolled (c : Console) (hx : c.curX = 0) :
    (showCursor { c with curY := numRows - 1 }).OnCell 1920 :=
  onCell_setpos _ (by omega) hx rfl

theorem curX_scroll (c : Console) (hx : c.curX = 0) : c.scroll.curX = 0 := by
  have hclamp : ∀ (c : Console) (a : BitVec 8) (y : ℤ), c.curX = 0 →
      ((c.setpos c.curX y).setattr a).curX = 0 := by
    intro c a y hc
    show clamp numCols c.curX = 0
    rw [hc]
    rfl
  rw [scroll]
  exact hclamp _ _ _ ((curX_of_gauges (gauges_scrollLoops c)).1.trans hx)

/-- **A character in the last cell** makes the screen scroll. -/
theorem OnCell.putc_last (h : c.OnCell 1999) {b : BitVec 8} (hb : Plain b) :
    (c.putc b).OnCell 1920 ∧
      ∀ j < 1920, (c.putc b).charAt j = if j + 80 = 1999 then b else c.charAt (j + 80) := by
  obtain ⟨hx, hy⟩ := advance_eq (h.setVidChar c.curX c.curY b)
  have hrow : numRows ≤ (c.setVidChar c.curX c.curY b).advance.curY := by
    rw [hy]
    decide
  rw [putc_eq hb, scrollIfBelow, if_pos hrow]
  refine ⟨onCell_scrolled _ (curX_scroll _ hx), fun j hj => ?_⟩
  have hkeep : ∀ c : Console, (showCursor { c with curY := numRows - 1 }).charAt j = c.charAt j :=
    fun _ => rfl
  rw [hkeep, charAt_scroll _ hj, charAt_advance, charAt_setVidChar c h.lt h.curX h.curY]

/-- **A string of characters** that ends on the screen or just behind it.  The screen scrolls by `k`
rows: by none, or, if the last cell is written, by one. -/
theorem OnCell.puts (l : List (BitVec 8)) {c : Console} {i : ℕ} (h : c.OnCell i)
    (hi : i + l.length ≤ 2000) (hl : ∀ b ∈ l, Plain b) :
    ∃ k, (k = 0 ∨ k = 1 ∧ i + l.length = 2000) ∧
      (c.puts l).OnCell (i + l.length - 80 * k) ∧
      ∀ j, j + 80 * k < 2000 → (c.puts l).charAt j =
        if i ≤ j + 80 * k ∧ j + 80 * k < i + l.length then l.getD (j + 80 * k - i) 0
        else c.charAt (j + 80 * k) := by
  induction l generalizing c i with
  | nil =>
    refine ⟨0, Or.inl rfl, h, fun j _ => ?_⟩
    rw [if_neg (by simp)]
    rfl
  | cons b l ih =>
    have hb := hl b List.mem_cons_self
    have hputs : c.puts (b :: l) = (c.putc b).puts l := rfl
    rw [List.length_cons] at hi
    rw [hputs, List.length_cons]
    by_cases hlast : i = 1999
    · subst hlast
      obtain rfl : l = [] := List.length_eq_zero_iff.mp (by omega)
      obtain ⟨hcell, hchars⟩ := h.putc_last hb
      refine ⟨1, Or.inr ⟨rfl, rfl⟩, hcell, fun j hj => ?_⟩
      have hj' : (c.putc b).charAt j = _ := hchars j (by omega)
      rw [Console.puts, List.foldl_nil, hj']
      by_cases heq : j + 80 = 1999
      · rw [if_pos heq, if_pos (by simp; omega), show j + 80 * 1 - 1999 = 0 by omega]
        rfl
      · rw [if_neg heq, if_neg (by simp; omega)]
    · have hlt := h.lt
      obtain ⟨hcell, hchars⟩ := h.putc (by omega) hb
      obtain ⟨k, hk, hcell', hchars'⟩ := ih hcell (by omega)
        fun b' hb' => hl b' (List.mem_cons_of_mem b hb')
      have hlen : i + (l.length + 1) = i + 1 + l.length := by omega
      refine ⟨k, ?_, ?_, fun j hj => ?_⟩
      · rw [hlen]
        exact hk
      · rw [hlen]
        exact hcell'
      · rw [hchars' j hj, hchars, hlen]
        by_cases hrest : i + 1 ≤ j + 80 * k ∧ j + 80 * k < i + 1 + l.length
        · rw [if_pos hrest, if_pos (by omega),
            show j + 80 * k - i = (j + 80 * k - (i + 1)) + 1 by omega, List.getD_cons_succ]
        · rw [if_neg hrest]
          by_cases hfirst : j + 80 * k = i
          · rw [if_pos hfirst, if_pos (by omega), show j + 80 * k - i = 0 by omega,
              List.getD_cons_zero]
          · rw [if_neg hfirst, if_neg (by omega)]

end

end Console
end Term
end CoreOS
