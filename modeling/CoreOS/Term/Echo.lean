import CoreOS.Term.LineEditor
import CoreOS.Term.Screen
import CoreOS.Term.Separation

/-!
# The line on the screen

With echo on, the line that is being edited is on the screen too: there is a cell where it begins,
its bytes are in the cells from there on, and the cursor is as far behind that cell as the cursor of
the line is behind its beginning.

The code never computes that cell.  Each key changes the screen and the line by separate means: what
is after the cursor is printed again, and then the cursor is walked back.  When the printing reaches
the last cell the screen scrolls in the middle of it, and C-l scrolls it on purpose, so that the line
begins some rows further up.  `EchoAt` is the agreement for one cell, `Echoes` that there is such a
cell a number of whole rows above a given one.
-/

namespace CoreOS
namespace Term
namespace Console

open Zipper

/-- The line is on the screen from cell `s` on. -/
structure EchoAt (c : Console) (s : ℕ) : Prop where
  fits : s + c.termBufCount ≤ 1999
  shows : ∀ i < c.termBufCount, c.charAt (s + i) = c.termBuf i
  cursor : c.OnCell (s + c.termCurpos)

/-- A terminal in line mode with echo while a read is pending: its line is on the screen, some rows
above cell `S` or there. -/
structure Echoes (S : ℕ) (c : Console) : Prop where
  inLine : c.InLine
  termCanon : c.termCanon = false
  termNoecho : c.termNoecho = false
  reading : c.reading = true
  plain : ∀ i < c.termBufCount, Plain (c.termBuf i)
  echo : ∃ s k, s + 80 * k = S ∧ EchoAt c s

variable {S : ℕ} {c : Console} {f : Console → Console} {z : Zipper (BitVec 8)}

/-- A function of the editor. -/
theorem Echoes.of_edits (h : Echoes S c) (hf : Edits f c z)
    (hplain : ∀ i < (f c).termBufCount, Plain ((f c).termBuf i))
    (hecho : ∀ s, EchoAt c s → ∃ s' k, s' + 80 * k = s ∧ EchoAt (f c) s') : Echoes S (f c) where
  inLine := hf.inLine
  termCanon := (congrArg (·.termCanon) hf.settings).trans h.termCanon
  termNoecho := (congrArg (·.termNoecho) hf.settings).trans h.termNoecho
  reading := (congrArg (·.reading) hf.settings).trans h.reading
  plain := hplain
  echo := by
    obtain ⟨s, k, hs, hat⟩ := h.echo
    obtain ⟨s', k', hs', hat'⟩ := hecho s hat
    exact ⟨s', k' + k, by omega, hat'⟩

/-! ## Moving -/

/-- `stepBack`. -/
theorem Echoes.stepBack (h : Echoes S c) (hpos : 0 < c.termCurpos) : Echoes S c.stepBack := by
  obtain ⟨hbuf, hcount, hcurpos⟩ := draws_back.line_eq { c with termCurpos := c.termCurpos - 1 }
  refine h.of_edits (edits_stepBack h.inLine) ?_ ?_
  · intro i hi
    rw [Console.stepBack, hbuf]
    exact h.plain i (hcount ▸ hi)
  · intro s hat
    refine ⟨s, 0, rfl, ?_, ?_, ?_⟩
    · exact hcount.symm ▸ hat.fits
    · intro i hi
      rw [Console.stepBack, charAt_back, hbuf]
      exact hat.shows i (hcount ▸ hi)
    · rw [Console.stepBack, hcurpos]
      refine OnCell.back ?_
      have hcell := hat.cursor
      rw [show s + c.termCurpos = s + (c.termCurpos - 1) + 1 by omega] at hcell
      exact ⟨hcell.lt, hcell.curX, hcell.curY⟩

/-- `stepForward`. -/
theorem Echoes.stepForward (h : Echoes S c) (hlt : c.termCurpos < c.termBufCount) :
    Echoes S c.stepForward := by
  obtain ⟨hbuf, hcount, hcurpos⟩ := draws_forward.line_eq { c with termCurpos := c.termCurpos + 1 }
  refine h.of_edits (edits_stepForward h.inLine hlt) ?_ ?_
  · intro i hi
    rw [Console.stepForward, hbuf]
    exact h.plain i (hcount ▸ hi)
  · intro s hat
    have hfits := hat.fits
    have hin : s + c.termCurpos + 1 < 2000 := by omega
    refine ⟨s, 0, rfl, ?_, ?_, ?_⟩
    · exact hcount.symm ▸ hat.fits
    · intro i hi
      rw [Console.stepForward, charAt_forward, hbuf]
      exact hat.shows i (hcount ▸ hi)
    · rw [Console.stepForward, hcurpos]
      exact OnCell.forward ⟨hat.cursor.lt, hat.cursor.curX, hat.cursor.curY⟩ hin

/-! ## Printing the rest of the line -/

/-- The bytes `a .. m - 1` of the line printed from cell `s + a` on, with the line on the screen up to
there.  The screen scrolls if they reach its last cell. -/
theorem reprint {s a m : ℕ} (h : c.OnCell (s + a)) (ham : a ≤ m) (hm : m ≤ 127)
    (hs : s + m ≤ 2000) (hplain : ∀ i < m, Plain (c.termBuf i))
    (hbefore : ∀ i < a, c.charAt (s + i) = c.termBuf i) :
    ∃ s' k, s' + 80 * k = s ∧ (k = 0 ∨ s + m = 2000) ∧
      (c.puts (slice c.termBuf a m)).OnCell (s' + m) ∧
      ∀ i < m, (c.puts (slice c.termBuf a m)).charAt (s' + i) = c.termBuf i := by
  have hlen : s + a + (slice c.termBuf a m).length = s + m := by
    rw [length_slice]
    omega
  have hall : ∀ b ∈ slice c.termBuf a m, Plain b := by
    intro b hb
    obtain ⟨i, hi, rfl⟩ := List.mem_map.mp hb
    rw [List.mem_range'_1] at hi
    exact hplain i (by omega)
  obtain ⟨k, hk, hcell, hchars⟩ := h.puts (slice c.termBuf a m) (by omega) hall
  rw [hlen] at hk hcell hchars
  have hrows : 80 * k ≤ s := by omega
  refine ⟨s - 80 * k, k, by omega, hk.imp id (·.2), ?_, fun i hi => ?_⟩
  · rw [show s - 80 * k + m = s + m - 80 * k by omega]
    exact hcell
  · rw [hchars _ (by omega), show s - 80 * k + i + 80 * k = s + i by omega]
    by_cases hai : a ≤ i
    · have hget : (slice c.termBuf a m).getD (s + i - (s + a)) 0 = c.termBuf i := by
        rw [List.getD_eq_getElem?_getD, getElem?_slice, if_pos (by omega),
          show a + (s + i - (s + a)) = i by omega]
        rfl
      rw [if_pos (by omega), hget]
    · rw [if_neg (by omega)]
      exact hbefore i (by omega)

/-- Walking the cursor back. -/
theorem back_iterate_onCell (n : ℕ) {i : ℕ} (h : c.OnCell (i + n)) :
    (back^[n] c).OnCell i ∧ ∀ j, (back^[n] c).charAt j = c.charAt j := by
  induction n generalizing c with
  | zero => exact ⟨h, fun _ => rfl⟩
  | succ n ih =>
    obtain ⟨hcell, hchars⟩ := ih (c := c.back) (OnCell.back h)
    rw [Function.iterate_succ_apply]
    exact ⟨hcell, fun j => (hchars j).trans (charAt_back c j)⟩

/-- Walking the cursor forward. -/
theorem forward_iterate_onCell (n : ℕ) {i : ℕ} (h : c.OnCell i) (hi : i + n < 2000) :
    (forward^[n] c).OnCell (i + n) ∧ ∀ j, (forward^[n] c).charAt j = c.charAt j := by
  induction n generalizing c i with
  | zero => exact ⟨h, fun _ => rfl⟩
  | succ n ih =>
    obtain ⟨hcell, hchars⟩ := ih (c := c.forward) (i := i + 1) (h.forward (by omega)) (by omega)
    rw [Function.iterate_succ_apply]
    refine ⟨?_, fun j => (hchars j).trans (charAt_forward c j)⟩
    rw [show i + (n + 1) = i + 1 + n by omega]
    exact hcell

/-! ## Inserting -/

/-- The part of `addch` that changes the screen prints the line from the new byte on. -/
theorem putc_putRest_insertCh (h : c.InLine) (b : BitVec 8) :
    ((c.insertCh b).putc b).putRest = (c.insertCh b).puts
      (slice (c.insertCh b).termBuf c.termCurpos (c.termBufCount + 1)) := by
  obtain ⟨hbuf, hcount, hcurpos⟩ := (draws_putc b).line_eq (c.insertCh b)
  have hcur := h.curpos_le
  have hcurpos' : (c.insertCh b).termCurpos = c.termCurpos + 1 := by rw [insertCh_eq h]
  have hcount' : (c.insertCh b).termBufCount = c.termBufCount + 1 := by rw [insertCh_eq h]
  have hbyte : (c.insertCh b).termBuf c.termCurpos = b := by
    rw [insertCh_eq h]
    exact Function.update_self ..
  rw [putRest_eq, hbuf, hcount, hcurpos, hcurpos', hcount',
    slice_of_lt _ (show c.termCurpos < c.termBufCount + 1 by omega), hbyte]
  rfl

/-- The bytes of the line after an insertion. -/
theorem termBuf_insertCh (h : c.InLine) (b : BitVec 8) (i : ℕ) :
    (c.insertCh b).termBuf i =
      if i < c.termCurpos then c.termBuf i else if i = c.termCurpos then b
      else if i ≤ c.termBufCount then c.termBuf (i - 1) else c.termBuf i := by
  rw [insertCh_eq h]
  show Function.update (openAt c.termBuf c.termBufCount c.termCurpos) c.termCurpos b i = _
  by_cases hi : i = c.termCurpos
  · rw [hi, Function.update_self, if_neg (lt_irrefl _), if_pos rfl]
  · rw [Function.update_of_ne hi, if_neg hi, openAt]
    split_ifs <;> first | rfl | omega

/-- The line has plain bytes in it after the insertion of one. -/
theorem plain_insertCh (h : Echoes S c) {b : BitVec 8} (hb : Plain b) :
    ∀ i < c.termBufCount + 1, Plain ((c.insertCh b).termBuf i) := by
  intro i hi
  have hcur := h.inLine.curpos_le
  rw [termBuf_insertCh h.inLine]
  split_ifs
  · exact h.plain i (by omega)
  · exact hb
  · exact h.plain (i - 1) (by omega)
  · omega

/-- `addch`. -/
theorem Echoes.addch (h : Echoes S c) {b : BitVec 8} (hb : Plain b) : Echoes S (c.addch b) := by
  by_cases hroom : c.termBufCount < termBufSize
  · have hin := h.inLine
    have hcur := hin.curpos_le
    unfold termBufSize at hroom
    have haddch : c.addch b = back^[c.termBufCount - c.termCurpos] ((c.insertCh b).puts
        (slice (c.insertCh b).termBuf c.termCurpos (c.termBufCount + 1))) := by
      rw [addch_eq hin hroom h.reading, if_neg (by rw [h.termNoecho]; exact Bool.noConfusion),
        putc_putRest_insertCh hin]
    have hdraws : Draws fun c' => back^[c.termBufCount - c.termCurpos] (c'.puts
        (slice (c.insertCh b).termBuf c.termCurpos (c.termBufCount + 1))) :=
      (draws_back.iterate _).comp (draws_puts _)
    obtain ⟨hbuf, hcount, hcurpos⟩ := hdraws.line_eq (c.insertCh b)
    rw [← haddch] at hbuf hcount hcurpos
    have hcount' : (c.insertCh b).termBufCount = c.termBufCount + 1 := by rw [insertCh_eq hin]
    have hcurpos' : (c.insertCh b).termCurpos = c.termCurpos + 1 := by rw [insertCh_eq hin]
    have hplain := plain_insertCh h hb
    refine Echoes.of_edits (f := fun c => c.addch b) h (edits_addch hin h.reading b) ?_ ?_
    · intro i hi
      rw [hbuf]
      exact hplain i (by omega)
    · intro s hat
      have hfits := hat.fits
      have hcell : (c.insertCh b).OnCell (s + c.termCurpos) := by
        rw [insertCh_eq hin]
        exact ⟨hat.cursor.lt, hat.cursor.curX, hat.cursor.curY⟩
      have hbefore : ∀ i < c.termCurpos,
          (c.insertCh b).charAt (s + i) = (c.insertCh b).termBuf i := by
        intro i hi
        rw [termBuf_insertCh hin, if_pos hi, ← hat.shows i (by omega), insertCh_eq hin]
        rfl
      obtain ⟨s', k, hs', -, hend, hshown⟩ :=
        reprint hcell (m := c.termBufCount + 1) (by omega) (by omega) (by omega) hplain hbefore
      have hback : s' + (c.termBufCount + 1) =
          s' + (c.termCurpos + 1) + (c.termBufCount - c.termCurpos) := by omega
      rw [hback] at hend
      obtain ⟨hcursor, hchars⟩ := back_iterate_onCell _ hend
      have hlt := hend.lt
      refine ⟨s', k, hs', ?_, ?_, ?_⟩
      · rw [hcount, hcount']
        omega
      · intro i hi
        rw [haddch, hchars, hshown i (by omega), ← haddch, hbuf]
      · rw [hcurpos, hcurpos', haddch]
        exact hcursor
  · have hstay : c.addch b = c := if_neg fun hcond => hroom hcond.1
    rw [hstay]
    exact h

/-! ## Deleting -/

/-- The bytes of the line after a deletion. -/
theorem termBuf_removeCh (h : c.InLine) (hpos : 0 < c.termCurpos) {i : ℕ}
    (hi : i < c.termBufCount - 1) :
    c.removeCh.termBuf i = if i + 1 < c.termCurpos then c.termBuf i else c.termBuf (i + 1) := by
  rw [removeCh_eq h hpos]
  show closeAt c.termBuf c.termBufCount c.termCurpos i = _
  unfold closeAt
  split_ifs <;> first | rfl | omega

/-- **A deletion, and the cursor one cell back**: nothing has been drawn yet. -/
theorem back_removeCh (h : c.InLine) (hpos : 0 < c.termCurpos) :
    c.removeCh.back.termBufCount = c.termBufCount - 1 ∧
      c.removeCh.back.termCurpos = c.termCurpos - 1 ∧
      (∀ i < c.termBufCount - 1, c.removeCh.back.termBuf i =
        if i + 1 < c.termCurpos then c.termBuf i else c.termBuf (i + 1)) ∧
      (∀ j, c.removeCh.back.charAt j = c.charAt j) ∧
      ∀ s, c.OnCell (s + c.termCurpos) → c.removeCh.back.OnCell (s + (c.termCurpos - 1)) := by
  obtain ⟨hbuf, hcount, hcurpos⟩ := draws_back.line_eq c.removeCh
  refine ⟨?_, ?_, fun i hi => ?_, fun j => ?_, fun s hc => ?_⟩
  · rw [hcount, removeCh_eq h hpos]
  · rw [hcurpos, removeCh_eq h hpos]
  · rw [hbuf, termBuf_removeCh h hpos hi]
  · rw [charAt_back, removeCh_eq h hpos]
    rfl
  · rw [show s + c.termCurpos = s + (c.termCurpos - 1) + 1 by omega] at hc
    refine OnCell.back ?_
    rw [removeCh_eq h hpos]
    exact ⟨hc.lt, hc.curX, hc.curY⟩

/-- `delch`. -/
theorem Echoes.delch (h : Echoes S c) (hpos : 0 < c.termCurpos) : Echoes S c.delch := by
  have hin := h.inLine
  have hcur := hin.curpos_le
  have hsize := hin.count_le
  unfold termBufSize at hsize
  have hdelch := (delch_eq hin hpos).trans
    (if_neg (by rw [h.termCanon]; exact Bool.noConfusion))
  obtain ⟨hcount, hcurpos, hbuf, hchar, hcell⟩ := back_removeCh hin hpos
  rw [putRest_eq, hcount, hcurpos] at hdelch
  generalize c.removeCh.back = c₁ at hdelch hcount hcurpos hbuf hchar hcell
  have hdraws : Draws fun c => ((c.puts (slice c₁.termBuf (c₁.termCurpos) (c₁.termBufCount))).putc
      (ch ' ')).setpos c₁.curX c₁.curY :=
    (draws_setpos _ _).comp ((draws_putc _).comp (draws_puts _))
  obtain ⟨hbuf', hcount', hcurpos'⟩ := hdraws.line_eq c₁
  rw [hcount, hcurpos] at hbuf' hcount' hcurpos'
  rw [← hdelch] at hbuf' hcount' hcurpos'
  have hplain : ∀ i < c.termBufCount - 1, Plain (c₁.termBuf i) := by
    intro i hi
    rw [hbuf i hi]
    split
    · exact h.plain i (by omega)
    · exact h.plain (i + 1) (by omega)
  refine h.of_edits (edits_delch hin) ?_ ?_
  · intro i hi
    rw [hbuf']
    exact hplain i (by omega)
  · intro s hat
    have hfits := hat.fits
    have hbefore : ∀ i < c.termCurpos - 1, c₁.charAt (s + i) = c₁.termBuf i := by
      intro i hi
      rw [hbuf i (by omega), if_pos (by omega), hchar, hat.shows i (by omega)]
    obtain ⟨s', k, hs', hk, hend, hshown⟩ := reprint (hcell s hat.cursor)
      (m := c.termBufCount - 1) (by omega) (by omega) (by omega) hplain hbefore
    obtain rfl : s' = s := by omega
    obtain ⟨-, hchars⟩ := hend.putc (by omega) (b := ch ' ') (by decide)
    refine ⟨s', 0, rfl, ?_, ?_, ?_⟩
    · rw [hcount']
      omega
    · intro i hi
      rw [hdelch, charAt_setpos, hchars, if_neg (by omega), hshown i (by omega), ← hdelch, hbuf']
    · rw [hcurpos', hdelch]
      exact onCell_setpos _ (hcell s' hat.cursor).lt (hcell s' hat.cursor).curX
        (hcell s' hat.cursor).curY

/-! ## Repeating -/

/-- A loop that takes the cursor of the line to its beginning, step by step. -/
theorem Echoes.iterate_before
    (hf : ∀ {c : Console}, Echoes S c → 0 < c.termCurpos →
      Echoes S (f c) ∧ (f c).termCurpos = c.termCurpos - 1)
    (n : ℕ) (h : Echoes S c) (hn : n ≤ c.termCurpos) : Echoes S (f^[n] c) := by
  induction n generalizing c with
  | zero => exact h
  | succ n ih =>
    obtain ⟨hstep, hcurpos⟩ := hf h (by omega)
    exact ih hstep (by omega)

/-- A loop that takes it to its end. -/
theorem Echoes.stepForward_iterate (n : ℕ) (h : Echoes S c)
    (hn : c.termCurpos + n ≤ c.termBufCount) : Echoes S (Console.stepForward^[n] c) := by
  induction n generalizing c with
  | zero => exact h
  | succ n ih =>
    obtain ⟨-, hcount, hcurpos⟩ := draws_forward.line_eq { c with termCurpos := c.termCurpos + 1 }
    refine ih (c := c.stepForward) (h.stepForward (by omega)) ?_
    rw [Console.stepForward, hcount, hcurpos]
    show c.termCurpos + 1 + n ≤ c.termBufCount
    omega

theorem Echoes.stepBack' (h : Echoes S c) (hpos : 0 < c.termCurpos) :
    Echoes S c.stepBack ∧ c.stepBack.termCurpos = c.termCurpos - 1 :=
  ⟨h.stepBack hpos, (draws_back.line_eq { c with termCurpos := c.termCurpos - 1 }).2.2⟩

theorem Echoes.delch' (h : Echoes S c) (hpos : 0 < c.termCurpos) :
    Echoes S c.delch ∧ c.delch.termCurpos = c.termCurpos - 1 := by
  refine ⟨h.delch hpos, ?_⟩
  rw [← Data.length_left, (edits_delch h.inLine).line, length_left_erase, Data.length_left]

/-- C-l takes the row the line begins in to the top. -/
theorem Echoes.clearAbove (h : Echoes S c) : Echoes S c.clearAbove := by
  have hdraws : Draws fun c' => forward^[c.termCurpos]
      (scroll^[(back^[c.termCurpos] c).curY.toNat] (back^[c.termCurpos] c')) :=
    (draws_forward.iterate _).comp ((draws_scroll.iterate _).comp (draws_back.iterate _))
  obtain ⟨hbuf, hcount, hcurpos⟩ : c.clearAbove.termBuf = c.termBuf ∧
      c.clearAbove.termBufCount = c.termBufCount ∧ c.clearAbove.termCurpos = c.termCurpos :=
    hdraws.line_eq c
  refine h.of_edits (edits_clearAbove h.inLine) ?_ ?_
  · intro i hi
    rw [hbuf]
    exact h.plain i (hcount ▸ hi)
  · intro s hat
    have hfits := hat.fits
    have hcur := h.inLine.curpos_le
    obtain ⟨hstart, hchars₁⟩ := back_iterate_onCell c.termCurpos hat.cursor
    have hrow : (back^[c.termCurpos] c).curY.toNat = s / 80 := by
      rw [hstart.curY]
      rfl
    have hsplit : s = s % 80 + 80 * (s / 80) := by omega
    rw [hsplit] at hstart
    obtain ⟨htop, hchars₂⟩ := scroll_iterate (s / 80) hstart
    obtain ⟨hend, hchars₃⟩ := forward_iterate_onCell c.termCurpos htop (by omega)
    have hclear : c.clearAbove = forward^[c.termCurpos]
        (scroll^[s / 80] (back^[c.termCurpos] c)) := by
      rw [← hrow]
      rfl
    rw [← hclear] at hend hchars₃
    refine ⟨s % 80, s / 80, hsplit.symm, ?_, ?_, ?_⟩
    · rw [hcount]
      omega
    · intro i hi
      rw [hcount] at hi
      rw [hchars₃, hchars₂ _ (by omega), hchars₁, hbuf, ← hat.shows i hi,
        show s % 80 + i + 80 * (s / 80) = s + i by omega]
    · rw [hcurpos]
      exact hend

/-! ## Keys -/

/-- Enter changes neither the line nor the screen. -/
theorem Echoes.enter (h : Echoes S c) : Echoes S { c with termReadDone := true } where
  inLine := ⟨h.inLine.curpos_le, h.inLine.count_le⟩
  termCanon := h.termCanon
  termNoecho := h.termNoecho
  reading := h.reading
  plain := h.plain
  echo := by
    obtain ⟨s, k, hs, hat⟩ := h.echo
    exact ⟨s, k, hs, hat.fits, hat.shows, hat.cursor.lt, hat.cursor.curX, hat.cursor.curY⟩

/-- The keys with Ctrl, except for C-c. -/
theorem Echoes.ctrlKey (h : Echoes S c) {key : BitVec 8} (hkey : key ≠ ch 'c') :
    Echoes S (c.ctrlKey key) := by
  apply ctrlKey_cases key h
  · exact h.clearAbove
  · exact h.stepBack
  · exact h.stepForward
  · exact h.iterate_before Echoes.stepBack' _ (Nat.le_refl _)
  · exact h.stepForward_iterate _ (Nat.add_sub_of_le h.inLine.curpos_le).le
  · rw [wordBefore]
    split
    · exact h
    · exact whileBefore_keeps _ (fun _ hc hpos => hc.delch hpos) _ h
  · exact h.iterate_before Echoes.delch' _ (Nat.le_refl _)
  · by_cases hpos : 0 < c.termCurpos
    · exact h.delch hpos
    · rw [Console.delch, if_neg hpos]
      exact h
  · exact fun hc => absurd hc hkey
  · exact h.enter

/-- The keys with Alt. -/
theorem Echoes.altKey (h : Echoes S c) (key : BitVec 8) : Echoes S (c.altKey key) := by
  apply altKey_cases key h
  · rw [wordBefore]
    split
    · exact h
    · exact whileBefore_keeps _ (fun _ hc hpos => hc.stepBack hpos) _ h
  · rw [wordAfter]
    split
    · exact h
    · exact whileAfter_keeps _ (fun _ hc hlt => hc.stepForward hlt) _ h

/-- **Every key but C-c**, if it is a plain byte. -/
theorem Echoes.handleKey (h : Echoes S c) {k : Key} (hk : Plain k.key)
    (hc : ¬ (k.modifiers = modCtrl ∧ k.key = ch 'c')) : Echoes S (c.handleKey k) := by
  rw [Console.handleKey, if_neg (by rw [h.termCanon]; exact Bool.noConfusion)]
  apply lineKey_cases k h
  · exact fun key hkey => h.ctrlKey fun heq => hc (hkey heq)
  · exact h.altKey k.key
  · exact h.addch hk

end Console

open Console

/-! ## The handler -/

/-- A key that neither interrupts nor switches terminals, and is not a control character. -/
structure Types (k : Key) : Prop where
  noSwitch : System.switchKey k = none
  noInterrupt : ¬ (k.modifiers = modCtrl ∧ k.key = ch 'c')
  plain : Plain k.key

/-- What a key that switches no terminals leaves of the terminal on display. -/
theorem System.load_termKeyHandler (s : System) {k : Key} (hk : switchKey k = none) :
    (s.termKeyHandler k).load s.curTermInd = ((s.load s.curTermInd).handleKey k).fresh := by
  rw [termKeyHandler, hk]
  dsimp only
  split
  · exact load_on_self s s.curTermInd fun c => c.handleKey k
  · exact load_on_self s s.curTermInd fun c => c.handleKey k

/-- A sequence of such keys. -/
theorem Console.Echoes.run {S : ℕ} {s : System} (h : Echoes S (s.load s.curTermInd))
    {ks : List Key} (hks : ∀ k ∈ ks, Types k) :
    (Runs.run System.termKeyHandler s ks).curTermInd = s.curTermInd ∧
      Echoes S ((Runs.run System.termKeyHandler s ks).load s.curTermInd) := by
  induction ks generalizing s with
  | nil => exact ⟨rfl, h⟩
  | cons k ks ih =>
    have hk := hks k List.mem_cons_self
    have hcur := (s.data_termKeyHandler hk.noSwitch).2
    have hload := s.load_termKeyHandler hk.noSwitch
    have hstep : Echoes S ((s.termKeyHandler k).load (s.termKeyHandler k).curTermInd) := by
      obtain ⟨hin, hcanon, hnoecho, hreading, hplain, start, n, hstart, hat⟩ :=
        h.handleKey hk.plain hk.noInterrupt
      rw [hcur, hload]
      exact ⟨⟨hin.curpos_le, hin.count_le⟩, hcanon, hnoecho, hreading, hplain, start, n, hstart,
        hat.fits, hat.shows, hat.cursor.lt, hat.cursor.curX, hat.cursor.curY⟩
    have hrest := ih hstep fun k' hk' => hks k' (List.mem_cons_of_mem k hk')
    rw [hcur] at hrest
    exact hrest

/-- A terminal whose line is empty. -/
theorem Console.Echoes.of_empty {c : Console} (hcanon : c.termCanon = false)
    (hnoecho : c.termNoecho = false) (hreading : c.reading = true) (hcount : c.termBufCount = 0)
    (hcurpos : c.termCurpos = 0) (hx : 0 ≤ c.curX ∧ c.curX < numCols)
    (hy : 0 ≤ c.curY ∧ c.curY < numRows) : Echoes c.pos.toNat c where
  inLine := by
    refine ⟨?_, ?_⟩
    · rw [hcurpos]
      exact Nat.zero_le _
    · rw [hcount]
      exact Nat.zero_le _
  termCanon := hcanon
  termNoecho := hnoecho
  reading := hreading
  plain := by
    intro i hi
    rw [hcount] at hi
    exact absurd hi (Nat.not_lt_zero i)
  echo := by
    have hcell := onCell_of_range hx.1 hx.2 hy.1 hy.2
    have hlt := hcell.lt
    refine ⟨c.pos.toNat, 0, rfl, by omega, ?_, ?_⟩
    · intro i hi
      rw [hcount] at hi
      exact absurd hi (Nat.not_lt_zero i)
    · rw [hcurpos]
      exact hcell

/-- **Echo.**  The terminal on display is in line mode with echo, a read is pending, the line is empty
and the cursor somewhere on the screen.  After every sequence `ks` of keys, without C-c, switches of
terminals and control characters, there is a cell `s` with the line on the screen from there on:
`EchoAt`.  It is a number of whole rows above the cell of the cursor at first, and after more keys the
line begins a number of whole rows above `s`. -/
theorem echo_agrees (s : System) (hcanon : (s.data s.curTermInd).termCanon = false)
    (hnoecho : (s.data s.curTermInd).termNoecho = false)
    (hreading : (s.data s.curTermInd).reading = true)
    (hcount : (s.data s.curTermInd).termBufCount = 0)
    (hcurpos : (s.data s.curTermInd).termCurpos = 0)
    (hx : 0 ≤ (s.data s.curTermInd).curX ∧ (s.data s.curTermInd).curX < numCols)
    (hy : 0 ≤ (s.data s.curTermInd).curY ∧ (s.data s.curTermInd).curY < numRows)
    (ks ks' : List Key) (hks : ∀ k ∈ ks ++ ks', Types k) :
    ∃ s₁ n₁, ((s₁ + 80 * n₁ : ℕ) : ℤ) =
        (s.data s.curTermInd).curX + 80 * (s.data s.curTermInd).curY ∧
      EchoAt ((Runs.run System.termKeyHandler s ks).load s.curTermInd) s₁ ∧
      ∃ s₂ n₂, s₂ + 80 * n₂ = s₁ ∧
        EchoAt ((Runs.run System.termKeyHandler s (ks ++ ks')).load s.curTermInd) s₂ := by
  have hbegin : Echoes (s.load s.curTermInd).pos.toNat (s.load s.curTermInd) :=
    Echoes.of_empty hcanon hnoecho hreading hcount hcurpos hx hy
  obtain ⟨hcur, hecho⟩ := hbegin.run fun k hk => hks k (List.mem_append_left ks' hk)
  obtain ⟨s₁, n₁, hs₁, hat₁⟩ := hecho.echo
  have hpos := (onCell_of_range (c := s.load s.curTermInd) hx.1 hx.2 hy.1 hy.2).pos
  refine ⟨s₁, n₁, ?_, hat₁, ?_⟩
  · rw [hs₁, ← hpos, Console.pos, numCols, Int.mul_comm]
    rfl
  · have hmiddle : Echoes s₁ ((Runs.run System.termKeyHandler s ks).load
        (Runs.run System.termKeyHandler s ks).curTermInd) := by
      rw [hcur]
      exact { hecho with echo := ⟨s₁, 0, rfl, hat₁⟩ }
    obtain ⟨-, hlast⟩ := hmiddle.run fun k hk => hks k (List.mem_append_right ks hk)
    obtain ⟨s₂, n₂, hs₂, hat₂⟩ := hlast.echo
    rw [hcur, ← Runs.run_append] at hat₂
    exact ⟨s₂, n₂, hs₂, hat₂⟩

/-- The cursor is on the last cell but one: two letters and C-b make the screen scroll, and the line
then begins one row further up. -/
theorem echo_agrees_last_row :
    let c : Data := { System.initData with curX := 78, curY := 24, reading := true }
    let s : System := { System.unclearedTerms (fun _ _ => 0) fun _ => 0 with data := fun _ => c }
    let ks : List Key := [⟨0, ch 'b'⟩, ⟨modCtrl, ch 'b'⟩, ⟨0, ch 'a'⟩]
    ∃ s₁ n₁, ((s₁ + 80 * n₁ : ℕ) : ℤ) = 1998 ∧
      EchoAt ((Runs.run System.termKeyHandler s ks).load 0) s₁ := by
  intro c s ks
  obtain ⟨s₁, n₁, hs₁, hat, -⟩ := echo_agrees s rfl rfl rfl rfl rfl (by decide) (by decide) ks []
    (by
      intro k hk
      rw [List.append_nil] at hk
      rcases List.mem_cons.mp hk with rfl | hk
      · exact ⟨by decide, by decide, by decide⟩
      rcases List.mem_cons.mp hk with rfl | hk
      · exact ⟨by decide, by decide, by decide⟩
      obtain rfl := List.mem_singleton.mp hk
      exact ⟨by decide, by decide, by decide⟩)
  exact ⟨s₁, n₁, hs₁, hat⟩

end Term
end CoreOS
