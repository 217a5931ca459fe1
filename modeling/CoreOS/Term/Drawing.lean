import CoreOS.Term.Editing

/-!
# The functions that draw

`putc`, `back`, `forward`, `scroll` and `setpos` work on the screen, the cursor and the attribute of a
terminal.  They neither read nor write anything else in its record: not the line that is being
edited, not the escape sequence, not the settings.

Both halves of this are one equation.  `withLine` gives a terminal another record and lets it keep
its screen, cursor and attribute, and a function that `Draws` does not notice.  With the record that
was there anyway the equation says that the function changes nothing in it.
-/

namespace CoreOS
namespace Term
namespace Console

/-- The screen, the cursor and the attribute of `c`, with the rest of the record from `d`. -/
def withLine (c : Console) (d : Data) : Console :=
  { d with
    curX := c.curX
    curY := c.curY
    attr := c.attr
    screen := c.screen
    shown := c.shown
    oob := c.oob }

/-- A function that does not look beyond the screen, the cursor and the attribute, and makes no
store outside the screen. -/
structure Draws (f : Console → Console) : Prop where
  withLine : ∀ c d, f (c.withLine d) = (f c).withLine d
  oob : ∀ c, (f c).oob = c.oob

namespace Draws

variable {f g : Console → Console}

theorem comp (hf : Draws f) (hg : Draws g) : Draws fun c => f (g c) where
  withLine := by
    intro c d
    rw [hg.withLine, hf.withLine]
  oob := fun c => (hf.oob (g c)).trans (hg.oob c)

theorem iterate (hf : Draws f) (n : ℕ) : Draws f^[n] := by
  induction n with
  | zero => exact ⟨fun _ _ => rfl, fun _ => rfl⟩
  | succ n ih => exact ih.comp hf

theorem foldl {α : Type*} {f : Console → α → Console} (hf : ∀ a, Draws fun c => f c a)
    (l : List α) : Draws fun c => l.foldl f c := by
  induction l with
  | nil => exact ⟨fun _ _ => rfl, fun _ => rfl⟩
  | cons a l ih => exact ih.comp (hf a)

/-- **Such a function changes nothing else either.** -/
theorem eq_withLine (hf : Draws f) (c : Console) : f c = (f c).withLine c.toData :=
  hf.withLine c c.toData

/-- In particular the line stays. -/
theorem line_eq (hf : Draws f) (c : Console) : (f c).termBuf = c.termBuf ∧
    (f c).termBufCount = c.termBufCount ∧ (f c).termCurpos = c.termCurpos := by
  rw [hf.eq_withLine c]
  exact ⟨rfl, rfl, rfl⟩

end Draws

/-! ## One by one -/

theorem draws_setpos (x y : ℤ) : Draws fun c => c.setpos x y := ⟨fun _ _ => rfl, fun _ => rfl⟩

theorem draws_setattr (a : BitVec 8) : Draws fun c => c.setattr a := ⟨fun _ _ => rfl, fun _ => rfl⟩

theorem draws_showCursor : Draws showCursor := ⟨fun _ _ => rfl, fun _ => rfl⟩

theorem storeVid_withLine (c : Console) (d : Data) (i : ℕ) (b : BitVec 8) :
    (c.withLine d).storeVid i b = (c.storeVid i b).withLine d := by
  rw [storeVid, storeVid]
  split
  · rfl
  · rfl

theorem oob_of_gauges {c c' : Console} (h : c'.gauges = c.gauges) : c'.oob = c.oob :=
  congrArg (fun g => g.2.2.2.2.2.2.2) h

theorem draws_setVidChar (x y : ℤ) (b : BitVec 8) : Draws fun c => c.setVidChar x y b where
  withLine := by
    intro c d
    rw [setVidChar, setVidChar]
    split
    · rfl
    · rw [storeVid_withLine, storeVid_withLine]
      rfl
  oob := fun c => oob_of_gauges (gauges_setVidChar c x y b)

theorem draws_scrollCell (y x : ℕ) : Draws fun c => scrollCell y c x where
  withLine := fun c d =>
    (draws_setVidChar x y (c.getVidChar x (y + 1))).withLine
      (c.setattr (c.loadVid (cell x (y + 1) + 1))) d
  oob := fun c => oob_of_gauges (gauges_scrollCell y c x)

theorem draws_scrollRows : Draws scrollRows :=
  Draws.foldl (fun y => Draws.foldl (draws_scrollCell y) (List.range 80)) (List.range 24)

theorem draws_blankRow : Draws blankRow :=
  Draws.foldl (fun x => draws_setVidChar (x : ℕ) (numRows - 1) (ch ' ')) (List.range 80)

/-- The end of `scroll`: the cursor moves up with the rows, and the attribute is put back. -/
theorem upRow_withLine (c : Console) (a : BitVec 8) (d : Data) :
    ((c.withLine d).setpos (c.withLine d).curX ((c.withLine d).curY - 1)).setattr a =
      ((c.setpos c.curX (c.curY - 1)).setattr a).withLine d :=
  rfl

theorem upRow_oob (c : Console) (a : BitVec 8) :
    ((c.setpos c.curX (c.curY - 1)).setattr a).oob = c.oob :=
  rfl

/-- The loops of `scroll`. -/
theorem draws_scrollLoops : Draws fun c => (c.scrollRows.setattr defAttr).blankRow :=
  draws_blankRow.comp ((draws_setattr defAttr).comp draws_scrollRows)

theorem draws_scroll : Draws scroll where
  withLine := by
    intro c d
    have hloops : ((c.withLine d).scrollRows.setattr defAttr).blankRow =
        (c.scrollRows.setattr defAttr).blankRow.withLine d :=
      draws_scrollLoops.withLine c d
    rw [scroll, scroll, hloops]
    exact upRow_withLine _ c.attr d
  oob := by
    intro c
    have hloops : (c.scrollRows.setattr defAttr).blankRow.oob = c.oob := draws_scrollLoops.oob c
    rw [scroll]
    exact (upRow_oob _ c.attr).trans hloops

theorem draws_back : Draws back where
  withLine := by
    intro c d
    by_cases h : c.curX - 1 < 0
    · simp only [back, Console.withLine, h, if_true]
      rfl
    · simp only [back, Console.withLine, h, if_false]
      rfl
  oob := by
    intro c
    rw [back]
    dsimp only
    split
    · rfl
    · rfl

theorem draws_advance : Draws advance where
  withLine := by
    intro c d
    by_cases h : numCols ≤ c.curX + 1
    · simp only [advance, Console.withLine, h, if_true]
    · simp only [advance, Console.withLine, h, if_false]
  oob := by
    intro c
    rw [advance]
    dsimp only
    split
    · rfl
    · rfl

theorem draws_forward : Draws forward := draws_showCursor.comp draws_advance

/-- The choice that `scrollIfBelow` makes, between any two terminals. -/
theorem ite_withLine (c c' : Console) (d : Data) :
    (if numRows ≤ c.curY then { c'.withLine d with curY := numRows - 1 } else c.withLine d) =
      (if numRows ≤ c.curY then { c' with curY := numRows - 1 } else c).withLine d := by
  split
  · rfl
  · rfl

theorem ite_oob (c c' : Console) (h : c'.oob = c.oob) :
    (if numRows ≤ c.curY then { c' with curY := numRows - 1 } else c).oob = c.oob := by
  split
  · exact h
  · rfl

theorem draws_scrollIfBelow : Draws scrollIfBelow where
  withLine := by
    intro c d
    rw [scrollIfBelow, scrollIfBelow, draws_scroll.withLine]
    exact ite_withLine c c.scroll d
  oob := by
    intro c
    rw [scrollIfBelow]
    exact ite_oob c c.scroll (draws_scroll.oob c)

theorem draws_newline : Draws fun c => scrollIfBelow { c with curY := c.curY + 1, curX := 0 } :=
  draws_scrollIfBelow.comp ⟨fun _ _ => rfl, fun _ => rfl⟩

theorem draws_rubOut : Draws fun c => c.back.setVidChar c.back.curX c.back.curY (ch ' ') where
  withLine := by
    intro c d
    rw [draws_back.withLine]
    exact (draws_setVidChar c.back.curX c.back.curY (ch ' ')).withLine c.back d
  oob := fun c => ((draws_setVidChar _ _ _).oob c.back).trans (draws_back.oob c)

theorem draws_putPlain (b : BitVec 8) :
    Draws fun c => (c.setVidChar c.curX c.curY b).advance.scrollIfBelow where
  withLine := fun c d =>
    ((draws_scrollIfBelow.comp draws_advance).comp (draws_setVidChar c.curX c.curY b)).withLine c d
  oob := fun c =>
    ((draws_scrollIfBelow.comp draws_advance).comp (draws_setVidChar c.curX c.curY b)).oob c

/-- **`putc` draws.** -/
theorem draws_putc (b : BitVec 8) : Draws fun c => c.putc b where
  withLine := by
    intro c d
    rw [putc, putc]
    dsimp only
    split_ifs
    · exact (draws_showCursor.comp draws_newline).withLine c d
    · rfl
    · exact (draws_showCursor.comp draws_rubOut).withLine c d
    · exact (draws_showCursor.comp (draws_putPlain b)).withLine c d
  oob := by
    intro c
    rw [putc]
    dsimp only
    split_ifs
    · exact (draws_showCursor.comp draws_newline).oob c
    · rfl
    · exact (draws_showCursor.comp draws_rubOut).oob c
    · exact (draws_showCursor.comp (draws_putPlain b)).oob c

theorem draws_puts (s : List (BitVec 8)) : Draws fun c => c.puts s := Draws.foldl draws_putc s

end Console
end Term
end CoreOS
