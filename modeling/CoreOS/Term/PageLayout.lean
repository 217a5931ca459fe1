import CoreOS.Term.EscParser
import CoreOS.Term.Screen
import CoreOS.Term.Separation

/-!
# The screen as a window

Text without escape sequences and backspaces can be thought of as written on a page of 80 columns and
any number of rows.  The screen then shows the last 25 rows the text has reached, and scrolling is no
more than the window moving down by a row: `screen_is_window`.

The page knows nothing of scrolling, of attributes or of clamped cursors.  That the window moves as it
should rests on `cellAt_scroll`, by which the copying loop takes whole cells up, character and
attribute, and the row that comes into view is blank with the default attribute.
-/

namespace CoreOS
namespace Term

open Console

/-! ## The page -/

/-- A page of 80 columns, and where the next character goes. -/
structure Page where
  char : ℕ → ℕ → BitVec 8
  row : ℕ
  col : ℕ

namespace Page

/-- A page with nothing on it. -/
def empty : Page := ⟨fun _ _ => ch ' ', 0, 0⟩

/-- The beginning of the next row. -/
def newRow (p : Page) : Page := { p with row := p.row + 1, col := 0 }

/-- The page with a character in its place. -/
def write (p : Page) (b : BitVec 8) : Page :=
  { p with char := Function.update p.char p.row (Function.update (p.char p.row) p.col b) }

/-- One byte of text. -/
def put (p : Page) (b : BitVec 8) : Page :=
  if b = ch '\n' then p.newRow
  else if b = ch '\r' then { p with col := 0 }
  else if p.col + 1 = 80 then (p.write b).newRow
  else { p.write b with col := p.col + 1 }

/-- A text, laid out from the top of the page. -/
def layout (bytes : List (BitVec 8)) : Page := bytes.foldl put empty

/-- The first row in the window. -/
def top (p : Page) : ℕ := p.row - 24

end Page

/-- A byte of text: not an ESC, and not a backspace. -/
def IsText (b : BitVec 8) : Prop := b ≠ esc ∧ b ≠ 8

instance (b : BitVec 8) : Decidable (IsText b) := inferInstanceAs (Decidable (_ ∧ _))

/-! ## The window -/

namespace Console

/-- The screen shows the window of the page, and the rows below the text are empty. -/
structure Shows (p : Page) (c : Console) : Prop where
  attr : c.attr = defAttr
  cells : ∀ y < 25, ∀ x < 80, c.cellAt (80 * y + x) = (p.char (y + p.top) x, defAttr)
  below : ∀ r, p.row < r → ∀ x, p.char r x = ch ' '

/-- **The screen is a window on the page**, and the cursors are at the same place. -/
structure Window (p : Page) (c : Console) : Prop extends Shows p c where
  col_lt : p.col < 80
  curX : c.curX = p.col
  curY : c.curY = (min p.row 24 : ℕ)

section window

variable {p : Page} {c : Console} {b : BitVec 8}

/-- The cursor somewhere in the row. -/
theorem Shows.window (h : Shows p c) {col : ℕ} (hcol : col < 80) (hx : c.curX = col)
    (hy : c.curY = (min p.row 24 : ℕ)) : Window { p with col := col } c.showCursor where
  toShows := ⟨h.attr, h.cells, h.below⟩
  col_lt := hcol
  curX := by
    show clamp numCols c.curX = _
    rw [clamp_of_mem (by omega) (by rw [numCols]; omega), hx]
  curY := by
    show clamp numRows c.curY = _
    rw [clamp_of_mem (by omega) (by rw [numRows]; omega), hy]

/-- `scroll` puts back the attribute it has saved. -/
theorem attr_scroll (c : Console) : c.scroll.attr = c.attr := by
  have hback : ∀ (c : Console) (a : BitVec 8), (c.setattr a).attr = a := fun _ _ => rfl
  rw [scroll, hback]

/-- **Scrolling** moves the window down by a row: the one that comes into view is the next one of the
page, which is still empty. -/
theorem Shows.scroll (h : Shows p c) (hrow : 24 ≤ p.row) : Shows p.newRow c.scroll := by
  have htop : p.newRow.top = p.top + 1 := by
    show p.row + 1 - 24 = p.row - 24 + 1
    omega
  refine ⟨(attr_scroll c).trans h.attr, fun y hy x hx => ?_,
    fun r hr => h.below r (Nat.lt_of_succ_lt hr)⟩
  rw [cellAt_scroll c (by omega), htop]
  by_cases hlast : y < 24
  · rw [if_pos (by omega), show 80 * y + x + 80 = 80 * (y + 1) + x by omega,
      h.cells (y + 1) (by omega) x hx, show y + (p.top + 1) = y + 1 + p.top by omega]
    rfl
  · have hbelow : p.row < y + (p.top + 1) := by
      unfold Page.top
      omega
    rw [if_neg (by omega), ← h.below _ hbelow x]
    rfl

/-- After scrolling the cursor is in the last row. -/
theorem Shows.window_bottom (h : Shows p.newRow c) (hrow : 24 ≤ p.row) (hx : c.curX = 0) :
    Window p.newRow (showCursor { c with curY := numRows - 1 }) := by
  have hshows : Shows p.newRow { c with curY := numRows - 1 } := ⟨h.attr, h.cells, h.below⟩
  refine hshows.window (Nat.zero_lt_succ 79) hx ?_
  show (numRows - 1 : ℤ) = (min (p.row + 1) 24 : ℕ)
  rw [numRows]
  omega

/-- **A new row.**  The cursor is put below the row it was in.  If that is below the screen, the screen
scrolls, and the row that comes into view is the next one of the page. -/
theorem Shows.newRow (h : Shows p c) (hx : c.curX = 0) (hy : c.curY = (min p.row 24 : ℕ) + 1) :
    Window p.newRow c.scrollIfBelow.showCursor := by
  rw [scrollIfBelow]
  by_cases hlow : p.row < 24
  · have hin : ¬ numRows ≤ c.curY := by
      rw [numRows]
      omega
    have htop : p.newRow.top = p.top := by
      show p.row + 1 - 24 = p.row - 24
      omega
    have hshows : Shows p.newRow c := by
      refine ⟨h.attr, fun y hy' x hx' => ?_, fun r hr => h.below r (Nat.lt_of_succ_lt hr)⟩
      rw [htop]
      exact h.cells y hy' x hx'
    rw [if_neg hin]
    refine hshows.window (Nat.zero_lt_succ 79) hx ?_
    show c.curY = (min (p.row + 1) 24 : ℕ)
    omega
  · have hbelow : numRows ≤ c.curY := by
      rw [numRows]
      omega
    rw [if_pos hbelow]
    exact (h.scroll (by omega)).window_bottom (by omega) (curX_scroll c hx)

/-! ## One byte -/

/-- A character goes into the same place of the page and of the window. -/
theorem Window.write (h : Window p c) (b : BitVec 8) :
    Shows (p.write b) (c.setVidChar c.curX c.curY b) := by
  have hcol := h.col_lt
  have hcurX := h.curX
  have hcurY := h.curY
  have hset := cellAt_setVidChar c (i := 80 * min p.row 24 + p.col) (x := c.curX) (y := c.curY)
    (by omega) (by omega) (by omega) b
  refine ⟨(attr_setVidChar c c.curX c.curY b).trans h.attr, fun y hy x hx => ?_, fun r hr x => ?_⟩
  · have htop : (p.write b).top = p.row - 24 := rfl
    have hchar : (p.write b).char = Function.update p.char p.row
      (Function.update (p.char p.row) p.col b) := rfl
    rw [hset, htop, hchar]
    by_cases hrow : y + (p.row - 24) = p.row
    · rw [hrow, Function.update_self]
      by_cases hx' : x = p.col
      · rw [if_pos (by omega), hx', Function.update_self, h.attr]
      · rw [if_neg (by omega), Function.update_of_ne hx', h.cells y hy x hx, Page.top, hrow]
    · rw [if_neg (by omega), Function.update_of_ne hrow, h.cells y hy x hx, Page.top]
  · have hr' : r ≠ p.row := Nat.ne_of_gt hr
    show Function.update p.char p.row (Function.update (p.char p.row) p.col b) r x = ch ' '
    rw [Function.update_of_ne hr']
    exact h.below r hr x

/-- The cursor after a character that does not end its row, and after one that does. -/
theorem advance_of_lt (h : c.curX + 1 < numCols) :
    c.advance.curX = c.curX + 1 ∧ c.advance.curY = c.curY := by
  rw [advance]
  dsimp only
  rw [if_neg (Int.not_le.mpr h)]
  exact ⟨rfl, rfl⟩

theorem advance_of_edge (h : c.curX + 1 = numCols) :
    c.advance.curX = 0 ∧ c.advance.curY = c.curY + 1 := by
  rw [advance]
  dsimp only
  rw [if_pos (Int.le_of_eq h.symm)]
  exact ⟨Int.sub_eq_zero.mpr h, rfl⟩

theorem Shows.advance (h : Shows p c) : Shows p c.advance := by
  rw [Console.advance]
  split
  · exact ⟨h.attr, h.cells, h.below⟩
  · exact ⟨h.attr, h.cells, h.below⟩

theorem Window.putc_plain (h : Window p c) (hb : Plain b) : Window (p.put b) (c.putc b) := by
  have hcol := h.col_lt
  have hshows := h.write b
  obtain ⟨hx, hy⟩ := curX_of_gauges (gauges_setVidChar c c.curX c.curY b)
  replace hx := hx.trans h.curX
  replace hy := hy.trans h.curY
  rw [putc_eq hb, Page.put, if_neg hb.1, if_neg hb.2.1]
  generalize c.setVidChar c.curX c.curY b = c' at hx hy hshows ⊢
  by_cases hedge : p.col + 1 = 80
  · obtain ⟨hx', hy'⟩ := advance_of_edge (c := c') (by rw [hx, numCols]; omega)
    rw [if_pos hedge]
    exact hshows.advance.newRow hx' (by rw [hy', hy]; rfl)
  · obtain ⟨hx', hy'⟩ := advance_of_lt (c := c') (by rw [hx, numCols]; omega)
    rw [if_neg hedge, scrollIfBelow, if_neg (by rw [hy', hy, numRows]; omega)]
    exact hshows.advance.window (by omega) (by rw [hx', hx]; rfl) (by rw [hy', hy]; rfl)

/-- **One byte of text** on the page and on the screen. -/
theorem Window.putc (h : Window p c) (hb : IsText b) : Window (p.put b) (c.putc b) := by
  by_cases hnewline : b = ch '\n'
  · have hshows : Shows p { c with curY := c.curY + 1, curX := 0 } := ⟨h.attr, h.cells, h.below⟩
    rw [Console.putc, Page.put, if_pos hnewline, if_pos hnewline]
    exact hshows.newRow rfl (by rw [← h.curY])
  · by_cases hreturn : b = ch '\r'
    · have hshows : Shows p { c with curX := 0 } := ⟨h.attr, h.cells, h.below⟩
      rw [Console.putc, Page.put, if_neg hnewline, if_neg hnewline, if_pos hreturn, if_pos hreturn]
      exact hshows.window (Nat.zero_lt_succ 79) rfl h.curY
    · exact h.putc_plain ⟨hnewline, hreturn, hb.2⟩

/-- Outside an escape sequence a byte of text goes to the screen, and begins none. -/
theorem Window.writeByte (h : Window p c) (hstate : c.state = .idle) (hb : IsText b) :
    Window (p.put b) (c.writeByte b) ∧ (c.writeByte b).state = .idle := by
  have hesc : b ≠ 0x1B := hb.1
  have hwrite : c.writeByte b = c.putc b := by
    rw [Console.writeByte, escParse, if_neg hesc, if_neg (by rw [hstate]; simp),
      if_neg (by rw [hstate]; simp), if_neg (by rw [hstate]; simp)]
    rfl
  rw [hwrite]
  exact ⟨h.putc hb, ((draws_putc b).state_eq c).trans hstate⟩

/-- **A text.** -/
theorem Window.termWrite {bytes : List (BitVec 8)} (h : Window p c) (hstate : c.state = .idle)
    (hbytes : ∀ b ∈ bytes, IsText b) : Window (bytes.foldl Page.put p) (c.termWrite bytes) := by
  induction bytes generalizing p c with
  | nil => exact h
  | cons b bytes ih =>
    obtain ⟨hwindow, hidle⟩ := h.writeByte hstate (hbytes b List.mem_cons_self)
    exact ih hwindow hidle fun b' hb' => hbytes b' (List.mem_cons_of_mem b hb')

end window

end Console

/-- An empty screen shows an empty page. -/
theorem window_blank : Window Page.empty blank where
  attr := rfl
  cells := by
    intro y hy x hx
    have hlt : 2 * (80 * y + x) + 1 < vidMemSize := by
      unfold vidMemSize
      omega
    rw [cellAt, charAt, loadVid, loadVid, dif_pos hlt, dif_pos (Nat.lt_of_succ_lt hlt)]
    show (if 2 * (80 * y + x) % 2 = 0 then ch ' ' else defAttr,
      if (2 * (80 * y + x) + 1) % 2 = 0 then ch ' ' else defAttr) = _
    rw [if_pos (by omega), if_neg (by omega)]
    rfl
  below := fun _ _ _ => rfl
  col_lt := Nat.zero_lt_succ 79
  curX := rfl
  curY := rfl

/-- **The screen is a window on the page.**  A text written with `term_write` on a terminal as
`init_term` leaves it is laid out on an unbounded page of 80 columns.  If the layout ends in row `r`,
row `y` of the screen shows row `y + (r - 24)` of the page, in the default attribute and blank where
nothing has been written, and the cursor of the terminal is where the layout ends. -/
theorem screen_is_window (pages : PagePtr → Screen) (signals : ℕ → BitVec 8) (t : Fin termNum)
    (bytes : List (BitVec 8)) (hbytes : ∀ b ∈ bytes, IsText b) :
    let c := ((System.initTerm pages signals).termWrite t bytes).load t
    let p := Page.layout bytes
    (∀ y < 25, ∀ x < 80, c.cellAt (80 * y + x) = (p.char (y + (p.row - 24)) x, defAttr)) ∧
      c.curX = p.col ∧ c.curY = (min p.row 24 : ℕ) := by
  intro c p
  have hcur : ∀ s : System, ({ s with curTerm := some t } : System).load t = s.load t := fun _ => rfl
  have hload : c = (blank.termWrite bytes).fresh := by
    show ((System.initTerm pages signals).termWrite t bytes).load t = _
    rw [System.termWrite, System.load_on_self, hcur, (sep_initTerm pages signals).views]
  have hfresh : ∀ d : Console, Window p d → Window p d.fresh :=
    fun d h => ⟨⟨h.attr, h.cells, h.below⟩, h.col_lt, h.curX, h.curY⟩
  have hwindow : Window p c := by
    rw [hload]
    exact hfresh _ (window_blank.termWrite rfl hbytes)
  exact ⟨hwindow.cells, hwindow.curX, hwindow.curY⟩

/-- A text of 26 lines: the first has left the screen. -/
theorem screen_is_window_scrolled :
    let bytes := List.replicate 25 (ch '\n') ++ [ch 'a', ch 'b', ch '\r']
    let c := ((System.initTerm (fun _ _ => 0) fun _ => 0).termWrite 1 bytes).load 1
    (∀ b ∈ bytes, IsText b) ∧ c.cellAt 1921 = (ch 'b', defAttr) ∧ c.curX = 0 ∧ c.curY = 24 := by
  intro bytes c
  have hbytes : ∀ b ∈ bytes, IsText b := by decide
  obtain ⟨hcells, hx, hy⟩ := screen_is_window (fun _ _ => 0) (fun _ => 0) 1 bytes hbytes
  refine ⟨hbytes, (hcells 24 (by decide) 1 (by decide)).trans ?_, hx, hy⟩
  decide

end Term
end CoreOS
