import CoreOS.Term.Console
import Mathlib.Tactic.Common

/-!
# What every function of a terminal keeps

Between two operations the cursor of a terminal is on the screen, the chip, if it was told of the
cursor at all, was told the position it is at, the cursor of the line editor is inside the line,
and the line and the escape sequence fit into their arrays.  `Good p` says this of a terminal whose
cursor was at position `p` when the operation began.  Every function of `Console` keeps it, whatever
the bytes it is given and whatever is in the arrays.

Most functions move no cursor and no counter.  `gauges` collects the fields that `Good` is about,
so that for these functions there is an equation to prove and nothing else.  A function that ends in
`setpos` puts the cursor right wherever it was; of it one only needs the counters, `Fits`.
-/

namespace CoreOS
namespace Term
namespace Console

/-! ## The invariant -/

/-- The cursor as an index into the cells of the screen. -/
def pos (c : Console) : ℤ := c.curX + c.curY * numCols

/-- The line and the escape sequence are inside their arrays, and no store has been outside one. -/
structure Fits (c : Console) : Prop where
  curpos_le : c.termCurpos ≤ c.termBufCount
  count_le : c.termBufCount ≤ termBufSize
  bufLen_le : c.bufLen ≤ 3
  argLen_le : c.argLen ≤ 3
  inside : c.oob = false

/-- A terminal between two steps of an operation that began with the cursor at `p`. -/
structure Good (p : ℤ) (c : Console) : Prop extends Fits c where
  x_nonneg : 0 ≤ c.curX
  x_lt : c.curX < numCols
  y_nonneg : 0 ≤ c.curY
  y_lt : c.curY < numRows
  /-- The chip was told the position, or the cursor is where it was. -/
  shown_eq : c.shown.getD p = c.pos

/-- What `Fits` looks at. -/
def counters (c : Console) : ℕ × ℕ × ℕ × ℕ × Bool :=
  (c.termCurpos, c.termBufCount, c.bufLen, c.argLen, c.oob)

/-- What `Good` looks at. -/
def gauges (c : Console) : ℤ × ℤ × Option ℤ × ℕ × ℕ × ℕ × ℕ × Bool :=
  (c.curX, c.curY, c.shown, c.counters)

theorem counters_of_gauges {c c' : Console} (h : c'.gauges = c.gauges) :
    c'.counters = c.counters :=
  congrArg (fun g => g.2.2.2) h

theorem Fits.of_counters {c c' : Console} (hc : Fits c) (h : c'.counters = c.counters) :
    Fits c' := by
  simp only [counters, Prod.mk.injEq] at h
  obtain ⟨hcurpos, hcount, hbuf, harg, hoob⟩ := h
  exact
    { curpos_le := by rw [hcurpos, hcount]; exact hc.curpos_le
      count_le := by rw [hcount]; exact hc.count_le
      bufLen_le := by rw [hbuf]; exact hc.bufLen_le
      argLen_le := by rw [harg]; exact hc.argLen_le
      inside := by rw [hoob]; exact hc.inside }

theorem Good.of_gauges {p : ℤ} {c c' : Console} (hc : Good p c) (h : c'.gauges = c.gauges) :
    Good p c' := by
  have hfits : Fits c' := hc.toFits.of_counters (counters_of_gauges h)
  simp only [gauges, Prod.mk.injEq] at h
  obtain ⟨hx, hy, hshown, -⟩ := h
  exact
    { hfits with
      x_nonneg := by rw [hx]; exact hc.x_nonneg
      x_lt := by rw [hx]; exact hc.x_lt
      y_nonneg := by rw [hy]; exact hc.y_nonneg
      y_lt := by rw [hy]; exact hc.y_lt
      shown_eq := by rw [pos, hshown, hx, hy]; exact hc.shown_eq }

/-- A change that moves the counters, but not the cursor. -/
theorem Good.of_fits {p : ℤ} {c c' : Console} (hc : Good p c) (hfits : Fits c')
    (hx : c'.curX = c.curX) (hy : c'.curY = c.curY) (hshown : c'.shown = c.shown) : Good p c' where
  toFits := hfits
  x_nonneg := by rw [hx]; exact hc.x_nonneg
  x_lt := by rw [hx]; exact hc.x_lt
  y_nonneg := by rw [hy]; exact hc.y_nonneg
  y_lt := by rw [hy]; exact hc.y_lt
  shown_eq := by rw [pos, hshown, hx, hy]; exact hc.shown_eq

/-! ## Loops -/

section Loops

variable {P : Console → Prop} {f : Console → Console}

theorem whileBefore_keeps (p : BitVec 8 → Bool) (hf : ∀ c, P c → 0 < c.termCurpos → P (f c))
    (n : ℕ) {c : Console} (hc : P c) : P (whileBefore p f n c) := by
  induction n generalizing c with
  | zero => exact hc
  | succ n ih =>
    unfold whileBefore
    split
    · rename_i hround
      exact ih (hf c hc hround.1)
    · exact hc

/-- The loops move the cursor of the line only while it is inside the line. -/
theorem whileAfter_keeps (p : BitVec 8 → Bool)
    (hf : ∀ c, P c → c.termCurpos < c.termBufCount → P (f c)) (n : ℕ) {c : Console} (hc : P c) :
    P (whileAfter p f n c) := by
  induction n generalizing c with
  | zero => exact hc
  | succ n ih =>
    unfold whileAfter
    split
    · rename_i hround
      exact ih (hf c hc hround.1)
    · exact hc

/-- A loop no round of which moves a gauge moves none. -/
theorem gauges_foldl {α : Type*} {g : Console → α → Console} (l : List α) (c : Console)
    (hg : ∀ c' : Console, c'.gauges = c.gauges → ∀ a ∈ l, (g c' a).gauges = c'.gauges) :
    (l.foldl g c).gauges = c.gauges := by
  refine List.foldlRecOn (motive := fun c' : Console => c'.gauges = c.gauges) l g rfl ?_
  intro c' hc' a ha
  rw [hg c' hc' a ha, hc']

end Loops

/-! ## The screen -/

theorem gauges_storeVid (c : Console) {i : ℕ} (hi : i < vidMemSize) (b : BitVec 8) :
    (c.storeVid i b).gauges = c.gauges := by
  rw [storeVid, dif_pos hi]
  rfl

theorem cell_lt {x y : ℤ} (h : ¬ offScreen x y) : cell x y + 1 < vidMemSize := by
  simp only [offScreen, numCols, numRows, not_or] at h
  simp only [cell, vidMemSize, numCols]
  omega

theorem gauges_setVidChar (c : Console) (x y : ℤ) (b : BitVec 8) :
    (c.setVidChar x y b).gauges = c.gauges := by
  rw [setVidChar]
  split
  · rfl
  · rename_i hon
    have hcell := cell_lt hon
    rw [gauges_storeVid _ hcell, gauges_storeVid _ (Nat.lt_of_succ_lt hcell)]

theorem gauges_clear (c : Console) : c.clear.gauges = c.gauges := by
  refine gauges_foldl _ c fun c _ i hi => ?_
  have hi' : i < 25 * 80 := List.mem_range.mp hi
  have hodd : 2 * i + 1 < vidMemSize := by rw [vidMemSize]; omega
  rw [gauges_storeVid _ hodd, gauges_storeVid _ (Nat.lt_of_succ_lt hodd)]

theorem gauges_scrollCell (y : ℕ) (c : Console) (x : ℕ) : (scrollCell y c x).gauges = c.gauges := by
  rw [scrollCell, gauges_setVidChar]
  rfl

theorem clamp_nonneg {n : ℤ} (hn : 0 < n) (x : ℤ) : 0 ≤ clamp n x := by
  unfold clamp
  split_ifs <;> omega

theorem clamp_lt {n : ℤ} (hn : 0 < n) (x : ℤ) : clamp n x < n := by
  unfold clamp
  split_ifs <;> omega

/-- After `setpos` the cursor is on the screen and the chip has been told, wherever the cursor was
before. -/
theorem Fits.good_setpos {c : Console} (h : Fits c) (p x y : ℤ) : Good p (c.setpos x y) where
  toFits := h.of_counters rfl
  x_nonneg := clamp_nonneg (by decide) x
  x_lt := clamp_lt (by decide) x
  y_nonneg := clamp_nonneg (by decide) y
  y_lt := clamp_lt (by decide) y
  shown_eq := rfl

theorem gauges_setattr (c : Console) (a : BitVec 8) : (c.setattr a).gauges = c.gauges := rfl

theorem gauges_scrollRows (c : Console) : c.scrollRows.gauges = c.gauges :=
  gauges_foldl _ c fun c _ y _ => gauges_foldl _ c fun c _ x _ => gauges_scrollCell y c x

theorem gauges_blankRow (c : Console) : c.blankRow.gauges = c.gauges :=
  gauges_foldl _ c fun c _ x _ => gauges_setVidChar c x _ _

theorem Fits.good_scroll {c : Console} (h : Fits c) (p : ℤ) : Good p c.scroll := by
  have hblank : Fits (c.scrollRows.setattr defAttr).blankRow := by
    refine h.of_counters (counters_of_gauges ?_)
    rw [gauges_blankRow, gauges_setattr, gauges_scrollRows]
  rw [scroll]
  exact (hblank.good_setpos p _ _).of_gauges (gauges_setattr _ _)

theorem Fits.good_back {c : Console} (h : Fits c) (p : ℤ) : Good p c.back := by
  refine Fits.good_setpos ?_ p _ _
  refine h.of_counters ?_
  split
  · rfl
  · rfl

theorem Fits.advance {c : Console} (h : Fits c) : Fits c.advance := by
  rw [Console.advance]
  split
  · exact h.of_counters rfl
  · exact h.of_counters rfl

theorem Fits.good_forward {c : Console} (h : Fits c) (p : ℤ) : Good p c.forward :=
  h.advance.good_setpos p _ _

theorem Fits.withRow {c : Console} (h : Fits c) (y : ℤ) : Fits { c with curY := y } :=
  h.of_counters rfl

theorem Fits.scrollIfBelow {c : Console} (h : Fits c) : Fits c.scrollIfBelow := by
  rw [Console.scrollIfBelow]
  split
  · exact (h.good_scroll 0).toFits.withRow _
  · exact h

theorem Fits.setVidChar {c : Console} (h : Fits c) (x y : ℤ) (b : BitVec 8) :
    Fits (c.setVidChar x y b) :=
  h.of_counters (counters_of_gauges (gauges_setVidChar c x y b))

theorem Fits.good_putc {c : Console} (h : Fits c) (p : ℤ) (b : BitVec 8) : Good p (c.putc b) := by
  refine Fits.good_setpos ?_ p _ _
  split_ifs with hnewline hreturn hbackspace
  · exact Fits.scrollIfBelow (h.of_counters rfl)
  · exact h.of_counters rfl
  · exact (h.good_back 0).toFits.setVidChar _ _ _
  · exact (h.setVidChar _ _ _).advance.scrollIfBelow

theorem Good.puts {p : ℤ} {c : Console} (h : Good p c) (s : List (BitVec 8)) :
    Good p (c.puts s) :=
  List.foldlRecOn (motive := Good p) s putc h fun _ hc b _ => hc.toFits.good_putc p b

/-! ## Escape sequences -/

theorem Fits.storeBuf {c : Console} (h : Fits c) {i : ℕ} (hi : i < 4) (b : BitVec 8) :
    Fits (c.storeBuf i b) :=
  { h with inside := by simp [Console.storeBuf, h.inside, hi] }

theorem Fits.storeArgs {c : Console} (h : Fits c) {i : ℕ} (hi : i < 4) (b : BitVec 8) :
    Fits (c.storeArgs i b) :=
  { h with inside := by simp [Console.storeArgs, h.inside, hi] }

theorem Good.setting {p : ℤ} {c : Console} (h : Good p c) (on : Bool) : Good p (c.setting on) := by
  rw [Console.setting]
  split_ifs
  · exact h
  · exact h.of_gauges rfl
  · exact h.of_gauges rfl
  · exact h

/-- **What a sequence can do.** -/
theorem escFuncs_cases {P : Console → Prop} {c : Console} (hsame : P c)
    (hattr : ∀ attr, P (c.setattr attr)) (hpos : ∀ x y, P (c.setpos x y))
    (hstore : P { c with curXStore := c.curX, curYStore := c.curY }) (hclear : P c.clear)
    (hsetting : ∀ on, P (c.setting on)) (f : BitVec 8) : P (c.escFuncs f) := by
  rw [Console.escFuncs]
  -- the colours
  refine iteInduction (motive := P) (fun _ => iteInduction (motive := P)
    (fun _ => hattr _) fun _ => hattr _) fun _ => ?_
  refine iteInduction (motive := P) (fun _ => iteInduction (motive := P)
    (fun _ => hattr _) fun _ => hattr _) fun _ => ?_
  -- the cursor: set, stored, restored
  refine iteInduction (motive := P) (fun _ => iteInduction (motive := P)
    (fun _ => hpos _ _) fun _ => hsame) fun _ => ?_
  refine iteInduction (motive := P) (fun _ => iteInduction (motive := P)
    (fun _ => hstore) fun _ => hsame) fun _ => ?_
  refine iteInduction (motive := P) (fun _ => iteInduction (motive := P)
    (fun _ => hpos _ _) fun _ => hsame) fun _ => ?_
  -- the screen and the settings
  refine iteInduction (motive := P) (fun _ => iteInduction (motive := P)
    (fun _ => hclear) fun _ => hsame) fun _ => ?_
  refine iteInduction (motive := P) (fun _ => hsetting true) fun _ => ?_
  exact iteInduction (motive := P) (fun _ => hsetting false) fun _ => hsame

theorem Good.escFuncs {p : ℤ} {c : Console} (h : Good p c) (f : BitVec 8) :
    Good p (c.escFuncs f) :=
  escFuncs_cases h (fun attr => h.of_gauges (gauges_setattr c attr))
    (fun x y => h.toFits.good_setpos p x y) (h.of_gauges rfl) (h.of_gauges (gauges_clear c))
    (fun on => h.setting on) f

theorem Good.resetEsc {p : ℤ} {c : Console} (h : Good p c) (state : EscState) :
    Good p { c with state := state, bufLen := 0, argLen := 0 } :=
  h.of_fits { h.toFits with bufLen_le := Nat.zero_le 3, argLen_le := Nat.zero_le 3 } rfl rfl rfl

theorem Good.resetBuf {p : ℤ} {c : Console} (h : Good p c) : Good p { c with bufLen := 0 } :=
  h.of_fits { h.toFits with bufLen_le := Nat.zero_le 3 } rfl rfl rfl

theorem Good.finishEsc {p : ℤ} {c : Console} (h : Good p c) (f : BitVec 8) :
    Good p (c.finishEsc f) :=
  (h.escFuncs f).resetEsc .idle

theorem Good.pushArg {p : ℤ} {c : Console} (h : Good p c) : Good p c.pushArg := by
  rw [Console.pushArg]
  split
  · rename_i hroom
    have hbuf : Fits (c.storeBuf c.bufLen 0) := h.toFits.storeBuf (Nat.lt_succ_of_le h.bufLen_le) 0
    have hargs := hbuf.storeArgs (Nat.lt_succ_of_lt hroom)
      ((atoi (stringIn (c.storeBuf c.bufLen 0).buf 4) 10).setWidth 8)
    exact h.of_fits { hargs with argLen_le := hroom } rfl rfl rfl
  · exact h

theorem Good.argParse {p : ℤ} {c : Console} (h : Good p c) (b : BitVec 8) :
    Good p (c.argParse b) := by
  rw [Console.argParse]
  split_ifs with hnum hroom hend
  · refine h.of_fits ?_ rfl rfl rfl
    exact { h.toFits.storeBuf (Nat.lt_succ_of_lt hroom) b with bufLen_le := hroom }
  · exact h
  · exact (h.pushArg.resetBuf).finishEsc b
  · exact h.pushArg.resetBuf

theorem Good.escParse {p : ℤ} {c : Console} (h : Good p c) (b : BitVec 8) :
    Good p (c.escParse b).2 := by
  rw [Console.escParse]
  split_ifs
  · exact h.of_gauges rfl
  · exact h.of_gauges rfl
  · exact (h.resetEsc .argParse).argParse b
  · exact (h.resetEsc .argParse).finishEsc b
  · exact h.argParse b
  · exact h

theorem Good.writeByte {p : ℤ} {c : Console} (h : Good p c) (b : BitVec 8) :
    Good p (c.writeByte b) := by
  show Good p (if (c.escParse b).1 then (c.escParse b).2.putc b else (c.escParse b).2)
  split
  · exact (h.escParse b).toFits.good_putc p b
  · exact h.escParse b

/-- **Output keeps a terminal good.** -/
theorem Good.termWrite {p : ℤ} {c : Console} (h : Good p c) (bytes : List (BitVec 8)) :
    Good p (c.termWrite bytes) :=
  List.foldlRecOn (motive := Good p) bytes Console.writeByte h fun _ hc b _ => hc.writeByte b

/-! ## The line editor -/

theorem gauges_storeTermBuf {c : Console} {i : ℕ} (hi : i ≤ termBufSize) (b : BitVec 8) :
    (c.storeTermBuf i b).gauges = c.gauges := by
  have hin : ¬ termBufSize + 1 ≤ i := Nat.not_le_of_lt (Nat.lt_succ_of_le hi)
  simp [gauges, counters, storeTermBuf, hin]

theorem Fits.gauges_openGap {c : Console} (h : Fits c) : c.openGap.gauges = c.gauges := by
  refine gauges_foldl _ c fun c' hc' j _ => gauges_storeTermBuf ?_ _
  have hcount := (h.of_counters (counters_of_gauges hc')).count_le
  exact Nat.le_trans (Nat.sub_le _ j) hcount

theorem Fits.gauges_closeGap {c : Console} (h : Fits c) : c.closeGap.gauges = c.gauges := by
  refine gauges_foldl _ c fun c' _ i hi => gauges_storeTermBuf ?_ _
  rw [List.mem_range'_1] at hi
  have hcount := h.count_le
  omega

theorem Good.putRest {p : ℤ} {c : Console} (h : Good p c) : Good p c.putRest :=
  List.foldlRecOn (motive := Good p) _ _ h fun _ hc _ _ => hc.toFits.good_putc p _

theorem Good.back {p : ℤ} {c : Console} (h : Good p c) : Good p c.back := h.toFits.good_back p

theorem Good.insertCh {p : ℤ} {c : Console} (h : Good p c) (hroom : c.termBufCount < termBufSize)
    (b : BitVec 8) : Good p (c.insertCh b) := by
  have hgap : c.openGap.gauges = c.gauges := h.toFits.gauges_openGap
  have hopen : Good p c.openGap := h.of_gauges hgap
  have hcount : c.openGap.termBufCount = c.termBufCount := congrArg (fun g => g.2.2.2.2.1) hgap
  have hstore : Good p (c.openGap.storeTermBuf c.openGap.termCurpos b) :=
    hopen.of_gauges (gauges_storeTermBuf (Nat.le_trans hopen.curpos_le hopen.count_le) b)
  refine hstore.of_fits ?_ rfl rfl rfl
  exact
    { hstore.toFits with
      curpos_le := Nat.succ_le_succ hopen.curpos_le
      count_le := by
        show c.openGap.termBufCount + 1 ≤ termBufSize
        rw [hcount]
        exact hroom }

theorem Good.addch {p : ℤ} {c : Console} (h : Good p c) (b : BitVec 8) : Good p (c.addch b) := by
  rw [Console.addch]
  dsimp only
  split_ifs with hroom
  · exact h.insertCh hroom.1 b
  · have hecho := ((h.insertCh hroom.1 b).toFits.good_putc p b).putRest
    exact Function.Iterate.rec (Good p) hecho (fun _ => Good.back) _
  · exact h

theorem Good.removeCh {p : ℤ} {c : Console} (h : Good p c) : Good p c.removeCh := by
  have hclose : Good p c.closeGap := h.of_gauges h.toFits.gauges_closeGap
  refine hclose.of_fits ?_ rfl rfl rfl
  exact
    { hclose.toFits with
      curpos_le := Nat.sub_le_sub_right hclose.curpos_le 1
      count_le := Nat.le_trans (Nat.sub_le _ 1) hclose.count_le }

theorem Good.delch {p : ℤ} {c : Console} (h : Good p c) : Good p c.delch := by
  rw [Console.delch]
  dsimp only
  split_ifs
  · exact h.removeCh
  · exact (h.removeCh.back.putRest.toFits.good_putc p (ch ' ')).toFits.good_setpos p _ _
  · exact h

theorem Good.withCurpos {p : ℤ} {c : Console} (h : Good p c) {n : ℕ} (hn : n ≤ c.termBufCount) :
    Good p { c with termCurpos := n } :=
  h.of_fits { h.toFits with curpos_le := hn } rfl rfl rfl

theorem Good.stepBack {p : ℤ} {c : Console} (h : Good p c) : Good p c.stepBack := by
  have hcurpos : c.termCurpos - 1 ≤ c.termBufCount := Nat.le_trans (Nat.sub_le _ 1) h.curpos_le
  exact (h.withCurpos hcurpos).back

theorem Good.stepForward {p : ℤ} {c : Console} (h : Good p c)
    (hin : c.termCurpos < c.termBufCount) : Good p c.stepForward :=
  (h.withCurpos hin).toFits.good_forward p

/-- `forward` leaves the counters of the line alone. -/
theorem counters_forward (c : Console) : c.forward.counters = c.counters := by
  show (c.advance.setpos _ _).counters = c.counters
  rw [Console.advance]
  split
  · rfl
  · rfl

/-- C-e: the cursor goes to the end of the line and no further. -/
theorem Good.stepForward_iterate {p : ℤ} (n : ℕ) {c : Console} (h : Good p c)
    (hn : c.termCurpos + n ≤ c.termBufCount) : Good p (Console.stepForward^[n] c) := by
  induction n generalizing c with
  | zero => exact h
  | succ n ih =>
    have hcounters := counters_forward { c with termCurpos := c.termCurpos + 1 }
    have hcurpos : c.stepForward.termCurpos = c.termCurpos + 1 := congrArg (fun g => g.1) hcounters
    have hcount : c.stepForward.termBufCount = c.termBufCount :=
      congrArg (fun g => g.2.1) hcounters
    rw [Function.iterate_succ_apply]
    refine ih (h.stepForward (by omega)) ?_
    rw [hcurpos, hcount]
    omega

theorem Good.wordBefore {p : ℤ} {c : Console} (h : Good p c) {f : Console → Console}
    (hf : ∀ c, Good p c → Good p (f c)) : Good p (wordBefore f c) := by
  rw [Console.wordBefore]
  split
  · exact h
  · exact whileBefore_keeps _ (fun c hc _ => hf c hc) _ h

theorem Good.wordAfter {p : ℤ} {c : Console} (h : Good p c) :
    Good p (wordAfter Console.stepForward c) := by
  rw [Console.wordAfter]
  split
  · exact h
  · exact whileAfter_keeps _ (fun _ hc hin => hc.stepForward hin) _ h

theorem Good.clearAbove {p : ℤ} {c : Console} (h : Good p c) : Good p c.clearAbove := by
  have hback : Good p (Console.back^[c.termCurpos] c) :=
    Function.Iterate.rec (Good p) h (fun _ => Good.back) _
  have hscroll :=
    Function.Iterate.rec (Good p) hback (fun _ hc => hc.toFits.good_scroll p)
      (Console.back^[c.termCurpos] c).curY.toNat
  exact Function.Iterate.rec (Good p) hscroll (fun _ hc => hc.toFits.good_forward p) _

/-! ## Keys and reading -/

/-- What a key with Ctrl can do, branch by branch. -/
theorem ctrlKey_cases {P : Console → Prop} {c : Console} (key : BitVec 8) (hid : P c)
    (hclear : P c.clearAbove) (hback : 0 < c.termCurpos → P c.stepBack)
    (hforward : c.termCurpos < c.termBufCount → P c.stepForward)
    (hhome : P (Console.stepBack^[c.termCurpos] c))
    (hend : P (Console.stepForward^[c.termBufCount - c.termCurpos] c))
    (hword : P (wordBefore Console.delch c)) (hline : P (Console.delch^[c.termCurpos] c))
    (hdelch : P c.delch) (hinterrupt : key = ch 'c' → P (c.puts [ch '^', ch 'C']))
    (henter : P { c with termReadDone := true }) : P (c.ctrlKey key) := by
  rw [Console.ctrlKey]
  refine iteInduction (motive := P) (fun _ => hclear) fun _ => ?_
  refine iteInduction (motive := P) (fun _ => iteInduction (motive := P) hback fun _ => hid) fun _ => ?_
  refine iteInduction (motive := P) (fun _ => iteInduction (motive := P) hforward fun _ => hid)
    fun _ => ?_
  refine iteInduction (motive := P) (fun _ => hhome) fun _ => ?_
  refine iteInduction (motive := P) (fun _ => hend) fun _ => ?_
  refine iteInduction (motive := P) (fun _ => hword) fun _ => ?_
  refine iteInduction (motive := P) (fun _ => hline) fun _ => ?_
  refine iteInduction (motive := P) (fun _ => hdelch) fun _ => ?_
  refine iteInduction (motive := P) hinterrupt fun _ => ?_
  exact iteInduction (motive := P) (fun _ => henter) fun _ => hid

theorem altKey_cases {P : Console → Prop} {c : Console} (key : BitVec 8) (hid : P c)
    (hback : P (wordBefore Console.stepBack c)) (hforward : P (wordAfter Console.stepForward c)) :
    P (c.altKey key) := by
  rw [Console.altKey]
  refine iteInduction (motive := P) (fun _ => hback) fun _ => ?_
  exact iteInduction (motive := P) (fun _ => hforward) fun _ => hid

/-- What a key can do in line mode.  The keys with a name of their own do what one with Ctrl does. -/
theorem lineKey_cases {P : Console → Prop} {c : Console} (k : Key) (hid : P c)
    (hctrl : ∀ key, (key = ch 'c' → k.modifiers = modCtrl ∧ k.key = ch 'c') → P (c.ctrlKey key))
    (halt : P (c.altKey k.key)) (hadd : P (c.addch k.key)) : P (c.lineKey k) := by
  have hnamed : ∀ key, key ≠ ch 'c' → P (c.ctrlKey key) := fun key hkey =>
    hctrl key fun hc => absurd hc hkey
  rw [Console.lineKey]
  refine iteInduction (motive := P) (fun hmod => hctrl k.key fun hc => ⟨hmod, hc⟩) fun _ => ?_
  refine iteInduction (motive := P) (fun _ => halt) fun _ => ?_
  refine iteInduction (motive := P) (fun _ => hnamed _ (by decide)) fun _ => ?_
  refine iteInduction (motive := P) (fun _ => hnamed _ (by decide)) fun _ => ?_
  refine iteInduction (motive := P) (fun _ => hnamed _ (by decide)) fun _ => ?_
  refine iteInduction (motive := P) (fun _ => hnamed _ (by decide)) fun _ => ?_
  exact iteInduction (motive := P) (fun _ => hid) fun _ => hadd

theorem Good.ctrlKey {p : ℤ} {c : Console} (h : Good p c) (key : BitVec 8) :
    Good p (c.ctrlKey key) := by
  apply ctrlKey_cases key h
  · exact h.clearAbove
  · exact fun _ => h.stepBack
  · exact h.stepForward
  · exact Function.Iterate.rec (Good p) h (fun _ => Good.stepBack) _
  · exact h.stepForward_iterate _ (Nat.le_of_eq (Nat.add_sub_of_le h.curpos_le))
  · exact h.wordBefore fun _ => Good.delch
  · exact Function.Iterate.rec (Good p) h (fun _ => Good.delch) _
  · exact h.delch
  · exact fun _ => h.puts _
  · exact h.of_gauges rfl

theorem Good.altKey {p : ℤ} {c : Console} (h : Good p c) (key : BitVec 8) :
    Good p (c.altKey key) :=
  altKey_cases key h (h.wordBefore fun _ => Good.stepBack) h.wordAfter

theorem Good.lineKey {p : ℤ} {c : Console} (h : Good p c) (k : Key) : Good p (c.lineKey k) :=
  lineKey_cases k h (fun key _ => h.ctrlKey key) (h.altKey k.key) (h.addch k.key)

/-- **A key keeps a terminal good.** -/
theorem Good.handleKey {p : ℤ} {c : Console} (h : Good p c) (k : Key) : Good p (c.handleKey k) := by
  rw [Console.handleKey]
  split
  · exact (h.withCurpos (Nat.le_refl _)).addch k.key
  · exact h.lineKey k

theorem Good.readStart {p : ℤ} {c : Console} (h : Good p c) : Good p c.readStart := h.of_gauges rfl

theorem Good.readCanon {p : ℤ} {c c' : Console} {bytes : List (BitVec 8)} (h : Good p c)
    (hread : c.readCanon = some (bytes, c')) : Good p c' := by
  rw [Console.readCanon] at hread
  split at hread
  · cases hread
  · rename_i hcount
    cases hread
    have hstop : Good p { c with reading := false } := h.of_gauges rfl
    exact (hstop.withCurpos (Nat.one_le_iff_ne_zero.mpr hcount)).delch

/-- An empty line fits, whatever the count was. -/
theorem Good.emptied {p : ℤ} {c : Console} (h : Good p c) (n : ℕ) :
    Good p { { c with termBufCount := n } with
      termBufCount := 0, termReadDone := false, termCurpos := 0 } :=
  h.of_fits { h.toFits with curpos_le := Nat.le_refl 0, count_le := Nat.zero_le _ } rfl rfl rfl

theorem Good.endLine {p : ℤ} {c : Console} (h : Good p c) :
    Good p { c.endLine with termBufCount := 0, termReadDone := false, termCurpos := 0 } := by
  have hstop : Good p { c with reading := false } := h.of_gauges rfl
  rw [Console.endLine]
  dsimp only
  split
  · exact (hstop.of_gauges (gauges_storeTermBuf hstop.count_le _)).emptied _
  · have hecho := hstop.toFits.good_putc p (ch '\n')
    exact (hecho.of_gauges (gauges_storeTermBuf hecho.count_le _)).emptied _

theorem Good.readLine {p : ℤ} {nbytes : ℕ} {c c' : Console} {bytes : List (BitVec 8)}
    (h : Good p c) (hread : c.readLine nbytes = some (bytes, c')) : Good p c' := by
  rw [Console.readLine] at hread
  split at hread
  · cases hread
  · cases hread
    exact h.endLine

end Console
end Term
end CoreOS
