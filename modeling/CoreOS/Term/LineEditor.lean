import CoreOS.Lib.Zipper
import CoreOS.Term.Drawing
import CoreOS.Term.System

/-!
# The line editor

What `term_key_handler` does to the line of a terminal in line mode, as an editor of a zipper.

The line is in `term_buf`, up to `term_buf_count`, and the cursor is before byte `term_curpos`.  Every
key is one operation on the zipper that is read off there: that is `editKey`.  On the way the code
draws, and shifts part of the line up or down by one byte.

`Edits f c z` says all there is to say of one function: from terminal `c` it leaves line `z`, inside
the array and with the settings as they were, it stores nothing outside an array, and whatever lies
behind the 128 bytes of `term_buf` neither plays a part nor changes.  The last point is what makes the
loads of the code count: a load from behind the array would depend on what it finds there.
-/

namespace CoreOS
namespace Term

open Zipper

/-! ## The line in the record -/

namespace Data

/-- The line that is being edited. -/
def line (d : Data) : Zipper (BitVec 8) := ofArray d.termBuf d.termBufCount d.termCurpos

/-- The line is inside its array, and the cursor inside the line. -/
structure InLine (d : Data) : Prop where
  curpos_le : d.termCurpos ≤ d.termBufCount
  count_le : d.termBufCount ≤ termBufSize

/-- The record, less the line and what drawing changes. -/
def settings (d : Data) : Data :=
  { d with
    termBuf := fun _ => 0
    termBufCount := 0
    termCurpos := 0
    curX := 0
    curY := 0
    attr := 0 }

/-- The record represents a line with a cursor. -/
structure Represents (d : Data) (z : Zipper (BitVec 8)) : Prop where
  text : (List.range d.termBufCount).map d.termBuf = z.left ++ z.right
  cursor : d.termCurpos = z.left.length
  curpos_le : d.termCurpos ≤ d.termBufCount
  count_le : d.termBufCount ≤ termBufSize

theorem length_left (d : Data) : d.line.left.length = d.termCurpos := length_left_ofArray ..

theorem length_right (d : Data) : d.line.right.length = d.termBufCount - d.termCurpos :=
  length_right_ofArray ..

theorem left_eq_nil {d : Data} (h : ¬ 0 < d.termCurpos) : d.line.left = [] := by
  rw [← List.length_eq_zero_iff, length_left]
  exact Nat.eq_zero_of_not_pos h

theorem right_eq_nil {d : Data} (h : ¬ d.termCurpos < d.termBufCount) : d.line.right = [] := by
  rw [← List.length_eq_zero_iff, length_right]
  exact Nat.sub_eq_zero_of_le (Nat.not_lt.mp h)

theorem InLine.text {d : Data} (h : d.InLine) :
    d.line.text = (List.range d.termBufCount).map d.termBuf := by
  rw [line, text_ofArray h.curpos_le, slice, Nat.sub_zero, ← List.range_eq_range']

theorem InLine.length_text {d : Data} (h : d.InLine) : d.line.text.length = d.termBufCount := by
  rw [h.text, List.length_map, List.length_range]

theorem represents_iff {d : Data} {z : Zipper (BitVec 8)} :
    d.Represents z ↔ d.InLine ∧ d.line = z := by
  constructor
  · intro h
    have hin : d.InLine := ⟨h.curpos_le, h.count_le⟩
    have htext : d.line.left ++ d.line.right = z.left ++ z.right := by
      rw [← h.text, ← hin.text]
      rfl
    have hlen : d.line.left.length = z.left.length := by
      rw [length_left, h.cursor]
    obtain ⟨hleft, hright⟩ := List.append_inj htext hlen
    refine ⟨hin, ?_⟩
    rw [← show (⟨d.line.left, d.line.right⟩ : Zipper (BitVec 8)) = d.line from rfl, hleft, hright]
  · rintro ⟨h, rfl⟩
    exact ⟨h.text.symm, (length_left d).symm, h.curpos_le, h.count_le⟩

end Data

namespace Console

/-- Something else behind the 128 bytes of `term_buf`. -/
def withTail (c : Console) (tail : ℕ → BitVec 8) : Console :=
  { c with termBuf := fun i => if i ≤ termBufSize then c.termBuf i else tail i }

/-- From terminal `c` the function `f` leaves line `z`, and changes nothing else but the screen. -/
structure Edits (f : Console → Console) (c : Console) (z : Zipper (BitVec 8)) : Prop where
  line : (f c).line = z
  inLine : (f c).InLine
  settings : (f c).settings = c.settings
  oob : (f c).oob = c.oob
  withTail : ∀ tail, f (c.withTail tail) = (f c).withTail tail

section edits

variable {f g : Console → Console} {c : Console} {z z' : Zipper (BitVec 8)}

theorem withTail_self (c : Console) : c.withTail c.termBuf = c := by
  simp [withTail]

/-- Two functions that agree whatever lies behind the array. -/
theorem Edits.congr (h : Edits g c z) (hfg : ∀ tail, f (c.withTail tail) = g (c.withTail tail)) :
    Edits f c z := by
  have hself : f c = g c := by
    have hc := hfg c.termBuf
    rw [withTail_self] at hc
    exact hc
  refine ⟨?_, ?_, ?_, ?_, ?_⟩
  · rw [hself]
    exact h.line
  · rw [hself]
    exact h.inLine
  · rw [hself]
    exact h.settings
  · rw [hself]
    exact h.oob
  · intro tail
    rw [hfg, hself]
    exact h.withTail tail

theorem edits_id (h : c.InLine) : Edits id c c.line := ⟨rfl, h, rfl, rfl, fun _ => rfl⟩

/-- A branch that the editor takes too. -/
theorem edits_ite {p : Prop} [Decidable p] (hf : p → Edits f c z) (hg : ¬ p → Edits g c z') :
    Edits (fun c => if p then f c else g c) c (if p then z else z') := by
  by_cases hp : p
  · rw [if_pos hp]
    exact (hf hp).congr fun tail => if_pos hp
  · rw [if_neg hp]
    exact (hg hp).congr fun tail => if_neg hp

/-- A branch that the editor does not know. -/
theorem edits_branch {p : Prop} [Decidable p] (hf : p → Edits f c z) (hg : ¬ p → Edits g c z) :
    Edits (fun c => if p then f c else g c) c z := by
  by_cases hp : p
  · exact (hf hp).congr fun tail => if_pos hp
  · exact (hg hp).congr fun tail => if_neg hp

theorem Edits.comp (hf : Edits f c z) (hg : Edits g (f c) z') : Edits (fun c => g (f c)) c z' where
  line := hg.line
  inLine := hg.inLine
  settings := hg.settings.trans hf.settings
  oob := hg.oob.trans hf.oob
  withTail := by
    intro tail
    rw [hf.withTail, hg.withTail]

/-- **Drawing edits nothing.** -/
theorem Draws.edits (hf : Draws f) (h : c.InLine) : Edits f c c.line where
  line := by
    rw [hf.eq_withLine c]
    rfl
  inLine := by
    rw [hf.eq_withLine c]
    exact ⟨h.curpos_le, h.count_le⟩
  settings := by
    rw [hf.eq_withLine c]
    rfl
  oob := hf.oob c
  withTail := by
    intro tail
    have htail : (f c).withTail tail = ((f c).withLine c.toData).withTail tail :=
      congrArg (fun c : Console => c.withTail tail) (hf.eq_withLine c)
    rw [htail]
    exact hf.withLine c (c.withTail tail).toData

/-! ## The loops over the array -/

theorem storeTermBuf_of_le (c : Console) {i : ℕ} (hi : i ≤ termBufSize) (b : BitVec 8) :
    c.storeTermBuf i b = { c with termBuf := Function.update c.termBuf i b } := by
  have hin : ¬ termBufSize + 1 ≤ i := Nat.not_le_of_lt (Nat.lt_succ_of_le hi)
  simp [storeTermBuf, hin]

theorem openGap_eq (h : c.InLine) :
    c.openGap = { c with termBuf := openAt c.termBuf c.termBufCount c.termCurpos } := by
  have hrounds : ∀ (l : List ℕ) (c : Console), c.termBufCount ≤ termBufSize →
      l.foldl (fun c j =>
          c.storeTermBuf (c.termBufCount - j) (c.termBuf (c.termBufCount - j - 1))) c =
        { c with termBuf := l.foldl (fun b j =>
            Function.update b (c.termBufCount - j) (b (c.termBufCount - j - 1))) c.termBuf } := by
    intro l
    induction l with
    | nil => exact fun _ _ => rfl
    | cons j l ih =>
      intro c hc
      rw [List.foldl_cons, storeTermBuf_of_le c (Nat.le_trans (Nat.sub_le _ j) hc)]
      exact ih { c with termBuf := _ } hc
  rw [openGap, hrounds _ c h.count_le, foldl_openAt _ h.curpos_le]

theorem closeGap_eq (h : c.InLine) (hpos : 0 < c.termCurpos) :
    c.closeGap = { c with termBuf := closeAt c.termBuf c.termBufCount c.termCurpos } := by
  have hrounds : ∀ (l : List ℕ) (c : Console), (∀ i ∈ l, i ≤ termBufSize) →
      l.foldl (fun c i => c.storeTermBuf i (c.termBuf (i + 1))) c =
        { c with termBuf := l.foldl (fun b i => Function.update b i (b (i + 1))) c.termBuf } := by
    intro l
    induction l with
    | nil => exact fun _ _ => rfl
    | cons i l ih =>
      intro c hl
      rw [List.foldl_cons, storeTermBuf_of_le c (hl i List.mem_cons_self)]
      exact ih { c with termBuf := _ } fun j hj => hl j (List.mem_cons_of_mem i hj)
  have hle : ∀ i ∈ List.range' (c.termCurpos - 1) (c.termBufCount - 1 - (c.termCurpos - 1)),
      i ≤ termBufSize := by
    intro i hi
    rw [List.mem_range'_1] at hi
    have hcount := h.count_le
    omega
  rw [closeGap, hrounds _ c hle, foldl_closeAt _ _ _ hpos]

theorem insertCh_eq (h : c.InLine) (b : BitVec 8) :
    c.insertCh b = { c with
      termBuf :=
        Function.update (openAt c.termBuf c.termBufCount c.termCurpos) c.termCurpos b
      termCurpos := c.termCurpos + 1
      termBufCount := c.termBufCount + 1 } := by
  rw [insertCh, openGap_eq h, storeTermBuf_of_le _ (Nat.le_trans h.curpos_le h.count_le)]

theorem removeCh_eq (h : c.InLine) (hpos : 0 < c.termCurpos) :
    c.removeCh = { c with
      termBuf := closeAt c.termBuf c.termBufCount c.termCurpos
      termCurpos := c.termCurpos - 1
      termBufCount := c.termBufCount - 1 } := by
  rw [removeCh, closeGap_eq h hpos]

theorem inLine_withTail (h : c.InLine) (tail : ℕ → BitVec 8) : (c.withTail tail).InLine :=
  ⟨h.curpos_le, h.count_le⟩

theorem line_withTail (h : c.InLine) (tail : ℕ → BitVec 8) : (c.withTail tail).line = c.line := by
  have hslice : ∀ i j, j ≤ c.termBufCount →
      slice (c.withTail tail).termBuf i j = slice c.termBuf i j := by
    intro i j hj
    refine slice_congr fun k _ hk => if_pos ?_
    exact (Nat.le_of_lt hk).trans (hj.trans h.count_le)
  rw [Data.line, Data.line, ofArray, ofArray]
  exact congrArg₂ Zipper.mk (hslice _ _ h.curpos_le) (hslice _ _ (Nat.le_refl _))

/-- A byte goes in at the cursor. -/
theorem edits_insertCh (h : c.InLine) (hroom : c.termBufCount < termBufSize) (b : BitVec 8) :
    Edits (fun c => c.insertCh b) c (c.line.insert b) where
  line := by
    rw [insertCh_eq h]
    exact ofArray_insert c.termBuf c.termBufCount c.termCurpos b
  inLine := by
    rw [insertCh_eq h]
    exact ⟨Nat.succ_le_succ h.curpos_le, hroom⟩
  settings := by
    rw [insertCh_eq h]
    rfl
  oob := by rw [insertCh_eq h]
  withTail := by
    intro tail
    rw [insertCh_eq h, insertCh_eq (inLine_withTail h tail)]
    simp only [Console.withTail]
    congr 2
    ext i : 1
    have hcurpos := h.curpos_le
    by_cases hi : i = c.termCurpos
    · subst hi
      rw [Function.update_self, Function.update_self, if_pos (by omega)]
    · rw [Function.update_of_ne hi, Function.update_of_ne hi, openAt, openAt]
      split_ifs <;> first | rfl | omega

/-- The byte before the cursor comes out. -/
theorem edits_removeCh (h : c.InLine) (hpos : 0 < c.termCurpos) :
    Edits removeCh c c.line.erase where
  line := by
    obtain ⟨n, hn⟩ := Nat.exists_eq_add_one.mpr hpos
    have hlt : n < c.termBufCount := by
      have hcurpos := h.curpos_le
      omega
    rw [removeCh_eq h hpos, Data.line, Data.line, hn]
    exact ofArray_erase hlt
  inLine := by
    rw [removeCh_eq h hpos]
    exact ⟨Nat.sub_le_sub_right h.curpos_le 1, Nat.le_trans (Nat.sub_le _ 1) h.count_le⟩
  settings := by
    rw [removeCh_eq h hpos]
    rfl
  oob := by rw [removeCh_eq h hpos]
  withTail := by
    intro tail
    rw [removeCh_eq h hpos, removeCh_eq (inLine_withTail h tail) hpos]
    simp only [Console.withTail]
    congr 2
    ext i : 1
    have hcount := h.count_le
    rw [closeAt, closeAt]
    split_ifs <;> first | rfl | omega

/-! ## One step -/

/-- The rest of the line on the screen. -/
theorem putRest_eq (c : Console) :
    c.putRest = c.puts (slice c.termBuf c.termCurpos c.termBufCount) := by
  have hloop : ∀ (l : List ℕ) (c : Console),
      l.foldl (fun (c : Console) i => c.putc (c.termBuf i)) c = c.puts (l.map c.termBuf) := by
    intro l
    induction l with
    | nil => exact fun _ => rfl
    | cons i l ih =>
      intro c
      have hbuf : (c.putc (c.termBuf i)).termBuf = c.termBuf := by
        rw [(draws_putc _).eq_withLine c]
        rfl
      rw [List.foldl_cons, ih, hbuf, List.map_cons, puts, puts, List.foldl_cons]
  exact hloop _ c

theorem edits_putRest (h : c.InLine) : Edits putRest c c.line := by
  refine ((draws_puts (slice c.termBuf c.termCurpos c.termBufCount)).edits h).congr ?_
  intro tail
  rw [putRest_eq]
  exact congrArg _ (congrArg Zipper.right (line_withTail h tail))

/-- `addch` with the cursor brought back over what is after it. -/
theorem addch_eq (h : c.InLine) (hroom : c.termBufCount < termBufSize)
    (hreading : c.reading = true) (b : BitVec 8) :
    c.addch b = if c.termNoecho then c.insertCh b
      else back^[c.termBufCount - c.termCurpos] ((c.insertCh b).putc b).putRest := by
  have hnoecho : (c.insertCh b).termNoecho = c.termNoecho := by rw [insertCh_eq h]
  have hlen : ((c.insertCh b).putc b).putRest.termBufCount -
      ((c.insertCh b).putc b).putRest.termCurpos = c.termBufCount - c.termCurpos := by
    rw [putRest_eq, (draws_puts _).eq_withLine, (draws_putc b).eq_withLine, insertCh_eq h]
    exact Nat.add_sub_add_right ..
  rw [addch, if_pos ⟨hroom, hreading⟩]
  dsimp only
  rw [hnoecho, hlen]

/-- **`addch`**, while a read is pending. -/
theorem edits_addch (h : c.InLine) (hreading : c.reading = true) (b : BitVec 8) :
    Edits (fun c => c.addch b) c
      (if c.line.text.length < termBufSize then c.line.insert b else c.line) := by
  by_cases hroom : c.termBufCount < termBufSize
  · rw [h.length_text, if_pos hroom]
    have hinsert := edits_insertCh h hroom b
    by_cases hecho : c.termNoecho = true
    · refine hinsert.congr fun tail => ?_
      exact (addch_eq (inLine_withTail h tail) hroom hreading b).trans (if_pos hecho)
    · have hputc := (draws_putc b).edits hinsert.inLine
      have hrest := edits_putRest hputc.inLine
      have hback := (draws_back.iterate (c.termBufCount - c.termCurpos)).edits hrest.inLine
      have hline := hrest.line.trans (hputc.line.trans hinsert.line)
      rw [← hline]
      refine (((hinsert.comp hputc).comp hrest).comp hback).congr fun tail => ?_
      exact (addch_eq (inLine_withTail h tail) hroom hreading b).trans (if_neg hecho)
  · rw [h.length_text, if_neg hroom]
    refine (edits_id h).congr fun tail => ?_
    exact if_neg fun hcond => hroom hcond.1

/-- `delch` with the cursor put back before what is after it. -/
theorem delch_eq (h : c.InLine) (hpos : 0 < c.termCurpos) :
    c.delch = if c.termCanon then c.removeCh
      else (c.removeCh.back.putRest.putc (ch ' ')).setpos c.removeCh.back.curX
        c.removeCh.back.curY := by
  have hcanon : c.removeCh.termCanon = c.termCanon := by rw [removeCh_eq h hpos]
  rw [delch, if_pos hpos]
  dsimp only
  rw [hcanon]

/-- **`delch`**. -/
theorem edits_delch (h : c.InLine) : Edits delch c c.line.erase := by
  by_cases hpos : 0 < c.termCurpos
  · have hremove := edits_removeCh h hpos
    by_cases hcanon : c.termCanon = true
    · refine hremove.congr fun tail => ?_
      exact (delch_eq (inLine_withTail h tail) hpos).trans (if_pos hcanon)
    · have hback := draws_back.edits hremove.inLine
      have hrest := edits_putRest hback.inLine
      have hputc := (draws_putc (ch ' ')).edits hrest.inLine
      have hsetpos := (draws_setpos c.removeCh.back.curX c.removeCh.back.curY).edits hputc.inLine
      have hline : c.removeCh.back.putRest.line = c.line.erase :=
        hrest.line.trans (hback.line.trans hremove.line)
      rw [← hline, ← hputc.line]
      refine ((((hremove.comp hback).comp hrest).comp hputc).comp hsetpos).congr fun tail => ?_
      have hcursor : (c.withTail tail).removeCh.back = c.removeCh.back.withTail tail :=
        (hremove.comp hback).withTail tail
      rw [delch_eq (inLine_withTail h tail) hpos, if_neg (by exact hcanon), hcursor]
      rfl
  · rw [erase_of_left (Data.left_eq_nil hpos)]
    exact (edits_id h).congr fun tail => if_neg hpos

/-- The cursor of the line moves, without that of the screen. -/
theorem edits_withCurpos (h : c.InLine) {n : ℕ} (hn : n ≤ c.termBufCount) :
    Edits (fun c => { c with termCurpos := n }) c (ofArray c.termBuf c.termBufCount n) :=
  ⟨rfl, ⟨hn, h.count_le⟩, rfl, rfl, fun _ => rfl⟩

theorem edits_stepBack (h : c.InLine) : Edits stepBack c c.line.back := by
  have hle : c.termCurpos - 1 ≤ c.termBufCount := (Nat.sub_le _ 1).trans h.curpos_le
  have hmove := edits_withCurpos h hle
  have hback := draws_back.edits hmove.inLine
  have hline : ofArray c.termBuf c.termBufCount (c.termCurpos - 1) = c.line.back := by
    unfold Data.line
    cases hcur : c.termCurpos with
    | zero => rfl
    | succ n =>
      have hcurpos := h.curpos_le
      exact ofArray_back (by omega)
  rw [← hline]
  exact (hmove.comp hback).congr fun tail => rfl

theorem edits_stepForward (h : c.InLine) (hlt : c.termCurpos < c.termBufCount) :
    Edits stepForward c c.line.forward := by
  have hmove := edits_withCurpos h (Nat.succ_le_of_lt hlt)
  have hforward := draws_forward.edits hmove.inLine
  rw [Data.line, ← ofArray_forward hlt]
  exact (hmove.comp hforward).congr fun tail => rfl

/-! ## Loops -/

/-- A step that every line allows, over and over. -/
theorem edits_iterate {op : Zipper (BitVec 8) → Zipper (BitVec 8)}
    (hf : ∀ {c : Console}, c.InLine → Edits f c (op c.line)) (n : ℕ) (h : c.InLine) :
    Edits f^[n] c (op^[n] c.line) := by
  induction n generalizing c with
  | zero => exact edits_id h
  | succ n ih =>
    have hstep := hf h
    have hrest := ih hstep.inLine
    rw [hstep.line] at hrest
    exact hstep.comp hrest

theorem edits_stepForward_iterate (n : ℕ) (h : c.InLine)
    (hn : c.termCurpos + n ≤ c.termBufCount) :
    Edits stepForward^[n] c (Zipper.forward^[n] c.line) := by
  induction n generalizing c with
  | zero => exact edits_id h
  | succ n ih =>
    have hlt : c.termCurpos < c.termBufCount := by omega
    have hstep := edits_stepForward h hlt
    have hleft : c.stepForward.termCurpos = c.termCurpos + 1 := by
      rw [← Data.length_left, hstep.line, Data.line, ← ofArray_forward hlt, length_left_ofArray]
    have hcount : c.stepForward.termBufCount = c.termBufCount := by
      rw [← hstep.inLine.length_text, ← h.length_text, hstep.line, Data.line,
        ← ofArray_forward hlt, text_ofArray hlt, text_ofArray h.curpos_le]
    have hrest := ih hstep.inLine (by omega)
    rw [hstep.line] at hrest
    exact hstep.comp hrest

section rounds

variable {p : BitVec 8 → Bool} {op W : Zipper (BitVec 8) → Zipper (BitVec 8)}

/-- The test of a loop to the left, in terms of the line. -/
theorem whileBefore_succ (p : BitVec 8 → Bool) (f : Console → Console) (n : ℕ) (c : Console) :
    whileBefore p f (n + 1) c =
      if c.line.left.getLast?.any p = true then whileBefore p f n (f c) else c := by
  rw [whileBefore]
  exact if_congr (getLast?_left_ofArray c.termBuf c.termBufCount c.termCurpos p).symm rfl rfl

/-- The test of a loop to the right, in terms of the line. -/
theorem whileAfter_succ (p : BitVec 8 → Bool) (f : Console → Console) (n : ℕ) (c : Console) :
    whileAfter p f (n + 1) c =
      if c.line.right.head?.any p = true then whileAfter p f n (f c) else c := by
  rw [whileAfter]
  exact if_congr (head?_right_ofArray c.termBuf c.termBufCount c.termCurpos p).symm rfl rfl

/-- `while (term_curpos && p(term_buf[term_curpos - 1])) f()`, where `f` is `op` on the zipper and
the whole loop is `W`. -/
theorem edits_whileBefore (hf : ∀ {c : Console}, c.InLine → Edits f c (op c.line))
    (hleft : ∀ z : Zipper (BitVec 8), (op z).left.length = z.left.length - 1)
    (hround : ∀ z : Zipper (BitVec 8), z.left.getLast?.any p = true → W (op z) = W z)
    (hstop : ∀ z : Zipper (BitVec 8), z.left.getLast?.any p = false → W z = z) (n : ℕ)
    (h : c.InLine) (hn : c.termCurpos ≤ n) : Edits (whileBefore p f n) c (W c.line) := by
  induction n generalizing c with
  | zero =>
    have hnil : c.line.left = [] := Data.left_eq_nil (Nat.not_lt.mpr hn)
    rw [hstop c.line (by rw [hnil]; rfl)]
    exact edits_id h
  | succ n ih =>
    by_cases hp : c.line.left.getLast?.any p = true
    · have hstep := hf h
      have hcurpos : (f c).termCurpos ≤ n := by
        rw [← Data.length_left, hstep.line, hleft, Data.length_left]
        omega
      have hrest := ih hstep.inLine hcurpos
      rw [hstep.line, hround _ hp] at hrest
      refine (hstep.comp hrest).congr fun tail => ?_
      rw [whileBefore_succ, line_withTail h, if_pos hp]
    · rw [hstop _ (Bool.eq_false_iff.mpr hp)]
      refine (edits_id h).congr fun tail => ?_
      rw [whileBefore_succ, line_withTail h, if_neg hp]
      rfl

/-- `while (term_curpos < term_buf_count && p(term_buf[term_curpos])) { term_curpos++; forward(); }` -/
theorem edits_whileAfter (n : ℕ) (h : c.InLine) (hn : c.termBufCount - c.termCurpos ≤ n) :
    Edits (whileAfter p stepForward n) c (c.line.forwardWhile p) := by
  induction n generalizing c with
  | zero =>
    have hnil : c.line.right = [] := Data.right_eq_nil (by omega)
    rw [forwardWhile_of_stop (by rw [hnil]; rfl)]
    exact edits_id h
  | succ n ih =>
    by_cases hp : c.line.right.head?.any p = true
    · have hlt : c.termCurpos < c.termBufCount :=
        ((head?_right_ofArray c.termBuf c.termBufCount c.termCurpos p).mp hp).1
      have hstep := edits_stepForward h hlt
      have hlen : c.stepForward.termBufCount - c.stepForward.termCurpos ≤ n := by
        rw [← Data.length_right, hstep.line]
        show c.line.right.tail.length ≤ n
        rw [List.length_tail, Data.length_right]
        omega
      have hrest := ih hstep.inLine hlen
      rw [hstep.line, forwardWhile_round hp] at hrest
      refine (hstep.comp hrest).congr fun tail => ?_
      rw [whileAfter_succ, line_withTail h, if_pos hp]
    · rw [forwardWhile_of_stop (Bool.eq_false_iff.mpr hp)]
      refine (edits_id h).congr fun tail => ?_
      rw [whileAfter_succ, line_withTail h, if_neg hp]
      rfl

end rounds

/-! ## Keys -/

/-- The editor: the run of bytes before the cursor that are of the same kind goes. -/
def eraseWord (z : Zipper (BitVec 8)) : Zipper (BitVec 8) :=
  match z.left.getLast? with
  | none => z
  | some a => z.eraseWhile (sameKind a)

/-- The editor: the cursor moves back over the bytes before it that are of the same kind. -/
def backWord (z : Zipper (BitVec 8)) : Zipper (BitVec 8) :=
  match z.left.getLast? with
  | none => z
  | some a => z.backWhile (sameKind a)

/-- The editor: the cursor moves forward over the bytes after it that are of the same kind. -/
def forwardWord (z : Zipper (BitVec 8)) : Zipper (BitVec 8) :=
  match z.right.head? with
  | none => z
  | some a => z.forwardWhile (sameKind a)

/-- The editor: the keys with Ctrl. -/
def editCtrl (key : BitVec 8) (z : Zipper (BitVec 8)) : Zipper (BitVec 8) :=
  if key = ch 'b' then z.back
  else if key = ch 'f' then z.forward
  else if key = ch 'a' then z.home
  else if key = ch 'e' then z.toEnd
  else if key = ch 'w' then eraseWord z
  else if key = ch 'u' then z.eraseAll
  else if key = ch 'h' then z.erase
  else z

/-- The editor: the keys with Alt. -/
def editAlt (key : BitVec 8) (z : Zipper (BitVec 8)) : Zipper (BitVec 8) :=
  if key = ch 'b' then backWord z
  else if key = ch 'f' then forwardWord z
  else z

/-- **The editor.**  What a key does to the line. -/
def editKey (k : Key) (z : Zipper (BitVec 8)) : Zipper (BitVec 8) :=
  if k.modifiers = modCtrl then editCtrl k.key z
  else if k.modifiers = modAlt then editAlt k.key z
  else if k.key = keyEnter then z
  else if k.key = keyBack then z.erase
  else if k.key = keyLeft then z.back
  else if k.key = keyRight then z.forward
  else if keyF1 ≤ k.key ∧ k.key ≤ keyF12 then z
  else if z.text.length < termBufSize then z.insert k.key
  else z

/-- A key that puts a byte in. -/
def inserts (k : Key) : Prop :=
  k.modifiers ≠ modCtrl ∧ k.modifiers ≠ modAlt ∧ k.key ≠ keyEnter ∧ k.key ≠ keyBack ∧
    k.key ≠ keyLeft ∧ k.key ≠ keyRight ∧ ¬ (keyF1 ≤ k.key ∧ k.key ≤ keyF12)

instance (k : Key) : Decidable (inserts k) := inferInstanceAs (Decidable (_ ∧ _))

theorem editKey_of_inserts {k : Key} (hk : inserts k) (z : Zipper (BitVec 8)) :
    editKey k z = if z.text.length < termBufSize then z.insert k.key else z := by
  obtain ⟨hctrl, halt, henter, hback, hleft, hright, hfkey⟩ := hk
  rw [editKey, if_neg hctrl, if_neg halt, if_neg henter, if_neg hback, if_neg hleft, if_neg hright,
    if_neg hfkey]

theorem lineKey_of_inserts {k : Key} (hk : inserts k) (c : Console) :
    c.lineKey k = c.addch k.key := by
  obtain ⟨hctrl, halt, henter, hback, hleft, hright, hfkey⟩ := hk
  rw [lineKey, if_neg hctrl, if_neg halt, if_neg henter, if_neg hback, if_neg hleft, if_neg hright,
    if_neg hfkey]

/-- The key that ends the line: Enter or C-m. -/
def isEnter (k : Key) : Prop :=
  k.modifiers = modCtrl ∧ k.key = ch 'm' ∨
    k.modifiers ≠ modCtrl ∧ k.modifiers ≠ modAlt ∧ k.key = keyEnter

instance (k : Key) : Decidable (isEnter k) := inferInstanceAs (Decidable (_ ∨ _))

/-- C-b. -/
theorem edits_ctrlB (h : c.InLine) :
    Edits (fun c => if 0 < c.termCurpos then c.stepBack else c) c c.line.back := by
  by_cases hpos : 0 < c.termCurpos
  · exact (edits_stepBack h).congr fun tail => if_pos hpos
  · rw [back_of_left (Data.left_eq_nil hpos)]
    exact (edits_id h).congr fun tail => if_neg hpos

/-- C-f. -/
theorem edits_ctrlF (h : c.InLine) :
    Edits (fun c => if c.termCurpos < c.termBufCount then c.stepForward else c) c
      c.line.forward := by
  by_cases hlt : c.termCurpos < c.termBufCount
  · exact (edits_stepForward h hlt).congr fun tail => if_pos hlt
  · rw [forward_of_right (Data.right_eq_nil hlt)]
    exact (edits_id h).congr fun tail => if_neg hlt

/-- C-a. -/
theorem edits_ctrlA (h : c.InLine) :
    Edits (fun c => stepBack^[c.termCurpos] c) c c.line.home := by
  have hall := edits_iterate edits_stepBack c.termCurpos h
  have hhome : Zipper.back^[c.termCurpos] c.line = c.line.home := by
    rw [← Data.length_left]
    exact back_iterate c.line.left c.line.right
  rw [hhome] at hall
  exact hall.congr fun tail => rfl

/-- C-e. -/
theorem edits_ctrlE (h : c.InLine) :
    Edits (fun c => stepForward^[c.termBufCount - c.termCurpos] c) c c.line.toEnd := by
  have hall := edits_stepForward_iterate (c.termBufCount - c.termCurpos) h
    (Nat.add_sub_of_le h.curpos_le).le
  have hend : Zipper.forward^[c.termBufCount - c.termCurpos] c.line = c.line.toEnd := by
    rw [← Data.length_right]
    exact forward_iterate c.line.left c.line.right
  rw [hend] at hall
  exact hall.congr fun tail => rfl

/-- C-u. -/
theorem edits_ctrlU (h : c.InLine) :
    Edits (fun c => delch^[c.termCurpos] c) c c.line.eraseAll := by
  have hall := edits_iterate edits_delch c.termCurpos h
  have hnone : Zipper.erase^[c.termCurpos] c.line = c.line.eraseAll := by
    rw [← Data.length_left]
    exact erase_iterate c.line.left c.line.right
  rw [hnone] at hall
  exact hall.congr fun tail => rfl

/-- The byte that a word before the cursor is compared with. -/
theorem getLast?_left (h : 0 < c.termCurpos) :
    c.line.left.getLast? = some (c.termBuf (c.termCurpos - 1)) := by
  obtain ⟨n, hn⟩ := Nat.exists_eq_add_one.mpr h
  rw [Data.line, hn, ofArray_succ]
  simp

theorem head?_right (h : c.termCurpos < c.termBufCount) :
    c.line.right.head? = some (c.termBuf c.termCurpos) := by
  rw [Data.line, ofArray_of_lt _ h]
  rfl

/-- C-w and M-b: `f` over the word before the cursor, where `f` is `op` on the zipper. -/
theorem edits_wordBefore {op : Zipper (BitVec 8) → Zipper (BitVec 8)}
    {W : (BitVec 8 → Bool) → Zipper (BitVec 8) → Zipper (BitVec 8)}
    (hf : ∀ {c : Console}, c.InLine → Edits f c (op c.line))
    (hleft : ∀ z : Zipper (BitVec 8), (op z).left.length = z.left.length - 1)
    (hround : ∀ p, ∀ z : Zipper (BitVec 8), z.left.getLast?.any p = true → W p (op z) = W p z)
    (hstop : ∀ p, ∀ z : Zipper (BitVec 8), z.left.getLast?.any p = false → W p z = z)
    (h : c.InLine) :
    Edits (wordBefore f) c (match c.line.left.getLast? with
      | none => c.line
      | some a => W (sameKind a) c.line) := by
  by_cases hpos : 0 < c.termCurpos
  · rw [getLast?_left hpos]
    have hloop := edits_whileBefore (p := sameKind (c.termBuf (c.termCurpos - 1))) hf hleft
      (hround _) (hstop _) c.termCurpos h (Nat.le_refl _)
    refine hloop.congr fun tail => ?_
    have hbyte : (c.withTail tail).termBuf (c.termCurpos - 1) = c.termBuf (c.termCurpos - 1) :=
      if_pos ((Nat.sub_le _ 1).trans (h.curpos_le.trans h.count_le))
    refine Eq.trans (if_neg (Nat.ne_of_gt hpos)) ?_
    exact congrArg (fun a => whileBefore (sameKind a) f c.termCurpos (c.withTail tail)) hbyte
  · rw [Data.left_eq_nil hpos]
    exact (edits_id h).congr fun tail => if_pos (Nat.eq_zero_of_not_pos hpos)

/-- M-f. -/
theorem edits_wordAfter (h : c.InLine) : Edits (wordAfter stepForward) c (forwardWord c.line) := by
  unfold forwardWord
  by_cases hlt : c.termCurpos < c.termBufCount
  · rw [head?_right hlt]
    refine (edits_whileAfter (c.termBufCount - c.termCurpos) h (Nat.le_refl _)).congr fun tail => ?_
    have hbyte : (c.withTail tail).termBuf c.termCurpos = c.termBuf c.termCurpos :=
      if_pos (h.curpos_le.trans h.count_le)
    refine Eq.trans (if_neg (Nat.not_le.mpr hlt)) ?_
    exact congrArg (fun a => whileAfter (sameKind a) stepForward
      (c.termBufCount - c.termCurpos) (c.withTail tail)) hbyte
  · rw [Data.right_eq_nil hlt]
    exact (edits_id h).congr fun tail => if_pos (Nat.not_lt.mp hlt)

/-- C-l draws. -/
theorem edits_clearAbove (h : c.InLine) : Edits clearAbove c c.line := by
  have hdraws : Draws fun c' => forward^[c.termCurpos]
      (scroll^[(back^[c.termCurpos] c).curY.toNat] (back^[c.termCurpos] c')) :=
    (draws_forward.iterate _).comp ((draws_scroll.iterate _).comp (draws_back.iterate _))
  refine (hdraws.edits h).congr fun tail => ?_
  have hrow : (back^[c.termCurpos] (c.withTail tail)).curY = (back^[c.termCurpos] c).curY := by
    rw [((draws_back.iterate c.termCurpos).edits h).withTail tail]
    rfl
  show forward^[c.termCurpos] (scroll^[(back^[c.termCurpos] (c.withTail tail)).curY.toNat]
    (back^[c.termCurpos] (c.withTail tail))) = _
  rw [hrow]

/-- **The keys with Ctrl**, except for the one that ends the line. -/
theorem edits_ctrlKey (h : c.InLine) (key : BitVec 8) (hkey : key ≠ ch 'm') :
    Edits (fun c => c.ctrlKey key) c (editCtrl key c.line) := by
  unfold ctrlKey
  refine edits_branch (fun hl => hl ▸ edits_clearAbove h) fun _ => ?_
  unfold editCtrl
  refine edits_ite (fun _ => edits_ctrlB h) fun _ => ?_
  refine edits_ite (fun _ => edits_ctrlF h) fun _ => ?_
  refine edits_ite (fun _ => edits_ctrlA h) fun _ => ?_
  refine edits_ite (fun _ => edits_ctrlE h) fun _ => ?_
  refine edits_ite (fun _ => edits_wordBefore edits_delch length_left_erase
    (fun _ _ => eraseWhile_round) (fun _ _ => eraseWhile_of_stop) h) fun _ => ?_
  refine edits_ite (fun _ => edits_ctrlU h) fun _ => ?_
  refine edits_ite (fun _ => edits_delch h) fun _ => ?_
  refine edits_branch (fun _ => (draws_puts _).edits h) fun _ => ?_
  exact edits_branch (fun hm => absurd hm hkey) fun _ => edits_id h

/-- **The keys with Alt.** -/
theorem edits_altKey (h : c.InLine) (key : BitVec 8) :
    Edits (fun c => c.altKey key) c (editAlt key c.line) := by
  unfold altKey editAlt
  refine edits_ite (fun _ => edits_wordBefore edits_stepBack length_left_back
    (fun _ _ => backWhile_round) (fun _ _ => backWhile_of_stop) h) fun _ => ?_
  exact edits_ite (fun _ => edits_wordAfter h) fun _ => edits_id h

/-- Every key but Enter, given what `addch` does if the key puts a byte in. -/
theorem edits_lineKey (h : c.InLine) (hcanon : c.termCanon = false) {k : Key} (hk : ¬ isEnter k)
    (hadd : inserts k → Edits (fun c => c.addch k.key) c (editKey k c.line)) :
    Edits (fun c => c.handleKey k) c (editKey k c.line) := by
  have hline : Edits (fun c => c.lineKey k) c (editKey k c.line) := by
    by_cases hins : inserts k
    · have hinserts := hins
      obtain ⟨hctrl, halt, henter, hback, hleft, hright, hfkey⟩ := hins
      refine (hadd hinserts).congr fun tail => ?_
      rw [lineKey, if_neg hctrl, if_neg halt, if_neg henter, if_neg hback, if_neg hleft,
        if_neg hright, if_neg hfkey]
    unfold lineKey editKey
    refine edits_ite (fun hctrl => edits_ctrlKey h k.key fun hm => hk (Or.inl ⟨hctrl, hm⟩))
      fun hctrl => ?_
    refine edits_ite (fun _ => edits_altKey h k.key) fun halt => ?_
    refine edits_ite (fun henter => absurd (Or.inr ⟨hctrl, halt, henter⟩) hk) fun henter => ?_
    refine edits_ite (fun _ => edits_ctrlKey h (ch 'h') (by decide)) fun hback => ?_
    refine edits_ite (fun _ => edits_ctrlKey h (ch 'b') (by decide)) fun hleft => ?_
    refine edits_ite (fun _ => edits_ctrlKey h (ch 'f') (by decide)) fun hright => ?_
    exact edits_ite (fun _ => edits_id h) fun hfkey =>
      absurd ⟨hctrl, halt, henter, hback, hleft, hright, hfkey⟩ hins
  refine hline.congr fun tail => ?_
  exact if_neg (by rw [show (c.withTail tail).termCanon = c.termCanon from rfl, hcanon]; decide)

/-- **Every key but Enter**, on a terminal in line mode while a read is pending. -/
theorem edits_handleKey (h : c.InLine) (hcanon : c.termCanon = false) (hreading : c.reading = true)
    {k : Key} (hk : ¬ isEnter k) : Edits (fun c => c.handleKey k) c (editKey k c.line) := by
  refine edits_lineKey h hcanon hk fun hins => ?_
  rw [editKey_of_inserts hins]
  exact edits_addch h hreading k.key

/-- **Enter** changes nothing but `term_read_done`. -/
theorem handleKey_of_isEnter (hcanon : c.termCanon = false) {k : Key} (hk : isEnter k) :
    c.handleKey k = { c with termReadDone := true } := by
  rw [handleKey, if_neg (by rw [hcanon]; exact Bool.noConfusion), lineKey]
  rcases hk with ⟨hctrl, hm⟩ | ⟨hctrl, halt, henter⟩
  · rw [if_pos hctrl, hm]
    rfl
  · rw [if_neg hctrl, if_neg halt, if_pos henter]
    rfl

theorem editKey_of_isEnter {k : Key} (hk : isEnter k) (z : Zipper (BitVec 8)) :
    editKey k z = z := by
  unfold editKey
  rcases hk with ⟨hctrl, hm⟩ | ⟨hctrl, halt, henter⟩
  · rw [if_pos hctrl, hm]
    rfl
  · rw [if_neg hctrl, if_neg halt, if_pos henter]

/-- What a function does to `term_buf` stays inside its 128 bytes, its loads included. -/
structure Confined (f : Console → Console) (c : Console) : Prop where
  oob : (f c).oob = c.oob
  withTail : ∀ tail, f (c.withTail tail) = (f c).withTail tail

/-- The editor as a whole: a terminal in line mode while a read is pending. -/
structure Editing (d : Data) (z : Zipper (BitVec 8)) : Prop where
  represents : d.Represents z
  termCanon : d.termCanon = false
  reading : d.reading = true

/-- **One key.** -/
theorem Editing.handleKey (h : Editing c.toData z) (k : Key) :
    Editing (c.handleKey k).toData (editKey k z) ∧ Confined (fun c => c.handleKey k) c := by
  obtain ⟨hin, rfl⟩ := Data.represents_iff.mp h.represents
  by_cases hk : isEnter k
  · have henter : ∀ c' : Console, c'.termCanon = false →
        c'.handleKey k = { c' with termReadDone := true } := fun _ hc => handleKey_of_isEnter hc hk
    refine ⟨?_, ?_, ?_⟩
    · rw [henter c h.termCanon, editKey_of_isEnter hk]
      exact ⟨Data.represents_iff.mpr ⟨⟨hin.curpos_le, hin.count_le⟩, rfl⟩, h.termCanon, h.reading⟩
    · rw [henter c h.termCanon]
    · intro tail
      rw [henter c h.termCanon]
      exact henter (c.withTail tail) h.termCanon
  · have hedits := edits_handleKey hin h.termCanon h.reading hk
    have hcanon : (c.handleKey k).termCanon = c.termCanon :=
      congrArg (·.termCanon) hedits.settings
    have hreading : (c.handleKey k).reading = c.reading := congrArg (·.reading) hedits.settings
    refine ⟨⟨Data.represents_iff.mpr ⟨hedits.inLine, hedits.line⟩, ?_, ?_⟩,
      hedits.oob, hedits.withTail⟩
    · rw [hcanon, h.termCanon]
    · rw [hreading, h.reading]

end edits

end Console

/-! ## The handler -/

namespace Data

/-- The record, less what drawing changes. -/
def undrawn (d : Data) : Data := { d with curX := 0, curY := 0, attr := 0 }

/-- Only three members are looked at. -/
theorem Represents.congr {d d' : Data} {z : Zipper (BitVec 8)} (h : d.Represents z)
    (hbuf : d'.termBuf = d.termBuf) (hcount : d'.termBufCount = d.termBufCount)
    (hcurpos : d'.termCurpos = d.termCurpos) : d'.Represents z := by
  refine ⟨?_, ?_, ?_, ?_⟩
  · rw [hbuf, hcount]
    exact h.text
  · rw [hcurpos]
    exact h.cursor
  · rw [hcurpos, hcount]
    exact h.curpos_le
  · rw [hcount]
    exact h.count_le

end Data

open Console

/-- Where the cursor is does not matter to the editor. -/
theorem Console.Editing.congr {d d' : Data} {z : Zipper (BitVec 8)} (h : Editing d z)
    (hd : d'.undrawn = d.undrawn) : Editing d' z where
  represents := h.represents.congr (congrArg (·.termBuf) hd) (congrArg (·.termBufCount) hd)
    (congrArg (·.termCurpos) hd)
  termCanon := (congrArg (·.termCanon) hd).trans h.termCanon
  reading := (congrArg (·.reading) hd).trans h.reading

namespace System

/-- A switch of terminals moves cursors at most. -/
theorem undrawn_switchTerm (s : System) (ind t : Fin termNum) :
    ((s.switchTerm ind).data t).undrawn = (s.data t).undrawn := by
  rw [switchTerm]
  split
  · rfl
  · split
    · rfl
    · rename_i d _
      show (Function.update s.data ind _ t).undrawn = _
      by_cases ht : t = ind
      · subst ht
        rw [Function.update_self]
        rfl
      · rw [Function.update_of_ne ht]

/-- The records after a key that switches terminals. -/
theorem undrawn_termKeyHandler_of_switch (s : System) {k : Key} {ind : Fin termNum}
    (hk : switchKey k = some ind) (t : Fin termNum) :
    ((s.termKeyHandler k).data t).undrawn = (s.data t).undrawn ∧
      (s.termKeyHandler k).curTermInd = ind := by
  rw [termKeyHandler, hk]
  refine ⟨undrawn_switchTerm _ ind t, ?_⟩
  show (switchTerm { s with curTerm := some s.curTermInd } ind).curTermInd = ind
  rw [switchTerm]
  split
  · rename_i hind
    exact hind.symm
  · rfl

/-- The records after any other key. -/
theorem data_termKeyHandler (s : System) {k : Key} (hk : switchKey k = none) :
    (s.termKeyHandler k).data =
        Function.update s.data s.curTermInd ((s.load s.curTermInd).handleKey k).toData ∧
      (s.termKeyHandler k).curTermInd = s.curTermInd := by
  rw [termKeyHandler, hk]
  dsimp only
  split
  · exact ⟨rfl, rfl⟩
  · exact ⟨rfl, rfl⟩

end System

/-- The keys of a sequence that go to terminal `t`, with terminal `d` on display at first. -/
def keysFor (t : Fin termNum) : Fin termNum → List Key → List Key
  | _, [] => []
  | d, k :: ks =>
    match System.switchKey k with
    | some ind => keysFor t ind ks
    | none => if d = t then k :: keysFor t d ks else keysFor t d ks

/-- A whole sequence of keys. -/
theorem Console.Editing.run {s : System} {t : Fin termNum} {z : Zipper (BitVec 8)}
    (h : Editing (s.data t) z) (ks : List Key) :
    Editing ((Runs.run System.termKeyHandler s ks).data t)
      ((keysFor t s.curTermInd ks).foldl (fun z k => editKey k z) z) := by
  induction ks generalizing s z with
  | nil => exact h
  | cons k ks ih =>
    rw [Runs.run_cons, keysFor]
    cases hk : System.switchKey k with
    | some ind =>
      obtain ⟨hdata, hcur⟩ := s.undrawn_termKeyHandler_of_switch hk t
      have hrest := ih (h.congr hdata)
      rw [hcur] at hrest
      exact hrest
    | none =>
      obtain ⟨hdata, hcur⟩ := s.data_termKeyHandler hk
      by_cases ht : s.curTermInd = t
      · subst ht
        have hstep : Editing ((s.termKeyHandler k).data s.curTermInd) (editKey k z) := by
          rw [hdata, Function.update_self]
          exact (Editing.handleKey (c := s.load s.curTermInd) h k).1
        have hrest := ih hstep
        rw [hcur] at hrest
        simp only [if_true]
        exact hrest
      · have hstep : Editing ((s.termKeyHandler k).data t) z := by
          rw [hdata, Function.update_of_ne (Ne.symm ht)]
          exact h
        have hrest := ih hstep
        rw [hcur] at hrest
        simp only [if_neg ht]
        exact hrest

/-- **The line editor.**  Terminal `t` is in line mode, a read is pending, and the record represents a
line with a cursor in it, within 127 bytes.  After every sequence of keys, on whatever terminals they
are typed, the record represents what the editor makes of that line with the keys typed on terminal
`t`.  The next key stays inside the 128 bytes of `term_buf`, whichever it is: it stores nothing
outside an array, and what lies behind the array makes no difference and stays as it is. -/
theorem lineEditor_refines (s : System) (t : Fin termNum) (z : Zipper (BitVec 8))
    (hcanon : (s.data t).termCanon = false) (hreading : (s.data t).reading = true)
    (hline : (s.data t).Represents z) (ks : List Key) :
    let s' := Runs.run System.termKeyHandler s ks
    (s'.data t).Represents ((keysFor t s.curTermInd ks).foldl (fun z k => editKey k z) z) ∧
      ∀ k, Confined (fun c => c.handleKey k) (s'.load t) := by
  intro s'
  have hrun := Editing.run ⟨hline, hcanon, hreading⟩ ks
  exact ⟨hrun.represents, fun k => (Editing.handleKey (c := s'.load t) hrun k).2⟩

/-- On the first terminal, after a read has begun: `b`, C-b, `a`, then a word on the second terminal,
and an end of the line on the first. -/
theorem lineEditor_refines_two_terminals :
    let s := step (System.unclearedTerms (fun _ _ => 0) fun _ => 0) (.readStart 0)
    let ks : List Key := [⟨0, ch 'b'⟩, ⟨modCtrl, ch 'b'⟩, ⟨0, ch 'a'⟩, ⟨modAlt, 0x8B⟩, ⟨0, ch 'z'⟩,
      ⟨modAlt, keyF1⟩, ⟨modCtrl, ch 'e'⟩]
    ((Runs.run System.termKeyHandler s ks).data 0).Represents ⟨[ch 'a', ch 'b'], []⟩ := by
  intro s ks
  have hempty : (s.data 0).Represents ⟨[], []⟩ := ⟨rfl, rfl, Nat.le_refl 0, Nat.zero_le _⟩
  obtain ⟨hline, -⟩ := lineEditor_refines s 0 ⟨[], []⟩ rfl rfl hempty ks
  have hcur : s.curTermInd = 0 := rfl
  have hedited : (keysFor 0 0 ks).foldl (fun z k => editKey k z) ⟨[], []⟩ =
      ⟨[ch 'a', ch 'b'], []⟩ := by
    decide
  rw [hcur, hedited] at hline
  exact hline

end Term
end CoreOS
