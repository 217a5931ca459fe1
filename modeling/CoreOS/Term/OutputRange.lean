import CoreOS.Term.Drawing
import CoreOS.Term.Separation

/-!
# What any output leaves in range

A program sends its terminal whatever bytes it likes: control characters, escape sequences that break
off, arguments with too many digits, positions far off the screen.  `InRange` says that after each of
them the cursor and the stored position are on the screen, the argument being collected and the list
of arguments fit into their four bytes, and nothing has been stored outside an array.

`Good` has all of this but the stored position.  A sequence stores a position only by copying the
cursor (`copies_writeByte`), and a cursor that is copied is on the screen.

The coordinates are signed bytes in the source.  They are integers here, which is the same as long as
no step takes them out of the range of a signed byte; and a step from the screen goes by one cell, to
between -1 and 80.
-/

namespace CoreOS
namespace Term
namespace Console

/-- **The terminal is in range.** -/
structure InRange (c : Console) : Prop where
  x_nonneg : 0 ≤ c.curX
  x_lt : c.curX < 80
  y_nonneg : 0 ≤ c.curY
  y_lt : c.curY < 25
  x_store_nonneg : 0 ≤ c.curXStore
  x_store_lt : c.curXStore < 80
  y_store_nonneg : 0 ≤ c.curYStore
  y_store_lt : c.curYStore < 25
  bufLen_le : c.bufLen ≤ 3
  argLen_le : c.argLen ≤ 3
  inside : c.oob = false

/-! ## The stored position -/

/-- The stored position. -/
def stores (c : Console) : ℤ × ℤ := (c.curXStore, c.curYStore)

/-- The position of the cursor. -/
def cursor (c : Console) : ℤ × ℤ := (c.curX, c.curY)

section stores

variable {c : Console}

theorem Draws.stores_eq {f : Console → Console} (hf : Draws f) (c : Console) :
    (f c).stores = c.stores := by
  rw [hf.eq_withLine c]
  rfl

theorem stores_setting (c : Console) (on : Bool) : (c.setting on).stores = c.stores := by
  rw [setting]
  split_ifs <;> rfl

theorem stores_clear (c : Console) : c.clear.stores = c.stores := by
  rw [clear_eq]
  rfl

/-- The stored position is what it was in `c`, or where the cursor is in `c`. -/
def Copies (c c' : Console) : Prop := c'.stores = c.stores ∨ c'.stores = c.cursor

/-- Of the functions of an escape sequence, one copies the cursor and the others leave the stored
position alone. -/
theorem copies_escFuncs (c : Console) (f : BitVec 8) : Copies c (c.escFuncs f) := by
  have hsame : Copies c c := Or.inl rfl
  have hattr : ∀ attr, Copies c (c.setattr attr) := fun _ => Or.inl rfl
  have hpos : ∀ x y, Copies c (c.setpos x y) := fun _ _ => Or.inl rfl
  exact escFuncs_cases hsame hattr hpos (Or.inr rfl) (Or.inl (stores_clear c))
    (fun on => Or.inl (stores_setting c on)) f

theorem stores_pushArg (c : Console) :
    c.pushArg.stores = c.stores ∧ c.pushArg.cursor = c.cursor := by
  rw [pushArg]
  split <;> exact ⟨rfl, rfl⟩

theorem copies_argParse (c : Console) (b : BitVec 8) : Copies c (c.argParse b) := by
  obtain ⟨hstores, hcursor⟩ := stores_pushArg c
  rw [argParse]
  split_ifs
  · exact Or.inl rfl
  · exact Or.inl rfl
  · rw [Copies, ← hstores, ← hcursor]
    exact copies_escFuncs { c.pushArg with bufLen := 0 } b
  · exact Or.inl hstores

theorem copies_escParse (c : Console) (b : BitVec 8) : Copies c (c.escParse b).2 := by
  rw [escParse]
  split_ifs
  · exact Or.inl rfl
  · exact Or.inl rfl
  · exact copies_argParse { c with argLen := 0, bufLen := 0, state := .argParse } b
  · exact copies_escFuncs { c with argLen := 0, bufLen := 0, state := .argParse } b
  · exact copies_argParse c b
  · exact Or.inl rfl

/-- **A byte leaves the stored position alone, or copies the cursor.** -/
theorem copies_writeByte (c : Console) (b : BitVec 8) : Copies c (c.writeByte b) := by
  show Copies c (if (c.escParse b).1 then (c.escParse b).2.putc b else (c.escParse b).2)
  split
  · rw [Copies, (draws_putc b).stores_eq]
    exact copies_escParse c b
  · exact copies_escParse c b

end stores

/-! ## Output -/

/-- A terminal that is good, with a stored position on the screen. -/
structure Ready (c : Console) : Prop where
  good : ∃ p, Good p c
  stores_mem : 0 ≤ c.curXStore ∧ c.curXStore < 80 ∧ 0 ≤ c.curYStore ∧ c.curYStore < 25

theorem Ready.inRange {c : Console} (h : Ready c) : InRange c := by
  obtain ⟨p, hgood⟩ := h.good
  obtain ⟨hx, hx', hy, hy'⟩ := h.stores_mem
  exact ⟨hgood.x_nonneg, hgood.x_lt, hgood.y_nonneg, hgood.y_lt, hx, hx', hy, hy', hgood.bufLen_le,
    hgood.argLen_le, hgood.inside⟩

/-- **One byte.** -/
theorem Ready.writeByte {c : Console} (h : Ready c) (b : BitVec 8) : Ready (c.writeByte b) := by
  obtain ⟨p, hgood⟩ := h.good
  refine ⟨⟨p, hgood.writeByte b⟩, ?_⟩
  rcases copies_writeByte c b with heq | heq
  · obtain ⟨hx, hy⟩ := Prod.mk.inj heq
    rw [hx, hy]
    exact h.stores_mem
  · obtain ⟨hx, hy⟩ := Prod.mk.inj heq
    rw [hx, hy]
    exact ⟨hgood.x_nonneg, hgood.x_lt, hgood.y_nonneg, hgood.y_lt⟩

theorem ready_initTerm (pages : PagePtr → Screen) (signals : ℕ → BitVec 8) (t : Fin termNum) :
    Ready ((System.initTerm pages signals).load t) := by
  have hsep := sep_initTerm pages signals
  refine ⟨⟨_, hsep.good t⟩, ?_⟩
  rw [hsep.views t]
  decide

end Console

open Console

/-- **Output leaves a terminal in range.**  Whatever bytes are written to a terminal after
`init_term`, it is in range after each of them. -/
theorem output_inRange (pages : PagePtr → Screen) (signals : ℕ → BitVec 8) (t : Fin termNum)
    (bytes : List (BitVec 8)) :
    Runs.Always Console.writeByte InRange ((System.initTerm pages signals).load t) bytes := by
  have hready : Runs.Always Console.writeByte Ready ((System.initTerm pages signals).load t) bytes :=
    Runs.always_of_meets (C := fun _ _ => True) (fun _ b h _ => h.writeByte b)
      (ready_initTerm pages signals t) (Runs.meets_of_forall (fun _ _ _ => trivial) _)
  exact fun bytes' hpre => (hready bytes' hpre).inRange

end Term
end CoreOS
