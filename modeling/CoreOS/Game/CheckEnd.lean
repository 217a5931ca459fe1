import CoreOS.Game.MoveTile
import Mathlib.Data.List.ChainOfFn

/-!
# 2048: the end of the game

`check_end` looks whether a full board can still be moved.  It makes the four moves on the board itself,
one after the other, and compares what comes out with a copy of the board.

A move of a full board that changes it joins two tiles and leaves a gap, and no move closes all gaps
of a board.  So the moves cannot cancel out: if one of them changes the board, there is a gap at the
end, which was not there before (`run_moves`).  What `check_end` finds is that there are no equal
neighbours in the rows and in the columns, and it leaves the board as it was (`checkEnd_iff`).
-/

namespace CoreOS
namespace Game

open Sweep Slide

/-- `check_end`: what is returned, and the board afterwards. -/
def checkEnd (tile : Board) : Bool × Board :=
  if (List.finRange 16).any fun i => tile i == 0 then (false, tile)
  else
    let tileBak := tile
    let tile := (moveTile tile (ch 'U')).1
    let tile := (moveTile tile (ch 'D')).1
    let tile := (moveTile tile (ch 'R')).1
    let tile := (moveTile tile (ch 'L')).1
    let changed := (List.finRange 16).any fun i => tileBak i != tile i
    if changed then (false, tileBak) else (true, tile)

/-- `j` is below `i` in its column or to the right of it in its row. -/
def Adjacent (i j : Fin 16) : Prop :=
  j.val = i.val + 4 ∨ j.val = i.val + 1 ∧ j.val / 4 = i.val / 4

instance decidableAdjacent (i j : Fin 16) : Decidable (Adjacent i j) :=
  inferInstanceAs (Decidable (_ ∨ _))

/-! ## Equal neighbours -/

/-- There are no equal neighbours on the lines of a direction. -/
def Distinct (d : Direction) (tile : Board) : Prop :=
  ∀ l : Fin 4, ∀ k : Fin 3, tile (cell d l k.castSucc) ≠ tile (cell d l k.succ)

theorem distinct_iff (d : Direction) (tile : Board) :
    Distinct d tile ↔ ∀ l, (line d l tile).IsChain (· ≠ ·) := by
  refine forall_congr' fun l => ?_
  rw [line, List.isChain_ofFn]
  constructor
  · intro h i hi
    exact h ⟨i, Nat.lt_of_succ_lt_succ hi⟩
  · intro h k
    exact h k.val (Nat.succ_lt_succ k.isLt)

/-- Neighbours follow each other on a line. -/
theorem exists_cell_of_adjacent : ∀ i j, Adjacent i j → ∃ l, ∃ k : Fin 3,
    (cell .up l k.castSucc = i ∧ cell .up l k.succ = j) ∨
      (cell .left l k.castSucc = i ∧ cell .left l k.succ = j) := by
  decide +kernel

theorem adjacent_cell (d : Direction) (l : Fin 4) (k : Fin 3) :
    Adjacent (cell d l k.castSucc) (cell d l k.succ) ∨
      Adjacent (cell d l k.succ) (cell d l k.castSucc) := by
  revert l k
  cases d <;> decide

/-- **Rows and columns** have all neighbours on them. -/
theorem forall_distinct_iff (tile : Board) :
    (∀ d, Distinct d tile) ↔ ∀ i j, Adjacent i j → tile i ≠ tile j := by
  constructor
  · intro h i j hij
    obtain ⟨l, k, ⟨rfl, rfl⟩ | ⟨rfl, rfl⟩⟩ := exists_cell_of_adjacent i j hij
    · exact h .up l k
    · exact h .left l k
  · intro h d l k
    rcases adjacent_cell d l k with hadj | hadj
    · exact h _ _ hadj
    · exact (h _ _ hadj).symm

/-! ## One move -/

/-- The board after a move. -/
def move (tile : Board) (d : Direction) : Board := (moveTile tile d.key).1

theorem exists_zero_iff (d : Direction) (tile : Board) :
    (∃ i, tile i = 0) ↔ ∃ l, 0 ∈ line d l tile := by
  constructor
  · rintro ⟨i, hi⟩
    obtain ⟨l, k, rfl⟩ := exists_cell d i
    exact ⟨l, List.mem_ofFn.mpr ⟨k, hi⟩⟩
  · rintro ⟨l, hl⟩
    obtain ⟨k, hk⟩ := List.mem_ofFn.mp hl
    exact ⟨cell d l k, hk⟩

/-- **A move that finds a gap or equal neighbours** leaves a gap. -/
theorem zero_move {tile : Board} {d : Direction} (h : (∃ i, tile i = 0) ∨ ¬ Distinct d tile) :
    ∃ i, move tile d i = 0 := by
  obtain ⟨hline, -⟩ := line_moveTile tile d
  obtain ⟨l, hl⟩ : ∃ l, 0 ∈ line d l tile ∨ ¬ (line d l tile).IsChain (· ≠ ·) := by
    rcases h with hzero | hequal
    · obtain ⟨l, hl⟩ := (exists_zero_iff d tile).mp hzero
      exact ⟨l, Or.inl hl⟩
    · rw [distinct_iff, not_forall] at hequal
      obtain ⟨l, hl⟩ := hequal
      exact ⟨l, Or.inr hl⟩
  refine (exists_zero_iff d _).mpr ⟨l, ?_⟩
  rw [move, hline]
  exact zero_mem_passes hl

/-- **A move that finds neither** changes nothing. -/
theorem move_eq_self {tile : Board} {d : Direction} (hfull : ∀ i, tile i ≠ 0)
    (hdistinct : Distinct d tile) : move tile d = tile := by
  obtain ⟨hline, -⟩ := line_moveTile tile d
  refine eq_of_line d fun l => (hline l).trans (passes_of_isChain ?_ ?_)
  · intro hmem
    obtain ⟨i, hi⟩ := (exists_zero_iff d tile).mpr ⟨l, hmem⟩
    exact hfull i hi
  · exact (distinct_iff d tile).mp hdistinct l

theorem move_eq_self_iff {tile : Board} {d : Direction} (hfull : ∀ i, tile i ≠ 0) :
    move tile d = tile ↔ Distinct d tile := by
  refine ⟨fun hsame => ?_, move_eq_self hfull⟩
  by_contra hequal
  obtain ⟨i, hi⟩ := zero_move (Or.inr hequal)
  rw [hsame] at hi
  exact hfull i hi

/-! ## All moves -/

/-- **Moves do not cancel out.**  After any moves of a full board there is a gap, if one of them would
have changed the board, and otherwise it is the same. -/
theorem run_moves {tile : Board} (hfull : ∀ i, tile i ≠ 0) (ds : List Direction) :
    Runs.run move tile ds = tile ↔ ∀ d ∈ ds, Distinct d tile := by
  have hstay : ∀ (t : Board) d, t = tile → ¬ ¬ Distinct d tile → move t d = tile := by
    rintro t d rfl hdistinct
    exact move_eq_self hfull (not_not.mp hdistinct)
  have hbreak : ∀ (t : Board) d, t = tile → ¬ Distinct d tile → ∃ i, move t d i = 0 := by
    rintro t d rfl hequal
    exact zero_move (Or.inr hequal)
  have hkeep : ∀ (t : Board) d, (∃ i, t i = 0) → ∃ i, move t d i = 0 :=
    fun t d hzero => zero_move (Or.inl hzero)
  rcases Runs.run_of_trigger hstay hbreak hkeep rfl ds with
    ⟨⟨d, hd, hequal⟩, i, hi⟩ | ⟨hall, hsame⟩
  · refine iff_of_false (fun hsame => ?_) fun h => hequal (h d hd)
    rw [hsame] at hi
    exact hfull i hi
  · exact iff_of_true hsame fun d hd => not_not.mp (hall d hd)

/-- The four moves of `check_end`. -/
def fourMoves (tile : Board) : Board :=
  (moveTile (moveTile (moveTile (moveTile tile (ch 'U')).1 (ch 'D')).1 (ch 'R')).1 (ch 'L')).1

theorem fourMoves_eq (tile : Board) :
    fourMoves tile = Runs.run move tile [.up, .down, .right, .left] := by
  simp only [fourMoves, Runs.run_cons, Runs.run_nil, move, Direction.key]

theorem any_zero_iff (tile : Board) :
    ((List.finRange 16).any fun i => tile i == 0) = true ↔ ∃ i, tile i = 0 := by
  rw [List.any_eq_true]
  exact exists_congr fun i => (and_iff_right (List.mem_finRange i)).trans beq_iff_eq

theorem any_ne_iff (tile tile' : Board) :
    ((List.finRange 16).any fun i => tile i != tile' i) = true ↔ tile ≠ tile' := by
  rw [List.any_eq_true, Function.ne_iff]
  exact exists_congr fun i => (and_iff_right (List.mem_finRange i)).trans bne_iff_ne

/-- **A call.** -/
theorem checkEnd_spec (tile : Board) :
    ((checkEnd tile).1 = true ↔ (∀ i, tile i ≠ 0) ∧ fourMoves tile = tile) ∧
      (checkEnd tile).2 = tile := by
  by_cases hzero : ((List.finRange 16).any fun i => tile i == 0) = true
  · obtain ⟨i, hi⟩ := (any_zero_iff tile).mp hzero
    have hcall : checkEnd tile = (false, tile) := if_pos hzero
    rw [hcall]
    exact ⟨iff_of_false Bool.false_ne_true fun h => h.1 i hi, rfl⟩
  · have hfull : ∀ i, tile i ≠ 0 := fun i hi => hzero ((any_zero_iff tile).mpr ⟨i, hi⟩)
    by_cases hchanged : ((List.finRange 16).any fun i => tile i != fourMoves tile i) = true
    · have hcall : checkEnd tile = (false, tile) := (if_neg hzero).trans (if_pos hchanged)
      have hne := (any_ne_iff tile (fourMoves tile)).mp hchanged
      rw [hcall]
      exact ⟨iff_of_false Bool.false_ne_true fun h => hne h.2.symm, rfl⟩
    · have hcall : checkEnd tile = (true, fourMoves tile) := (if_neg hzero).trans (if_neg hchanged)
      have hsame : fourMoves tile = tile := by
        by_contra hne
        exact hchanged ((any_ne_iff tile (fourMoves tile)).mpr (Ne.symm hne))
      rw [hcall, hsame]
      exact ⟨iff_of_true rfl ⟨hfull, rfl⟩, rfl⟩

/-- **The end of the game.**  `check_end` returns `true` if and only if no cell is empty and no two
adjacent cells are equal, which is so if and only if the board is full and none of the four moves
changes it.  The board is left as it was. -/
theorem checkEnd_iff (tile : Board) :
    ((checkEnd tile).1 = true ↔
        (∀ i, tile i ≠ 0) ∧ ∀ i j, Adjacent i j → tile i ≠ tile j) ∧
      ((checkEnd tile).1 = true ↔
        (∀ i, tile i ≠ 0) ∧ ∀ d : Direction, (moveTile tile d.key).1 = tile) ∧
      (checkEnd tile).2 = tile := by
  obtain ⟨hcall, hboard⟩ := checkEnd_spec tile
  have hmoves : (∀ i, tile i ≠ 0) → (fourMoves tile = tile ↔ ∀ d, Distinct d tile) := by
    intro hfull
    rw [fourMoves_eq]
    refine (run_moves hfull _).trans ⟨fun h d => h d ?_, fun h d _ => h d⟩
    cases d <;> decide
  refine ⟨hcall.trans ?_, hcall.trans ?_, hboard⟩
  · rw [← forall_distinct_iff]
    exact and_congr_right hmoves
  · refine and_congr_right fun hfull => (hmoves hfull).trans (forall_congr' fun d => ?_)
    exact (move_eq_self_iff hfull).symm

end Game
end CoreOS
