import CoreOS.Kernel.Chars
import CoreOS.Lib.Slide
import Mathlib.Algebra.BigOperators.Fin
import Mathlib.Algebra.Order.BigOperators.Group.List
import Mathlib.Algebra.Order.Ring.Nat

/-!
# 2048: the moves

`move_tile` moves all tiles of the board towards one side, in place and in six rounds: five of them
close gaps, and in the fifth of all equal tiles are joined.  The four cases of its `switch` have the
same two loop bodies, for the pairs of cells that their loops visit (`pairs`).

Each case is a sweep of a grid whose lines are the rows or the columns, read from the side moved
towards (`grid`).  So the lines do not disturb each other, and on each of them the six rounds are the
rules of the game (`moveTile_eq_slide`).  The values are those of an `int`; as long as they are far
from its bounds nothing is lost in them.
-/

namespace CoreOS
namespace Game

open Sweep Slide

/-- `int tile[16]`. -/
abbrev Board := Fin 16 → ℤ

/-- A result as the value of an `int`. -/
def int32 (x : ℤ) : ℤ := x.bmod (2 ^ 32)

/-- The sides of the board. -/
inductive Direction where
  | up
  | down
  | right
  | left
  deriving DecidableEq

namespace Direction

/-- The character for a side. -/
def key : Direction → BitVec 8
  | up => ch 'U'
  | down => ch 'D'
  | right => ch 'R'
  | left => ch 'L'

/-- `switch (direction)`. -/
def ofKey (direction : BitVec 8) : Option Direction :=
  if direction = ch 'U' then some up
  else if direction = ch 'D' then some down
  else if direction = ch 'R' then some right
  else if direction = ch 'L' then some left
  else none

theorem ofKey_key (d : Direction) : ofKey d.key = some d := by
  cases d <;> rfl

end Direction

/-! ## The loops -/

/-- `i == 3 || i == 7 || i == 11`. -/
def skips (i : ℕ) : Bool := i == 3 || i == 7 || i == 11

/-- The pairs of cells that the loops of a case visit, in their order.  The cell that is nearer to the
side moved towards is the first of a pair. -/
def pairs : Direction → List (Fin 16 × Fin 16)
  | .up => (List.finRange 12).map fun i => (i.castAdd 4, i.addNat 4)
  | .down => (List.finRange 12).reverse.map fun i => (i.addNat 4, i.castAdd 4)
  | .right =>
    ((List.finRange 15).reverse.filter fun i : Fin 15 => !skips i).map fun i => (i.succ, i.castSucc)
  | .left => ((List.finRange 15).filter fun i : Fin 15 => !skips i).map fun i => (i.castSucc, i.succ)

/-- The loop body for `j != 4`, on the board and `delta_score`. -/
def fillCell (s : Board × ℤ) (p : Fin 16 × Fin 16) : Board × ℤ :=
  if s.1 p.1 = 0 then (Function.update (Function.update s.1 p.1 (s.1 p.2)) p.2 0, s.2) else s

/-- The loop body for `j == 4`. -/
def joinCell (s : Board × ℤ) (p : Fin 16 × Fin 16) : Board × ℤ :=
  if s.1 p.1 = s.1 p.2 then
    let tile := Function.update (Function.update s.1 p.1 (int32 (2 * s.1 p.1))) p.2 0
    (tile, int32 (s.2 + tile p.1))
  else s

/-- The inner loop. -/
def round (d : Direction) (s : Board × ℤ) (j : ℕ) : Board × ℤ :=
  (pairs d).foldl (if j ≠ 4 then fillCell else joinCell) s

/-- `move_tile`: the board afterwards, and the score that is returned. -/
def moveTile (tile : Board) (direction : BitVec 8) : Board × ℤ :=
  match Direction.ofKey direction with
  | none => (tile, 0)
  | some d => (List.range 6).foldl (round d) (tile, 0)

/-! ## The lines of the board -/

/-- The cell in row `r` and column `c`. -/
def cellAt (r c : Fin 4) : Fin 16 := ⟨4 * r + c, by omega⟩

theorem cellAt_inj {r r' c c' : Fin 4} (h : cellAt r c = cellAt r' c') : r = r' ∧ c = c' := by
  have hval : 4 * r.val + c.val = 4 * r'.val + c'.val := Fin.mk.inj h
  exact ⟨Fin.ext (by omega), Fin.ext (by omega)⟩

/-- Cell `k` of line `l`, from the side moved towards. -/
def cell : Direction → Fin 4 → Fin 4 → Fin 16
  | .up, l, k => cellAt k l
  | .down, l, k => cellAt k.rev l
  | .right, l, k => cellAt l k.rev
  | .left, l, k => cellAt l k

theorem cell_inj (d : Direction) (l l' k k' : Fin 4) (h : cell d l k = cell d l' k') :
    l = l' ∧ k = k' := by
  cases d with
  | up => exact (cellAt_inj h).symm
  | down => exact ⟨(cellAt_inj h).2, Fin.rev_injective (cellAt_inj h).1⟩
  | right => exact ⟨(cellAt_inj h).1, Fin.rev_injective (cellAt_inj h).2⟩
  | left => exact cellAt_inj h

theorem exists_cell (d : Direction) (i : Fin 16) : ∃ l k, cell d l k = i := by
  revert i
  cases d <;> decide

/-- The order in which the loops go along the lines. -/
def order : Direction → List (Fin 4 × Fin 3)
  | .up => (List.finRange 3).flatMap fun k => (List.finRange 4).map fun l => (l, k)
  | .down => (List.finRange 3).flatMap fun k => (List.finRange 4).reverse.map fun l => (l, k)
  | .right => (List.finRange 4).reverse.flatMap fun l => (List.finRange 3).map fun k => (l, k)
  | .left => (List.finRange 4).flatMap fun l => (List.finRange 3).map fun k => (l, k)

theorem pairs_eq (d : Direction) :
    pairs d = (order d).map fun o => (cell d o.1 o.2.castSucc, cell d o.1 o.2.succ) := by
  cases d <;> decide

theorem order_line (d : Direction) (l : Fin 4) :
    ((order d).filter fun o => o.1 = l).map Prod.snd = List.finRange 3 := by
  revert l
  cases d <;> decide

/-- The lines of the board, from the side moved towards, as the loops go along them. -/
def grid (d : Direction) : Grid (Fin 4) (Fin 16) 3 where
  cell := cell d
  cell_inj := cell_inj d
  order := order d
  order_line := order_line d

/-- The values on a line. -/
def line (d : Direction) (l : Fin 4) (tile : Board) : List ℤ := List.ofFn fun k => tile (cell d l k)

/-! ## The rounds -/

/-- What an `int` has of twice a value. -/
def double (x : ℤ) : ℤ := int32 (2 * x)

/-- The score in an `int`. -/
def wrapScore (s : Board × ℤ) : Board × ℤ := (s.1, int32 s.2)

theorem int32_int32_add (x y : ℤ) : int32 (int32 x + y) = int32 (x + y) :=
  Int.bmod_add_bmod

theorem fillCell_wrapScore (s : Board × ℤ) (p : Fin 16 × Fin 16) :
    fillCell (wrapScore s) p = wrapScore (place fill s p.1 p.2) := by
  by_cases hzero : s.1 p.1 = 0
  · have hfill : fill (s.1 p.1) (s.1 p.2) = (s.1 p.2, 0, 0) := if_pos hzero
    refine (if_pos hzero).trans ?_
    rw [wrapScore, wrapScore, place, hfill, add_zero]
  · have hfill : fill (s.1 p.1) (s.1 p.2) = (s.1 p.1, s.1 p.2, 0) := if_neg hzero
    rw [place_eq_self fill hfill]
    exact if_neg hzero

theorem joinCell_wrapScore (s : Board × ℤ) {p : Fin 16 × Fin 16} (hp : p.1 ≠ p.2) :
    joinCell (wrapScore s) p = wrapScore (place (join double) s p.1 p.2) := by
  by_cases heq : s.1 p.1 = s.1 p.2
  · have hjoin : join double (s.1 p.1) (s.1 p.2) = (double (s.1 p.1), 0, double (s.1 p.1)) :=
      if_pos heq
    refine (if_pos heq).trans ?_
    rw [wrapScore, wrapScore, place, hjoin]
    refine Prod.ext rfl ?_
    dsimp only
    rw [Function.update_of_ne hp, Function.update_self]
    exact int32_int32_add s.2 (double (s.1 p.1))
  · have hjoin : join double (s.1 p.1) (s.1 p.2) = (s.1 p.1, s.1 p.2, 0) := if_neg heq
    rw [place_eq_self (join double) hjoin]
    exact if_neg heq

/-- **A round is a sweep.** -/
theorem round_wrapScore (d : Direction) (s : Board × ℤ) (j : ℕ) : round d (wrapScore s) j =
    wrapScore ((grid d).sweep (if j ≠ 4 then fill else join double) s) := by
  rw [round, pairs_eq, List.foldl_map]
  split_ifs
  · exact List.foldl_hom wrapScore fun s o => fillCell_wrapScore s _
  · refine List.foldl_hom wrapScore fun s o => joinCell_wrapScore s fun h => ?_
    exact Fin.castSucc_lt_succ.ne (cell_inj d _ _ _ _ h).2

theorem yieldFrom_fill (a : ℤ) (l : List ℤ) : yieldFrom fill a l = 0 := by
  induction l generalizing a with
  | nil => rfl
  | cons b l ih =>
    rw [yieldFrom, ih, add_zero, fill]
    split <;> rfl

theorem yield_fill (l : List ℤ) : yield fill l = 0 := by
  cases l with
  | nil => rfl
  | cons a l => exact yieldFrom_fill a l

/-- Sweeps that close gaps do not score. -/
theorem line_iterate_fill (d : Direction) (s : Board × ℤ) (k : ℕ) :
    (∀ l, line d l (((grid d).sweep fill)^[k] s).1 = (sweep fill)^[k] (line d l s.1)) ∧
      (((grid d).sweep fill)^[k] s).2 = s.2 := by
  induction k with
  | zero => exact ⟨fun l => rfl, rfl⟩
  | succ k ih =>
    obtain ⟨hline, hsum⟩ := (grid d).line_sweep fill (((grid d).sweep fill)^[k] s)
    rw [Function.iterate_succ_apply']
    refine ⟨fun l => ?_, ?_⟩
    · rw [Function.iterate_succ_apply', ← ih.1 l]
      exact hline l
    · rw [hsum, ih.2, Finset.sum_eq_zero fun l _ => yield_fill _, add_zero]

/-- **A move is six sweeps.** -/
theorem moveTile_eq (tile : Board) (d : Direction) :
    moveTile tile d.key = wrapScore ((grid d).sweep fill ((grid d).sweep (join double)
      (((grid d).sweep fill)^[4] (tile, 0)))) := by
  have hstart : (tile, (0 : ℤ)) = wrapScore (tile, 0) := rfl
  have hrounds : moveTile tile d.key = (List.range 6).foldl (round d) (tile, 0) := by
    rw [moveTile, d.ofKey_key]
  rw [hrounds, hstart]
  exact List.foldl_hom wrapScore fun s j => round_wrapScore d s j

/-- **A move**, of every board: each line has its own passes, and the score is what they yield. -/
theorem line_moveTile (tile : Board) (d : Direction) :
    (∀ l, line d l (moveTile tile d.key).1 = passes double (line d l tile)) ∧
      (moveTile tile d.key).2 =
        int32 (∑ l, yield (join double) ((sweep fill)^[4] (line d l tile))) := by
  obtain ⟨hfour, hfourSum⟩ := line_iterate_fill d (tile, 0) 4
  obtain ⟨hjoin, hjoinSum⟩ := (grid d).line_sweep (join double) (((grid d).sweep fill)^[4] (tile, 0))
  obtain ⟨hlast, hlastSum⟩ := line_iterate_fill d ((grid d).sweep (join double)
    (((grid d).sweep fill)^[4] (tile, 0))) 1
  have hmove := moveTile_eq tile d
  refine ⟨fun l => ?_, ?_⟩
  · rw [hmove, passes, ← hfour l]
    exact (hlast l).trans (congrArg (sweep fill) (hjoin l))
  · rw [hmove]
    refine congrArg int32 (hlastSum.trans (hjoinSum.trans ?_))
    rw [hfourSum, zero_add]
    exact Finset.sum_congr rfl fun l _ => congrArg (yield (join double)) (hfour l)

/-! ## Within the bounds -/

theorem int32_eq {x : ℤ} (h : x.natAbs < 2 ^ 31) : int32 x = x :=
  Int.bmod_eq_of_le (by omega) (by omega)

/-- A tile that is made counts no more than the two that it is made of. -/
theorem natAbs_sum_merged (l : List ℤ) :
    (merged (2 * ·) l).sum.natAbs ≤ (l.map Int.natAbs).sum := by
  induction l using merge.induct with
  | case1 a l ih =>
    rw [merged_self, List.sum_cons, List.map_cons, List.map_cons, List.sum_cons, List.sum_cons]
    omega
  | case2 a b l hab ih =>
    rw [merged_of_ne _ hab, List.map_cons, List.sum_cons]
    omega
  | case3 l hshort =>
    rcases l with _ | ⟨a, _ | ⟨b, l⟩⟩
    · exact Nat.zero_le _
    · exact Nat.zero_le _
    · exact absurd rfl (hshort a b l)

section bounds

variable {tile : Board} (htile : ∀ i, (tile i).natAbs < 2 ^ 26)
include htile

theorem natAbs_line (d : Direction) (l : Fin 4) : ∀ x ∈ line d l tile, x.natAbs < 2 ^ 26 := by
  intro x hx
  obtain ⟨k, rfl⟩ := List.mem_ofFn.mp hx
  exact htile (cell d l k)

theorem double_line (d : Direction) (l : Fin 4) : ∀ x ∈ line d l tile, double x = 2 * x := by
  intro x hx
  have hlt := natAbs_line htile d l x hx
  exact int32_eq (by omega)

/-- **A line within the bounds.** -/
theorem passes_line (d : Direction) (l : Fin 4) :
    passes double (line d l tile) = slide (2 * ·) (line d l tile) ∧
      yield (join double) ((sweep fill)^[4] (line d l tile)) = score (2 * ·) (line d l tile) := by
  have hlen : (line d l tile).length ≤ 4 := List.length_ofFn.le
  have hdouble := double_line htile d l
  have hne : ∀ x ∈ line d l tile, double x = 0 → x = 0 := by
    intro x hx hzero
    rw [hdouble x hx] at hzero
    omega
  obtain ⟨hpasses, hyield⟩ := passes_eq_slide hlen rfl hne
  obtain ⟨hslide, hscore⟩ := slide_congr hdouble
  exact ⟨hpasses.trans hslide, hyield.trans hscore⟩

theorem natAbs_score_line (d : Direction) (l : Fin 4) :
    (score (2 * ·) (line d l tile)).natAbs ≤ 4 * 2 ^ 26 := by
  have hsum : ((tiles (line d l tile)).map Int.natAbs).sum ≤
      ((tiles (line d l tile)).map Int.natAbs).length • 2 ^ 26 := by
    refine List.sum_le_card_nsmul _ _ fun y hy => ?_
    obtain ⟨x, hx, rfl⟩ := List.mem_map.mp hy
    exact (natAbs_line htile d l x (List.mem_of_mem_filter hx)).le
  have hlen : (tiles (line d l tile)).length ≤ 4 :=
    (List.length_filter_le ..).trans List.length_ofFn.le
  rw [List.length_map, smul_eq_mul] at hsum
  have hmerged := natAbs_sum_merged (tiles (line d l tile))
  rw [score]
  omega

/-- The score fits in an `int`. -/
theorem int32_sum_score (d : Direction) :
    int32 (∑ l, score (2 * ·) (line d l tile)) = ∑ l, score (2 * ·) (line d l tile) := by
  refine int32_eq ?_
  have hscore := natAbs_score_line htile d
  rw [Fin.sum_univ_four]
  have h₀ := hscore 0
  have h₁ := hscore 1
  have h₂ := hscore 2
  have h₃ := hscore 3
  omega

end bounds

/-! ## Symmetries -/

/-- A move on the board as a map `σ` shows it. -/
def conjugate (σ : Fin 16 → Fin 16) (move : Board → Board × ℤ) (tile : Board) : Board × ℤ :=
  ((move (tile ∘ σ)).1 ∘ σ, (move (tile ∘ σ)).2)

/-- The cell in the same column, with the rows in the opposite order. -/
def flipRows (i : Fin 16) : Fin 16 := ⟨4 * (3 - i / 4) + i % 4, by omega⟩

/-- The cell in the same row, with the columns in the opposite order. -/
def flipColumns (i : Fin 16) : Fin 16 := ⟨4 * (i / 4) + (3 - i % 4), by omega⟩

/-- The cell with its row and its column exchanged. -/
def transpose (i : Fin 16) : Fin 16 := ⟨4 * (i % 4) + i / 4, by omega⟩

/-- Boards with the same lines are the same. -/
theorem eq_of_line (d : Direction) {tile tile' : Board} (h : ∀ l, line d l tile = line d l tile') :
    tile = tile' := by
  funext i
  obtain ⟨l, k, rfl⟩ := exists_cell d i
  exact congrFun (List.ofFn_injective (h l)) k

/-- **Moves that look the same.**  If `σ` shows the lines of one case of the `switch` as those of
another one, then it shows the moves so. -/
theorem moveTile_eq_conjugate (d d' : Direction) {σ : Fin 16 → Fin 16}
    (hσ : ∀ l k, σ (cell d' l k) = cell d l k) (hσ' : ∀ l k, σ (cell d l k) = cell d' l k)
    (tile : Board) : moveTile tile d.key = conjugate σ (moveTile · d'.key) tile := by
  have hline : ∀ l, line d' l (tile ∘ σ) = line d l tile := by
    intro l
    exact congrArg List.ofFn (funext fun k => congrArg tile (hσ l k))
  obtain ⟨hmove, hscore⟩ := line_moveTile tile d
  obtain ⟨hmove', hscore'⟩ := line_moveTile (tile ∘ σ) d'
  refine Prod.ext (eq_of_line d fun l => ?_) ?_
  · rw [hmove, ← hline, ← hmove']
    exact congrArg List.ofFn (funext fun k => (congrArg (moveTile (tile ∘ σ) d'.key).1 (hσ' l k)).symm)
  · rw [hscore]
    refine Eq.trans ?_ hscore'.symm
    simp only [hline]

theorem moveTile_down (tile : Board) :
    moveTile tile (ch 'D') = conjugate flipRows (moveTile · (ch 'U')) tile :=
  moveTile_eq_conjugate .down .up (by decide) (by decide) tile

theorem moveTile_right (tile : Board) :
    moveTile tile (ch 'R') = conjugate flipColumns (moveTile · (ch 'L')) tile :=
  moveTile_eq_conjugate .right .left (by decide) (by decide) tile

theorem moveTile_left (tile : Board) :
    moveTile tile (ch 'L') = conjugate transpose (moveTile · (ch 'U')) tile :=
  moveTile_eq_conjugate .left .up (by decide) (by decide) tile

/-- **A move is the rules of the game.**  On a board of values below `2 ^ 26`, a move towards any side
slides each line, read from that side, and returns the sum of the tiles that have been merged.  The
moves down and to the right are those up and to the left in a mirror, and the move to the left is that
up with rows and columns exchanged. -/
theorem moveTile_eq_slide (tile : Board) (htile : ∀ i, (tile i).natAbs < 2 ^ 26) :
    (∀ d : Direction,
        (∀ l, line d l (moveTile tile d.key).1 = slide (2 * ·) (line d l tile)) ∧
          (moveTile tile d.key).2 = ∑ l, score (2 * ·) (line d l tile)) ∧
      moveTile tile (ch 'D') = conjugate flipRows (moveTile · (ch 'U')) tile ∧
      moveTile tile (ch 'R') = conjugate flipColumns (moveTile · (ch 'L')) tile ∧
      moveTile tile (ch 'L') = conjugate transpose (moveTile · (ch 'U')) tile := by
  refine ⟨fun d => ?_, moveTile_down tile, moveTile_right tile, moveTile_left tile⟩
  obtain ⟨hline, hscore⟩ := line_moveTile tile d
  refine ⟨fun l => (hline l).trans (passes_line htile d l).1, ?_⟩
  rw [hscore, ← int32_sum_score htile d]
  exact congrArg int32 (Finset.sum_congr rfl fun l _ => (passes_line htile d l).2)

/-- A board of twos, moved to the left: two tiles of 4 in each row. -/
theorem moveTile_twos :
    (∀ l, line .left l (moveTile (fun _ => 2) (ch 'L')).1 = [4, 4, 0, 0]) ∧
      (moveTile (fun _ => 2) (ch 'L')).2 = 32 := by
  have hline : ∀ l, line .left l (fun _ => 2) = [2, 2, 2, 2] := fun l => rfl
  obtain ⟨hslide, hscore⟩ := (moveTile_eq_slide (fun _ => 2) fun _ => by decide).1 .left
  refine ⟨fun l => (hslide l).trans ?_, hscore.trans ?_⟩
  · rw [hline]
    rfl
  · simp only [hline]
    rfl

end Game
end CoreOS
