import CoreOS.Game.Play
import Mathlib.Algebra.BigOperators.Intervals
import Mathlib.Algebra.Order.BigOperators.Group.Finset
import Mathlib.Algebra.Order.Ring.Int
import Mathlib.Data.Int.ConditionallyCompleteOrder
import Mathlib.Tactic.Positivity
import Mathlib.Tactic.Ring

/-!
# 2048: how far a game can go

Whatever the player does, all tiles are powers of two, and there are at most `18 - e` tiles from `2 ^ e`
on (`Fair`): a new tile of that kind is made of two, and takes both from those from `2 ^ (e - 1)` on.
So no tile is larger than `2 ^ 17`, and the arithmetic in `int`s is always exact.

What has been put on the board is still there (`Accounts`): the tiles add up to all that have been
placed, and the score is what it takes to make them of twos, less 4 for each 4 that has been placed.
The tiles of a board cannot add up to more than `2 ^ 18 - 4`, so a game comes to its end.
-/

namespace CoreOS
namespace Game

open Runs Slide

/-! ## Sums over the board -/

section sums

variable {M : Type*} [AddCommMonoid M] (f : ℤ → M)

/-- **The board by lines.** -/
theorem sum_line (d : Direction) (tile : Board) :
    ∑ i, f (tile i) = ∑ l, ((line d l tile).map f).sum := by
  have hbij : Function.Bijective fun p : Fin 4 × Fin 4 => cell d p.1 p.2 := by
    refine ⟨fun p q h => ?_, fun i => ?_⟩
    · obtain ⟨hl, hk⟩ := cell_inj d _ _ _ _ h
      exact Prod.ext hl hk
    · obtain ⟨l, k, hi⟩ := exists_cell d i
      exact ⟨(l, k), hi⟩
  rw [← Equiv.sum_comp (Equiv.ofBijective _ hbij), Fintype.sum_prod_type]
  refine Finset.sum_congr rfl fun l _ => ?_
  rw [line, List.map_ofFn, List.sum_ofFn]
  rfl

/-- One more tile. -/
theorem sum_update (hzero : f 0 = 0) {tile : Board} {i : Fin 16} (hi : tile i = 0) (t : ℤ) :
    ∑ j, f (Function.update tile i t j) = ∑ j, f (tile j) + f t := by
  have hrest : ∑ j ∈ Finset.univ.erase i, f (Function.update tile i t j) =
      ∑ j ∈ Finset.univ.erase i, f (tile j) := by
    refine Finset.sum_congr rfl fun j hj => ?_
    rw [Function.update_of_ne (Finset.ne_of_mem_erase hj)]
  rw [← Finset.sum_erase_add _ _ (Finset.mem_univ i), hrest, Function.update_self,
    ← Finset.sum_erase_add _ (fun j => f (tile j)) (Finset.mem_univ i), hi, hzero, add_zero]

end sums

section moves

variable {tile : Board} (htile : ∀ i, (tile i).natAbs < 2 ^ 26)
include htile

/-- A move within the bounds. -/
theorem line_move (d : Direction) (l : Fin 4) :
    line d l (move tile d) = slide (2 * ·) (line d l tile) :=
  ((line_moveTile tile d).1 l).trans (passes_line htile d l).1

theorem score_moveTile (d : Direction) :
    (moveTile tile d.key).2 = ∑ l, score (2 * ·) (line d l tile) := by
  rw [(line_moveTile tile d).2, ← int32_sum_score htile d]
  exact congrArg int32 (Finset.sum_congr rfl fun l _ => (passes_line htile d l).2)

/-- **A measure of the tiles** before and after a move. -/
theorem sum_move {M : Type*} [AddCommMonoid M] {φ ψ : ℤ → M} (hzero : φ 0 = 0) (d : Direction)
    (h : ∀ i, φ (2 * tile i) = φ (tile i) + φ (tile i) + ψ (2 * tile i)) :
    ∑ i, φ (move tile d i) =
      ∑ i, φ (tile i) + ∑ l, ((merged (2 * ·) (tiles (line d l tile))).map ψ).sum := by
  rw [sum_line φ d, sum_line φ d, ← Finset.sum_add_distrib]
  refine Finset.sum_congr rfl fun l _ => ?_
  rw [line_move htile]
  refine sum_map_slide hzero fun x hx => ?_
  obtain ⟨k, rfl⟩ := List.mem_ofFn.mp hx
  exact h _

/-- **Two counts of the tiles**, the second of which also counts what a tile is made of. -/
theorem exists_sum_move_le {f g : ℤ → ℕ} (hfg : ∀ x, f x ≤ g x) (hdouble : ∀ x, f (2 * x) ≤ g x)
    (hf : f 0 = 0) (hg : g 0 = 0) (d : Direction) :
    ∃ m, ∑ i, f (move tile d i) ≤ ∑ i, f (tile i) + m ∧
      ∑ i, f (move tile d i) + m ≤ ∑ i, g (tile i) := by
  choose m hle hadd using fun l => exists_sum_slide_le hfg hdouble hf hg (line d l tile)
  have hline : ∑ i, f (move tile d i) = ∑ l, ((slide (2 * ·) (line d l tile)).map f).sum := by
    rw [sum_line f d]
    exact Finset.sum_congr rfl fun l _ => by rw [line_move htile]
  refine ⟨∑ l, m l, ?_, ?_⟩
  · rw [hline, sum_line f d tile, ← Finset.sum_add_distrib]
    exact Finset.sum_le_sum fun l _ => hle l
  · rw [hline, sum_line g d tile, ← Finset.sum_add_distrib]
    exact Finset.sum_le_sum fun l _ => hadd l

end moves

/-! ## Tiles from a power of two on -/

/-- 1 for a tile from `2 ^ e` on. -/
def isFrom (e : ℕ) (t : ℤ) : ℕ := if 2 ^ e ≤ t then 1 else 0

/-- The number of tiles from `2 ^ e` on. -/
def tilesFrom (e : ℕ) (tile : Board) : ℕ := ∑ i, isFrom e (tile i)

theorem isFrom_zero (e : ℕ) : isFrom e 0 = 0 := if_neg (not_le.mpr (by positivity))

theorem isFrom_succ_le (e : ℕ) (t : ℤ) : isFrom (e + 1) t ≤ isFrom e t := by
  have hpow : (2 : ℤ) ^ e ≤ 2 ^ (e + 1) := pow_le_pow_right₀ one_le_two e.le_succ
  rw [isFrom, isFrom]
  split_ifs <;> omega

theorem isFrom_double (e : ℕ) (t : ℤ) : isFrom (e + 1) (2 * t) = isFrom e t := by
  rw [isFrom, isFrom, pow_succ]
  exact if_congr (by omega) rfl rfl

theorem tilesFrom_le (e : ℕ) (tile : Board) : tilesFrom e tile ≤ 16 := by
  have hsum := Finset.sum_le_card_nsmul Finset.univ (fun i => isFrom e (tile i)) 1 fun i _ => by
    rw [isFrom]
    split_ifs <;> omega
  rwa [Finset.card_univ, Fintype.card_fin] at hsum

/-- A tile that can be placed. -/
theorem tilesFrom_update {tile : Board} {i : Fin 16} (hi : tile i = 0) {t : ℤ} (ht : t = 2 ∨ t = 4)
    (e : ℕ) : tilesFrom (e + 3) (Function.update tile i t) = tilesFrom (e + 3) tile := by
  have hsmall : isFrom (e + 3) t = 0 := by
    have hpow : (2 : ℤ) ^ 3 ≤ 2 ^ (e + 3) := pow_le_pow_right₀ one_le_two (Nat.le_add_left 3 e)
    exact if_neg (by omega)
  rw [tilesFrom, sum_update _ (isFrom_zero _) hi, hsmall, add_zero]
  rfl

/-- **The tiles of a game.** -/
structure Fair (tile : Board) : Prop where
  power : ∀ i, tile i = 0 ∨ ∃ e, 1 ≤ e ∧ tile i = 2 ^ e
  few : ∀ e, 2 ≤ e → tilesFrom e tile ≤ 18 - e

/-- An empty board is a fair one. -/
theorem fair_empty : Fair fun _ => 0 where
  power _ := Or.inl rfl
  few e _ := by
    rw [tilesFrom, Finset.sum_eq_zero fun i _ => isFrom_zero e]
    exact Nat.zero_le _

namespace Fair

variable {tile : Board} (h : Fair tile)
include h

/-- No tile is larger than `2 ^ 17`. -/
theorem exponent_le {i : Fin 16} {e : ℕ} (he : tile i = 2 ^ e) : e ≤ 17 := by
  by_contra hlt
  have hone : isFrom 18 (tile i) = 1 := by
    rw [he]
    exact if_pos (pow_le_pow_right₀ one_le_two (by omega))
  have hle : isFrom 18 (tile i) ≤ tilesFrom 18 tile :=
    Finset.single_le_sum (f := fun i => isFrom 18 (tile i)) (fun _ _ => Nat.zero_le _)
      (Finset.mem_univ i)
  have hfew := h.few 18 (by omega)
  omega

theorem cases (i : Fin 16) : tile i = 0 ∨ ∃ e, 1 ≤ e ∧ e ≤ 17 ∧ tile i = 2 ^ e :=
  (h.power i).imp_right fun ⟨e, hpos, he⟩ => ⟨e, hpos, h.exponent_le he, he⟩

theorem nonneg (i : Fin 16) : 0 ≤ tile i := by
  rcases h.cases i with hi | ⟨e, -, -, hi⟩
  · exact hi.ge
  · rw [hi]
    positivity

theorem natAbs_lt (i : Fin 16) : (tile i).natAbs < 2 ^ 26 := by
  rcases h.cases i with hi | ⟨e, -, hle, hi⟩
  · rw [hi]
    norm_num
  · have hpow : (2 : ℤ) ^ e ≤ 2 ^ 17 := pow_le_pow_right₀ one_le_two hle
    have hnonneg := h.nonneg i
    omega

/-- **A move keeps the tiles fair.** -/
theorem move (d : Direction) : Fair (Game.move tile d) where
  power i := by
    obtain ⟨l, k, rfl⟩ := exists_cell d i
    have hmem : Game.move tile d (cell d l k) ∈ line d l (Game.move tile d) :=
      List.mem_ofFn.mpr ⟨k, rfl⟩
    rw [line_move h.natAbs_lt] at hmem
    rcases mem_slide hmem with hzero | hold | ⟨y, hy, hnew⟩
    · exact Or.inl hzero
    · obtain ⟨k', hk'⟩ := List.mem_ofFn.mp hold
      rw [← hk']
      exact h.power _
    · obtain ⟨k', rfl⟩ := List.mem_ofFn.mp hy
      rw [hnew]
      refine (h.power (cell d l k')).imp (fun hzero => ?_) fun ⟨e, hpos, he⟩ => ⟨e + 1, by omega, ?_⟩
      · rw [hzero, mul_zero]
      · rw [he, pow_succ']
  few e he := by
    obtain ⟨e, rfl⟩ := Nat.exists_eq_add_of_le' he
    cases e with
    | zero => exact tilesFrom_le 2 _
    | succ e =>
      show tilesFrom (e + 3) (Game.move tile d) ≤ 18 - (e + 3)
      -- either no tile of that kind is new, or one less is left of those below
      obtain ⟨m, hle, hadd⟩ := exists_sum_move_le h.natAbs_lt (f := isFrom (e + 3))
        (isFrom_succ_le (e + 2)) (fun x => (isFrom_double (e + 2) x).le) (isFrom_zero _) (isFrom_zero _) d
      have hthis := h.few (e + 3) (by omega)
      have hbelow := h.few (e + 2) (by omega)
      rw [tilesFrom] at hthis hbelow ⊢
      omega

theorem update {i : Fin 16} (hi : tile i = 0) {t : ℤ} (ht : t = 2 ∨ t = 4) :
    Fair (Function.update tile i t) where
  power j := by
    by_cases hj : j = i
    · rw [hj, Function.update_self]
      exact Or.inr (ht.elim (fun ht => ⟨1, le_rfl, ht⟩) fun ht => ⟨2, one_le_two, ht⟩)
    · rw [Function.update_of_ne hj]
      exact h.power j
  few e he := by
    obtain ⟨e, rfl⟩ := Nat.exists_eq_add_of_le' he
    cases e with
    | zero => exact tilesFrom_le 2 _
    | succ e =>
      rw [tilesFrom_update hi ht]
      exact h.few (e + 3) (by omega)

end Fair

/-! ## The largest board -/

section telescope

variable (w : ℕ → ℤ)

/-- A tile from 4 on counts what all powers of two up to it add. -/
theorem sum_isFrom_pow {e : ℕ} (hle : e ≤ 15) :
    ∑ j ∈ Finset.range 15, isFrom (j + 3) (2 ^ (e + 2)) * (w (j + 3) - w (j + 2)) =
      w (e + 2) - w 2 := by
  have hsmall : ∑ j ∈ Finset.range e, (w (j + 3) - w (j + 2)) = w (e + 2) - w 2 :=
    Finset.sum_range_sub (fun j => w (j + 2)) e
  rw [← hsmall]
  symm
  refine Finset.sum_subset_zero_on_sdiff (Finset.range_mono hle) (fun j hj => ?_) fun j hj => ?_
  · have hlt : e ≤ j := by
      have hnot := (Finset.mem_sdiff.mp hj).2
      rw [Finset.mem_range] at hnot
      omega
    have hpow : (2 : ℤ) ^ (e + 2) < 2 ^ (j + 3) := pow_lt_pow_right₀ one_lt_two (by omega)
    rw [isFrom, if_neg (not_le.mpr hpow), Nat.cast_zero, zero_mul]
  · have hlt := Finset.mem_range.mp hj
    have hpow : (2 : ℤ) ^ (j + 3) ≤ 2 ^ (e + 2) := pow_le_pow_right₀ one_le_two (by omega)
    rw [isFrom, if_pos hpow, Nat.cast_one, one_mul]

variable {w} {φ : ℤ → ℤ} (hφ : ∀ e, 1 ≤ e → φ (2 ^ e) = w e) (hmono : Monotone w)
  (hzero : φ 0 ≤ w 2)
include hφ hmono hzero

theorem measure_le {tile : Board} (h : Fair tile) (i : Fin 16) : φ (tile i) ≤
    w 2 + ∑ j ∈ Finset.range 15, isFrom (j + 3) (tile i) * (w (j + 3) - w (j + 2)) := by
  have hstep : ∀ j, 0 ≤ w (j + 3) - w (j + 2) := fun j => sub_nonneg.mpr (hmono (by omega))
  have hsum : 0 ≤ ∑ j ∈ Finset.range 15, isFrom (j + 3) (tile i) * (w (j + 3) - w (j + 2)) :=
    Finset.sum_nonneg fun j _ => mul_nonneg (Nat.cast_nonneg _) (hstep j)
  rcases h.cases i with hi | ⟨e, hpos, hle, hi⟩
  · rw [hi] at hsum ⊢
    omega
  · by_cases htwo : 2 ≤ e
    · obtain ⟨e, rfl⟩ := Nat.exists_eq_add_of_le' htwo
      rw [hi, hφ _ hpos, sum_isFrom_pow w (by omega)]
      omega
    · have hone := hmono (show e ≤ 2 by omega)
      rw [← hφ e hpos, ← hi] at hone
      omega

/-- **The largest board**: one tile of each power of two from 4 to `2 ^ 17`. -/
theorem sum_measure_le {tile : Board} (h : Fair tile) :
    ∑ i, φ (tile i) ≤ ∑ j ∈ Finset.range 16, w (j + 2) := by
  have hstep : ∀ j, 0 ≤ w (j + 3) - w (j + 2) := fun j => sub_nonneg.mpr (hmono (by omega))
  have hcount : ∀ j ∈ Finset.range 15, (tilesFrom (j + 3) tile : ℤ) ≤ 15 - j := by
    intro j hj
    have hlt := Finset.mem_range.mp hj
    have hfew := h.few (j + 3) (by omega)
    omega
  calc ∑ i, φ (tile i)
      ≤ ∑ i, (w 2 + ∑ j ∈ Finset.range 15, isFrom (j + 3) (tile i) * (w (j + 3) - w (j + 2))) :=
        Finset.sum_le_sum fun i _ => measure_le hφ hmono hzero h i
    _ = 16 * w 2 + ∑ j ∈ Finset.range 15, tilesFrom (j + 3) tile * (w (j + 3) - w (j + 2)) := by
        rw [Finset.sum_add_distrib, Finset.sum_const, Finset.card_univ, Fintype.card_fin,
          Finset.sum_comm, nsmul_eq_mul]
        refine congrArg₂ (· + ·) rfl (Finset.sum_congr rfl fun j _ => ?_)
        rw [tilesFrom, Nat.cast_sum, Finset.sum_mul]
    _ ≤ 16 * w 2 + ∑ j ∈ Finset.range 15, (15 - (j : ℤ)) * (w (j + 3) - w (j + 2)) := by
        refine add_le_add le_rfl (Finset.sum_le_sum fun j hj => ?_)
        exact mul_le_mul_of_nonneg_right (hcount j hj) (hstep j)
    _ = ∑ j ∈ Finset.range 16, w (j + 2) := by
        simp only [Finset.sum_range_succ, Finset.sum_range_zero, Nat.cast_ofNat, Nat.cast_zero,
          Nat.cast_one]
        ring

end telescope

end Game
end CoreOS
