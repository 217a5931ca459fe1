import CoreOS.Game.CheckEnd
import CoreOS.Game.Random
import Mathlib.Data.Nat.Log

/-!
# 2048: a play

`main` as a machine that takes a key at a time.  A game begins with two tiles on an empty board
(`start`).  At the top of the loop `check_end` decides whether the player can go on (`loop`).  A key
that moves the board adds to the score and makes `place_tile` put a 2 or a 4 into a gap.  When no move
is left, the loop is over and only `q` and `r` are heard.

What is drawn is left out.
-/

namespace CoreOS
namespace Game

open Runs

/-- The `tile_num` that `place_tile` draws. -/
def tileNum (lfsr : BitVec 32) : ℤ := if (random lfsr).toNat % 10 ≠ 0 then 2 else 4

/-- `place_tile`: the board afterwards, and the `lfsr` of `random`. -/
def placeTile (tile : Board) (lfsr : BitVec 32) : Board × BitVec 32 :=
  let emptyTile := (List.finRange 16).filter fun i => 0 = tile i
  if h : 0 < emptyTile.length then
    let lfsr₁ := random lfsr
    let lfsr₂ := random lfsr₁
    let emptyLoc := lfsr₂.toNat % emptyTile.length
    let tileLoc := emptyTile.get ⟨emptyLoc, Nat.mod_lt _ h⟩
    (Function.update tile tileLoc (tileNum lfsr), lfsr₂)
  else (tile, lfsr)

/-- `get_key`, on the character that has been read. -/
def getKey (signal : BitVec 8) : BitVec 8 :=
  if signal = ch 'w' ∨ signal = ch 'W' then ch 'U'
  else if signal = ch 's' ∨ signal = ch 'S' then ch 'D'
  else if signal = ch 'd' ∨ signal = ch 'D' then ch 'R'
  else if signal = ch 'a' ∨ signal = ch 'A' then ch 'L'
  else if signal = ch 'r' ∨ signal = ch 'R' then ch 'r'
  else if signal = ch 'q' ∨ signal = ch 'Q' then ch 'q'
  else if signal = ch 'i' ∨ signal = ch 'I' ∨ signal = ch 'h' ∨ signal = ch 'H' then ch 'h'
  else ch 'x'

/-- Where `main` is: in the loop over the turns, in the loop after it, or behind `end`. -/
inductive Phase where
  | playing
  | lost
  | ended
  deriving DecidableEq

/-- The variables of `main` that live from turn to turn, and the `lfsr` of `random`. -/
structure Play where
  tile : Board
  score : ℤ
  reached : Bool
  lfsr : BitVec 32
  phase : Phase

namespace Play

/-- The top of the loop over the turns, up to the call of `get_key`. -/
def loop (g : Play) : Play :=
  let call := checkEnd g.tile
  if call.1 then { g with tile := call.2, phase := .lost }
  else
    { g with
      tile := call.2
      reached := g.reached || (List.finRange 16).any fun i => call.2 i == 2048
      phase := .playing }

/-- `start`. -/
def start (g : Play) : Play :=
  let first := placeTile (fun _ => 0) g.lfsr
  let second := placeTile first.1 first.2
  loop { g with tile := second.1, score := 0, lfsr := second.2 }

/-- The rest of a turn, after the `switch`. -/
def turn (g : Play) (tileBak : Board) : Play :=
  let changed := (List.finRange 16).any fun i => g.tile i != tileBak i
  if changed then
    let placed := placeTile g.tile g.lfsr
    loop { g with tile := placed.1, lfsr := placed.2 }
  else loop g

/-- `main` goes on with the character that `getchar` has read. -/
def press (g : Play) (signal : BitVec 8) : Play :=
  let key := getKey signal
  match g.phase with
  | .playing =>
    if key = ch 'U' ∨ key = ch 'D' ∨ key = ch 'R' ∨ key = ch 'L' then
      let moved := moveTile g.tile key
      turn { g with tile := moved.1, score := int32 (g.score + moved.2) } g.tile
    else if key = ch 'q' then { g with phase := .ended }
    else if key = ch 'r' then start g
    else turn g g.tile
  | .lost =>
    if key = ch 'q' then { g with phase := .ended }
    else if key = ch 'r' then start g
    else g
  | .ended => g

/-- `main`, up to the first call of `get_key`, on what is on the stack. -/
def main (tile : Board) (score : ℤ) : Play :=
  start { tile, score, reached := false, lfsr := 0xC0FFEE, phase := .playing }

/-! ## One key -/

/-- A direction's key moves the board. -/
def Changes (g : Play) (signal : BitVec 8) : Prop :=
  g.phase = .playing ∧ (moveTile g.tile (getKey signal)).1 ≠ g.tile

instance decidableChanges (g : Play) (signal : BitVec 8) : Decidable (g.Changes signal) :=
  inferInstanceAs (Decidable (_ ∧ _))

/-- The tiles that a key makes `place_tile` put on the board. -/
def placed (g : Play) (signal : BitVec 8) : List ℤ :=
  if g.Changes signal then [tileNum g.lfsr] else []

theorem loop_eq (g : Play) : g.loop = if (checkEnd g.tile).1 then { g with phase := .lost }
    else
      { g with
        reached := g.reached || (List.finRange 16).any fun i => g.tile i == 2048
        phase := .playing } := by
  rw [loop, (checkEnd_spec g.tile).2]

@[simp] theorem loop_tile (g : Play) : g.loop.tile = g.tile := by
  rw [loop_eq]
  split <;> rfl

@[simp] theorem loop_score (g : Play) : g.loop.score = g.score := by
  rw [loop_eq]
  split <;> rfl

/-- After the top of the loop the game goes on, or it is lost. -/
theorem loop_phase (g : Play) : g.loop.phase = if (checkEnd g.tile).1 then .lost else .playing := by
  rw [loop_eq]
  split <;> rfl

theorem turn_of_ne {g : Play} {tileBak : Board} (h : g.tile ≠ tileBak) :
    g.turn tileBak = loop { g with
      tile := (placeTile g.tile g.lfsr).1
      lfsr := (placeTile g.tile g.lfsr).2 } :=
  if_pos ((any_ne_iff _ _).mpr h)

theorem turn_of_eq {g : Play} {tileBak : Board} (h : g.tile = tileBak) : g.turn tileBak = g.loop :=
  if_neg fun hany => (any_ne_iff _ _).mp hany h

theorem key_cases {c : BitVec 8} (h : c = ch 'U' ∨ c = ch 'D' ∨ c = ch 'R' ∨ c = ch 'L') :
    ∃ d : Direction, c = d.key := by
  rcases h with rfl | rfl | rfl | rfl
  · exact ⟨.up, rfl⟩
  · exact ⟨.down, rfl⟩
  · exact ⟨.right, rfl⟩
  · exact ⟨.left, rfl⟩

theorem moveTile_of_not {c : BitVec 8}
    (h : ¬ (c = ch 'U' ∨ c = ch 'D' ∨ c = ch 'R' ∨ c = ch 'L')) (tile : Board) :
    moveTile tile c = (tile, 0) := by
  obtain ⟨hup, hdown, hright, hleft⟩ : c ≠ ch 'U' ∧ c ≠ ch 'D' ∧ c ≠ ch 'R' ∧ c ≠ ch 'L' := by
    simpa only [not_or] using h
  have hnone : Direction.ofKey c = none := by
    simp only [Direction.ofKey, if_neg hup, if_neg hdown, if_neg hright, if_neg hleft]
  rw [moveTile, hnone]

/-- **What a key can do**: it moves the board, it takes a turn without a move, it begins a new game, or
it is not heard or ends the program. -/
theorem press_cases (g : Play) (signal : BitVec 8) :
    (∃ d : Direction, g.phase = .playing ∧ getKey signal = d.key ∧
        g.press signal = turn { g with
          tile := move g.tile d
          score := int32 (g.score + (moveTile g.tile d.key).2) } g.tile) ∨
      (g.phase = .playing ∧ ¬ g.Changes signal ∧ g.press signal = g.loop) ∨
      (getKey signal = ch 'r' ∧ g.press signal = g.start) ∨
      (¬ g.Changes signal ∧ (g.press signal = g ∧ g.phase ≠ .playing ∨
        g.press signal = { g with phase := .ended })) := by
  have hidle : g.phase ≠ .playing → ¬ g.Changes signal := fun hne h => hne h.1
  rw [press]
  cases hphase : g.phase with
  | playing =>
    by_cases hdir : getKey signal = ch 'U' ∨ getKey signal = ch 'D' ∨ getKey signal = ch 'R' ∨
      getKey signal = ch 'L'
    · obtain ⟨d, hd⟩ := key_cases hdir
      exact Or.inl ⟨d, rfl, hd, by rw [if_pos hdir, hd]; rfl⟩
    · have hstay : ¬ g.Changes signal := fun h => h.2 (by rw [moveTile_of_not hdir])
      rw [if_neg hdir]
      split_ifs with hq hr
      · exact Or.inr (Or.inr (Or.inr ⟨hstay, Or.inr rfl⟩))
      · exact Or.inr (Or.inr (Or.inl ⟨hr, rfl⟩))
      · exact Or.inr (Or.inl ⟨rfl, hstay, turn_of_eq rfl⟩)
  | lost =>
    have hstay : ¬ g.Changes signal := hidle (by rw [hphase]; exact Phase.noConfusion)
    dsimp only
    split_ifs with hq hr
    · exact Or.inr (Or.inr (Or.inr ⟨hstay, Or.inr rfl⟩))
    · exact Or.inr (Or.inr (Or.inl ⟨hr, rfl⟩))
    · exact Or.inr (Or.inr (Or.inr ⟨hstay, Or.inl ⟨rfl, Phase.noConfusion⟩⟩))
  | ended =>
    have hstay : ¬ g.Changes signal := hidle (by rw [hphase]; exact Phase.noConfusion)
    exact Or.inr (Or.inr (Or.inr ⟨hstay, Or.inl ⟨rfl, Phase.noConfusion⟩⟩))

end Play

/-- **`place_tile` on a board with a gap.** -/
theorem placeTile_spec {tile : Board} (h : ∃ i, tile i = 0) (lfsr : BitVec 32) : ∃ i, tile i = 0 ∧
    placeTile tile lfsr = (Function.update tile i (tileNum lfsr), random (random lfsr)) := by
  obtain ⟨j, hj⟩ := h
  have hmem : j ∈ (List.finRange 16).filter fun i => 0 = tile i :=
    List.mem_filter.mpr ⟨List.mem_finRange j, decide_eq_true hj.symm⟩
  have hlen := List.length_pos_of_mem hmem
  refine ⟨_, ?_, dif_pos hlen⟩
  have hget := List.get_mem ((List.finRange 16).filter fun i => 0 = tile i)
    ⟨(random (random lfsr)).toNat % _, Nat.mod_lt _ hlen⟩
  exact (of_decide_eq_true (List.mem_filter.mp hget).2).symm

theorem tileNum_eq (lfsr : BitVec 32) : tileNum lfsr = 2 ∨ tileNum lfsr = 4 :=
  ite_eq_or_eq ..

end Game
end CoreOS
