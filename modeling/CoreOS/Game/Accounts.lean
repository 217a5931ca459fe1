import CoreOS.Game.Bounds

/-!
# 2048: the accounts of a game

The rules of 2048 bound what can be on the board.  Merging two tiles keeps the sum of the board, so the
tiles add up to what `place_tile` has put there.  And each merge scores the tile that it makes, so the
score is what it takes to make the tiles of the board out of twos (`worth`), but for the fours, which
nobody had to make.  These are the books of a game, `Accounts`.

A board of tiles that a game can reach (`Fair`, in `Bounds`) is worth no more than 3932164, and its tiles
add up to no more than `2 ^ 18 - 4`.  With the books the first bounds the score, so that the `int` in
which it is kept never overflows, and the second bounds the number of tiles placed, so that a game is
finite.

## The invariant of a session

`Accounts.place` and `Accounts.move` are the two things that happen to a board.  `Kept` adds what is
known of the loop of `main`: where keys are taken for moves some move changes the board, and where the
game is lost none does.  `check_end` decides this by trying all four moves only on a full board; that a
board with a gap has a move is `exists_move_ne`, on which a row or a column without a move has its gaps
behind the tiles from both of its ends.

A turn keeps all this (`Kept.press`), and so does a new game.  `rules_always` says what follows for every
session, and `game_accounts` what the books say of one game.  Nothing is used of `random` but that
`place_tile` gets a 2 or a 4 from it, so both hold for each of its states.
-/

namespace CoreOS
namespace Game

open Runs Slide

/-! ## The worth of a tile -/

/-- What is scored while a tile is made of twos: `2 ^ e` is merged from `2 ^ (e - 1)` twos, and each of
the `e - 1` rounds of merging scores the tile once. -/
def worth (t : ℤ) : ℤ := ((Nat.log 2 t.toNat : ℤ) - 1) * t

theorem worth_zero : worth 0 = 0 := mul_zero _

theorem worth_pow (e : ℕ) : worth (2 ^ e) = ((e : ℤ) - 1) * 2 ^ e := by
  have hnat : ((2 : ℤ) ^ e).toNat = 2 ^ e := by
    rw [← Nat.cast_ofNat, ← Nat.cast_pow, Int.toNat_natCast]
  rw [worth, hnat, Nat.log_pow one_lt_two]

theorem worth_double {tile : Board} (h : Fair tile) (i : Fin 16) :
    worth (2 * tile i) = worth (tile i) + worth (tile i) + 2 * tile i := by
  rcases h.cases i with hi | ⟨e, -, -, hi⟩
  · rw [hi, mul_zero, worth_zero]
    rfl
  · rw [hi, ← pow_succ', worth_pow, worth_pow]
    push_cast
    ring

theorem monotone_worth : Monotone fun e : ℕ => ((e : ℤ) - 1) * 2 ^ e := by
  refine monotone_nat_of_le_succ fun e => ?_
  have hdiff : ((e + 1 : ℕ) - 1 : ℤ) * 2 ^ (e + 1) = (e - 1) * 2 ^ e + (e + 1) * 2 ^ e := by
    push_cast
    ring
  rw [hdiff]
  exact le_add_of_nonneg_right (by positivity)

/-- A board is worth no more than the largest one, which has one tile of each size from `2 ^ 2` to
`2 ^ 17`. -/
theorem sum_worth_le {tile : Board} (h : Fair tile) : ∑ i, worth (tile i) ≤ 3932164 := by
  refine (sum_measure_le (fun e _ => worth_pow e) monotone_worth ?_ h).trans ?_
  · rw [worth_zero]
    norm_num
  · simp only [Finset.sum_range_succ, Finset.sum_range_zero]
    norm_num

theorem sum_tile_le {tile : Board} (h : Fair tile) : ∑ i, tile i ≤ 2 ^ 18 - 4 := by
  refine (sum_measure_le (φ := id) (w := fun e => 2 ^ e) (fun _ _ => rfl)
    (pow_right_mono₀ one_le_two) (by norm_num) h).trans ?_
  simp only [Finset.sum_range_succ, Finset.sum_range_zero]
  norm_num

/-! ## The books -/

/-- **The accounts** of a board, a score and the tiles that have been placed. -/
structure Accounts (tile : Board) (score : ℤ) (placed : List ℤ) : Prop where
  fair : Fair tile
  /-- The tiles add up to what has been placed. -/
  sum_eq : ∑ i, tile i = placed.sum
  /-- All but the fours was scored. -/
  score_eq : score + 4 * placed.count 4 = ∑ i, worth (tile i)
  nonneg : 0 ≤ score
  placed_eq : ∀ t ∈ placed, t = 2 ∨ t = 4

theorem accounts_empty : Accounts (fun _ => 0) 0 [] where
  fair := fair_empty
  sum_eq := Finset.sum_const_zero
  score_eq := by
    rw [Finset.sum_eq_zero fun i _ => worth_zero]
    rfl
  nonneg := le_rfl
  placed_eq _ ht := absurd ht List.not_mem_nil

namespace Accounts

variable {tile : Board} {score : ℤ} {placed : List ℤ} (h : Accounts tile score placed)
include h

theorem score_le : score ≤ 3932164 := by
  have hworth := sum_worth_le h.fair
  have heq := h.score_eq
  omega

theorem two_mul_length_le : 2 * (placed.length : ℤ) ≤ placed.sum := by
  have hsum := List.card_nsmul_le_sum placed 2 fun t ht => by
    have heq := h.placed_eq t ht
    omega
  rwa [nsmul_eq_mul, mul_comm] at hsum

/-- **A game is finite**: there is no room for more tiles. -/
theorem length_le : placed.length ≤ 131070 := by
  have hlen := h.two_mul_length_le
  have hsum := h.sum_eq
  have hle := sum_tile_le h.fair
  omega

/-- Placing a tile. -/
theorem place (hgap : ∃ i, tile i = 0) (lfsr : BitVec 32) :
    Accounts (placeTile tile lfsr).1 score (placed ++ [tileNum lfsr]) := by
  obtain ⟨i, hi, heq⟩ := placeTile_spec hgap lfsr
  have ht := tileNum_eq lfsr
  rw [heq]
  refine ⟨h.fair.update hi ht, ?_, ?_, h.nonneg, fun t hmem => ?_⟩
  · rw [List.sum_append, List.sum_singleton, ← h.sum_eq]
    exact sum_update id rfl hi _
  · have hcount : (4 : ℤ) * ([tileNum lfsr].count 4 : ℕ) = worth (tileNum lfsr) := by
      rcases ht with ht | ht
      · rw [ht]
        rfl
      · rw [ht]
        decide
    rw [sum_update worth worth_zero hi, List.count_append, Nat.cast_add, mul_add, ← add_assoc,
      h.score_eq, hcount]
  · rcases List.mem_append.mp hmem with hold | hnew
    · exact h.placed_eq t hold
    · rw [List.mem_singleton.mp hnew]
      exact ht

/-- The score of a move, in an `int`.  What is merged is worth more by what it scores, so the new score is
bounded by the worth of the new board. -/
theorem move_score (d : Direction) :
    int32 (score + (moveTile tile d.key).2) =
        score + ∑ l, Slide.score (2 * ·) (line d l tile) ∧
      0 ≤ ∑ l, Slide.score (2 * ·) (line d l tile) ∧
      ∑ i, worth (move tile d i) =
        ∑ i, worth (tile i) + ∑ l, Slide.score (2 * ·) (line d l tile) := by
  have hnonneg : 0 ≤ ∑ l, Slide.score (2 * ·) (line d l tile) := by
    refine Finset.sum_nonneg fun l _ => List.sum_nonneg fun x hx => ?_
    obtain ⟨y, hy, rfl⟩ := mem_merged hx
    obtain ⟨k, rfl⟩ := List.mem_ofFn.mp (List.mem_of_mem_filter hy)
    have htile := h.fair.nonneg (cell d l k)
    omega
  have hworth : ∑ i, worth (move tile d i) =
      ∑ i, worth (tile i) + ∑ l, Slide.score (2 * ·) (line d l tile) := by
    rw [sum_move h.fair.natAbs_lt (ψ := id) worth_zero d (worth_double h.fair)]
    simp only [List.map_id]
    rfl
  refine ⟨?_, hnonneg, hworth⟩
  have hle := sum_worth_le (h.fair.move d)
  have heq := h.score_eq
  have hpos := h.nonneg
  rw [score_moveTile h.fair.natAbs_lt]
  exact int32_eq (by omega)

/-- **Moving the board.** -/
theorem move (d : Direction) :
    Accounts (Game.move tile d) (int32 (score + (moveTile tile d.key).2)) placed := by
  obtain ⟨hscore, hnonneg, hworth⟩ := h.move_score d
  have hpos := h.nonneg
  refine ⟨h.fair.move d, ?_, ?_, by omega, h.placed_eq⟩
  · have hsum := sum_move h.fair.natAbs_lt (φ := id) (ψ := fun _ => 0) rfl d
      fun i => by simp only [id_eq]; ring
    simp only [List.map_const', List.sum_replicate, nsmul_zero, Finset.sum_const_zero, add_zero]
      at hsum
    exact hsum.trans h.sum_eq
  · rw [hscore, hworth, ← h.score_eq]
    ring

end Accounts

/-! ## The end of the loop -/

/-- `check_end`, by single moves.  It makes the four moves one after the other on the same board, which
comes to the same: the first that changes a full board leaves a gap, and no move closes all gaps. -/
theorem checkEnd_eq_true_iff (tile : Board) :
    (checkEnd tile).1 = true ↔ (∀ i, tile i ≠ 0) ∧ ∀ d, move tile d = tile := by
  refine (checkEnd_spec tile).1.trans (and_congr_right fun hfull => ?_)
  rw [fourMoves_eq, run_moves hfull]
  refine ⟨fun h d => (move_eq_self_iff hfull).mpr (h d ?_),
    fun h d _ => (move_eq_self_iff hfull).mp (h d)⟩
  cases d <;> decide

/-- **A gap and a tile**: some move changes the board. -/
theorem exists_move_ne {tile : Board} (hfair : Fair tile) (hgap : ∃ i, tile i = 0)
    (htile : ∃ i, tile i ≠ 0) : ∃ d, move tile d ≠ tile := by
  by_contra hnone
  have hstay : ∀ d, move tile d = tile := by simpa only [not_exists, not_not] using hnone
  -- on each line the gaps are behind the tiles, from both of its ends
  have hline : ∀ d l p q, p ≤ q → tile (cell d l p) = 0 → tile (cell d l q) = 0 := by
    intro d l p q hpq hp
    have hslide : slide (2 * ·) (line d l tile) = line d l tile := by
      rw [← line_move hfair.natAbs_lt, hstay]
    refine eq_zero_of_slide_eq (fun x _ hx => by omega) hslide hpq (p := p) (q := q) ?_ ?_
    · rw [line, List.getElem?_ofFn, dif_pos p.isLt, Fin.eta, hp]
    · rw [line, List.getElem?_ofFn, dif_pos q.isLt]
  have hrow : ∀ r c c', tile (cellAt r c) = 0 → tile (cellAt r c') = 0 := by
    intro r c c' hc
    rcases le_total c c' with hle | hle
    · exact hline .left r c c' hle hc
    · have hrev := hline .right r c.rev c'.rev (Fin.rev_le_rev.mpr hle)
      simp only [cell, Fin.rev_rev] at hrev
      exact hrev hc
  have hcolumn : ∀ r r' c, tile (cellAt r c) = 0 → tile (cellAt r' c) = 0 := by
    intro r r' c hr
    rcases le_total r r' with hle | hle
    · exact hline .up c r r' hle hr
    · have hrev := hline .down c r.rev r'.rev (Fin.rev_le_rev.mpr hle)
      simp only [cell, Fin.rev_rev] at hrev
      exact hrev hr
  obtain ⟨i, hi⟩ := hgap
  obtain ⟨j, hj⟩ := htile
  obtain ⟨r, c, rfl⟩ := exists_cell .left i
  obtain ⟨r', c', rfl⟩ := exists_cell .left j
  exact hj (hcolumn r r' c' (hrow r c c' hi))

/-- A move that changes the board leaves a gap. -/
theorem exists_zero_of_move_ne {tile : Board} {d : Direction} (h : move tile d ≠ tile) :
    ∃ i, move tile d i = 0 := by
  refine zero_move ?_
  by_contra hnot
  obtain ⟨hfull, hdistinct⟩ := not_or.mp hnot
  exact h (move_eq_self (not_exists.mp hfull) (not_not.mp hdistinct))

namespace Play

/-- **A game in its course**: the books are kept, two tiles have been placed at least, and the phase of
`main` is the right one for the board. -/
structure Kept (g : Play) (placed : List ℤ) : Prop where
  accounts : Accounts g.tile g.score placed
  two_le : 2 ≤ placed.length
  /-- As long as keys are taken for moves, there is a move. -/
  going : g.phase = .playing → ∃ d, move g.tile d ≠ g.tile
  /-- The loop is left when there is none. -/
  stuck : g.phase = .lost → (∀ i, g.tile i ≠ 0) ∧ ∀ d, move g.tile d = g.tile

/-- The top of the loop, where `check_end` is asked. -/
theorem kept_loop {g : Play} {p : List ℤ} (h : Accounts g.tile g.score p) (hlen : 2 ≤ p.length) :
    Kept g.loop p := by
  have hcall := checkEnd_eq_true_iff g.tile
  refine ⟨?_, hlen, fun hphase => ?_, fun hphase => ?_⟩
  · rw [loop_tile, loop_score]
    exact h
  · rw [loop_phase] at hphase
    have hnot : ¬ (checkEnd g.tile).1 = true := fun htrue => by
      rw [if_pos htrue] at hphase
      exact Phase.noConfusion hphase
    rw [loop_tile]
    by_cases hgap : ∃ i, g.tile i = 0
    · refine exists_move_ne h.fair hgap ?_
      by_contra hnone
      have hzero : ∀ i, g.tile i = 0 := by simpa only [not_exists, not_not] using hnone
      have hsum := h.sum_eq
      have htwo := h.two_mul_length_le
      rw [Finset.sum_eq_zero fun i _ => hzero i] at hsum
      omega
    · by_contra hnone
      refine hnot (hcall.mpr ⟨not_exists.mp hgap, ?_⟩)
      simpa only [not_exists, not_not] using hnone
  · rw [loop_phase] at hphase
    rw [loop_tile]
    refine hcall.mp (by_contra fun hfalse => ?_)
    rw [if_neg hfalse] at hphase
    exact Phase.noConfusion hphase

/-- The tiles that a game begins with. -/
def firstPlaced (g : Play) : List ℤ := [tileNum g.lfsr, tileNum (random (random g.lfsr))]

theorem kept_start (g : Play) : Kept g.start g.firstPlaced := by
  have hfirst := accounts_empty.place ⟨0, rfl⟩ g.lfsr
  have hempty : ∃ i, (fun _ => 0 : Board) i = 0 := ⟨0, rfl⟩
  obtain ⟨i, -, heq⟩ := placeTile_spec hempty g.lfsr
  have hgap : ∃ j, (placeTile (fun _ => 0) g.lfsr).1 j = 0 := by
    obtain ⟨j, hj⟩ := exists_ne i
    refine ⟨j, ?_⟩
    rw [heq]
    dsimp only
    rw [Function.update_of_ne hj]
  have hsecond := hfirst.place hgap (placeTile (fun _ => 0) g.lfsr).2
  have hlfsr : (placeTile (fun _ => 0) g.lfsr).2 = random (random g.lfsr) := by rw [heq]
  refine kept_loop (g := { g with
    tile := (placeTile (placeTile (fun _ => 0) g.lfsr).1 (placeTile (fun _ => 0) g.lfsr).2).1
    score := 0
    lfsr := (placeTile (placeTile (fun _ => 0) g.lfsr).1 (placeTile (fun _ => 0) g.lfsr).2).2 })
    ?_ le_rfl
  rw [firstPlaced, ← hlfsr]
  exact hsecond

/-- **One key** of a game.  A direction's key that changes the board leaves a gap for the new tile; one that
does not is no move, and neither is any other key but `r`. -/
theorem Kept.press {g : Play} {p : List ℤ} (h : Kept g p) {signal : BitVec 8}
    (hkey : getKey signal ≠ ch 'r') : Kept (g.press signal) (p ++ g.placed signal) := by
  rcases g.press_cases signal with ⟨d, hphase, hd, hpress⟩ | ⟨-, hnot, hpress⟩ | ⟨hr, -⟩ |
    ⟨hnot, ⟨hpress, -⟩ | hpress⟩
  · have hmove := h.accounts.move d
    have hlen : 2 ≤ (p ++ [tileNum g.lfsr]).length :=
      h.two_le.trans (List.sublist_append_left ..).length_le
    rw [hpress]
    by_cases hsame : move g.tile d = g.tile
    · have hnot : ¬ g.Changes signal := fun hchanges => hchanges.2 (by rw [hd]; exact hsame)
      rw [turn_of_eq hsame, placed, if_neg hnot, List.append_nil]
      exact kept_loop hmove h.two_le
    · have hchanges : g.Changes signal := ⟨hphase, by rw [hd]; exact hsame⟩
      rw [turn_of_ne hsame, placed, if_pos hchanges]
      exact kept_loop (hmove.place (exists_zero_of_move_ne hsame) g.lfsr) hlen
  · rw [hpress, placed, if_neg hnot, List.append_nil]
    exact kept_loop h.accounts h.two_le
  · exact absurd hr hkey
  · rw [hpress, placed, if_neg hnot, List.append_nil]
    exact h
  · rw [hpress, placed, if_neg hnot, List.append_nil]
    exact ⟨h.accounts, h.two_le, fun hphase => Phase.noConfusion hphase,
      fun hphase => Phase.noConfusion hphase⟩

/-- **A game**, from its first two tiles on.  Without an `r` the tiles placed are those of this game. -/
theorem kept_run (g : Play) {keys : List (BitVec 8)} (hkeys : ∀ c ∈ keys, getKey c ≠ ch 'r') :
    Kept (run press g.start keys) (g.firstPlaced ++ collect press placed g.start keys) :=
  invariant_collect (C := fun _ c => getKey c ≠ ch 'r') (fun _ _ _ hkept hkey => hkept.press hkey)
    (kept_start g) (meets_of_forall (fun c hc _ => hkeys c hc) _)

/-- **A session**: one game after the other.  After an `r` the books begin anew. -/
theorem exists_kept {g : Play} (h : ∃ p, Kept g p) (keys : List (BitVec 8)) :
    ∃ p, Kept (run press g keys) p := by
  refine invariant_of_meets (C := fun _ _ => True) (I := fun g => ∃ p, Kept g p) ?_ h
    (meets_of_forall (fun _ _ _ => trivial) g)
  rintro g c ⟨p, hp⟩ -
  by_cases hkey : getKey c = ch 'r'
  · rcases g.press_cases c with ⟨d, -, hd, -⟩ | ⟨-, -, hpress⟩ | ⟨-, hpress⟩ |
      ⟨-, ⟨hpress, -⟩ | hpress⟩
    · rw [hkey] at hd
      cases d <;> exact absurd hd (by decide)
    · rw [hpress]
      exact ⟨p, kept_loop hp.accounts hp.two_le⟩
    · rw [hpress]
      exact ⟨_, kept_start g⟩
    · rw [hpress]
      exact ⟨p, hp⟩
    · rw [hpress]
      exact ⟨p, hp.accounts, hp.two_le, fun hphase => Phase.noConfusion hphase,
        fun hphase => Phase.noConfusion hphase⟩
  · exact ⟨_, hp.press hkey⟩

/-- **The rules hold in every session.**  A session begins at `start`, as `main` does, with `random` in
any of its states.  Whatever is typed, all tiles are powers of two up to `2 ^ 17`, of which at most
`18 - e` are from `2 ^ e` on.  A move slides all lines, and adds what has been merged to the score, with
nothing lost in an `int`.  While moves are taken, some move changes the board; the game is lost only when
the board is full and none does. -/
theorem rules_always (g₀ : Play) (keys : List (BitVec 8)) :
    let g := run press g₀.start keys
    (∀ i, g.tile i = 0 ∨ ∃ e, 1 ≤ e ∧ e ≤ 17 ∧ g.tile i = 2 ^ e) ∧
      (∀ e, 2 ≤ e → tilesFrom e g.tile ≤ 18 - e) ∧ 0 ≤ g.score ∧ g.score ≤ 3932164 ∧
      (∀ d : Direction,
        (∀ l, line d l (moveTile g.tile d.key).1 = slide (2 * ·) (line d l g.tile)) ∧
          int32 (g.score + (moveTile g.tile d.key).2) =
            g.score + ∑ l, Slide.score (2 * ·) (line d l g.tile)) ∧
      (g.phase = .playing → ∃ d : Direction, (moveTile g.tile d.key).1 ≠ g.tile) ∧
      (g.phase = .lost → (∀ i, g.tile i ≠ 0) ∧ ∀ d : Direction, (moveTile g.tile d.key).1 = g.tile) := by
  intro g
  obtain ⟨p, hkept⟩ : ∃ p, Kept g p := exists_kept ⟨_, kept_start g₀⟩ keys
  have hfair := hkept.accounts.fair
  exact ⟨hfair.cases, hfair.few, hkept.accounts.nonneg, hkept.accounts.score_le,
    fun d => ⟨line_move hfair.natAbs_lt d, (hkept.accounts.move_score d).1⟩, hkept.going, hkept.stuck⟩

theorem length_placed (g : Play) (keys : List (BitVec 8)) :
    (collect press placed g keys).length = occurrences press Changes g keys := by
  have hone : (fun g c => (placed g c).length) =
      fun (g : Play) c => if g.Changes c then 1 else 0 := by
    funext g c
    rw [placed, apply_ite List.length]
    rfl
  rw [length_collect, hone]
  rfl

/-- **The accounts of a game.**  From the beginning of a game on, until the next one, the tiles add up
to those that have been placed, which are twos and fours: two at the beginning and one for each move
that has changed the board.  The score is what it takes to make the tiles of twos, less 4 for each 4
that has been placed.  No more than 131068 moves change the board. -/
theorem game_accounts (g : Play) (keys : List (BitVec 8)) (hkeys : ∀ c ∈ keys, getKey c ≠ ch 'r') :
    let h := run press g.start keys
    let p := g.firstPlaced ++ collect press placed g.start keys
    ∑ i, h.tile i = p.sum ∧ (∀ t ∈ p, t = 2 ∨ t = 4) ∧
      p.length = 2 + occurrences press Changes g.start keys ∧
      h.score + 4 * p.count 4 = ∑ i, worth (h.tile i) ∧
      occurrences press Changes g.start keys ≤ 131068 := by
  intro h p
  have hkept : Kept h p := kept_run g hkeys
  have hlen : p.length = 2 + occurrences press Changes g.start keys := by
    rw [← length_placed]
    exact List.length_append
  have hle := hkept.accounts.length_le
  exact ⟨hkept.accounts.sum_eq, hkept.accounts.placed_eq, hlen, hkept.accounts.score_eq, by omega⟩

/-- Four moves of the first game, all of which change the board, and six twos. -/
theorem game_accounts_wasd :
    ∑ i, (run press (main (fun _ => 0) 0) [ch 'w', ch 'a', ch 's', ch 'd']).tile i = 12 ∧
      occurrences press Changes (main (fun _ => 0) 0) [ch 'w', ch 'a', ch 's', ch 'd'] = 4 := by
  obtain ⟨hsum, -, hlen, -, -⟩ := game_accounts ⟨fun _ => 0, 0, false, 0xC0FFEE, .playing⟩
    [ch 'w', ch 'a', ch 's', ch 'd'] (by decide)
  have hplaced : firstPlaced ⟨fun _ => 0, 0, false, 0xC0FFEE, .playing⟩ ++
      collect press placed (start ⟨fun _ => 0, 0, false, 0xC0FFEE, .playing⟩)
        [ch 'w', ch 'a', ch 's', ch 'd'] = List.replicate 6 2 := by
    decide +kernel
  rw [hplaced] at hsum hlen
  rw [List.length_replicate] at hlen
  rw [main]
  exact ⟨hsum, by omega⟩

end Play

end Game
end CoreOS
