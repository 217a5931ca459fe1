import CoreOS.Lib.Sweep
import Mathlib.Algebra.GroupWithZero.Nat
import Mathlib.Data.List.Basic
import Mathlib.Logic.Function.Iterate

/-!
# Sliding tiles together

A line of places, of which some hold a tile and the others hold 0.  The line is pushed towards its
front: the gaps are closed, and of the tiles that have come together each pair of equal ones is joined
once, from the front, into one of another value (`slide`).

This can be done in place with sweeps of two pair actions: one moves a tile into a gap before it
(`fill`), and one joins two equal ones and leaves a gap (`join`).  A sweep of `fill` moves the first
gap to the end, so it takes as many of them as there are gaps to close all (`iterate_sweep_fill`).  A
sweep of `join` makes the right tiles (`tiles_sweep_join`), with a gap behind each new one.  In a line
of four places only one of these can have a tile behind it, so that one more sweep is enough
(`passes_eq_slide`).
-/

namespace CoreOS
namespace Slide

open Sweep

variable {α : Type*} [DecidableEq α] (double : α → α)

/-! ## The rules -/

/-- Each pair of equal neighbours is merged, once, from the front. -/
def merge : List α → List α
  | a :: b :: l => if a = b then double a :: merge l else a :: merge (b :: l)
  | l => l

/-- The tiles that come out of it. -/
def merged : List α → List α
  | a :: b :: l => if a = b then double a :: merged l else merged (b :: l)
  | _ => []

theorem merge_self (a : α) (l : List α) : merge double (a :: a :: l) = double a :: merge double l := by
  rw [merge, if_pos rfl]

theorem merge_of_ne {a b : α} (h : a ≠ b) (l : List α) :
    merge double (a :: b :: l) = a :: merge double (b :: l) := by
  rw [merge, if_neg h]

theorem merged_self (a : α) (l : List α) :
    merged double (a :: a :: l) = double a :: merged double l := by
  rw [merged, if_pos rfl]

theorem merged_of_ne {a b : α} (h : a ≠ b) (l : List α) :
    merged double (a :: b :: l) = merged double (b :: l) := by
  rw [merged, if_neg h]

/-- Only the values in the list are doubled. -/
theorem merge_congr {double double' : α → α} {l : List α} (h : ∀ x ∈ l, double x = double' x) :
    merge double l = merge double' l ∧ merged double l = merged double' l := by
  induction l using merge.induct with
  | case1 a l ih =>
    obtain ⟨hmerge, hmerged⟩ := ih fun x hx => h x (List.mem_cons_of_mem a (List.mem_cons_of_mem a hx))
    rw [merge_self, merge_self, merged_self, merged_self, hmerge, hmerged, h a List.mem_cons_self]
    exact ⟨rfl, rfl⟩
  | case2 a b l hab ih =>
    obtain ⟨hmerge, hmerged⟩ := ih fun x hx => h x (List.mem_cons_of_mem a hx)
    rw [merge_of_ne _ hab, merge_of_ne _ hab, merged_of_ne _ hab, merged_of_ne _ hab, hmerge, hmerged]
    exact ⟨rfl, rfl⟩
  | case3 l hshort =>
    match l with
    | [] => exact ⟨rfl, rfl⟩
    | [a] => exact ⟨rfl, rfl⟩
    | a :: b :: l => exact absurd rfl (hshort a b l)

variable [AddCommMonoid α]

/-- The tiles on a line. -/
def tiles (l : List α) : List α := l.filter fun x => x ≠ 0

/-- The line afterwards. -/
def slide (l : List α) : List α :=
  merge double (tiles l) ++ List.replicate (l.length - (merge double (tiles l)).length) 0

/-- The score. -/
def score (l : List α) : α := (merged double (tiles l)).sum

/-! ## The sweeps -/

/-- A tile moves into a gap. -/
def fill (a b : α) : α × α × α := if a = 0 then (b, 0, 0) else (a, b, 0)

/-- Two equal tiles are joined. -/
def join (a b : α) : α × α × α := if a = b then (double a, 0, double a) else (a, b, 0)

/-- Four sweeps to close the gaps, one to join the tiles, and one for the gaps that this leaves. -/
def passes (l : List α) : List α := sweep fill (sweep (join double) ((sweep fill)^[4] l))

/-! ## Closing the gaps -/

theorem sweepFrom_fill_zero (b : α) (l : List α) :
    sweepFrom fill 0 (b :: l) = b :: sweepFrom fill 0 l := by
  have hfill : fill 0 b = (b, 0, 0) := if_pos rfl
  rw [sweepFrom, hfill]

theorem sweepFrom_fill_of_ne {a : α} (h : a ≠ 0) (b : α) (l : List α) :
    sweepFrom fill a (b :: l) = a :: sweepFrom fill b l := by
  have hfill : fill a b = (a, b, 0) := if_neg h
  rw [sweepFrom, hfill]

theorem sweepFrom_fill (a : α) (l : List α) : sweepFrom fill a l =
    if 0 ∈ a :: l then (a :: l).erase 0 ++ [0] else a :: l := by
  induction l generalizing a with
  | nil =>
    rw [sweepFrom]
    split_ifs with h
    · rw [← List.mem_singleton.mp h, List.erase_cons_head]
      rfl
    · rfl
  | cons b l ih =>
    by_cases ha : a = 0
    · rw [ha, sweepFrom_fill_zero, ih, if_pos List.mem_cons_self, if_pos List.mem_cons_self,
        List.erase_cons_head, List.erase_cons_head]
      rfl
    · have hmem : (0 : α) ∈ a :: b :: l ↔ 0 ∈ b :: l :=
        List.mem_cons.trans (or_iff_right fun h => ha h.symm)
      have herase : (a :: b :: l).erase 0 = a :: (b :: l).erase 0 :=
        List.erase_cons_tail (by rwa [beq_iff_eq])
      rw [sweepFrom_fill_of_ne ha, ih, if_congr hmem rfl rfl, apply_ite (List.cons a), herase]
      rfl

/-- **One sweep** moves the first gap to the end. -/
theorem sweep_fill (l : List α) :
    sweep fill l = if (0 : α) ∈ l then l.erase 0 ++ [0] else l := by
  cases l with
  | nil => rfl
  | cons a l => exact sweepFrom_fill a l

theorem sweep_fill_of_notMem {l : List α} (h : (0 : α) ∉ l) : sweep fill l = l := by
  rw [sweep_fill, if_neg h]

theorem zero_mem_sweep_fill {l : List α} (h : (0 : α) ∈ l) : (0 : α) ∈ sweep fill l := by
  rw [sweep_fill, if_pos h]
  exact List.mem_append_right _ (List.mem_singleton_self 0)

/-- The gaps at the end stay where they are. -/
theorem sweep_fill_append (l : List α) (r : ℕ) : sweep fill (l ++ List.replicate r 0) =
    if (0 : α) ∈ l then l.erase 0 ++ List.replicate (r + 1) 0 else l ++ List.replicate r 0 := by
  rw [sweep_fill]
  by_cases h : (0 : α) ∈ l
  · rw [if_pos h, if_pos (List.mem_append_left _ h), List.erase_append_left _ h, List.append_assoc,
      List.replicate_succ']
  · rw [if_neg h, List.erase_append_right _ h]
    cases r with
    | zero => exact if_neg fun hmem => h ((List.append_nil l).symm ▸ hmem)
    | succ r =>
      rw [if_pos (List.mem_append_right _ (List.mem_replicate.mpr ⟨r.succ_ne_zero, rfl⟩)),
        List.append_assoc, List.replicate_succ, List.erase_cons_head, ← List.replicate_succ,
        List.replicate_succ']

theorem tiles_erase (l : List α) : tiles (l.erase 0) = tiles l := by
  rw [tiles, tiles, ← List.erase_filter]
  refine List.erase_of_not_mem fun hmem => ?_
  exact of_decide_eq_true (List.mem_filter.mp hmem).2 rfl

theorem tiles_of_notMem {l : List α} (h : (0 : α) ∉ l) : tiles l = l := by
  refine List.filter_eq_self.mpr fun x hx => decide_eq_true ?_
  rintro rfl
  exact h hx

/-- **Enough sweeps** close the gaps. -/
theorem iterate_sweep_fill {k : ℕ} (l : List α) (r : ℕ) (h : l.count 0 ≤ k) :
    (sweep fill)^[k] (l ++ List.replicate r 0) = tiles l ++ List.replicate (l.count 0 + r) 0 := by
  induction k generalizing l r with
  | zero =>
    have hcount := Nat.le_zero.mp h
    rw [tiles_of_notMem (List.count_eq_zero.mp hcount), hcount, Nat.zero_add]
    rfl
  | succ k ih =>
    rw [Function.iterate_succ_apply, sweep_fill_append]
    split_ifs with hmem
    · have hcount : (l.erase 0).count 0 = l.count 0 - 1 := List.count_erase_self
      have hpos := List.count_pos_iff.mpr hmem
      rw [ih _ _ (by omega), tiles_erase, hcount]
      congr 2
      omega
    · exact ih l r (by rw [List.count_eq_zero.mpr hmem]; exact Nat.zero_le k)

/-! ## Joining -/

theorem sweepFrom_join_self (a : α) (l : List α) :
    sweepFrom (join double) a (a :: l) = double a :: sweepFrom (join double) 0 l := by
  have hjoin : join double a a = (double a, 0, double a) := if_pos rfl
  rw [sweepFrom, hjoin]

theorem sweepFrom_join_of_ne {a b : α} (h : a ≠ b) (l : List α) :
    sweepFrom (join double) a (b :: l) = a :: sweepFrom (join double) b l := by
  have hjoin : join double a b = (a, b, 0) := if_neg h
  rw [sweepFrom, hjoin]

theorem yieldFrom_join_self (a : α) (l : List α) :
    yieldFrom (join double) a (a :: l) = double a + yieldFrom (join double) 0 l := by
  have hjoin : join double a a = (double a, 0, double a) := if_pos rfl
  rw [yieldFrom, hjoin]

theorem yieldFrom_join_of_ne {a b : α} (h : a ≠ b) (l : List α) :
    yieldFrom (join double) a (b :: l) = yieldFrom (join double) b l := by
  have hjoin : join double a b = (a, b, 0) := if_neg h
  rw [yieldFrom, hjoin, zero_add]

theorem tiles_zero_cons (l : List α) : tiles ((0 : α) :: l) = tiles l :=
  List.filter_cons_of_neg fun h => of_decide_eq_true h rfl

theorem tiles_cons_of_ne {a : α} (h : a ≠ 0) (l : List α) : tiles (a :: l) = a :: tiles l :=
  List.filter_cons_of_pos (decide_eq_true h)

variable {double}

/-- **One sweep** makes the right tiles, and yields their score.  The value at the front is a tile, or it
is the gap behind a tile that has just been made. -/
theorem tiles_sweepFrom_join {a : α} {l : List α} (hl : (0 : α) ∉ l)
    (hdouble : ∀ x ∈ a :: l, double x = 0 → x = 0) :
    tiles (sweepFrom (join double) a l) = merge double (tiles (a :: l)) ∧
      yieldFrom (join double) a l = (merged double (tiles (a :: l))).sum := by
  induction l generalizing a with
  | nil =>
    by_cases ha : a = 0
    · rw [ha, sweepFrom, tiles_zero_cons]
      exact ⟨rfl, rfl⟩
    · rw [sweepFrom, tiles_cons_of_ne ha]
      exact ⟨rfl, rfl⟩
  | cons b l ih =>
    obtain ⟨hb, hrest⟩ := List.ne_and_not_mem_of_not_mem_cons hl
    have hgap := ih hrest (a := 0) fun x hx h => by
      rcases List.mem_cons.mp hx with rfl | hx
      · rfl
      · exact hdouble x (List.mem_cons_of_mem a (List.mem_cons_of_mem b hx)) h
    have htile := ih hrest (a := b) fun x hx h => hdouble x (List.mem_cons_of_mem a hx) h
    rw [tiles_zero_cons, tiles_of_notMem hrest] at hgap
    rw [tiles_cons_of_ne hb.symm, tiles_of_notMem hrest] at htile
    by_cases hab : a = b
    · subst hab
      have hne : double a ≠ 0 := fun h => hb.symm (hdouble a List.mem_cons_self h)
      rw [sweepFrom_join_self, yieldFrom_join_self, tiles_cons_of_ne hne, tiles_cons_of_ne hb.symm,
        tiles_cons_of_ne hb.symm, tiles_of_notMem hrest, merge_self, merged_self, List.sum_cons, hgap.1,
        hgap.2]
      exact ⟨rfl, rfl⟩
    · rw [sweepFrom_join_of_ne _ hab, yieldFrom_join_of_ne _ hab, htile.2]
      by_cases ha : a = 0
      · rw [ha, tiles_zero_cons, tiles_zero_cons, tiles_cons_of_ne hb.symm, tiles_of_notMem hrest]
        exact ⟨htile.1, rfl⟩
      · rw [tiles_cons_of_ne ha, tiles_cons_of_ne ha, tiles_cons_of_ne hb.symm, tiles_of_notMem hrest,
          merge_of_ne _ hab, merged_of_ne _ hab, htile.1]
        exact ⟨rfl, rfl⟩

theorem tiles_sweep_join {l : List α} (hl : (0 : α) ∉ l) (hdouble : ∀ x ∈ l, double x = 0 → x = 0) :
    tiles (sweep (join double) l) = merge double l ∧
      yield (join double) l = (merged double l).sum := by
  cases l with
  | nil => exact ⟨rfl, rfl⟩
  | cons a l =>
    have h := tiles_sweepFrom_join (List.not_mem_of_not_mem_cons hl) hdouble
    rw [tiles_of_notMem hl] at h
    exact h

theorem sweepFrom_join_gaps (hzero : double 0 = 0) (a : α) (r : ℕ) :
    sweepFrom (join double) a (List.replicate r 0) = a :: List.replicate r 0 ∧
      yieldFrom (join double) a (List.replicate r 0) = 0 := by
  induction r generalizing a with
  | zero => exact ⟨rfl, rfl⟩
  | succ r ih =>
    obtain ⟨hsweep, hyield⟩ := ih 0
    rw [List.replicate_succ]
    by_cases ha : a = 0
    · rw [ha, sweepFrom_join_self, yieldFrom_join_self, hsweep, hyield, hzero, add_zero]
      exact ⟨rfl, rfl⟩
    · rw [sweepFrom_join_of_ne _ ha, yieldFrom_join_of_ne _ ha, hsweep, hyield]
      exact ⟨rfl, rfl⟩

theorem sweepFrom_join_append (hzero : double 0 = 0) (a : α) (l : List α) (r : ℕ) :
    sweepFrom (join double) a (l ++ List.replicate r 0) =
        sweepFrom (join double) a l ++ List.replicate r 0 ∧
      yieldFrom (join double) a (l ++ List.replicate r 0) = yieldFrom (join double) a l := by
  induction l generalizing a with
  | nil => exact sweepFrom_join_gaps hzero a r
  | cons b l ih =>
    obtain ⟨hsweep, hyield⟩ := ih (join double a b).2.1
    rw [List.cons_append, sweepFrom, sweepFrom, yieldFrom, yieldFrom, hsweep, hyield]
    exact ⟨rfl, rfl⟩

/-- The gaps at the end stay gaps. -/
theorem sweep_join_append (hzero : double 0 = 0) (l : List α) (r : ℕ) :
    sweep (join double) (l ++ List.replicate r 0) =
        sweep (join double) l ++ List.replicate r 0 ∧
      yield (join double) (l ++ List.replicate r 0) = yield (join double) l := by
  cases l with
  | nil =>
    cases r with
    | zero => exact ⟨rfl, rfl⟩
    | succ r => exact sweepFrom_join_gaps hzero 0 r
  | cons a l => exact sweepFrom_join_append hzero a l r

/-! ## Four places -/

theorem sweepFrom_join_zero {l : List α} (hl : (0 : α) ∉ l) :
    sweepFrom (join double) 0 l = 0 :: sweep (join double) l := by
  cases l with
  | nil => rfl
  | cons b l => exact sweepFrom_join_of_ne double (List.ne_of_not_mem_cons hl) l

/-- Two tiles: a gap can only be at the end. -/
theorem sweep_join_of_length_le_two {l : List α} (hl : (0 : α) ∉ l) (hlen : l.length ≤ 2)
    (hdouble : ∀ x ∈ l, double x = 0 → x = 0) :
    ∃ r, sweep (join double) l = tiles (sweep (join double) l) ++ List.replicate r 0 := by
  match l with
  | [] => exact ⟨0, rfl⟩
  | [a] => exact ⟨0, (congrArg (· ++ []) (tiles_of_notMem hl)).symm⟩
  | [a, b] =>
    by_cases hab : a = b
    · subst hab
      have hne : double a ≠ 0 := fun h => (List.ne_of_not_mem_cons hl).symm
        (hdouble a List.mem_cons_self h)
      refine ⟨1, ?_⟩
      rw [sweep, sweepFrom_join_self, tiles_cons_of_ne hne, sweepFrom, tiles_zero_cons]
      rfl
    · refine ⟨0, ?_⟩
      rw [sweep, sweepFrom_join_of_ne _ hab, sweepFrom, tiles_of_notMem hl]
      rfl

/-- **Four tiles**: only the first gap can have a tile behind it. -/
theorem erase_sweepFrom_join {a : α} {l : List α} (hl : (0 : α) ∉ a :: l) (hlen : l.length ≤ 3)
    (hdouble : ∀ x ∈ a :: l, double x = 0 → x = 0) :
    ∃ r, (sweepFrom (join double) a l).erase 0 =
      tiles (sweepFrom (join double) a l) ++ List.replicate r 0 := by
  induction l generalizing a with
  | nil =>
    refine ⟨0, ?_⟩
    rw [sweepFrom, List.erase_of_not_mem hl, tiles_of_notMem hl]
    rfl
  | cons b l ih =>
    obtain ⟨ha, hrest⟩ := List.ne_and_not_mem_of_not_mem_cons hl
    have hgap := List.not_mem_of_not_mem_cons hrest
    rw [List.length_cons] at hlen
    have herase : ∀ {x : α} (_ : x ≠ 0) (l' : List α), (x :: l').erase 0 = x :: l'.erase 0 := by
      intro x hx l'
      exact List.erase_cons_tail (by rwa [beq_iff_eq])
    by_cases hab : a = b
    · subst hab
      have hne : double a ≠ 0 := fun h => ha.symm (hdouble a List.mem_cons_self h)
      obtain ⟨r, hr⟩ := sweep_join_of_length_le_two hgap (Nat.le_of_succ_le_succ hlen)
        fun x hx => hdouble x (List.mem_cons_of_mem a (List.mem_cons_of_mem a hx))
      refine ⟨r, ?_⟩
      rw [sweepFrom_join_self, herase hne, tiles_cons_of_ne hne, sweepFrom_join_zero hgap,
        List.erase_cons_head, tiles_zero_cons, List.cons_append, ← hr]
    · obtain ⟨r, hr⟩ := ih hrest (Nat.le_of_succ_le hlen)
        fun x hx => hdouble x (List.mem_cons_of_mem a hx)
      refine ⟨r, ?_⟩
      rw [sweepFrom_join_of_ne _ hab, herase ha.symm, tiles_cons_of_ne ha.symm, hr]
      rfl

theorem erase_sweep_join {l : List α} (hl : (0 : α) ∉ l) (hlen : l.length ≤ 4)
    (hdouble : ∀ x ∈ l, double x = 0 → x = 0) :
    ∃ r, (sweep (join double) l).erase 0 =
      tiles (sweep (join double) l) ++ List.replicate r 0 := by
  cases l with
  | nil => exact ⟨0, rfl⟩
  | cons a l => exact erase_sweepFrom_join hl (Nat.le_of_succ_le_succ hlen) hdouble

theorem length_passes (l : List α) : (passes double l).length = l.length := by
  have hfour : (sweep fill)^[4] l = sweep fill (sweep fill (sweep fill (sweep fill l))) := rfl
  rw [passes, hfour]
  simp only [length_sweep]

/-- **The passes are the rules.** -/
theorem passes_eq_slide {l : List α} (hlen : l.length ≤ 4) (hzero : double 0 = 0)
    (hdouble : ∀ x ∈ l, double x = 0 → x = 0) :
    passes double l = slide double l ∧ yield (join double) ((sweep fill)^[4] l) = score double l := by
  have htiles : ∀ x ∈ tiles l, double x = 0 → x = 0 := fun x hx => hdouble x (List.mem_of_mem_filter hx)
  have hnot : (0 : α) ∉ tiles l := fun hmem => of_decide_eq_true (List.mem_filter.mp hmem).2 rfl
  have hfour : (sweep fill)^[4] l = tiles l ++ List.replicate (l.count 0) 0 := by
    have h := iterate_sweep_fill l 0 (le_trans List.count_le_length hlen)
    rw [List.replicate_zero, List.append_nil] at h
    exact h
  obtain ⟨hjoin, hyield⟩ := sweep_join_append hzero (tiles l) (l.count 0)
  obtain ⟨hmerge, hscore⟩ := tiles_sweep_join hnot htiles
  refine ⟨?_, ?_⟩
  · -- the last sweep moves the gap that has tiles behind it to the end
    obtain ⟨r, hr⟩ : ∃ r, passes double l = merge double (tiles l) ++ List.replicate r 0 := by
      rw [passes, hfour, hjoin, sweep_fill_append]
      split_ifs with hmem
      · obtain ⟨r, hr⟩ := erase_sweep_join hnot (le_trans (List.length_filter_le ..) hlen) htiles
        refine ⟨r + (l.count 0 + 1), ?_⟩
        rw [hr, hmerge, List.append_assoc, List.replicate_append_replicate]
      · refine ⟨l.count 0, ?_⟩
        rw [← hmerge, tiles_of_notMem hmem]
    have hlength : (passes double l).length = l.length := length_passes l
    rw [hr, List.length_append, List.length_replicate] at hlength
    rw [hr, slide, ← hlength, Nat.add_sub_cancel_left]
  · rw [hfour, hyield, hscore]
    rfl

/-! ## Lines that do not change -/

theorem iterate_sweep_fill_of_notMem {l : List α} (hl : (0 : α) ∉ l) (k : ℕ) :
    (sweep fill)^[k] l = l :=
  Function.iterate_fixed (sweep_fill_of_notMem hl) k

theorem sweepFrom_join_of_isChain {a : α} {l : List α} (hchain : (a :: l).IsChain (· ≠ ·)) :
    sweepFrom (join double) a l = a :: l := by
  induction l generalizing a with
  | nil => rfl
  | cons b l ih =>
    obtain ⟨hab, hrest⟩ := List.isChain_cons_cons.mp hchain
    rw [sweepFrom_join_of_ne _ hab, ih hrest]

/-- **A full line without equal neighbours** stays as it is. -/
theorem passes_of_isChain {l : List α} (hl : (0 : α) ∉ l) (hchain : l.IsChain (· ≠ ·)) :
    passes double l = l := by
  have hjoin : sweep (join double) l = l := by
    cases l with
    | nil => rfl
    | cons a l => exact sweepFrom_join_of_isChain hchain
  rw [passes, iterate_sweep_fill_of_notMem hl, hjoin, sweep_fill_of_notMem hl]

theorem zero_mem_sweepFrom_join {a : α} {l : List α}
    (h : (0 : α) ∈ a :: l ∨ ¬ (a :: l).IsChain (· ≠ ·)) : (0 : α) ∈ sweepFrom (join double) a l := by
  induction l generalizing a with
  | nil => exact h.resolve_right fun hchain => hchain (List.isChain_singleton a)
  | cons b l ih =>
    by_cases hab : a = b
    · subst hab
      rw [sweepFrom_join_self]
      exact List.mem_cons_of_mem _ (ih (Or.inl List.mem_cons_self))
    · rw [sweepFrom_join_of_ne _ hab]
      rcases h with hmem | hchain
      · rcases List.mem_cons.mp hmem with ha | hmem
        · rw [ha]
          exact List.mem_cons_self
        · exact List.mem_cons_of_mem _ (ih (Or.inl hmem))
      · refine List.mem_cons_of_mem _ (ih (Or.inr fun hrest => ?_))
        exact hchain (List.isChain_cons_cons.mpr ⟨hab, hrest⟩)

/-- **A gap, or two equal neighbours**: there is a gap afterwards. -/
theorem zero_mem_passes {l : List α} (h : (0 : α) ∈ l ∨ ¬ l.IsChain (· ≠ ·)) :
    (0 : α) ∈ passes double l := by
  have hjoin : ∀ {l : List α}, (0 : α) ∈ l ∨ ¬ l.IsChain (· ≠ ·) → (0 : α) ∈ sweep (join double) l := by
    intro l h
    cases l with
    | nil => exact h.resolve_right fun hchain => hchain List.isChain_nil
    | cons a l => exact zero_mem_sweepFrom_join h
  refine zero_mem_sweep_fill (hjoin ?_)
  by_cases hl : (0 : α) ∈ l
  · exact Or.inl (zero_mem_sweep_fill (zero_mem_sweep_fill (zero_mem_sweep_fill
      (zero_mem_sweep_fill hl))))
  · rw [iterate_sweep_fill_of_notMem hl]
    exact h

/-- Only the values on the line are doubled. -/
theorem slide_congr {double' : α → α} {l : List α} (h : ∀ x ∈ l, double x = double' x) :
    slide double l = slide double' l ∧ score double l = score double' l := by
  obtain ⟨hmerge, hmerged⟩ := merge_congr (l := tiles l)
    fun x hx => h x (List.mem_of_mem_filter hx)
  rw [slide, slide, score, score, hmerge, hmerged]
  exact ⟨rfl, rfl⟩

/-! ## What a line adds up to -/

omit [AddCommMonoid α] in
theorem mem_merge {l : List α} {x : α} (h : x ∈ merge double l) :
    x ∈ l ∨ ∃ y ∈ l, x = double y := by
  induction l using merge.induct with
  | case1 a l ih =>
    rw [merge_self] at h
    rcases List.mem_cons.mp h with rfl | hx
    · exact Or.inr ⟨a, List.mem_cons_self, rfl⟩
    · refine (ih hx).imp (fun hl => ?_) fun ⟨y, hy, hxy⟩ => ⟨y, ?_, hxy⟩
      · exact List.mem_cons_of_mem a (List.mem_cons_of_mem a hl)
      · exact List.mem_cons_of_mem a (List.mem_cons_of_mem a hy)
  | case2 a b l hab ih =>
    rw [merge_of_ne _ hab] at h
    rcases List.mem_cons.mp h with rfl | hx
    · exact Or.inl List.mem_cons_self
    · refine (ih hx).imp (List.mem_cons_of_mem a) fun ⟨y, hy, hxy⟩ => ⟨y, ?_, hxy⟩
      exact List.mem_cons_of_mem a hy
  | case3 l hshort =>
    rw [merge.eq_def] at h
    split at h
    · exact absurd rfl (hshort _ _ _)
    · exact Or.inl h

omit [AddCommMonoid α] in
theorem mem_merged {l : List α} {x : α} (h : x ∈ merged double l) : ∃ y ∈ l, x = double y := by
  induction l using merge.induct with
  | case1 a l ih =>
    rw [merged_self] at h
    rcases List.mem_cons.mp h with rfl | hx
    · exact ⟨a, List.mem_cons_self, rfl⟩
    · obtain ⟨y, hy, hxy⟩ := ih hx
      exact ⟨y, List.mem_cons_of_mem a (List.mem_cons_of_mem a hy), hxy⟩
  | case2 a b l hab ih =>
    rw [merged_of_ne _ hab] at h
    obtain ⟨y, hy, hxy⟩ := ih h
    exact ⟨y, List.mem_cons_of_mem a hy, hxy⟩
  | case3 l hshort =>
    rcases l with _ | ⟨a, _ | ⟨b, l⟩⟩
    · exact absurd h List.not_mem_nil
    · exact absurd h List.not_mem_nil
    · exact absurd rfl (hshort a b l)

/-- A line afterwards holds tiles of it, new tiles and gaps. -/
theorem mem_slide {l : List α} {x : α} (h : x ∈ slide double l) :
    x = 0 ∨ x ∈ l ∨ ∃ y ∈ l, x = double y := by
  rcases List.mem_append.mp h with hx | hx
  · refine Or.inr ((mem_merge hx).imp List.mem_of_mem_filter fun ⟨y, hy, hxy⟩ => ⟨y, ?_, hxy⟩)
    exact List.mem_of_mem_filter hy
  · exact Or.inl (List.eq_of_mem_replicate hx)

/-- **A line that is as it was** has its gaps behind its tiles. -/
theorem eq_zero_of_slide_eq {l : List α} (hdouble : ∀ x ∈ l, double x = 0 → x = 0)
    (h : slide double l = l) {p q : ℕ} (hpq : p ≤ q) (hp : l[p]? = some 0) {x : α}
    (hq : l[q]? = some x) : x = 0 := by
  have hnot : (0 : α) ∉ merge double (tiles l) := by
    intro hmem
    have hne : ∀ y ∈ tiles l, y ≠ 0 := fun y hy => of_decide_eq_true (List.mem_filter.mp hy).2
    rcases mem_merge hmem with hzero | ⟨y, hy, hzero⟩
    · exact hne 0 hzero rfl
    · exact hne y hy (hdouble y (List.mem_of_mem_filter hy) hzero.symm)
  rw [← h, slide] at hp hq
  by_cases hlt : p < (merge double (tiles l)).length
  · rw [List.getElem?_append_left hlt] at hp
    exact absurd (List.mem_of_getElem? hp) hnot
  · rw [List.getElem?_append_right (by omega)] at hq
    exact List.eq_of_mem_replicate (List.mem_of_getElem? hq)

section sums

variable {M : Type*} [AddCommMonoid M] {φ ψ : α → M}

omit [AddCommMonoid α] in
/-- **A measure of the tiles** that counts a new tile as the two that it is made of, and `ψ` of it in
addition. -/
theorem sum_map_merge {l : List α} (h : ∀ x ∈ l, φ (double x) = φ x + φ x + ψ (double x)) :
    ((merge double l).map φ).sum = (l.map φ).sum + ((merged double l).map ψ).sum := by
  induction l using merge.induct with
  | case1 a l ih =>
    have hrest := ih fun x hx => h x (List.mem_cons_of_mem a (List.mem_cons_of_mem a hx))
    rw [merge_self, merged_self, List.map_cons, List.map_cons, List.map_cons, List.map_cons,
      List.sum_cons, List.sum_cons, List.sum_cons, List.sum_cons, hrest, h a List.mem_cons_self]
    ac_rfl
  | case2 a b l hab ih =>
    have hrest := ih fun x hx => h x (List.mem_cons_of_mem a hx)
    have hcons : ((a :: b :: l).map φ).sum = φ a + ((b :: l).map φ).sum := List.sum_cons
    rw [merge_of_ne _ hab, merged_of_ne _ hab, List.map_cons, List.sum_cons, hrest, hcons, add_assoc]
  | case3 l hshort =>
    rcases l with _ | ⟨a, _ | ⟨b, l⟩⟩
    · exact (add_zero _).symm
    · exact (add_zero _).symm
    · exact absurd rfl (hshort a b l)

theorem sum_map_tiles (hzero : φ 0 = 0) (l : List α) :
    ((tiles l).map φ).sum = (l.map φ).sum := by
  induction l with
  | nil => rfl
  | cons a l ih =>
    by_cases ha : a = 0
    · rw [ha, tiles_zero_cons, ih, List.map_cons, List.sum_cons, hzero, zero_add]
    · rw [tiles_cons_of_ne ha, List.map_cons, List.map_cons, List.sum_cons, List.sum_cons, ih]

omit [DecidableEq α] in
theorem sum_map_append_gaps (hzero : φ 0 = 0) (l : List α) (r : ℕ) :
    ((l ++ List.replicate r 0).map φ).sum = (l.map φ).sum := by
  rw [List.map_append, List.map_replicate, hzero, List.sum_append, List.sum_replicate, nsmul_zero,
    add_zero]

/-- Gaps count nothing. -/
theorem sum_map_slide (hzero : φ 0 = 0) {l : List α}
    (h : ∀ x ∈ l, φ (double x) = φ x + φ x + ψ (double x)) :
    ((slide double l).map φ).sum = (l.map φ).sum + ((merged double (tiles l)).map ψ).sum := by
  have hmerge := sum_map_merge (l := tiles l) fun x hx => h x (List.mem_of_mem_filter hx)
  rw [slide, sum_map_append_gaps hzero, hmerge, sum_map_tiles hzero]

end sums

section counts

variable {f g : α → ℕ} (hfg : ∀ x, f x ≤ g x) (hdouble : ∀ x, f (double x) ≤ g x)
include hfg hdouble

omit [AddCommMonoid α] in
/-- **Two counts**, of which the second also counts what a counted tile is made of.  A merge adds to
the first no more than it takes from the second. -/
theorem exists_sum_merge_le (l : List α) : ∃ m, ((merge double l).map f).sum ≤ (l.map f).sum + m ∧
    ((merge double l).map f).sum + m ≤ (l.map g).sum := by
  induction l using merge.induct with
  | case1 a l ih =>
    obtain ⟨m, hle, hadd⟩ := ih
    have hnew := hdouble a
    have hold := hfg a
    refine ⟨m + (g a - f a), ?_, ?_⟩ <;>
    · simp only [merge_self, List.map_cons, List.sum_cons]
      omega
  | case2 a b l hab ih =>
    obtain ⟨m, hle, hadd⟩ := ih
    have hold := hfg a
    simp only [List.map_cons, List.sum_cons] at hle hadd
    refine ⟨m, ?_, ?_⟩ <;>
    · simp only [merge_of_ne _ hab, List.map_cons, List.sum_cons]
      omega
  | case3 l hshort =>
    rcases l with _ | ⟨a, _ | ⟨b, l⟩⟩
    · exact ⟨0, le_rfl, le_rfl⟩
    · exact ⟨0, le_rfl, Nat.add_le_add_right (hfg a) 0⟩
    · exact absurd rfl (hshort a b l)

theorem exists_sum_slide_le (hf : f 0 = 0) (hg : g 0 = 0) (l : List α) :
    ∃ m, ((slide double l).map f).sum ≤ (l.map f).sum + m ∧
      ((slide double l).map f).sum + m ≤ (l.map g).sum := by
  obtain ⟨m, hle, hadd⟩ := exists_sum_merge_le hfg hdouble (tiles l)
  rw [sum_map_tiles hf] at hle
  rw [sum_map_tiles hg] at hadd
  refine ⟨m, ?_, ?_⟩
  · rw [slide, sum_map_append_gaps hf]
    exact hle
  · rw [slide, sum_map_append_gaps hf]
    exact hadd

end counts

end Slide
end CoreOS
