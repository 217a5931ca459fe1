import CoreOS.Lib.Router
import Mathlib.Algebra.BigOperators.Group.Finset.Piecewise
import Mathlib.Data.Fin.Tuple.Basic
import Mathlib.Data.Fintype.Basic
import Mathlib.Data.List.OfFn

/-!
# Sweeps over the lines of a grid

A pair action takes two values to two new ones, and yields something as well.  A **sweep** carries it
along a line: to the first value and the second, to what is now the second and the third, and so on to
the end (`sweep`), and what it yields on the way is added up (`yield`).

A program does this in place, in an array that has many lines in it, and it may go back and forth
between the lines as long as it goes along each of them in order.  That order is part of a `Grid`, and
`Grid.line_sweep` and `Grid.sweep_yield` say that nothing else about it matters: afterwards each line
is its own sweep, and the total is the sum over the lines.
-/

namespace CoreOS
namespace Sweep

variable {α β ι κ : Type*} (f : α → α → α × α × β)

/-! ## Along a list -/

/-- A sweep of a list, with the value that is at its front now. -/
def sweepFrom : α → List α → List α
  | a, [] => [a]
  | a, b :: l => (f a b).1 :: sweepFrom (f a b).2.1 l

/-- A sweep of a list. -/
def sweep : List α → List α
  | [] => []
  | a :: l => sweepFrom f a l

theorem length_sweepFrom (a : α) (l : List α) : (sweepFrom f a l).length = l.length + 1 := by
  induction l generalizing a with
  | nil => rfl
  | cons b l ih => exact congrArg (· + 1) (ih _)

/-- A sweep does not change how many there are. -/
theorem length_sweep (l : List α) : (sweep f l).length = l.length := by
  cases l with
  | nil => rfl
  | cons a l => exact length_sweepFrom f a l

variable [AddCommMonoid β]

/-- What a sweep yields, with the value that is at the front now. -/
def yieldFrom : α → List α → β
  | _, [] => 0
  | a, b :: l => (f a b).2.2 + yieldFrom (f a b).2.1 l

/-- What a sweep yields. -/
def yield : List α → β
  | [] => 0
  | a :: l => yieldFrom f a l

/-! ## In place -/

variable [DecidableEq ι] [DecidableEq κ]

/-- The action at two places of an array, with the sum of what has been yielded. -/
def place (x : (ι → α) × β) (i j : ι) : (ι → α) × β :=
  let r := f (x.1 i) (x.1 j)
  (Function.update (Function.update x.1 i r.1) j r.2.1, x.2 + r.2.2)

theorem place_of_ne {x : (ι → α) × β} {i j k : ι} (hi : k ≠ i) (hj : k ≠ j) :
    (place f x i j).1 k = x.1 k := by
  show Function.update (Function.update x.1 i _) j _ k = x.1 k
  rw [Function.update_of_ne hj, Function.update_of_ne hi]

/-- Nothing changes and nothing is yielded. -/
theorem place_eq_self {x : (ι → α) × β} {i j : ι}
    (h : f (x.1 i) (x.1 j) = (x.1 i, x.1 j, 0)) : place f x i j = x := by
  rw [place, h, add_zero, Function.update_eq_self, Function.update_eq_self]

/-- **Part of an array.**  What happens in a part of an array happens to it as to an array of its own. -/
theorem place_comp {e : κ → ι} (he : Function.Injective e) (x : (ι → α) × β) (i j : κ) :
    ((place f x (e i) (e j)).1 ∘ e, (place f x (e i) (e j)).2) = place f (x.1 ∘ e, x.2) i j := by
  refine Prod.ext ?_ rfl
  show Function.update (Function.update x.1 (e i) _) (e j) _ ∘ e = _
  rw [Function.update_comp_eq_of_injective _ he, Function.update_comp_eq_of_injective _ he]
  rfl

/-- The action at the place `k` of a line and the one after it. -/
def act {n : ℕ} (k : Fin n) (x : (Fin (n + 1) → α) × β) : (Fin (n + 1) → α) × β :=
  place f x k.castSucc k.succ

/-- What happens behind the first place of a line. -/
theorem act_cons {n : ℕ} (a : α) (x : (Fin (n + 1) → α) × β) (k : Fin n) :
    act f k.succ ((Fin.cons a x.1 : Fin (n + 2) → α), x.2) =
      ((Fin.cons a (act f k x).1 : Fin (n + 2) → α), (act f k x).2) := by
  refine Prod.ext ?_ rfl
  show Function.update (Function.update (Fin.cons a x.1 : Fin (n + 2) → α) k.castSucc.succ _)
    k.succ.succ _ = _
  rw [← Fin.cons_update, ← Fin.cons_update]
  rfl

theorem alone_map_succ {n : ℕ} (a : α) (x : (Fin (n + 1) → α) × β) (l : List (Fin n)) :
    Router.alone (act f) ((Fin.cons a x.1 : Fin (n + 2) → α), x.2) (l.map Fin.succ) =
      ((Fin.cons a (Router.alone (act f) x l).1 : Fin (n + 2) → α), (Router.alone (act f) x l).2) := by
  rw [Router.alone, List.foldl_map]
  exact List.foldl_hom (fun x : (Fin (n + 1) → α) × β => ((Fin.cons a x.1 : Fin (n + 2) → α), x.2))
    fun x k => act_cons f a x k

/-- What happens at the front. -/
theorem act_zero {n : ℕ} (a b : α) (v : Fin n → α) (s : β) :
    act f 0 ((Fin.cons a (Fin.cons b v : Fin (n + 1) → α) : Fin (n + 2) → α), s) =
      ((Fin.cons (f a b).1 (Fin.cons (f a b).2.1 v : Fin (n + 1) → α) : Fin (n + 2) → α),
        s + (f a b).2.2) := by
  refine Prod.ext ?_ rfl
  show Function.update (Function.update (Fin.cons a (Fin.cons b v : Fin (n + 1) → α) :
    Fin (n + 2) → α) 0 (f a b).1) (Fin.succ 0) (f a b).2.1 = _
  rw [Fin.update_cons_zero, ← Fin.cons_update, Fin.update_cons_zero]

theorem ofFn_cons {n : ℕ} (a : α) (v : Fin n → α) :
    List.ofFn (Fin.cons a v : Fin (n + 1) → α) = a :: List.ofFn v :=
  List.ofFn_succ

/-- **A sweep in place.** -/
theorem ofFn_alone {n : ℕ} (x : (Fin (n + 1) → α) × β) :
    List.ofFn (Router.alone (act f) x (List.finRange n)).1 = sweep f (List.ofFn x.1) ∧
      (Router.alone (act f) x (List.finRange n)).2 = x.2 + yield f (List.ofFn x.1) := by
  induction n with
  | zero =>
    rw [List.ofFn_succ, List.ofFn_zero]
    exact ⟨rfl, (add_zero x.2).symm⟩
  | succ n ih =>
    obtain ⟨v, s⟩ := x
    obtain ⟨a, w, rfl⟩ : ∃ a w, v = (Fin.cons a w : Fin (n + 2) → α) :=
      ⟨v 0, Fin.tail v, (Fin.cons_self_tail v).symm⟩
    obtain ⟨b, w, rfl⟩ : ∃ b w', w = (Fin.cons b w' : Fin (n + 1) → α) :=
      ⟨w 0, Fin.tail w, (Fin.cons_self_tail w).symm⟩
    -- the front first, and then what is behind it, whose own front has changed
    obtain ⟨hlist, hsum⟩ := ih ((Fin.cons (f a b).2.1 w : Fin (n + 1) → α), s + (f a b).2.2)
    have hrest := alone_map_succ f (f a b).1
      ((Fin.cons (f a b).2.1 w : Fin (n + 1) → α), s + (f a b).2.2) (List.finRange n)
    rw [Router.alone, List.finRange_succ, List.foldl_cons, act_zero]
    rw [Router.alone] at hrest
    rw [hrest, ofFn_cons, hlist, hsum, ofFn_cons, ofFn_cons, ofFn_cons, add_assoc]
    exact ⟨rfl, rfl⟩

/-! ## Grids -/

/-- Lines of `n + 1` places each in an array, which have no place in common, and an order of going along
them in which each is taken from its front. -/
structure Grid (κ ι : Type*) [DecidableEq κ] (n : ℕ) where
  cell : κ → Fin (n + 1) → ι
  cell_inj : ∀ l l' k k', cell l k = cell l' k' → l = l' ∧ k = k'
  order : List (κ × Fin n)
  order_line : ∀ l, (order.filter fun o => o.1 = l).map Prod.snd = List.finRange n

namespace Grid

variable {n : ℕ} (G : Grid κ ι n)

/-- The values on a line. -/
def line (l : κ) (t : ι → α) : List α := List.ofFn (t ∘ G.cell l)

/-- A sweep of the grid. -/
def sweep (x : (ι → α) × β) : (ι → α) × β :=
  G.order.foldl (fun x o => place f x (G.cell o.1 o.2.castSucc) (G.cell o.1 o.2.succ)) x

/-- The lines as components that have nothing in common. -/
def router : Router Unit (κ × Fin n) κ where
  next _ _ := ()
  target _ o := some o.1

theorem addressed_eq (l : κ) (os : List (κ × Fin n)) :
    router.addressed l () os = os.filter fun o => o.1 = l := by
  induction os with
  | nil => rfl
  | cons o os ih =>
    have htarget : (router.target () o = some l) = (o.1 = l) := Option.some.injEq ..
    rw [Router.addressed, List.filter_cons]
    simp only [htarget, decide_eq_true_eq]
    rw [← ih]

variable [Fintype κ]

/-- The array and the lines of it, each on its own and with what it has yielded. -/
def Splits (s : β) (x : (ι → α) × β) (y : Unit × (κ → (Fin (n + 1) → α) × β)) : Prop :=
  (∀ l, x.1 ∘ G.cell l = (y.2 l).1) ∧ x.2 = s + ∑ l, (y.2 l).2

/-- **One step of a sweep.** -/
theorem splits_step {s : β} {x : (ι → α) × β} {y : Unit × (κ → (Fin (n + 1) → α) × β)}
    (h : G.Splits s x y) (o : κ × Fin n) :
    G.Splits s (place f x (G.cell o.1 o.2.castSucc) (G.cell o.1 o.2.succ))
      (router.route (fun o => act f o.2) y o) := by
  obtain ⟨hcells, hsum⟩ := h
  have hinj : Function.Injective (G.cell o.1) := fun k k' hk => (G.cell_inj _ _ k k' hk).2
  have hdeliver : ∀ l, (router.route (fun o => act f o.2) y o).2 l =
      if o.1 = l then act f o.2 (y.2 l) else y.2 l := by
    intro l
    have htarget : (router.target () o = some l) = (o.1 = l) := Option.some.injEq ..
    refine (Router.deliver_apply router (fun o => act f o.2) () y.2 o l).trans ?_
    simp only [htarget]
  refine ⟨fun l => ?_, ?_⟩
  · rw [hdeliver]
    split_ifs with hl
    · rw [← hl]
      have hcomp := congrArg Prod.fst (place_comp f hinj x o.2.castSucc o.2.succ)
      rw [hcells] at hcomp
      exact hcomp
    · -- the places of another line
      rw [← hcells]
      funext k
      exact place_of_ne f (fun hk => hl (G.cell_inj _ _ _ _ hk).1.symm)
        (fun hk => hl (G.cell_inj _ _ _ _ hk).1.symm)
  · have hyield : ∀ l, ((router.route (fun o => act f o.2) y o).2 l).2 =
        (y.2 l).2 + if o.1 = l then (f (x.1 (G.cell o.1 o.2.castSucc)) (x.1 (G.cell o.1 o.2.succ))).2.2
          else 0 := by
      intro l
      rw [hdeliver]
      split_ifs with hl
      · show (y.2 l).2 + (f ((y.2 l).1 o.2.castSucc) ((y.2 l).1 o.2.succ)).2.2 = _
        rw [← hl, ← hcells]
        rfl
      · exact (add_zero _).symm
    simp only [hyield]
    rw [Finset.sum_add_distrib, Finset.sum_ite_eq, if_pos (Finset.mem_univ _), ← add_assoc, ← hsum]
    rfl

/-- **A sweep of a grid.**  Each line is swept on its own, and the total is what the lines yield. -/
theorem line_sweep (x : (ι → α) × β) :
    (∀ l, G.line l (G.sweep f x).1 = Sweep.sweep f (G.line l x.1)) ∧
      (G.sweep f x).2 = x.2 + ∑ l, yield f (G.line l x.1) := by
  obtain ⟨y, hy⟩ : ∃ y : κ → (Fin (n + 1) → α) × β, y = fun l => (x.1 ∘ G.cell l, 0) := ⟨_, rfl⟩
  have hstart : G.Splits x.2 x ((), y) := by
    refine ⟨fun l => by rw [hy], ?_⟩
    simp only [hy, Finset.sum_const_zero, add_zero]
  obtain ⟨hcells, hsum⟩ := router.run_simulates (fun o => act f o.2) (G.Splits x.2)
    (fun _ _ o h _ => G.splits_step f h o) ((), y) hstart
    (Runs.meets_of_forall (C := fun _ _ => True) (fun _ _ _ => trivial) x : Runs.Meets _ _ x G.order)
  have hline : ∀ l, (Runs.run (router.route fun o => act f o.2) ((), y) G.order).2 l =
      Router.alone (act f) (x.1 ∘ G.cell l, 0) (List.finRange n) := by
    intro l
    rw [router.run_act, addressed_eq, ← G.order_line l, Router.alone, Router.alone, List.foldl_map, hy]
  refine ⟨fun l => ?_, hsum.trans (congrArg (x.2 + ·) (Finset.sum_congr rfl fun l _ => ?_))⟩
  · have hcells := hcells l
    rw [hline] at hcells
    exact (congrArg List.ofFn hcells).trans (ofFn_alone f (x.1 ∘ G.cell l, 0)).1
  · rw [hline, (ofFn_alone f (x.1 ∘ G.cell l, 0)).2, zero_add]
    rfl

end Grid

end Sweep
end CoreOS
