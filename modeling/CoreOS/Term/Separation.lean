import CoreOS.Lib.Router
import CoreOS.Term.Editing
import CoreOS.Term.System

/-!
# The terminals do not disturb each other

The three terminals share the memory of the chip, its cursor register and the global `cur_term`, and
still each of them looks as if it were alone: what is on its screen, where its cursor is and what is
in its line is what the operations addressed to it make of an empty terminal.  A write is addressed
to the terminal of the process, a key to the terminal on display, and a switch to none.

The terminals that are alone are a `Router`, whose mode is the number of the terminal on display.
`Sep` relates the terminals of the kernel to them.  It says where each `video_mem` points, so that no
two terminals are drawn on the same page, and that the chip, once told of a cursor, shows that of
the terminal on display.

`switch_term` saves the memory of the chip for the terminal that `cur_term` points to, and this has
to be the one on display.  Its caller sees to that, see `Promised`.
-/

namespace CoreOS
namespace Term

open Console

/-! ## Terminals that are alone -/

/-- A terminal at the beginning of an operation. -/
def Console.fresh (c : Console) : Console := { c with shown := none, oob := false }

/-- What an operation does to the terminal it is addressed to. -/
def Op.perform : Op → Console → Console
  | .write _ bytes => fun c => c.termWrite bytes
  | .readStart _ => Console.readStart
  | .readEnd _ canon nbytes => System.readEnd canon nbytes
  | .key k => fun c => c.handleKey k
  | .switchTerm _ => id

/-- The same, with the next operation in view. -/
def Op.act (o : Op) (c : Console) : Console := (o.perform c).fresh

/-- Which terminal is on display, and which terminal an operation is addressed to. -/
def router : Router (Fin termNum) Op (Fin termNum) where
  next d
    | .key k => (System.switchKey k).getD d
    | .switchTerm ind => ind
    | _ => d
  target d
    | .write t _ => some t
    | .readStart t => some t
    | .readEnd t _ _ => some t
    | .key k => if (System.switchKey k).isSome then none else some d
    | .switchTerm _ => none

/-- A terminal that has been set up and cleared. -/
def blank : Console :=
  { System.initData with
    screen := fun i => if i.val % 2 = 0 then ch ' ' else defAttr
    shown := none
    oob := false }

/-- Terminal `t` after a history, if only the operations addressed to it had been performed. -/
def alone (t : Fin termNum) (ops : List Op) : Console :=
  Router.alone Op.act blank (router.addressed t 0 ops)

/-! ## The relation -/

/-- The page a terminal is drawn on, by the terminal on display. -/
def pageOf (d t : Fin termNum) : PagePtr := if t = d then .vga else videoBuffer t

theorem pageOf_injective (d : Fin termNum) : Function.Injective (pageOf d) := by
  intro t u h
  rw [pageOf, pageOf] at h
  split_ifs at h with ht hu hu
  · rw [ht, hu]
  · exact PagePtr.noConfusion h
  · exact PagePtr.noConfusion h
  · exact PagePtr.back.inj h

/-- The terminals of the kernel, and terminals that are alone. -/
structure Sep (s : System) (d : Fin termNum) (v : Fin termNum → Console) : Prop where
  displayed : s.curTermInd = d
  routed : ∀ t, s.videoMem t = pageOf s.curTermInd t
  views : ∀ t, s.load t = v t
  good : ∀ t, Good (s.load t).pos (s.load t)
  cursor : ∀ p, s.vgaCursor = some p → p = (s.load s.curTermInd).pos
  inside : s.oob = false

namespace System

theorem load_on_self (s : System) (t : Fin termNum) (f : Console → Console) :
    (s.on t f).load t = (f (s.load t)).fresh := by
  simp only [load, on, store, Function.update_self]
  rfl

theorem load_on_of_ne {s : System} {t u : Fin termNum} (hu : u ≠ t)
    (hpage : s.videoMem u ≠ s.videoMem t) (f : Console → Console) :
    (s.on t f).load u = s.load u := by
  simp only [load, on, store, Function.update_of_ne hu, Function.update_of_ne hpage]

end System

section Step

variable {s : System} {d : Fin termNum} {v : Fin termNum → Console}

theorem Sep.page_ne (h : Sep s d v) {t u : Fin termNum} (hu : u ≠ t) : s.videoMem u ≠ s.videoMem t := by
  rw [h.routed, h.routed]
  exact (pageOf_injective _).ne hu

theorem Console.Good.fresh {p : ℤ} {c : Console} (h : Good p c) : Good c.pos c.fresh where
  toFits := { h.toFits with inside := rfl }
  x_nonneg := h.x_nonneg
  x_lt := h.x_lt
  y_nonneg := h.y_nonneg
  y_lt := h.y_lt
  shown_eq := rfl

/-- The register after an operation on the terminal on display, if it held the position of its
cursor before. -/
theorem Console.Good.eq_pos {p q : ℤ} {c : Console} {old : Option ℤ} (h : Good p c)
    (hold : old = none ∨ old = some p) (hnew : c.shown.or old = some q) : q = c.fresh.pos := by
  have hshown := h.shown_eq
  cases hc : c.shown with
  | none =>
    rw [hc] at hshown hnew
    rcases hold with hold | hold
    · rw [hold] at hnew
      cases hnew
    · rw [hold] at hnew
      exact (Option.some.inj hnew).symm.trans hshown
  | some r =>
    rw [hc] at hshown hnew
    exact (Option.some.inj hnew).symm.trans hshown

/-! ## One operation -/

/-- **A function called on one terminal changes no other.** -/
theorem Sep.on (h : Sep s d v) (t : Fin termNum) {f : Console → Console}
    (hf : ∀ p c, Good p c → Good p (f c)) :
    Sep (s.on t f) d (Function.update v t (f (v t)).fresh) := by
  have hgood : Good (s.load t).pos (f (s.load t)) := hf _ _ (h.good t)
  refine ⟨h.displayed, h.routed, ?_, ?_, ?_, ?_⟩
  · intro u
    by_cases hu : u = t
    · subst hu
      rw [System.load_on_self, h.views, Function.update_self]
    · rw [System.load_on_of_ne hu (h.page_ne hu), h.views, Function.update_of_ne hu]
  · intro u
    by_cases hu : u = t
    · subst hu
      rw [System.load_on_self]
      exact hgood.fresh
    · rw [System.load_on_of_ne hu (h.page_ne hu)]
      exact h.good u
  · intro p hp
    show p = ((s.on t f).load s.curTermInd).pos
    by_cases ht : t = s.curTermInd
    · have hcursor : s.vgaCursor = none ∨ s.vgaCursor = some (s.load t).pos := by
        cases hold : s.vgaCursor with
        | none => exact Or.inl rfl
        | some q => rw [ht, h.cursor q hold]; exact Or.inr rfl
      have hp' : (f (s.load t)).shown.or s.vgaCursor = some p := (if_pos ht).symm.trans hp
      rw [← ht, System.load_on_self]
      exact hgood.eq_pos hcursor hp'
    · rw [System.load_on_of_ne (Ne.symm ht) (h.page_ne (Ne.symm ht))]
      exact h.cursor p ((if_neg ht).symm.trans hp)
  · show (s.oob || (f (s.load t)).oob) = false
    rw [h.inside, hgood.inside]
    rfl

/-- A cursor on the screen is not moved by `setpos`. -/
theorem Console.Good.showCursor_eq {p : ℤ} {c : Console} (h : Good p c) :
    c.showCursor = { c with shown := some c.pos } := by
  have hx : clamp numCols c.curX = c.curX := by
    rw [clamp, if_neg (Int.not_lt.mpr h.x_nonneg), if_neg (Int.not_le.mpr h.x_lt)]
  have hy : clamp numRows c.curY = c.curY := by
    rw [clamp, if_neg (Int.not_lt.mpr h.y_nonneg), if_neg (Int.not_le.mpr h.y_lt)]
  rw [showCursor, setpos, hx, hy]
  rfl

/-- The pointers after a switch. -/
theorem Sep.videoMem_switch (h : Sep s d v) {ind : Fin termNum} (hind : ind ≠ s.curTermInd)
    (t : Fin termNum) : ((s.saveTerm s.curTermInd).putOn ind).videoMem t = pageOf ind t := by
  show Function.update (Function.update s.videoMem s.curTermInd _) ind PagePtr.vga t = _
  by_cases ht : t = ind
  · subst ht
    rw [Function.update_self, pageOf, if_pos rfl]
  · rw [Function.update_of_ne ht, pageOf, if_neg ht]
    by_cases hold : t = s.curTermInd
    · subst hold
      rw [Function.update_self]
    · rw [Function.update_of_ne hold, h.routed, pageOf, if_neg hold]

/-- What `setpos` finds in the middle of a switch, with the old screen still on the chip. -/
def System.entering (s : System) (d ind : Fin termNum) : Console :=
  System.load { s.saveTerm d with
    curTermInd := ind
    curTerm := some ind
    videoMem := Function.update (s.saveTerm d).videoMem ind .vga } ind

theorem Sep.good_entering (h : Sep s d v) (ind : Fin termNum) :
    Good (s.load ind).pos (s.entering s.curTermInd ind) :=
  (h.good ind).of_gauges rfl

/-- The records after a switch. -/
theorem Sep.data_switch (h : Sep s d v) (ind : Fin termNum) :
    ((s.saveTerm s.curTermInd).putOn ind).data = s.data := by
  show Function.update s.data ind ((s.entering s.curTermInd ind).showCursor).toData = s.data
  rw [(h.good_entering ind).showCursor_eq]
  exact Function.update_eq_self ind s.data

/-- The register after a switch. -/
theorem Sep.vgaCursor_switch (h : Sep s d v) (ind : Fin termNum) :
    ((s.saveTerm s.curTermInd).putOn ind).vgaCursor = some (s.load ind).pos := by
  show (if ind = ind then ((s.entering s.curTermInd ind).showCursor).shown.or _ else _) = _
  rw [if_pos rfl, (h.good_entering ind).showCursor_eq]
  rfl

/-- The pages after a switch: the old terminal is on its backing page, the new one on the chip. -/
theorem System.pages_putOn (s : System) (ind : Fin termNum) :
    (s.putOn ind).pages = Function.update s.pages .vga (s.pages (videoBuffer ind)) := by
  rw [putOn, on, store]
  dsimp only
  rw [Function.update_self, Function.update_idem, Function.update_of_ne PagePtr.noConfusion]

/-- Each terminal finds its screen on its page. -/
theorem Sep.pages_switch (h : Sep s d v) {ind : Fin termNum} (hind : ind ≠ s.curTermInd)
    (t : Fin termNum) :
    ((s.saveTerm s.curTermInd).putOn ind).pages (pageOf ind t) = s.pages (s.videoMem t) := by
  have hback : ∀ u, u ≠ s.curTermInd →
      (s.saveTerm s.curTermInd).pages (videoBuffer u) = s.pages (s.videoMem u) := by
    intro u hu
    rw [h.routed, pageOf, if_neg hu]
    exact Function.update_of_ne (fun heq => hu (PagePtr.back.inj heq)) _ _
  rw [System.pages_putOn, pageOf]
  split_ifs with ht
  · subst ht
    rw [Function.update_self, hback t hind]
  · rw [Function.update_of_ne PagePtr.noConfusion]
    by_cases hold : t = s.curTermInd
    · rw [hold, h.routed, pageOf, if_pos rfl]
      exact Function.update_self _ _ _
    · exact hback t hold

/-- **A switch changes no terminal.** -/
theorem Sep.switchTerm (h : Sep s d v) (hcur : s.curTerm = some s.curTermInd)
    (ind : Fin termNum) : Sep (s.switchTerm ind) ind v := by
  rw [System.switchTerm]
  by_cases hind : ind = s.curTermInd
  · rw [if_pos hind]
    exact { h with displayed := hind.symm }
  · rw [if_neg hind, hcur]
    have hload : ∀ t, ((s.saveTerm s.curTermInd).putOn ind).load t = s.load t := by
      intro t
      rw [System.load, System.load, h.data_switch, h.videoMem_switch hind, h.pages_switch hind]
    refine ⟨rfl, h.videoMem_switch hind, ?_, ?_, ?_, ?_⟩
    · intro t
      exact (hload t).trans (h.views t)
    · intro t
      rw [hload]
      exact h.good t
    · intro p hp
      rw [hload]
      exact (Option.some.inj ((h.vgaCursor_switch ind).symm.trans hp)).symm
    · show (s.oob || ((s.entering s.curTermInd ind).showCursor).oob) = false
      rw [h.inside, (h.good_entering ind).showCursor_eq, (h.good_entering ind).inside]
      rfl

/-- What the end of a read leaves. -/
theorem Console.Good.readEnd {p : ℤ} {c : Console} (h : Good p c) (canon : Bool) (nbytes : ℕ) :
    Good p (System.readEnd canon nbytes c) := by
  rw [System.readEnd]
  split
  · exact h
  · rename_i bytes c' hread
    cases canon with
    | true => exact h.readCanon hread
    | false => exact h.readLine hread

/-- Fields that no terminal has. -/
theorem Sep.congr {s' : System} (h : Sep s d v) (hdata : s'.data = s.data)
    (hvideo : s'.videoMem = s.videoMem) (hpages : s'.pages = s.pages)
    (hind : s'.curTermInd = s.curTermInd) (hvga : s'.vgaCursor = s.vgaCursor)
    (hoob : s'.oob = s.oob) : Sep s' d v := by
  have hload : ∀ t, s'.load t = s.load t := by
    intro t
    rw [System.load, System.load, hdata, hvideo, hpages]
  refine ⟨hind.trans h.displayed, ?_, ?_, ?_, ?_, hoob.trans h.inside⟩
  · intro t
    rw [hvideo, hind]
    exact h.routed t
  · intro t
    exact (hload t).trans (h.views t)
  · intro t
    rw [hload]
    exact h.good t
  · intro p hp
    rw [hind, hload]
    exact h.cursor p (hvga.symm.trans hp)

/-- A key: it switches terminals, or it goes to the terminal on display. -/
theorem Sep.termKeyHandler (h : Sep s d v) (k : Key) :
    Sep (s.termKeyHandler k) (router.next d (.key k)) (router.deliver Op.act d v (.key k)) := by
  have hcur : Sep { s with curTerm := some s.curTermInd } d v := h.congr rfl rfl rfl rfl rfl rfl
  obtain rfl := h.displayed
  rw [System.termKeyHandler, Router.deliver]
  show Sep _ ((System.switchKey k).getD s.curTermInd) _
  cases hk : System.switchKey k with
  | some ind =>
    simp only [router, hk]
    exact hcur.switchTerm rfl ind
  | none =>
    simp only [router, hk]
    have hon := hcur.on s.curTermInd (fun p c hc => hc.handleKey k)
    -- the signal of C-c is in the PCB of a process
    split
    · exact hon.congr rfl rfl rfl rfl rfl rfl
    · exact hon

/-- The only condition on a history: `switch_term` is called as `term_key_handler` calls it, with
`cur_term` pointing to the terminal on display. -/
def Promised (s : System) : Op → Prop
  | .switchTerm _ => s.curTerm = some s.curTermInd
  | _ => True

/-- **One operation**, on the terminals of the kernel and on terminals that are alone. -/
theorem Sep.step (h : Sep s d v) {o : Op} (ho : Promised s o) :
    Sep (Term.step s o) (router.next d o) (router.deliver Op.act d v o) := by
  cases o with
  | write t bytes =>
    have hcur : Sep { s with curTerm := some t } d v := h.congr rfl rfl rfl rfl rfl rfl
    exact hcur.on t fun p c hc => hc.termWrite bytes
  | readStart t => exact h.on t fun p c hc => hc.readStart
  | readEnd t canon nbytes => exact h.on t fun p c hc => hc.readEnd canon nbytes
  | key k => exact h.termKeyHandler k
  | switchTerm ind => exact h.switchTerm ho ind

end Step

/-! ## From `init_term` on -/

theorem screen_storeVid (c : Console) {i : ℕ} (hi : i < vidMemSize) (b : BitVec 8) :
    c.storeVid i b = { c with screen := Function.update c.screen ⟨i, hi⟩ b } := by
  rw [storeVid, dif_pos hi]

/-- `clear` after `n` rounds of its loop. -/
theorem clear_rounds (c : Console) {n : ℕ} (hn : n ≤ 25 * 80) :
    (List.range n).foldl
        (fun c i => (c.storeVid (2 * i) (ch ' ')).storeVid (2 * i + 1) c.attr) c =
      { c with screen := fun i =>
          if i.val < 2 * n then if i.val % 2 = 0 then ch ' ' else c.attr else c.screen i } := by
  induction n with
  | zero => simp
  | succ n ih =>
    have hodd : 2 * n + 1 < vidMemSize := by rw [vidMemSize]; omega
    rw [List.range_succ, List.foldl_append, ih (by omega), List.foldl_cons, List.foldl_nil,
      screen_storeVid _ (Nat.lt_of_succ_lt hodd), screen_storeVid _ hodd]
    congr 1
    ext i : 1
    simp only [Function.update_apply, Fin.ext_iff]
    by_cases heven : i.val = 2 * n
    · simp [heven]
    · by_cases hlast : i.val = 2 * n + 1
      · have hlt : 2 * n + 1 < 2 * (n + 1) := by omega
        simp [hlast, hlt, Nat.add_mod]
      · have hlt : i.val < 2 * (n + 1) ↔ i.val < 2 * n := by omega
        simp only [heven, hlast, hlt, if_false]

/-- **`clear` leaves blanks, whatever was on the screen.** -/
theorem clear_eq (c : Console) :
    c.clear = { c with screen := fun i => if i.val % 2 = 0 then ch ' ' else c.attr } := by
  rw [clear, clear_rounds c (Nat.le_refl _)]
  congr 1
  ext i : 1
  exact if_pos i.isLt

theorem sep_unclearedTerms (pages : PagePtr → Screen) (signals : ℕ → BitVec 8) :
    Sep (System.unclearedTerms pages signals) 0
      (System.unclearedTerms pages signals).load where
  displayed := rfl
  routed := fun _ => rfl
  views := fun _ => rfl
  good := fun _ =>
    { curpos_le := Nat.le_refl 0
      count_le := Nat.zero_le _
      bufLen_le := Nat.zero_le _
      argLen_le := Nat.zero_le _
      inside := rfl
      x_nonneg := Int.le_refl 0
      x_lt := (by decide : (0 : ℤ) < numCols)
      y_nonneg := Int.le_refl 0
      y_lt := (by decide : (0 : ℤ) < numRows)
      shown_eq := rfl }
  cursor := by
    intro p hp
    cases hp
  inside := rfl

theorem clear_keeps (p : ℤ) (c : Console) (h : Good p c) : Good p c.clear :=
  h.of_gauges (gauges_clear c)

/-- **The terminals are blank after `init_term`.** -/
theorem sep_initTerm (pages : PagePtr → Screen) (signals : ℕ → BitVec 8) :
    Sep (System.initTerm pages signals) 0 (fun _ => blank) := by
  have hblank : ∀ t, ((System.unclearedTerms pages signals).load t).clear.fresh = blank := by
    intro t
    rw [clear_eq]
    rfl
  have hclear := (((sep_unclearedTerms pages signals).on 0 clear_keeps).on 1 clear_keeps).on 2
    clear_keeps
  have hviews : Function.update (Function.update (Function.update
      (System.unclearedTerms pages signals).load 0 blank) 1 blank) 2 blank = fun _ => blank := by
    ext t : 1
    match t with
    | 0 => rfl
    | 1 => rfl
    | 2 => rfl
  rw [hblank, Function.update_of_ne (by decide), hblank, Function.update_of_ne (by decide),
    Function.update_of_ne (by decide), hblank, hviews] at hclear
  exact hclear

/-- **Terminal separation.**  After every history from `init_term` on in which `switch_term` is
called as its caller calls it:

* each terminal, with its screen, its cursor and its attribute, is what the operations addressed to
  it make of a blank terminal, without the others and without any switch;
* exactly the terminal on display is drawn on the memory of the chip, and every other one on its own
  backing page;
* the cursor register, once written, holds the position of the cursor of the terminal on display;
* no store has gone outside the pages or the arrays of the terminals. -/
theorem terminals_separated (pages : PagePtr → Screen) (signals : ℕ → BitVec 8) (ops : List Op)
    (h : Runs.Meets step Promised (System.initTerm pages signals) ops) :
    let s := Runs.run step (System.initTerm pages signals) ops
    (∀ t, s.load t = alone t ops) ∧
      (∀ t, s.videoMem t = if t = s.curTermInd then .vga else videoBuffer t) ∧
      (∀ p, s.vgaCursor = some p →
        p = (s.data s.curTermInd).curX + 80 * (s.data s.curTermInd).curY) ∧
      s.oob = false := by
  have hsep := router.run_simulates Op.act (fun s x => Sep s x.1 x.2)
    (fun s x o hs ho => Sep.step hs ho) (0, fun _ => blank) (sep_initTerm pages signals) h
  refine ⟨fun t => ?_, hsep.routed, fun p hp => ?_, hsep.inside⟩
  · rw [hsep.views, Router.run_act]
    rfl
  · rw [hsep.cursor p hp, Int.mul_comm]
    rfl

/-- Terminal 1 is written to while it is hidden, put on display with Alt-F2, and taken off again by a
further call of `switch_term`: it then holds what the write alone makes of it. -/
theorem terminals_separated_hidden_write :
    let ops : List Op := [.write 1 [ch 'A'], .key ⟨modAlt, 0x8B⟩, .switchTerm 0]
    let s := Runs.run step (System.initTerm (fun _ _ => 0) fun _ => 0) ops
    s.load 1 = (blank.termWrite [ch 'A']).fresh ∧ s.load 0 = blank ∧
      s.videoMem 1 = .back 1 ∧ s.videoMem 0 = .vga := by
  intro ops s
  have h : Runs.Meets step Promised (System.initTerm (fun _ _ => 0) fun _ => 0) ops :=
    ⟨trivial, trivial, rfl, trivial⟩
  obtain ⟨hload, hvideo, -, -⟩ := terminals_separated (fun _ _ => 0) (fun _ => 0) ops h
  have hcur : s.curTermInd = 0 := rfl
  refine ⟨hload 1, hload 0, ?_, ?_⟩
  · exact (hvideo 1).trans (if_neg (by rw [hcur]; decide))
  · exact (hvideo 0).trans (if_pos hcur.symm)

end Term
end CoreOS
