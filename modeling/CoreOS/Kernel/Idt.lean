import CoreOS.Kernel.Linkage
import CoreOS.Lib.BitField
import Mathlib.Data.List.FinRange
import Mathlib.Tactic.SplitIfs

/-!
# The interrupt descriptor table

`idt_init` goes over the table once, with the members that all gates have in common, and then sets the
addresses of the handlers one by one; the drivers of the clock, the keyboard and the timer add one gate
each.  What all of this amounts to is for the processor to say: `enter` is what it does with a vector.

A gate is a word of 64 bits, and the structure `idt_desc_t` is a layout of it.
-/

namespace CoreOS
namespace Idt

open BitField Linkage

/-- `idt_desc_t`. -/
abbrev Gate : Type := BitVec 64

/-- `idt`. -/
abbrev Table : Type := Fin 256 → Gate

/-! ## The layout -/

/-- `offset_15_00` -/
def offsetLow : Member := ⟨0, 16⟩
/-- `seg_selector` -/
def segSelector : Member := ⟨16, 16⟩
/-- `reserved4` -/
def reserved4 : Member := ⟨32, 8⟩
/-- `reserved3` -/
def reserved3 : Member := ⟨40, 1⟩
/-- `reserved2` -/
def reserved2 : Member := ⟨41, 1⟩
/-- `reserved1` -/
def reserved1 : Member := ⟨42, 1⟩
/-- `size` -/
def size : Member := ⟨43, 1⟩
/-- `reserved0` -/
def reserved0 : Member := ⟨44, 1⟩
/-- `dpl` -/
def dpl : Member := ⟨45, 2⟩
/-- `present` -/
def present : Member := ⟨47, 1⟩
/-- `offset_31_16` -/
def offsetHigh : Member := ⟨48, 16⟩

/-- The members of a gate. -/
def layout : List Member :=
  [offsetLow, segSelector, reserved4, reserved3, reserved2, reserved1, size, reserved0, dpl, present,
    offsetHigh]

theorem isLayout_layout : IsLayout 64 layout := by
  decide

/-! ## `idt_init` and the drivers -/

/-- `SYSCALL_IDX` -/
def syscallIdx : Fin 256 := 0x80

/-- `KERNEL_CS` -/
def kernelCs : Gate := 0x10

/-- `SET_IDT_ENTRY`. -/
def setIdtEntry (handler : BitVec 32) : List (Member × Gate) :=
  [(offsetHigh, ((handler &&& 0xFFFF0000) >>> 16).setWidth 64),
    (offsetLow, (handler &&& 0xFFFF).setWidth 64)]

/-- A round of the loop of `idt_init`. -/
def initGate (addr : Isr → BitVec 32) (i : Fin 256) : List (Member × Gate) :=
  [(segSelector, kernelCs), (reserved3, 0), (reserved2, 1), (reserved1, 1), (size, 1), (reserved0, 0),
    (present, if i.val < 20 then 1 else 0)] ++
  (if i = syscallIdx then [(dpl, 3), (present, 1)] else [(dpl, 0)]) ++
  if 19 < i.val ∧ i.val < 32 then setIdtEntry (addr .db) else []

/-- The entries that `idt_init` sets behind its loop. -/
def entries : List (Fin 256 × Isr) :=
  [(0, .de), (1, .db), (2, .nmi), (3, .bp), (4, .of), (5, .br), (6, .ud), (7, .nm), (8, .df), (9, .cso),
    (10, .ts), (11, .np), (12, .ss), (13, .gp), (14, .pf), (15, .db), (16, .mf), (17, .ac), (18, .mc),
    (19, .xf), (syscallIdx, .syscall)]

/-- The entries that `init_rtc`, `init_kb` and `init_pit` set. -/
def drivers : List (Fin 256 × Isr) := [(0x28, .rtc), (0x21, .kb), (0x20, .pit)]

/-- Assignments to members of `idt[i]`. -/
def modify (t : Table) (i : Fin 256) (as : List (Member × Gate)) : Table :=
  Function.update t i (assign as (t i))

/-- `idt_init`. -/
def idtInit (addr : Isr → BitVec 32) (t : Table) : Table :=
  let t := (List.finRange 256).foldl (fun t i => modify t i (initGate addr i)) t
  entries.foldl (fun t e => modify t e.1 (setIdtEntry (addr e.2))) t

/-- The table when the drivers have added their gates. -/
def boot (addr : Isr → BitVec 32) (t : Table) : Table :=
  drivers.foldl (fun t e => modify t e.1 (setIdtEntry (addr e.2) ++ [(present, 1)])) (idtInit addr t)

/-! ## The processor -/

/-- The bits of the type of a gate for interrupts, of 32 bits. -/
def IsInterruptGate (g : Gate) : Prop :=
  reserved3.get g = 0 ∧ reserved2.get g = 1 ∧ reserved1.get g = 1 ∧ size.get g = 1 ∧
    reserved0.get g = 0

instance (g : Gate) : Decidable (IsInterruptGate g) := inferInstanceAs (Decidable (_ ∧ _))

/-- Where a vector leads, for an exception or an interrupt, or for `int` in a program of a level: the
selector and the address.  The gate has to be present, and a program has to be allowed to use it. -/
def enter (t : Table) (i : Fin 256) (program : Option ℕ) : Option (Gate × BitVec 32) :=
  let g := t i
  if present.get g = 1 ∧ IsInterruptGate g ∧ ∀ level ∈ program, level ≤ (dpl.get g).toNat then
    some (segSelector.get g, (offsetHigh.get g <<< 16 ||| offsetLow.get g).setWidth 32)
  else none

/-- The entry for a vector. -/
def isrOf (i : Fin 256) : Option Isr := ((entries ++ drivers).find? fun e => e.1 = i).map Prod.snd

/-! ## One gate -/

section gates

variable {α : Type*} {k : α → Fin 256} {f : α → List (Member × Gate)} {i : Fin 256}

/-- A gate that nothing is assigned to. -/
theorem foldl_modify_of_notMem {as : List α} (h : i ∉ as.map k) (t : Table) :
    as.foldl (fun t a => modify t (k a) (f a)) t i = t i := by
  induction as generalizing t with
  | nil => rfl
  | cons a as ih =>
    rw [List.map_cons, List.mem_cons, not_or] at h
    rw [List.foldl_cons, ih h.2]
    exact Function.update_of_ne h.1 _ _

/-- A gate that is assigned to once. -/
theorem foldl_modify_of_mem {as : List α} (hnodup : (as.map k).Nodup) {a : α} (ha : a ∈ as)
    (t : Table) : as.foldl (fun t a => modify t (k a) (f a)) t (k a) = assign (f a) (t (k a)) := by
  induction as generalizing t with
  | nil => exact absurd ha List.not_mem_nil
  | cons b as ih =>
    rw [List.map_cons, List.nodup_cons] at hnodup
    rw [List.foldl_cons]
    rcases List.mem_cons.mp ha with rfl | hmem
    · rw [foldl_modify_of_notMem hnodup.1]
      exact Function.update_self ..
    · rw [ih hnodup.2 hmem]
      have hne : k a ≠ k b := fun h => hnodup.1 (h ▸ List.mem_map_of_mem hmem)
      exact congrArg (assign (f a)) (Function.update_of_ne hne _ _)

end gates

/-! ## Members of gates -/

theorem setWidth_offset (h : BitVec 32) :
    ((((h &&& 0xFFFF0000) >>> 16).setWidth 64 <<< 16 ||| (h &&& 0xFFFF).setWidth 64 : Gate)).setWidth 32 =
      h := by
  have hhigh : ∀ i < 32, (0xFFFF0000 : BitVec 32).getLsbD i = decide (16 ≤ i) := by decide
  have hlow : ∀ i < 32, (0xFFFF : BitVec 32).getLsbD i = decide (i < 16) := by decide
  refine BitVec.eq_of_getLsbD_eq fun i hi => ?_
  simp only [BitVec.getLsbD_setWidth, BitVec.getLsbD_or, BitVec.getLsbD_shiftLeft,
    BitVec.getLsbD_ushiftRight, BitVec.getLsbD_and]
  rw [hlow i hi]
  by_cases h16 : i < 16
  · simp [hi, h16, show i < 64 by omega]
  · have hsum : 16 + (i - 16) = i := by omega
    rw [hsum, hhigh i hi]
    simp [hi, h16, show i < 64 by omega, show i - 16 < 64 by omega, show 16 ≤ i by omega]

theorem fits_setIdtEntry (h : BitVec 32) : Fits layout (setIdtEntry h) := by
  have hhigh : (((h &&& 0xFFFF0000) >>> 16).setWidth 64 : Gate).toNat < 2 ^ 16 := by
    have hlt := (h &&& 0xFFFF0000).isLt
    rw [BitVec.toNat_setWidth, BitVec.toNat_ushiftRight, Nat.shiftRight_eq_div_pow]
    omega
  have hlow : ((h &&& 0xFFFF).setWidth 64 : Gate).toNat < 2 ^ 16 := by
    have hle : (h &&& 0xFFFF).toNat ≤ 0xFFFF := Nat.and_le_right
    rw [BitVec.toNat_setWidth]
    omega
  intro a ha
  rcases List.mem_cons.mp ha with rfl | ha
  · exact ⟨(by decide : offsetHigh ∈ layout), hhigh⟩
  · rw [List.mem_singleton.mp ha]
    exact ⟨(by decide : offsetLow ∈ layout), hlow⟩

theorem fits_initGate (addr : Isr → BitVec 32) (i : Fin 256) : Fits layout (initGate addr i) := by
  have hcommon : ∀ p : Gate, p = 0 ∨ p = 1 → Fits layout [(segSelector, kernelCs), (reserved3, 0),
      (reserved2, 1), (reserved1, 1), (size, 1), (reserved0, 0), (present, p)] := by
    rintro p (rfl | rfl)
    · decide
    · decide
  have hdpl : Fits layout [(dpl, (3 : Gate)), (present, 1)] ∧ Fits layout [(dpl, (0 : Gate))] := by
    decide
  intro a ha
  rcases List.mem_append.mp ha with ha | ha
  · rcases List.mem_append.mp ha with ha | ha
    · refine hcommon _ ?_ a ha
      split
      · exact Or.inr rfl
      · exact Or.inl rfl
    · split at ha
      · exact hdpl.1 a ha
      · exact hdpl.2 a ha
  · split at ha
    · exact fits_setIdtEntry _ a ha
    · exact absurd ha List.not_mem_nil

theorem lastOf_append (f : Member) (as bs : List (Member × Gate)) (v : Gate) :
    lastOf f (as ++ bs) v = lastOf f bs (lastOf f as v) :=
  List.foldl_append

section last

variable (addr : Isr → BitVec 32) (i : Fin 256) (v : Gate)

/-- What the loop assigns to the members that all gates have in common. -/
theorem lastOf_initGate : lastOf segSelector (initGate addr i) v = kernelCs ∧
    lastOf reserved3 (initGate addr i) v = 0 ∧ lastOf reserved2 (initGate addr i) v = 1 ∧
    lastOf reserved1 (initGate addr i) v = 1 ∧ lastOf size (initGate addr i) v = 1 ∧
    lastOf reserved0 (initGate addr i) v = 0 := by
  unfold initGate
  split_ifs
  all_goals exact ⟨rfl, rfl, rfl, rfl, rfl, rfl⟩

theorem lastOf_dpl_initGate :
    lastOf dpl (initGate addr i) v = if i = syscallIdx then 3 else 0 := by
  unfold initGate
  split_ifs
  all_goals rfl

theorem lastOf_present_initGate :
    lastOf present (initGate addr i) v = if i.val < 20 ∨ i = syscallIdx then 1 else 0 := by
  unfold initGate
  by_cases hlow : i.val < 20
  · rw [if_pos hlow, if_pos (Or.inl hlow)]
    split_ifs
    all_goals rfl
  · rw [if_neg hlow]
    by_cases hcall : i = syscallIdx
    · rw [if_pos (Or.inr hcall), if_pos hcall]
      split_ifs
      all_goals rfl
    · rw [if_neg (not_or.mpr ⟨hlow, hcall⟩), if_neg hcall]
      split_ifs
      all_goals rfl

end last

/-! ## The table -/

section table

variable (addr : Isr → BitVec 32) (t : Table) {i : Fin 256} {isr : Isr}

theorem assign_append (as bs : List (Member × Gate)) (g : Gate) :
    assign (as ++ bs) g = assign bs (assign as g) :=
  List.foldl_append

/-- A gate after `idt_init`. -/
theorem idtInit_of_mem (h : (i, isr) ∈ entries) :
    idtInit addr t i = assign (initGate addr i ++ setIdtEntry (addr isr)) (t i) := by
  have hset := foldl_modify_of_mem (k := Prod.fst) (f := fun e => setIdtEntry (addr e.2))
    (by decide : (entries.map Prod.fst).Nodup) h
    ((List.finRange 256).foldl (fun t i => modify t i (initGate addr i)) t)
  have hloop := foldl_modify_of_mem (k := fun i => i) (f := initGate addr)
    ((List.map_id' _).symm ▸ List.nodup_finRange 256) (List.mem_finRange i) t
  rw [assign_append, ← hloop]
  exact hset

theorem idtInit_of_notMem (h : i ∉ entries.map Prod.fst) :
    idtInit addr t i = assign (initGate addr i) (t i) := by
  have hset := foldl_modify_of_notMem (f := fun e => setIdtEntry (addr e.2)) h
    ((List.finRange 256).foldl (fun t i => modify t i (initGate addr i)) t)
  have hloop := foldl_modify_of_mem (k := fun i => i) (f := initGate addr)
    ((List.map_id' _).symm ▸ List.nodup_finRange 256) (List.mem_finRange i) t
  exact hset.trans hloop

/-- A gate after `init_pit`. -/
theorem boot_of_mem (h : (i, isr) ∈ drivers) : boot addr t i =
    assign (initGate addr i ++ (setIdtEntry (addr isr) ++ [(present, 1)])) (t i) := by
  have hset := foldl_modify_of_mem (k := Prod.fst)
    (f := fun e : Fin 256 × Isr => setIdtEntry (addr e.2) ++ [(present, 1)])
    (by decide : (drivers.map Prod.fst).Nodup) h (idtInit addr t)
  have hnew : ∀ e ∈ drivers, e.1 ∉ entries.map Prod.fst := by
    decide
  rw [assign_append, ← idtInit_of_notMem addr t (hnew _ h)]
  exact hset

theorem boot_of_notMem (h : i ∉ drivers.map Prod.fst) : boot addr t i = idtInit addr t i :=
  foldl_modify_of_notMem h _

variable {addr t}

/-- **A gate with a handler**, which the loop or the driver has made present. -/
theorem enter_of_assign {t' : Table} {h : BitVec 32} {rest : List (Member × Gate)} {x : Gate}
    (hrest : (rest = [] ∧ (i.val < 20 ∨ i = syscallIdx)) ∨ rest = [(present, 1)])
    (hg : t' i = assign (initGate addr i ++ (setIdtEntry h ++ rest)) x) (program : Option ℕ) :
    enter t' i program = if ∀ level ∈ program, level ≤ if i = syscallIdx then 3 else 0 then
      some (kernelCs, h) else none := by
  have hfits : Fits layout (initGate addr i ++ (setIdtEntry h ++ rest)) := by
    intro a ha
    rcases List.mem_append.mp ha with ha | ha
    · exact fits_initGate addr i a ha
    · rcases List.mem_append.mp ha with ha | ha
      · exact fits_setIdtEntry h a ha
      · rcases hrest with ⟨rfl, -⟩ | rfl
        · exact absurd ha List.not_mem_nil
        · rw [List.mem_singleton.mp ha]
          decide
  have hget : ∀ f ∈ layout, f.get (t' i) =
      lastOf f rest (lastOf f (setIdtEntry h) (lastOf f (initGate addr i) (f.get x))) := by
    intro f hf
    rw [hg, get_assign isLayout_layout hfits hf, lastOf_append, lastOf_append]
  -- the members that `SET_IDT_ENTRY` and the driver leave alone
  have hplain : ∀ f ∈ [segSelector, reserved3, reserved2, reserved1, size, reserved0, dpl],
      f ∈ layout ∧ f ≠ offsetHigh ∧ f ≠ offsetLow ∧ f ≠ present := by
    decide
  have hkeep : ∀ f ∈ [segSelector, reserved3, reserved2, reserved1, size, reserved0, dpl],
      f.get (t' i) = lastOf f (initGate addr i) (f.get x) := by
    intro f hf
    obtain ⟨hlayout, hhigh, hlow, hpresent⟩ := hplain f hf
    have hset : ∀ v, lastOf f (setIdtEntry h) v = v := fun v => by
      simp [lastOf, setIdtEntry, hhigh.symm, hlow.symm]
    rw [hget f hlayout, hset]
    rcases hrest with ⟨rfl, -⟩ | rfl
    · rfl
    · exact if_neg hpresent.symm
  simp only [List.forall_mem_cons, List.not_mem_nil, false_imp_iff, implies_true, and_true] at hkeep
  obtain ⟨hseg, h3, h2, h1, hsize, h0, hlevel⟩ := hkeep
  rw [(lastOf_initGate addr i _).1] at hseg
  rw [(lastOf_initGate addr i _).2.1] at h3
  rw [(lastOf_initGate addr i _).2.2.1] at h2
  rw [(lastOf_initGate addr i _).2.2.2.1] at h1
  rw [(lastOf_initGate addr i _).2.2.2.2.1] at hsize
  rw [(lastOf_initGate addr i _).2.2.2.2.2] at h0
  rw [lastOf_dpl_initGate] at hlevel
  have hpresent : present.get (t' i) = 1 := by
    rw [hget present (by decide)]
    rcases hrest with ⟨rfl, hi⟩ | rfl
    · exact (lastOf_present_initGate addr i _).trans (if_pos hi)
    · rfl
  have hoffset : (offsetHigh.get (t' i) <<< 16 ||| offsetLow.get (t' i)).setWidth 32 = h := by
    rw [hget offsetHigh (by decide), hget offsetLow (by decide)]
    rcases hrest with ⟨rfl, -⟩ | rfl
    · exact setWidth_offset h
    · exact setWidth_offset h
  have hdpl : (dpl.get (t' i)).toNat = if i = syscallIdx then 3 else 0 := by
    rw [hlevel]
    split
    · rfl
    · rfl
  rw [enter, hseg, hoffset, hdpl]
  exact if_congr ⟨fun hall => hall.2.2, fun hall => ⟨hpresent, ⟨h3, h2, h1, hsize, h0⟩, hall⟩⟩ rfl rfl

/-- **The table after the boot**: a vector with an entry leads to it, with the selector of the kernel; a
program that is not in the kernel gets there at `SYSCALL_IDX` only, and no other vector leads anywhere. -/
theorem enter_boot (addr : Isr → BitVec 32) (t : Table) (i : Fin 256) (program : Option ℕ) :
    enter (boot addr t) i program = (isrOf i).bind fun isr =>
      if ∀ level ∈ program, level ≤ if i = syscallIdx then 3 else 0 then some (kernelCs, addr isr)
      else none := by
  cases hisr : isrOf i with
  | none =>
    have hfind := List.find?_eq_none.mp (Option.map_eq_none_iff.mp hisr)
    have hnone : ∀ es : List (Fin 256 × Isr), es ⊆ entries ++ drivers → i ∉ es.map Prod.fst := by
      intro es hsub hi
      obtain ⟨e, he, rfl⟩ := List.mem_map.mp hi
      exact hfind e (hsub he) (decide_eq_true rfl)
    have hentries := hnone entries (List.subset_append_left _ _)
    have hset : ∀ i : Fin 256, i.val < 20 ∨ i = syscallIdx → i ∈ entries.map Prod.fst := by
      decide +kernel
    have hpresent : present.get (boot addr t i) = 0 := by
      rw [boot_of_notMem addr t (hnone drivers (List.subset_append_right _ _)),
        idtInit_of_notMem addr t hentries,
        get_assign isLayout_layout (fits_initGate addr i) (by decide), lastOf_present_initGate,
        if_neg fun h => hentries (hset i h)]
    refine if_neg fun h => ?_
    rw [hpresent] at h
    exact absurd h.1 (by decide)
  | some isr =>
    obtain ⟨e, he, rfl⟩ := Option.map_eq_some_iff.mp hisr
    obtain rfl : e.1 = i := by simpa using List.find?_some he
    rcases List.mem_append.mp (List.mem_of_find?_eq_some he) with hmem | hmem
    · have hold : ∀ e ∈ entries, e.1 ∉ drivers.map Prod.fst ∧ (e.1.val < 20 ∨ e.1 = syscallIdx) := by
        decide
      have hgate : boot addr t e.1 =
          assign (initGate addr e.1 ++ (setIdtEntry (addr e.2) ++ [])) (t e.1) := by
        rw [boot_of_notMem addr t (hold e hmem).1, idtInit_of_mem addr t hmem, List.append_nil]
      exact enter_of_assign (Or.inl ⟨rfl, (hold e hmem).2⟩) hgate program
    · exact enter_of_assign (Or.inr rfl) (boot_of_mem addr t hmem) program

end table

/-- What `exception_handler` is told is the vector up to 14.  Vector 15 has the entry of vector 1, and from
16 on the entries push the vector and not the number behind it, so that it is told one less. -/
example : ∀ e ∈ entries, e.1.val < 20 → (e.2.pushes.2 - 1 = e.1.val ↔ e.1.val < 15) := by decide

end Idt
end CoreOS
