import CoreOS.Kb.Events
import Mathlib.Data.List.Forall2

/-!
# What Caps Lock changes

Two runs of the driver on the same scan codes, one with Caps Lock off and one with Caps Lock on.
Caps Lock is meant for letters: with it on, the letters come in the other case and everything else
is the same.

`kb_isr` tests `caps` first, and that branch ends the search.  It takes the letters in upper case
when Shift is not held, and otherwise the plain table.  So a letter with Shift comes out right, but
a symbol with Shift comes out as if Shift were not held, and Ctrl and Alt are not looked at.
`capsLock_iff` says which presses are affected; the tables agree on a few keys, such as Tab, where
it makes no difference.
-/

namespace CoreOS
namespace Kb

open Runs

/-! ## Two runs -/

/-- The events of a run, in order. -/
def keysOf (s : State) : List Scan → List KeyT
  | [] => []
  | x :: w => events s x ++ keysOf (next s x) w

/-- The state with Caps Lock on or off. -/
def State.withCaps (s : State) (caps : Bool) : State := { s with caps := caps }

/-- A scan code, and what the local variable holds in each of the two runs. -/
structure Twice where
  data : BitVec 8
  key₀ : KeyT
  key₁ : KeyT

/-- The interrupt in the run with Caps Lock off. -/
def Twice.off (x : Twice) : Scan := ⟨1, x.data, x.key₀⟩

/-- The interrupt in the run with Caps Lock on. -/
def Twice.on (x : Twice) : Scan := ⟨1, x.data, x.key₁⟩

/-- An event that is a letter. -/
def isLetter (k : KeyT) : Bool := decide (k.t = keyPrint) && isalpha k.key

/-- A letter in the other case. -/
def swapCase (c : BitVec 8) : BitVec 8 := if ch 'a' ≤ c then c - 0x20 else c + 0x20

/-- **Letters in the other case, everything else the same.** -/
def Agree (k₀ k₁ : KeyT) : Prop :=
  k₁ = if isLetter k₀ then { k₀ with key := swapCase k₀.key } else k₀

instance (k₀ k₁ : KeyT) : Decidable (Agree k₀ k₁) := inferInstanceAs (Decidable (_ = _))

/-- The key is a letter. -/
def letterKey (keycode : BitVec 8) : Prop :=
  ch 'a' ≤ (entry keyboardMap keycode).key ∧ (entry keyboardMap keycode).key ≤ ch 'z'

instance (keycode : BitVec 8) : Decidable (letterKey keycode) :=
  inferInstanceAs (Decidable (_ ∧ _))

/-- The presses on which Caps Lock has the effect it should have: with Shift a letter, or a key that
is the same with Shift; with Ctrl or Alt alone a key that is the same without; and any key without
modifiers.  F11 and F12 hand on the local variable, which has to agree in the two runs. -/
def CapsOk (s : State) (x : Twice) : Prop :=
  s.scanState = 0 → pressed x.data = true →
    match kind x.data with
    | .print =>
      if s.shift then letterKey x.data ∨ entry shiftMap x.data = entry keyboardMap x.data
      else if s.ctrl then entry ctrlMap x.data = entry keyboardMap x.data
      else if s.alt then entry altMap x.data = entry keyboardMap x.data
      else True
    | .lateFunction _ => Agree (s.addMods x.key₀) (s.addMods x.key₁)
    | _ => True

/-! ## The tables -/

/-- What the branch of `caps` finds without Shift. -/
def capsEntry (keycode : BitVec 8) : KeyT :=
  if letterKey keycode then entry shiftMap keycode else entry keyboardMap keycode

/-- A key past the end of a table. -/
theorem entry_of_le (map : List KeyT) {keycode : BitVec 8} (h : map.length ≤ keycode.toNat) :
    entry map keycode = keyR 0 := by
  rw [entry, List.getD_eq_getElem?_getD, List.getElem?_eq_none h, Option.getD_none]

theorem not_letterKey_of_le {keycode : BitVec 8} (h : 58 ≤ keycode.toNat) : ¬ letterKey keycode := by
  unfold letterKey
  rw [entry_of_le keyboardMap h]
  decide

theorem capsEntry_of_le {keycode : BitVec 8} (h : 58 ≤ keycode.toNat) :
    capsEntry keycode = keyR 0 := by
  rw [capsEntry, if_neg (not_letterKey_of_le h), entry_of_le keyboardMap h]

/-- What holds of the keys of the tables and of all keys past their end holds of every key. -/
theorem forall_keycode {P : BitVec 8 → Prop} (hin : ∀ i < 58, P (BitVec.ofNat 8 i))
    (hout : ∀ keycode : BitVec 8, 58 ≤ keycode.toNat → P keycode) (keycode : BitVec 8) :
    P keycode := by
  by_cases h : keycode.toNat < 58
  · have hkey := hin keycode.toNat h
    rwa [BitVec.ofNat_toNat, BitVec.setWidth_eq] at hkey
  · exact hout keycode (Nat.le_of_not_lt h)

theorem agree_plain : ∀ keycode, Agree (entry keyboardMap keycode) (capsEntry keycode) := by
  refine forall_keycode (by decide +kernel) fun keycode h => ?_
  rw [capsEntry_of_le h, entry_of_le keyboardMap h]
  decide

theorem agree_shift_iff : ∀ keycode, Agree (entry shiftMap keycode) (entry keyboardMap keycode) ↔
    letterKey keycode ∨ entry shiftMap keycode = entry keyboardMap keycode := by
  refine forall_keycode (by decide +kernel) fun keycode h => ?_
  rw [entry_of_le keyboardMap h, entry_of_le shiftMap h]
  exact iff_of_true (by decide) (Or.inr rfl)

theorem agree_ctrl_iff : ∀ keycode, Agree (entry ctrlMap keycode) (capsEntry keycode) ↔
    entry ctrlMap keycode = entry keyboardMap keycode := by
  refine forall_keycode (by decide +kernel) fun keycode h => ?_
  rw [capsEntry_of_le h, entry_of_le keyboardMap h, entry_of_le ctrlMap h]
  decide

theorem agree_alt_iff : ∀ keycode, Agree (entry altMap keycode) (capsEntry keycode) ↔
    entry altMap keycode = entry keyboardMap keycode := by
  refine forall_keycode (by decide +kernel) fun keycode h => ?_
  rw [capsEntry_of_le h, entry_of_le keyboardMap h, entry_of_le altMap h]
  decide

/-- **A key that has a character**, in the two runs. -/
theorem agree_printKey_iff (s : State) (keycode : BitVec 8) :
    Agree ((s.withCaps false).printKey keycode) ((s.withCaps true).printKey keycode) ↔
      if s.shift then letterKey keycode ∨ entry shiftMap keycode = entry keyboardMap keycode
      else if s.ctrl then entry ctrlMap keycode = entry keyboardMap keycode
      else if s.alt then entry altMap keycode = entry keyboardMap keycode
      else True := by
  obtain ⟨shift, ctrl, alt, caps, scanState⟩ := s
  have hon : shift = false → (State.mk shift ctrl alt true scanState).printKey keycode =
      capsEntry keycode := by
    rintro rfl
    have hbranch : (State.mk false ctrl alt true scanState).printKey keycode =
        if (!false) = true ∧ ch 'a' ≤ (entry keyboardMap keycode).key ∧
            (entry keyboardMap keycode).key ≤ ch 'z' then entry shiftMap keycode
        else entry keyboardMap keycode := rfl
    rw [hbranch, capsEntry]
    by_cases hl : letterKey keycode
    · rw [if_pos hl, if_pos ⟨rfl, hl⟩]
    · rw [if_neg hl, if_neg fun h => hl h.2]
  cases shift with
  | true =>
    have hkey : (State.mk true ctrl alt true scanState).printKey keycode =
        entry keyboardMap keycode := by
      unfold State.printKey
      simp
    show Agree (entry shiftMap keycode) ((State.mk true ctrl alt true scanState).printKey keycode) ↔ _
    rw [hkey, agree_shift_iff, if_pos rfl]
  | false =>
    show Agree _ ((State.mk false ctrl alt true scanState).printKey keycode) ↔ _
    rw [hon rfl, if_neg Bool.false_ne_true]
    cases ctrl with
    | true =>
      rw [if_pos rfl]
      exact agree_ctrl_iff keycode
    | false =>
      rw [if_neg Bool.false_ne_true]
      cases alt with
      | true =>
        rw [if_pos rfl]
        exact agree_alt_iff keycode
      | false => exact iff_of_true (agree_plain keycode) (by simp)

/-! ## One interrupt -/

theorem agree_self {k : KeyT} (h : k.t = keyRaw) : Agree k k := by
  have hletter : isLetter k = false := by
    unfold isLetter
    rw [h]
    rfl
  unfold Agree
  rw [hletter]
  rfl

theorem kind_caps : ∀ keycode, kind keycode = .caps → keycode = 0x3A := by
  decide +kernel

/-- The branch `scan_state == 1` does not look at Caps Lock, and hands on no characters. -/
theorem extendedCode_withCaps (s : State) (caps pressed : Bool) (keycode : BitVec 8) :
    (s.withCaps caps).extendedCode pressed keycode =
        ((s.extendedCode pressed keycode).1.withCaps caps, (s.extendedCode pressed keycode).2) ∧
      ∀ k ∈ (s.extendedCode pressed keycode).2, k.t = keyRaw := by
  unfold State.extendedCode
  by_cases hctrl : keycode = 0x1D
  · simp only [if_pos hctrl]
    exact ⟨rfl, by simp⟩
  by_cases halt : keycode = 0x38
  · simp only [if_neg hctrl, if_pos halt]
    exact ⟨rfl, by simp⟩
  by_cases hleft : keycode = 0x4B
  · simp only [if_neg hctrl, if_neg halt, if_pos hleft]
    exact ⟨rfl, by cases pressed <;> simp [keyR]⟩
  by_cases hright : keycode = 0x4D
  · simp only [if_neg hctrl, if_neg halt, if_neg hleft, if_pos hright]
    exact ⟨rfl, by cases pressed <;> simp [keyR]⟩
  · simp only [if_neg hctrl, if_neg halt, if_neg hleft, if_neg hright]
    exact ⟨rfl, by simp⟩

/-- What the branch `scan_state == 0` hands on. -/
theorem events_plain {s : State} {data : BitVec 8} (hlead : data ≠ 0xE0) (hplain : s.scanState = 0)
    (key : KeyT) :
    events s ⟨1, data, key⟩ =
      if pressed data then
        match kind (data &&& 0x7F) with
        | .lateFunction f => [keyR f, s.addMods key]
        | .function f => [s.addMods (keyR f)]
        | .print => [s.printKey (data &&& 0x7F)]
        | _ => []
      else [] := by
  unfold events State.kbIsr
  rw [if_neg ready, if_neg hlead, if_pos hplain, plainCode_eq]
  cases pressed data <;> cases kind (data &&& 0x7F) <;> rfl

/-- **Both runs go to the same state**, but for Caps Lock. -/
theorem next_withCaps (s : State) (caps : Bool) {data : BitVec 8} (hdata : data ≠ 0x3A)
    (key key' : KeyT) :
    next (s.withCaps caps) ⟨1, data, key⟩ = (next s ⟨1, data, key'⟩).withCaps caps := by
  unfold next State.kbIsr
  rw [if_neg ready, if_neg ready]
  by_cases hlead : data = 0xE0
  · rw [if_pos hlead, if_pos hlead]
    rfl
  rw [if_neg hlead, if_neg hlead]
  by_cases hplain : s.scanState = 0
  · have hplain' : (s.withCaps caps).scanState = 0 := hplain
    rw [if_pos hplain, if_pos hplain', plainCode_eq, plainCode_eq]
    cases hk : kind (data &&& 0x7F) with
    | caps =>
      have hp : pressed data = false := by
        by_contra hp
        rw [Bool.not_eq_false] at hp
        rw [masked_of_pressed data hp] at hk
        exact hdata (kind_caps data hk)
      rw [hp]
      rfl
    | _ => rfl
  · have hext : (s.withCaps caps).scanState ≠ 0 := hplain
    rw [if_neg hplain, if_neg hext]
    dsimp only
    rw [(extendedCode_withCaps s caps _ _).1]

/-- **One interrupt in the two runs.**  Both hand on as many events, and these agree exactly under
the condition. -/
theorem agree_events_iff (s : State) (x : Twice) :
    (events (s.withCaps false) x.off).length = (events (s.withCaps true) x.on).length ∧
      (List.Forall₂ Agree (events (s.withCaps false) x.off) (events (s.withCaps true) x.on) ↔
        CapsOk s x) := by
  obtain ⟨data, key₀, key₁⟩ := x
  unfold Twice.off Twice.on CapsOk
  dsimp only
  by_cases hlead : data = 0xE0
  · have hnone : ∀ caps key, events (s.withCaps caps) ⟨1, data, key⟩ = [] := by
      intro caps key
      unfold events State.kbIsr
      rw [if_neg ready, if_pos hlead]
    have hbreak : pressed data = false := by
      rw [hlead]
      decide
    rw [hnone, hnone, hbreak]
    exact ⟨rfl, iff_of_true .nil fun _ h => Bool.noConfusion h⟩
  by_cases hplain : s.scanState = 0
  · have hplain' : ∀ caps, (s.withCaps caps).scanState = 0 := fun _ => hplain
    rw [events_plain hlead (hplain' _), events_plain hlead (hplain' _)]
    cases hp : pressed data with
    | false => exact ⟨rfl, iff_of_true .nil fun _ h => Bool.noConfusion h⟩
    | true =>
      rw [masked_of_pressed data hp]
      cases hk : kind data with
      | print =>
        refine ⟨rfl, (List.forall₂_cons.trans (and_iff_left .nil)).trans ?_⟩
        rw [agree_printKey_iff]
        exact ⟨fun h _ _ => h, fun h => h hplain rfl⟩
      | lateFunction f =>
        refine ⟨rfl, (List.forall₂_cons.trans (and_iff_right (agree_self rfl))).trans ?_⟩
        refine (List.forall₂_cons.trans (and_iff_left .nil)).trans ?_
        exact ⟨fun h _ _ => h, fun h => h hplain rfl⟩
      | function f =>
        refine ⟨rfl, iff_of_true (.cons ?_ .nil) fun _ _ => trivial⟩
        rw [addMods_keyR, addMods_keyR]
        exact agree_self rfl
      | _ => exact ⟨rfl, iff_of_true .nil fun _ _ => trivial⟩
  · have hext : ∀ caps key, events (s.withCaps caps) ⟨1, data, key⟩ =
        (s.extendedCode (pressed data) (data &&& 0x7F)).2 := by
      intro caps key
      have hext : (s.withCaps caps).scanState ≠ 0 := hplain
      unfold events State.kbIsr
      rw [if_neg ready, if_neg hlead, if_neg hext]
      dsimp only
      rw [(extendedCode_withCaps s caps _ _).1]
    have hraw := (extendedCode_withCaps s false (pressed data) (data &&& 0x7F)).2
    rw [hext, hext]
    refine ⟨rfl, iff_of_true ?_ fun h => absurd h hplain⟩
    exact List.forall₂_same.mpr fun k hk => agree_self (hraw k hk)

/-! ## The runs -/

theorem forall₂_append_iff {α β : Type*} {R : α → β → Prop} {a : List α} {b : List β}
    (hlen : a.length = b.length) (a' : List α) (b' : List β) :
    List.Forall₂ R (a ++ a') (b ++ b') ↔ List.Forall₂ R a b ∧ List.Forall₂ R a' b' := by
  induction a generalizing b with
  | nil =>
    rw [List.length_nil] at hlen
    rw [List.eq_nil_of_length_eq_zero hlen.symm]
    simp
  | cons x a ih =>
    cases b with
    | nil => simp at hlen
    | cons y b =>
      rw [List.length_cons, List.length_cons, Nat.succ.injEq] at hlen
      rw [List.cons_append, List.cons_append, List.forall₂_cons, List.forall₂_cons, ih hlen,
        and_assoc]

/-- **When Caps Lock changes the case of letters and nothing else.**  Take any scan codes without a
press of Caps Lock, any modifiers and any contents of the local variable.  The events with Caps Lock
off and on are as many, and they agree position by position but for the case of letters, exactly
when every press meets the condition. -/
theorem capsLock_iff (s : State) (w : List Twice) (hw : ∀ x ∈ w, x.data ≠ 0x3A) :
    List.Forall₂ Agree (keysOf (s.withCaps false) (w.map Twice.off))
        (keysOf (s.withCaps true) (w.map Twice.on)) ↔
      Meets (fun s x => next s x.off) CapsOk s w := by
  induction w generalizing s with
  | nil => exact iff_of_true .nil trivial
  | cons x w ih =>
    have hx := hw x List.mem_cons_self
    have hoff : next (s.withCaps false) x.off = (next s x.off).withCaps false :=
      next_withCaps s false hx x.key₀ x.key₀
    have hon : next (s.withCaps true) x.on = (next s x.off).withCaps true :=
      next_withCaps s true hx x.key₁ x.key₀
    obtain ⟨hlen, hstep⟩ := agree_events_iff s x
    rw [List.map_cons, List.map_cons, keysOf, keysOf, hoff, hon, forall₂_append_iff hlen, hstep,
      ih (next s x.off) fun y hy => hw y (List.mem_cons_of_mem x hy), meets_cons]

/-- The word `Hi`: Shift, H, and I without Shift. -/
theorem capsLock_iff_word :
    let w : List Twice := [0x2A, 0x23, 0xA3, 0xAA, 0x17].map fun data => ⟨data, keyR 0, keyR 0⟩
    (List.Forall₂ Agree (keysOf (State.init.withCaps false) (w.map Twice.off))
        (keysOf (State.init.withCaps true) (w.map Twice.on)) ↔
      Meets (fun s x => next s x.off) CapsOk State.init w) ∧
      keysOf (State.init.withCaps true) (w.map Twice.on) = [chP 'h', chP 'I'] :=
  ⟨capsLock_iff State.init _ (by decide), by decide⟩

/-- Shift and 1: an exclamation mark, and with Caps Lock on a 1. -/
theorem capsLock_shifted_symbol :
    let w : List Twice := [0x2A, 0x02].map fun data => ⟨data, keyR 0, keyR 0⟩
    (∀ x ∈ w, x.data ≠ 0x3A) ∧
      keysOf (State.init.withCaps false) (w.map Twice.off) = [chP '!'] ∧
      keysOf (State.init.withCaps true) (w.map Twice.on) = [chP '1'] ∧
      ¬ List.Forall₂ Agree (keysOf (State.init.withCaps false) (w.map Twice.off))
        (keysOf (State.init.withCaps true) (w.map Twice.on)) := by
  intro w
  have hoff : keysOf (State.init.withCaps false) (w.map Twice.off) = [chP '!'] := by decide
  have hon : keysOf (State.init.withCaps true) (w.map Twice.on) = [chP '1'] := by decide
  refine ⟨by decide, hoff, hon, ?_⟩
  rw [hoff, hon, List.forall₂_cons]
  exact fun h => absurd h.1 (by decide)

end Kb
end CoreOS
