import CoreOS.Kb.Driver

/-!
# One event for each key press

What a keyboard interrupt may hand to `term_key_handler`: nothing for a release or a modifier, and
otherwise one event, which the codes received so far determine.  A function key carries the
modifiers that are held.

F1 to F10 are put together in the local variable and handed on.  F11 and F12 are handed on first,
without modifiers; then the modifiers are added to the local variable, which nothing has been
assigned to, and that is handed on as a second event.  `oneEvent_run_iff`: these two presses are the
only ones that go wrong, and they always do.
-/

namespace CoreOS
namespace Kb

open Runs

/-- What a keyboard interrupt finds: the status and the data of the controller, and the content of
the local variable. -/
structure Scan where
  status : BitVec 8
  data : BitVec 8
  key : KeyT
  deriving DecidableEq

/-- The state after a keyboard interrupt. -/
def next (s : State) (x : Scan) : State := (s.kbIsr x.status x.data x.key).1

/-- What it hands to `term_key_handler`. -/
def events (s : State) (x : Scan) : List KeyT := (s.kbIsr x.status x.data x.key).2

/-! ## The codes -/

/-- The modifiers that are held. -/
def State.held (s : State) : BitVec 8 :=
  (if s.ctrl then modCtrl else 0) ||| (if s.shift then modShift else 0) |||
    if s.alt then modAlt else 0

/-- The code of a modifier, Caps Lock included. -/
def isModifier (s : State) (data : BitVec 8) : Bool :=
  if s.scanState = 0 then
    match kind (data &&& 0x7F) with
    | .shift | .ctrl | .alt | .caps => true
    | _ => false
  else data &&& 0x7F = 0x1D ∨ data &&& 0x7F = 0x38

/-- The function key that is pressed. -/
def functionKey (s : State) (data : BitVec 8) : Option (BitVec 8) :=
  if s.scanState = 0 ∧ pressed data then
    match kind (data &&& 0x7F) with
    | .function f | .lateFunction f => some f
    | _ => none
  else none

/-- F11 or F12. -/
def Kind.late : Kind → Bool
  | .lateFunction _ => true
  | _ => false

theorem late_kind : ∀ keycode, (kind keycode).late = true ↔ keycode = 0x57 ∨ keycode = 0x58 := by
  decide +kernel

/-- The status with its lowest bit set. -/
theorem ready : ¬ (1 : BitVec 8) &&& 1 = 0 := by decide

/-- The code of a press has no top bit to mask. -/
theorem masked_of_pressed : ∀ data, pressed data = true → data &&& 0x7F = data := by
  decide +kernel

/-- A function key put together with the modifiers. -/
theorem addMods_keyR (s : State) (f : BitVec 8) : s.addMods (keyR f) = ⟨keyRaw, s.held, f⟩ := by
  obtain ⟨shift, ctrl, alt, caps, scanState⟩ := s
  cases shift <;> cases ctrl <;> cases alt <;>
    simp [State.addMods, State.held, keyR, modCtrl, modShift, modAlt]

/-! ## One interrupt -/

/-- **One event for each key press.**  Whatever the local variable held, at most one event is handed
on, and it is the same; a release or a modifier hands on none; a function key hands on the key with
the modifiers that are held. -/
structure OneEvent (s : State) (x : Scan) : Prop where
  atMostOne : ∀ key, (events s { x with key := key }).length ≤ 1
  silent : ∀ key, pressed x.data = false ∨ isModifier s x.data = true →
    events s { x with key := key } = []
  determined : ∀ key, s.kbIsr x.status x.data key = s.kbIsr x.status x.data x.key
  function : ∀ key, x.status &&& 1 ≠ 0 → ∀ f, functionKey s x.data = some f →
    events s { x with key := key } = [⟨keyRaw, s.held, f⟩]

/-- The interrupt is not a press of F11 or F12. -/
def NotLate (s : State) (x : Scan) : Prop :=
  x.status &&& 1 ≠ 0 → s.scanState = 0 → x.data ≠ 0x57 ∧ x.data ≠ 0x58

section oneEvent

variable {s : State} {x : Scan}

/-- An interrupt that hands on nothing is in order. -/
theorem oneEvent_of_silent (h : ∀ key, (s.kbIsr x.status x.data key).2 = [])
    (hf : x.status &&& 1 ≠ 0 → functionKey s x.data = none) : OneEvent s x where
  atMostOne key := by
    unfold events
    rw [h]
    exact Nat.zero_le 1
  silent key _ := h key
  determined key := Prod.ext (kbIsr_state s x.status x.data key x.key) (by rw [h, h])
  function key hready f hkey := by
    rw [hf hready] at hkey
    cases hkey

/-- So is a press that hands on one event which does not depend on the local variable. -/
theorem oneEvent_of_event {k : KeyT} (h : ∀ key, (s.kbIsr x.status x.data key).2 = [k])
    (hp : pressed x.data = true) (hm : isModifier s x.data = false)
    (hf : ∀ f, functionKey s x.data = some f → k = ⟨keyRaw, s.held, f⟩) : OneEvent s x where
  atMostOne key := by
    unfold events
    rw [h]
    exact Nat.le_refl 1
  silent key hsilent := by
    rw [hp, hm] at hsilent
    rcases hsilent with h | h <;> cases h
  determined key := Prod.ext (kbIsr_state s x.status x.data key x.key) (by rw [h, h])
  function key _ f hkey := by
    unfold events
    rw [h, hf f hkey]

/-! The branch `scan_state == 0`. -/

theorem kbIsr_plain (hready : x.status &&& 1 ≠ 0) (hlead : x.data ≠ 0xE0) (hplain : s.scanState = 0)
    (key : KeyT) : s.kbIsr x.status x.data key =
      s.plainCode (pressed x.data) (x.data &&& 0x7F) key := by
  unfold State.kbIsr
  rw [if_neg hready, if_neg hlead, if_pos hplain]

/-- The code of a press of F11 or F12. -/
theorem late_of_pressed (hp : pressed x.data = true) :
    (kind (x.data &&& 0x7F)).late = true ↔ x.data = 0x57 ∨ x.data = 0x58 := by
  rw [late_kind, masked_of_pressed _ hp]

theorem oneEvent_release (hready : x.status &&& 1 ≠ 0) (hlead : x.data ≠ 0xE0)
    (hplain : s.scanState = 0) (hp : pressed x.data = false) : OneEvent s x := by
  have hnone : functionKey s x.data = none := by
    unfold functionKey
    rw [if_neg (fun h => Bool.noConfusion (hp.symm.trans h.2))]
  refine oneEvent_of_silent (fun key => ?_) fun _ => hnone
  rw [kbIsr_plain hready hlead hplain, plainCode_eq, hp]
  cases kind (x.data &&& 0x7F) <;> rfl

/-- F11 and F12 hand on two events. -/
theorem not_oneEvent_late (hready : x.status &&& 1 ≠ 0) (hlead : x.data ≠ 0xE0)
    (hplain : s.scanState = 0) (hp : pressed x.data = true)
    (hlate : (kind (x.data &&& 0x7F)).late = true) : ¬ OneEvent s x := by
  intro h
  have hmost := h.atMostOne x.key
  unfold events at hmost
  rw [kbIsr_plain hready hlead hplain, plainCode_eq] at hmost
  cases hk : kind (x.data &&& 0x7F) with
  | lateFunction f =>
    simp only [hk, hp, if_true, List.length_cons, List.length_nil] at hmost
    omega
  | _ =>
    rw [hk] at hlate
    exact Bool.noConfusion hlate

/-- Every other press is in order. -/
theorem oneEvent_press (hready : x.status &&& 1 ≠ 0) (hlead : x.data ≠ 0xE0)
    (hplain : s.scanState = 0) (hp : pressed x.data = true)
    (hlate : (kind (x.data &&& 0x7F)).late ≠ true) : OneEvent s x := by
  have hfun : functionKey s x.data = match kind (x.data &&& 0x7F) with
      | .function f | .lateFunction f => some f
      | _ => none := by
    unfold functionKey
    rw [if_pos ⟨hplain, hp⟩]
  have hmod : isModifier s x.data = match kind (x.data &&& 0x7F) with
      | .shift | .ctrl | .alt | .caps => true
      | _ => false := by
    unfold isModifier
    rw [if_pos hplain]
  cases hk : kind (x.data &&& 0x7F) with
  | lateFunction f => exact absurd (by rw [hk]; rfl) hlate
  | function f =>
    refine oneEvent_of_event (k := s.addMods (keyR f)) (fun key => ?_) hp ?_ ?_
    · rw [kbIsr_plain hready hlead hplain, plainCode_eq, hk, hp]
      rfl
    · rw [hmod, hk]
    · intro f' hf'
      rw [hfun, hk] at hf'
      rw [addMods_keyR, Option.some.inj hf']
  | print =>
    refine oneEvent_of_event (k := s.printKey (x.data &&& 0x7F)) (fun key => ?_) hp ?_ ?_
    · rw [kbIsr_plain hready hlead hplain, plainCode_eq, hk, hp]
      rfl
    · rw [hmod, hk]
    · intro f' hf'
      rw [hfun, hk] at hf'
      cases hf'
  | _ =>
    refine oneEvent_of_silent (fun key => ?_) fun _ => ?_
    · rw [kbIsr_plain hready hlead hplain, plainCode_eq, hk]
    · rw [hfun, hk]

theorem oneEvent_plain_iff (hready : x.status &&& 1 ≠ 0) (hlead : x.data ≠ 0xE0)
    (hplain : s.scanState = 0) : OneEvent s x ↔ x.data ≠ 0x57 ∧ x.data ≠ 0x58 := by
  rw [← not_or]
  cases hp : pressed x.data with
  | false =>
    refine iff_of_true (oneEvent_release hready hlead hplain hp) ?_
    rintro (hdata | hdata) <;> rw [hdata] at hp <;> exact absurd hp (by decide)
  | true =>
    rw [← late_of_pressed hp]
    exact ⟨fun h hlate => not_oneEvent_late hready hlead hplain hp hlate h,
      oneEvent_press hready hlead hplain hp⟩

/-! The branch `scan_state == 1`. -/

/-- What is handed on is the press of one of the two arrows. -/
theorem extendedCode_cases (s : State) (press : Bool) (keycode : BitVec 8) :
    (s.extendedCode press keycode).2 = [] ∨
      ∃ k, (s.extendedCode press keycode).2 = [k] ∧ press = true ∧
        ¬ (keycode = 0x1D ∨ keycode = 0x38) := by
  unfold State.extendedCode
  by_cases hctrl : keycode = 0x1D
  · rw [if_pos hctrl]
    exact Or.inl rfl
  by_cases halt : keycode = 0x38
  · rw [if_neg hctrl, if_pos halt]
    exact Or.inl rfl
  rw [if_neg hctrl, if_neg halt]
  by_cases hleft : keycode = 0x4B
  · rw [if_pos hleft]
    cases press with
    | false => exact Or.inl rfl
    | true => exact Or.inr ⟨keyR keyLeft, rfl, rfl, not_or.mpr ⟨hctrl, halt⟩⟩
  rw [if_neg hleft]
  by_cases hright : keycode = 0x4D
  · rw [if_pos hright]
    cases press with
    | false => exact Or.inl rfl
    | true => exact Or.inr ⟨keyR keyRight, rfl, rfl, not_or.mpr ⟨hctrl, halt⟩⟩
  rw [if_neg hright]
  exact Or.inl rfl

theorem oneEvent_extended (hready : x.status &&& 1 ≠ 0) (hlead : x.data ≠ 0xE0)
    (hext : s.scanState ≠ 0) : OneEvent s x := by
  have hisr : ∀ key, s.kbIsr x.status x.data key =
      s.extendedCode (pressed x.data) (x.data &&& 0x7F) := by
    intro key
    unfold State.kbIsr
    rw [if_neg hready, if_neg hlead, if_neg hext]
  have hnone : functionKey s x.data = none := by
    unfold functionKey
    rw [if_neg (fun h => hext h.1)]
  have hmod : isModifier s x.data = decide (x.data &&& 0x7F = 0x1D ∨ x.data &&& 0x7F = 0x38) := by
    unfold isModifier
    rw [if_neg hext]
  rcases extendedCode_cases s (pressed x.data) (x.data &&& 0x7F) with hout | ⟨k, hk, hp, hnot⟩
  · refine oneEvent_of_silent (fun key => ?_) fun _ => hnone
    rw [hisr, hout]
  · refine oneEvent_of_event (k := k) (fun key => ?_) hp ?_ ?_
    · rw [hisr, hk]
    · rw [hmod, decide_eq_false hnot]
    · intro f hf
      rw [hnone] at hf
      cases hf

end oneEvent

/-- **One interrupt** is in order exactly when it is not a press of F11 or F12. -/
theorem oneEvent_iff (s : State) (x : Scan) : OneEvent s x ↔ NotLate s x := by
  unfold NotLate
  by_cases hready : x.status &&& 1 = 0
  · have hisr : ∀ key, s.kbIsr x.status x.data key = (s, []) := by
      intro key
      unfold State.kbIsr
      rw [if_pos hready]
    exact iff_of_true (oneEvent_of_silent (fun key => by rw [hisr]) fun h => absurd hready h)
      fun h => absurd hready h
  by_cases hlead : x.data = 0xE0
  · have hisr : ∀ key, s.kbIsr x.status x.data key = ({ s with scanState := 1 }, []) := by
      intro key
      unfold State.kbIsr
      rw [if_neg hready, if_pos hlead]
    have hnone : functionKey s x.data = none := by
      unfold functionKey
      rw [hlead, if_neg (fun h => absurd h.2 (by decide))]
    refine iff_of_true (oneEvent_of_silent (fun key => by rw [hisr]) fun _ => hnone) fun _ _ => ?_
    rw [hlead]
    exact ⟨by decide, by decide⟩
  by_cases hplain : s.scanState = 0
  · rw [oneEvent_plain_iff hready hlead hplain]
    exact ⟨fun h _ _ => h, fun h => h hready hplain⟩
  · exact iff_of_true (oneEvent_extended hready hlead hplain) fun _ h => absurd h hplain

/-! ## All scan codes -/

/-- The state is determined by the codes that were received. -/
theorem run_next_eq {w w' : List Scan}
    (h : w'.map (fun x => (x.status, x.data)) = w.map fun x => (x.status, x.data)) (s : State) :
    run next s w' = run next s w := by
  induction w generalizing w' s with
  | nil =>
    rw [List.map_nil, List.map_eq_nil_iff] at h
    rw [h]
  | cons x w ih =>
    obtain ⟨x', w', rfl, hx, hw⟩ := List.map_eq_cons_iff.mp h
    have hnext : next s x' = next s x := by
      unfold next
      rw [(Prod.mk.inj hx).1, (Prod.mk.inj hx).2]
      exact kbIsr_state s x.status x.data x'.key x.key
    rw [run_cons, run_cons, hnext]
    exact ih hw (next s x)

/-- **When every interrupt hands on what it should.**  For every sequence of scan codes and whatever
the local variable holds at each of them: the state depends on the codes alone, and every interrupt
hands on at most one event, which the codes determine, with the modifiers a function key needs,
exactly when none of the codes is a press of F11 or F12. -/
theorem oneEvent_run_iff (s : State) (w : List Scan) :
    (∀ w', w'.map (fun x => (x.status, x.data)) = w.map (fun x => (x.status, x.data)) →
        run next s w' = run next s w) ∧
      (Meets next OneEvent s w ↔ Meets next NotLate s w) :=
  ⟨fun _ h => run_next_eq h s,
    meets_congr (I := fun _ => True) (fun _ _ _ _ => trivial) (fun s x _ => oneEvent_iff s x)
      trivial w⟩

/-- F11, pressed with Ctrl held: the event of the key has no modifiers, and the second event is
whatever the local variable held, with Ctrl added. -/
theorem late_function_key :
    let key : KeyT := ⟨7, 0, ch 'x'⟩
    let w : List Scan := [⟨1, 0x1D, key⟩, ⟨1, 0x57, key⟩]
    events (run next State.init (w.take 1)) ⟨1, 0x57, key⟩ =
        [⟨keyRaw, 0, keyF11⟩, ⟨7, modCtrl, ch 'x'⟩] ∧
      ¬ Meets next OneEvent State.init w := by
  intro key w
  refine ⟨by decide, fun h => ?_⟩
  have hmost := h.2.1.atMostOne key
  exact absurd hmost (by decide)

end Kb
end CoreOS
