import CoreOS.Kb.Events

/-!
# Which modifiers are held

There are two Shift keys, two Ctrl keys and two Alt keys, and the driver keeps one flag for each pair.
It sets the flag to what the last code of either key says.  As long as the presses of a pair do not
overlap that is right.  But when one key of a pair is released while the other is still down, the
flag is cleared, and the key that is down counts for nothing until it is pressed again.

A key sends its codes when it is pressed or released, and the right-hand Ctrl and Alt send two bytes
each time.  What is down changes with the last byte.  `tracks_always_iff`: the flags are right after
every byte, exactly when no key of a pair is released while the other is down.
-/

namespace CoreOS
namespace Kb

open Runs

/-! ## Keys and their codes -/

/-- A key: whether its codes come behind 0xE0, and its code.  The code has no top bit, and a release
is not the byte 0xE0 itself. -/
structure PhysKey where
  extended : Bool
  code : BitVec 8
  make : pressed code = true
  ne : code ≠ 0x60
  deriving DecidableEq

/-- A press or a release of a key, and what the local variable holds when the last byte arrives. -/
structure KeyChange where
  key : PhysKey
  down : Bool
  content : KeyT

/-- The last byte of a press or a release. -/
def KeyChange.scanCode (e : KeyChange) : BitVec 8 :=
  if e.down then e.key.code else e.key.code ||| 0x80

/-- A byte from the keyboard, and what it completes. -/
structure Byte where
  scan : Scan
  change : Option (PhysKey × Bool)

/-- The bytes a key sends. -/
def KeyChange.bytes (e : KeyChange) : List Byte :=
  let last : Byte := ⟨⟨1, e.scanCode, e.content⟩, some (e.key, e.down)⟩
  if e.key.extended then [⟨⟨1, 0xE0, e.content⟩, none⟩, last] else [last]

/-- The driver and the keys that are down. -/
structure Keyboard where
  driver : State
  down : PhysKey → Bool

/-- A keyboard interrupt. -/
def receive (m : Keyboard) (x : Byte) : Keyboard where
  driver := next m.driver x.scan
  down :=
    match x.change with
    | none => m.down
    | some (k, down) => Function.update m.down k down

/-- Nothing is down when the system starts. -/
def Keyboard.init : Keyboard := ⟨State.init, fun _ => false⟩

/-! ## Modifiers -/

/-- The three flags. -/
inductive Modifier where
  | shift
  | ctrl
  | alt
  deriving DecidableEq

/-- The variable of a flag. -/
def State.flag (s : State) : Modifier → Bool
  | .shift => s.shift
  | .ctrl => s.ctrl
  | .alt => s.alt

/-- The key on the left. -/
def left : Modifier → PhysKey
  | .shift => ⟨false, 0x2A, by decide, by decide⟩
  | .ctrl => ⟨false, 0x1D, by decide, by decide⟩
  | .alt => ⟨false, 0x38, by decide, by decide⟩

/-- The key on the right. -/
def right : Modifier → PhysKey
  | .shift => ⟨false, 0x36, by decide, by decide⟩
  | .ctrl => ⟨true, 0x1D, by decide, by decide⟩
  | .alt => ⟨true, 0x38, by decide, by decide⟩

/-- **The flags say which modifiers are held**: a flag is set exactly when one of its two keys is
down. -/
def Tracks (m : Keyboard) : Prop :=
  ∀ f, m.driver.flag f = true ↔ m.down (left f) = true ∨ m.down (right f) = true

/-- A key of a pair is not released while the other one is down. -/
def NoOverlap (m : Keyboard) (e : KeyChange) : Prop :=
  e.down = false → ∀ f, (e.key = left f → m.down (right f) = false) ∧
    (e.key = right f → m.down (left f) = false)

/-! ## The codes of a key -/

theorem release_code : ∀ code, pressed code = true →
    (code ||| 0x80) &&& 0x7F = code ∧ pressed (code ||| 0x80) = false ∧
      (code ||| 0x80 = 0xE0 → code = 0x60) ∧ code ≠ 0xE0 := by
  decide +kernel

theorem scanCode_spec (e : KeyChange) :
    pressed e.scanCode = e.down ∧ e.scanCode &&& 0x7F = e.key.code ∧ e.scanCode ≠ 0xE0 := by
  obtain ⟨hlow, hbreak, hlead, hne⟩ := release_code e.key.code e.key.make
  unfold KeyChange.scanCode
  cases e.down with
  | true => exact ⟨e.key.make, masked_of_pressed _ e.key.make, hne⟩
  | false => exact ⟨hbreak, hlow, fun h => e.key.ne (hlead h)⟩

/-- The flag that the driver changes for a code, behind 0xE0 or not. -/
def flagOf (extended : Bool) (code : BitVec 8) : Option Modifier :=
  if extended then
    if code = 0x1D then some .ctrl else if code = 0x38 then some .alt else none
  else
    match kind code with
    | .shift => some .shift
    | .ctrl => some .ctrl
    | .alt => some .alt
    | _ => none

theorem flagOf_codes : ∀ extended code,
    (flagOf extended code = some .shift ↔ extended = false ∧ (code = 0x2A ∨ code = 0x36)) ∧
      (flagOf extended code = some .ctrl ↔ code = 0x1D) ∧
      (flagOf extended code = some .alt ↔ code = 0x38) := by
  decide +kernel

theorem PhysKey.eq_iff {k k' : PhysKey} :
    k = k' ↔ k.extended = k'.extended ∧ k.code = k'.code := by
  obtain ⟨extended, code, make, ne⟩ := k
  obtain ⟨extended', code', make', ne'⟩ := k'
  exact PhysKey.mk.injEq .. ▸ Iff.rfl

/-- **The driver knows the six keys.** -/
theorem flagOf_eq_some_iff (k : PhysKey) (f : Modifier) :
    flagOf k.extended k.code = some f ↔ k = left f ∨ k = right f := by
  obtain ⟨hshift, hctrl, halt⟩ := flagOf_codes k.extended k.code
  rw [PhysKey.eq_iff, PhysKey.eq_iff]
  cases f with
  | shift => exact hshift.trans and_or_left
  | ctrl =>
    refine hctrl.trans ?_
    cases k.extended <;> simp [left, right]
  | alt =>
    refine halt.trans ?_
    cases k.extended <;> simp [left, right]

theorem left_ne_right (f : Modifier) : left f ≠ right f := by
  rw [ne_eq, PhysKey.eq_iff]
  cases f <;> decide

/-! ## One press or release -/

/-- The flags after a code, between two codes. -/
def FlagsSet (s s' : State) (e : KeyChange) : Prop :=
  s'.scanState = 0 ∧
    ∀ f, s'.flag f = if flagOf e.key.extended e.key.code = some f then e.down else s.flag f

/-- A key that is not behind 0xE0. -/
theorem flagsSet_plain {s : State} (hs : s.scanState = 0) {e : KeyChange}
    (hext : e.key.extended = false) : FlagsSet s (next s ⟨1, e.scanCode, e.content⟩) e := by
  obtain ⟨hpressed, hcode, hne⟩ := scanCode_spec e
  have hnext : next s ⟨1, e.scanCode, e.content⟩ =
      (s.plainCode e.down e.key.code e.content).1 := by
    unfold next State.kbIsr
    rw [if_neg ready, if_neg hne, if_pos hs, hpressed, hcode]
  rw [hnext, plainCode_eq, FlagsSet, flagOf, hext, if_neg Bool.false_ne_true]
  cases kind e.key.code <;> refine ⟨hs, fun f => ?_⟩ <;> cases f <;> rfl

/-- A key behind 0xE0, after both of its bytes. -/
theorem flagsSet_extended {s : State} {e : KeyChange} (hext : e.key.extended = true) :
    FlagsSet s (next (next s ⟨1, 0xE0, e.content⟩) ⟨1, e.scanCode, e.content⟩) e := by
  obtain ⟨hpressed, hcode, hne⟩ := scanCode_spec e
  have hfirst : next s ⟨1, 0xE0, e.content⟩ = { s with scanState := 1 } := by
    unfold next State.kbIsr
    rw [if_neg ready, if_pos rfl]
  have hstate : ¬ (1 : Fin 2) = 0 := by decide
  have hnext : next { s with scanState := 1 } ⟨1, e.scanCode, e.content⟩ =
      (State.extendedCode { s with scanState := 1 } e.down e.key.code).1 := by
    unfold next State.kbIsr
    rw [if_neg ready, if_neg hne, if_neg hstate, hpressed, hcode]
  rw [hfirst, hnext, FlagsSet, flagOf, if_pos hext]
  unfold State.extendedCode
  refine ⟨rfl, fun f => ?_⟩
  by_cases h1 : e.key.code = 0x1D
  · rw [if_pos h1, if_pos h1]
    cases f <;> rfl
  rw [if_neg h1, if_neg h1]
  by_cases h2 : e.key.code = 0x38
  · rw [if_pos h2, if_pos h2]
    cases f <;> rfl
  rw [if_neg h2, if_neg h2]
  by_cases h3 : e.key.code = 0x4B
  · rw [if_pos h3]
    cases f <;> rfl
  rw [if_neg h3]
  by_cases h4 : e.key.code = 0x4D
  · rw [if_pos h4]
    cases f <;> rfl
  · rw [if_neg h4]
    cases f <;> rfl

/-- The keyboard after all bytes of a press or release. -/
theorem run_bytes {m : Keyboard} (hm : m.driver.scanState = 0) (e : KeyChange) :
    FlagsSet m.driver (run receive m e.bytes).driver e ∧
      (run receive m e.bytes).down = Function.update m.down e.key e.down := by
  unfold KeyChange.bytes
  cases hext : e.key.extended with
  | true => exact ⟨flagsSet_extended hext, rfl⟩
  | false => exact ⟨flagsSet_plain hm hext, rfl⟩

/-- The byte 0xE0 changes no flag and completes nothing. -/
theorem tracks_prefix_iff (m : Keyboard) (content : KeyT) :
    Tracks (receive m ⟨⟨1, 0xE0, content⟩, none⟩) ↔ Tracks m := by
  have hfirst : next m.driver ⟨1, 0xE0, content⟩ = { m.driver with scanState := 1 } := by
    unfold next State.kbIsr
    rw [if_neg ready, if_pos rfl]
  unfold Tracks receive
  dsimp only
  rw [hfirst]
  exact forall_congr' fun f => by cases f <;> exact Iff.rfl

/-- **One press or release**, from flags that are right. -/
theorem tracks_bytes_iff {m : Keyboard} (hm : m.driver.scanState = 0) (ht : Tracks m)
    (e : KeyChange) : Tracks (run receive m e.bytes) ↔ NoOverlap m e := by
  obtain ⟨⟨-, hflag⟩, hdown⟩ := run_bytes hm e
  unfold Tracks NoOverlap
  rw [hdown, ← forall_comm]
  refine forall_congr' fun f => ?_
  rw [hflag]
  by_cases hf : flagOf e.key.extended e.key.code = some f
  · rw [if_pos hf]
    rcases (flagOf_eq_some_iff e.key f).mp hf with hk | hk
    · rw [hk, Function.update_self, Function.update_of_ne (left_ne_right f).symm]
      simp only [left_ne_right f, true_implies, false_implies, and_true]
      cases e.down <;> cases m.down (right f) <;> simp
    · rw [hk, Function.update_self, Function.update_of_ne (left_ne_right f)]
      simp only [(left_ne_right f).symm, true_implies, false_implies, true_and]
      cases e.down <;> cases m.down (left f) <;> simp
  · have hne := not_or.mp (mt (flagOf_eq_some_iff e.key f).mpr hf)
    rw [if_neg hf, Function.update_of_ne (Ne.symm hne.1), Function.update_of_ne (Ne.symm hne.2)]
    exact iff_of_true (ht f) fun _ => ⟨fun h => absurd h hne.1, fun h => absurd h hne.2⟩

/-- All bytes of one press or release. -/
theorem always_bytes_iff {m : Keyboard} (hm : m.driver.scanState = 0) (ht : Tracks m)
    (e : KeyChange) : Always receive Tracks m e.bytes ↔ NoOverlap m e := by
  rw [← tracks_bytes_iff hm ht e]
  unfold KeyChange.bytes
  cases e.key.extended with
  | true =>
    rw [if_pos rfl, always_cons, always_cons, always_nil, tracks_prefix_iff]
    exact ⟨fun h => h.2.2, fun h => ⟨ht, ht, h⟩⟩
  | false =>
    rw [if_neg Bool.false_ne_true, always_cons, always_nil]
    exact ⟨fun h => h.2, fun h => ⟨ht, h⟩⟩

/-- **When the flags are right.**  For every sequence of presses and releases: after every byte, the
three flags say which modifiers are held, exactly when no key of a pair is released while the other
one is down. -/
theorem tracks_always_iff (es : List KeyChange) :
    Always receive Tracks Keyboard.init (es.flatMap KeyChange.bytes) ↔
      Meets (fun m e => run receive m e.bytes) NoOverlap Keyboard.init es := by
  refine always_flatMap_iff_meets (I := fun m => m.driver.scanState = 0)
    (fun m e hm => (run_bytes hm e).1.1) (fun m e hm ht => always_bytes_iff hm ht e) rfl ?_ es
  intro f
  cases f <;> decide

/-- Both Shift keys are pressed, and the left one is released.  The right one is still down, and the
flag is clear. -/
theorem shift_lost :
    let es : List KeyChange := [⟨left .shift, true, keyR 0⟩, ⟨right .shift, true, keyR 0⟩,
      ⟨left .shift, false, keyR 0⟩]
    let m := run receive Keyboard.init (es.flatMap KeyChange.bytes)
    m.driver.shift = false ∧ m.down (right .shift) = true ∧
      ¬ Always receive Tracks Keyboard.init (es.flatMap KeyChange.bytes) := by
  intro es m
  have hclear : m.driver.shift = false := by decide
  have hdown : m.down (right .shift) = true := by decide
  refine ⟨hclear, hdown, fun h => ?_⟩
  have hset := (h.last .shift).mpr (Or.inr hdown)
  exact Bool.noConfusion (hclear.symm.trans hset)

end Kb
end CoreOS
