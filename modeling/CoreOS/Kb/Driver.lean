import CoreOS.Kernel.Chars
import CoreOS.Lib.Runs
import CoreOS.Term.System

/-!
# The keyboard driver

`kb_isr`.  The controller sends one byte at a time.  A key sends its code when it is pressed and the
same code with the top bit set when it is released; the right-hand Ctrl and Alt and the arrows send a
byte 0xE0 before it, which `scan_state` remembers.

The driver keeps which modifiers are held and hands a key event to `term_key_handler` for every
other key.  The event is looked up in one of four tables, or put together in a local variable that
has not been initialised.  What that variable holds when `kb_isr` starts is a parameter, `key`.
-/

namespace CoreOS
namespace Kb

/-! ## Key events -/

/-- `KEY_RAW`. -/
def keyRaw : BitVec 32 := 0

/-- `KEY_PRINT`. -/
def keyPrint : BitVec 32 := 1

/-- `MOD_CTRL`. -/
def modCtrl : BitVec 8 := 0x80

/-- `MOD_SHIFT`. -/
def modShift : BitVec 8 := 0x40

/-- `MOD_ALT`. -/
def modAlt : BitVec 8 := 0x20

/-- `key_t`.  Its first member is a word, which need not be one of the two constants when nothing has
been assigned to it. -/
structure KeyT where
  t : BitVec 32
  modifiers : BitVec 8
  key : BitVec 8
  deriving DecidableEq

/-- `P(c)`. -/
def keyP (c : BitVec 8) : KeyT := ⟨keyPrint, 0, c⟩

/-- `R(c)`. -/
def keyR (c : BitVec 8) : KeyT := ⟨keyRaw, 0, c⟩

/-- `C(c)`. -/
def keyC (c : BitVec 8) : KeyT := ⟨keyRaw, modCtrl, c⟩

/-- `A(c)`. -/
def keyA (c : BitVec 8) : KeyT := ⟨keyRaw, modAlt, c⟩

/-- `P(c)` of a character. -/
def chP (c : Char) : KeyT := keyP (ch c)

/-- `C(c)` of a character. -/
def chC (c : Char) : KeyT := keyC (ch c)

/-- `A(c)` of a character. -/
def chA (c : Char) : KeyT := keyA (ch c)

/-- `KEY_TAB`. -/
def keyTab : BitVec 8 := 0x80

/-- `KEY_ESC`. -/
def keyEsc : BitVec 8 := 0x81

/-- `KEY_BACK`. -/
def keyBack : BitVec 8 := 0x82

/-- `KEY_ENTER`. -/
def keyEnter : BitVec 8 := 0x83

/-- `KEY_LEFT`. -/
def keyLeft : BitVec 8 := 0x86

/-- `KEY_RIGHT`. -/
def keyRight : BitVec 8 := 0x87

/-- `KEY_F1`. -/
def keyF1 : BitVec 8 := 0x8A

/-- `KEY_F11`. -/
def keyF11 : BitVec 8 := 0x94

/-- `KEY_F12`. -/
def keyF12 : BitVec 8 := 0x95

/-! ## The tables -/

/-- `PRINT_KEY_NUM`. -/
def printKeyNum : BitVec 8 := 0x3A

/-- `keyboard_map`. -/
def keyboardMap : List KeyT := [
  keyR 0, keyR keyEsc, chP '1', chP '2', chP '3', chP '4', chP '5', chP '6',
  chP '7', chP '8', chP '9', chP '0', chP '-', chP '=', keyR keyBack, keyR keyTab,
  chP 'q', chP 'w', chP 'e', chP 'r', chP 't', chP 'y', chP 'u', chP 'i',
  chP 'o', chP 'p', chP '[', chP ']', keyR keyEnter, keyR 0, chP 'a', chP 's',
  chP 'd', chP 'f', chP 'g', chP 'h', chP 'j', chP 'k', chP 'l', chP ';',
  keyP 0x27, keyP 0x60, keyR 0, keyP 0x5C, chP 'z', chP 'x', chP 'c', chP 'v',
  chP 'b', chP 'n', chP 'm', chP ',', chP '.', chP '/', keyR 0, chP '*',
  keyR 0, chP ' ']

/-- `shift_map`. -/
def shiftMap : List KeyT := [
  keyR 0, keyR keyEsc, chP '!', chP '@', chP '#', chP '$', chP '%', chP '^',
  chP '&', chP '*', chP '(', chP ')', chP '_', chP '+', keyR keyBack, keyR keyTab,
  chP 'Q', chP 'W', chP 'E', chP 'R', chP 'T', chP 'Y', chP 'U', chP 'I',
  chP 'O', chP 'P', keyP 0x7B, keyP 0x7D, keyR keyEnter, keyR 0,
  chP 'A', chP 'S', chP 'D', chP 'F', chP 'G', chP 'H', chP 'J', chP 'K',
  chP 'L', chP ':', keyP 0x22, chP '~', keyR 0,
  chP '|', chP 'Z', chP 'X', chP 'C', chP 'V', chP 'B', chP 'N', chP 'M',
  chP '<', chP '>', chP '?', keyR 0,
  chP '*', keyR 0,
  chP ' ']

/-- `ctrl_map`. -/
def ctrlMap : List KeyT := [
  keyR 0, keyC keyEsc, chC '1', chC '2', chC '3', chC '4', chC '5', chC '6',
  chC '7', chC '8', chC '9', chC '0', chC '-', chC '=', keyC keyBack, keyC keyTab,
  chC 'q', chC 'w', chC 'e', chC 'r', chC 't', chC 'y', chC 'u', chC 'i',
  chC 'o', chC 'p', chC '[', chC ']', keyC keyEnter, keyR 0, chC 'a', chC 's',
  chC 'd', chC 'f', chC 'g', chC 'h', chC 'j', chC 'k', chC 'l', chC ';',
  keyC 0x27, keyC 0x60, keyR 0, keyC 0x5C, chC 'z', chC 'x', chC 'c', chC 'v',
  chC 'b', chC 'n', chC 'm', chC ',', chC '.', chC '/', keyR 0, chC '*',
  keyR 0, chC ' ']

/-- `alt_map`. -/
def altMap : List KeyT := [
  keyR 0, keyA keyEsc, chA '1', chA '2', chA '3', chA '4', chA '5', chA '6',
  chA '7', chA '8', chA '9', chA '0', chA '-', chA '=', keyA keyBack, keyA keyTab,
  chA 'q', chA 'w', chA 'e', chA 'r', chA 't', chA 'y', chA 'u', chA 'i',
  chA 'o', chA 'p', chA '[', chA ']', keyA keyEnter, keyR 0, chA 'a', chA 's',
  chA 'd', chA 'f', chA 'g', chA 'h', chA 'j', chA 'k', chA 'l', chA ';',
  keyA 0x27, keyA 0x60, keyR 0, keyA 0x5C, chA 'z', chA 'x', chA 'c', chA 'v',
  chA 'b', chA 'n', chA 'm', chA ',', chA '.', chA '/', keyR 0, chA '*',
  keyR 0, chA ' ']

/-- `map[keycode]`.  No caller passes an index past the end of a table. -/
def entry (map : List KeyT) (keycode : BitVec 8) : KeyT := map.getD keycode.toNat (keyR 0)

/-! ## The interrupt handler -/

/-- The static variables of the driver. -/
structure State where
  shift : Bool
  ctrl : Bool
  alt : Bool
  caps : Bool
  scanState : Fin 2
  deriving DecidableEq

/-- A scan state counts from 0. -/
instance neZeroScanState : NeZero 2 := ⟨by decide⟩

/-- They start at zero. -/
def State.init : State := ⟨false, false, false, false, 0⟩

/-- The three lines that add the modifiers to an event. -/
def State.addMods (s : State) (key : KeyT) : KeyT :=
  let key := if s.ctrl then { key with modifiers := key.modifiers ||| modCtrl } else key
  let key := if s.shift then { key with modifiers := key.modifiers ||| modShift } else key
  if s.alt then { key with modifiers := key.modifiers ||| modAlt } else key

/-- The event of a key that has a character. -/
def State.printKey (s : State) (keycode : BitVec 8) : KeyT :=
  if s.caps then
    if !s.shift ∧ ch 'a' ≤ (entry keyboardMap keycode).key ∧
        (entry keyboardMap keycode).key ≤ ch 'z' then entry shiftMap keycode
    else entry keyboardMap keycode
  else if s.shift then entry shiftMap keycode
  else if s.ctrl then entry ctrlMap keycode
  else if s.alt then entry altMap keycode
  else entry keyboardMap keycode

/-- The branch `scan_state == 0`: the state after it and the events that were handed on. -/
def State.plainCode (s : State) (pressed : Bool) (keycode : BitVec 8) (key : KeyT) :
    State × List KeyT :=
  if keycode = 0x2A ∨ keycode = 0x36 then ({ s with shift := pressed }, [])
  else if keycode = 0x1D then ({ s with ctrl := pressed }, [])
  else if keycode = 0x38 then ({ s with alt := pressed }, [])
  else if keycode = 0x3A then ({ s with caps := if pressed then !s.caps else s.caps }, [])
  else if keycode = 0x57 then (s, if pressed then [keyR keyF11, s.addMods key] else [])
  else if keycode = 0x58 then (s, if pressed then [keyR keyF12, s.addMods key] else [])
  else if 0x3B ≤ keycode ∧ keycode ≤ 0x44 ∧ pressed then
    (s, [s.addMods (keyR (keyF1 + keycode - 0x3B))])
  else if printKeyNum ≤ keycode then (s, [])
  else if !pressed then (s, [])
  else (s, [s.printKey keycode])

/-- The branch `scan_state == 1`. -/
def State.extendedCode (s : State) (pressed : Bool) (keycode : BitVec 8) : State × List KeyT :=
  let r : State × List KeyT :=
    if keycode = 0x1D then ({ s with ctrl := pressed }, [])
    else if keycode = 0x38 then ({ s with alt := pressed }, [])
    else if keycode = 0x4B then (s, if pressed then [keyR keyLeft] else [])
    else if keycode = 0x4D then (s, if pressed then [keyR keyRight] else [])
    else (s, [])
  ({ r.1 with scanState := 0 }, r.2)

/-- `pressed`. -/
def pressed (data : BitVec 8) : Bool := data &&& 0x80 = 0

/-- `kb_isr`, on the status and the data of the controller: the state after it and the events that
were handed to `term_key_handler`. -/
def State.kbIsr (s : State) (status data : BitVec 8) (key : KeyT) : State × List KeyT :=
  if status &&& 1 = 0 then (s, [])
  else if data = 0xE0 then ({ s with scanState := 1 }, [])
  else if s.scanState = 0 then s.plainCode (pressed data) (data &&& 0x7F) key
  else s.extendedCode (pressed data) (data &&& 0x7F)

/-- What `term_key_handler` looks at. -/
def KeyT.event (k : KeyT) : Term.Console.Key := ⟨k.modifiers, k.key⟩

/-- A keyboard interrupt, as the terminals see it. -/
def typed (terms : Term.System) (events : List KeyT) : Term.System :=
  events.foldl (fun terms k => terms.termKeyHandler k.event) terms

/-- The terminals cannot tell an interrupt from its events one after the other, as in their own
runs. -/
theorem typed_eq_run (terms : Term.System) (events : List KeyT) :
    typed terms events = Runs.run Term.step terms (events.map fun k => .key k.event) := by
  unfold typed Runs.run
  rw [List.foldl_map]
  rfl

/-! ## What the codes mean -/

/-- What a code of the branch `scan_state == 0` does. -/
inductive Kind where
  | shift
  | ctrl
  | alt
  | caps
  /-- F11 and F12 -/
  | lateFunction (f : BitVec 8)
  /-- F1 to F10 -/
  | function (f : BitVec 8)
  | print
  | ignored
  deriving DecidableEq

/-- The code of a key that is not behind 0xE0. -/
def kind (keycode : BitVec 8) : Kind :=
  if keycode = 0x2A ∨ keycode = 0x36 then .shift
  else if keycode = 0x1D then .ctrl
  else if keycode = 0x38 then .alt
  else if keycode = 0x3A then .caps
  else if keycode = 0x57 then .lateFunction keyF11
  else if keycode = 0x58 then .lateFunction keyF12
  else if 0x3B ≤ keycode ∧ keycode ≤ 0x44 then .function (keyF1 + keycode - 0x3B)
  else if printKeyNum ≤ keycode then .ignored
  else .print

/-- **The branch `scan_state == 0`, by the kind of the key.** -/
theorem plainCode_eq (s : State) (pressed : Bool) (keycode : BitVec 8) (key : KeyT) :
    s.plainCode pressed keycode key =
      match kind keycode with
      | .shift => ({ s with shift := pressed }, [])
      | .ctrl => ({ s with ctrl := pressed }, [])
      | .alt => ({ s with alt := pressed }, [])
      | .caps => ({ s with caps := if pressed then !s.caps else s.caps }, [])
      | .lateFunction f => (s, if pressed then [keyR f, s.addMods key] else [])
      | .function f => (s, if pressed then [s.addMods (keyR f)] else [])
      | .print => (s, if pressed then [s.printKey keycode] else [])
      | .ignored => (s, []) := by
  unfold State.plainCode kind
  by_cases hshift : keycode = 0x2A ∨ keycode = 0x36
  · rw [if_pos hshift, if_pos hshift]
  rw [if_neg hshift, if_neg hshift]
  by_cases hctrl : keycode = 0x1D
  · rw [if_pos hctrl, if_pos hctrl]
  rw [if_neg hctrl, if_neg hctrl]
  by_cases halt : keycode = 0x38
  · rw [if_pos halt, if_pos halt]
  rw [if_neg halt, if_neg halt]
  by_cases hcaps : keycode = 0x3A
  · rw [if_pos hcaps, if_pos hcaps]
  rw [if_neg hcaps, if_neg hcaps]
  by_cases h11 : keycode = 0x57
  · rw [if_pos h11, if_pos h11]
  rw [if_neg h11, if_neg h11]
  by_cases h12 : keycode = 0x58
  · rw [if_pos h12, if_pos h12]
  rw [if_neg h12, if_neg h12]
  by_cases hfn : 0x3B ≤ keycode ∧ keycode ≤ 0x44
  · have hhigh : printKeyNum ≤ keycode := BitVec.le_trans (by decide) hfn.1
    rw [if_pos hfn, if_pos hhigh]
    cases pressed with
    | true => rw [if_pos ⟨hfn.1, hfn.2, rfl⟩]; rfl
    | false => rw [if_neg (fun h => Bool.noConfusion h.2.2)]; rfl
  rw [if_neg hfn, if_neg fun h => hfn ⟨h.1, h.2.1⟩]
  by_cases hhigh : printKeyNum ≤ keycode
  · rw [if_pos hhigh, if_pos hhigh]
  rw [if_neg hhigh, if_neg hhigh]
  cases pressed <;> rfl

/-- The state after `kb_isr` does not depend on what the local variable held. -/
theorem kbIsr_state (s : State) (status data : BitVec 8) (key key' : KeyT) :
    (s.kbIsr status data key).1 = (s.kbIsr status data key').1 := by
  unfold State.kbIsr
  by_cases hready : status &&& 1 = 0
  · rw [if_pos hready, if_pos hready]
  rw [if_neg hready, if_neg hready]
  by_cases hlead : data = 0xE0
  · rw [if_pos hlead, if_pos hlead]
  rw [if_neg hlead, if_neg hlead]
  by_cases hplain : s.scanState = 0
  · rw [if_pos hplain, if_pos hplain, plainCode_eq, plainCode_eq]
    cases kind (data &&& 0x7F) <;> rfl
  · rw [if_neg hplain, if_neg hplain]

end Kb
end CoreOS
