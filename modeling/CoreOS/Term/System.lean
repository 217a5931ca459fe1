import CoreOS.Kernel.File
import CoreOS.Lib.Runs
import CoreOS.Term.Console

/-!
# Three terminals and one screen

The memory of the VGA chip shows one terminal at a time.  Each terminal has a backing page, and its
`video_mem` points to the memory of the chip while it is on display and to its backing page
otherwise; `switch_term` copies the contents and moves the pointers.

The global `cur_term` is set by `term_write` and by `term_key_handler` before they use it.
`switch_term` relies on it to save the terminal that leaves the display.  Its only caller is
`term_key_handler`, which has just made it point to that terminal.
-/

namespace CoreOS
namespace Term

open Console

/-- The number of terminals. -/
abbrev termNum : ℕ := 3

/-- The pages a terminal can be drawn on: the memory of the chip, or the backing page of a
terminal. -/
inductive PagePtr where
  | vga
  | back (t : Fin termNum)
  deriving DecidableEq

/-- The terminals, the pages, and the globals of `term.c`. -/
structure System where
  data : Fin termNum → Data
  /-- `terms[t].video_mem` -/
  videoMem : Fin termNum → PagePtr
  pages : PagePtr → Screen
  /-- `cur_term_ind`, the terminal on display -/
  curTermInd : Fin termNum
  /-- `cur_term`, `NULL` at first -/
  curTerm : Option (Fin termNum)
  /-- The cursor position in the registers of the chip, once one has been written. -/
  vgaCursor : Option ℤ
  /-- `signals` of the PCBs -/
  signals : ℕ → BitVec 8
  oob : Bool

/-- `video_buffer`. -/
def videoBuffer (t : Fin termNum) : PagePtr := .back t

/-- `SIG_FLAG(SIG_KB_INT)`. -/
def sigKbInt : BitVec 8 := 1 <<< 2

namespace System

/-- What a function given `&terms[t]` finds. -/
def load (s : System) (t : Fin termNum) : Console :=
  { s.data t with screen := s.pages (s.videoMem t), shown := none, oob := false }

/-- What it leaves.  The cursor is sent to the chip only from the terminal on display. -/
def store (s : System) (t : Fin termNum) (c : Console) : System :=
  { s with
    data := Function.update s.data t c.toData
    pages := Function.update s.pages (s.videoMem t) c.screen
    vgaCursor := if t = s.curTermInd then c.shown.or s.vgaCursor else s.vgaCursor
    oob := s.oob || c.oob }

/-- Call a function with `&terms[t]`. -/
def on (s : System) (t : Fin termNum) (f : Console → Console) : System := s.store t (f (s.load t))

/-- A `term_t` in zeroed memory, with the attribute `init_term` gives it. -/
def initData : Data where
  termBuf := fun _ => 0
  termBufCount := 0
  termReadDone := false
  termCurpos := 0
  curX := 0
  curY := 0
  curXStore := 0
  curYStore := 0
  attr := defAttr
  reading := false
  termNoecho := false
  termCanon := false
  curPid := 0
  state := .idle
  buf := fun _ => 0
  bufLen := 0
  args := fun _ => 0
  argLen := 0

/-- The terminals before `init_term` clears them, the first one on display. -/
def unclearedTerms (pages : PagePtr → Screen) (signals : ℕ → BitVec 8) : System where
  data := fun _ => initData
  videoMem := fun t => if t = 0 then .vga else videoBuffer t
  pages := pages
  curTermInd := 0
  curTerm := none
  vgaCursor := none
  signals := signals
  oob := false

/-- `init_term`, with what the pages held before. -/
def initTerm (pages : PagePtr → Screen) (signals : ℕ → BitVec 8) : System :=
  (((unclearedTerms pages signals).on 0 clear).on 1 clear).on 2 clear

/-- `term_write`, by a process of terminal `t`. -/
def termWrite (s : System) (t : Fin termNum) (bytes : List (BitVec 8)) : System :=
  { s with curTerm := some t }.on t fun c => c.termWrite bytes

/-- The first half of `switch_term`: save the terminal `cur_term` points to. -/
def saveTerm (s : System) (d : Fin termNum) : System :=
  { s with
    pages := Function.update s.pages (videoBuffer d) (s.pages .vga)
    videoMem := Function.update s.videoMem d (videoBuffer d) }

/-- The second half of `switch_term`: put on the new terminal. -/
def putOn (s : System) (ind : Fin termNum) : System :=
  let s := { s with
    curTermInd := ind
    curTerm := some ind
    videoMem := Function.update s.videoMem ind .vga }
  let s := s.on ind showCursor
  { s with pages := Function.update s.pages .vga (s.pages (videoBuffer ind)) }

/-- `switch_term`.  A call with `cur_term` null would fault; there is none. -/
def switchTerm (s : System) (ind : Fin termNum) : System :=
  if ind = s.curTermInd then s
  else
    match s.curTerm with
    | none => s
    | some d => (s.saveTerm d).putOn ind

/-- The terminal a key switches to, if it is one of Alt-F1 to Alt-F3. -/
def switchKey (k : Key) : Option (Fin termNum) :=
  if k.modifiers = modAlt ∧ keyF1 ≤ k.key ∧ k.key ≤ keyF3 then
    some (Fin.ofNat termNum (k.key - keyF1).toNat)
  else none

/-- Whether a key raises the keyboard interrupt signal: C-c, in line mode. -/
def interrupts (d : Data) (k : Key) : Bool :=
  !d.termCanon && decide (k.modifiers = modCtrl ∧ k.key = ch 'c')

/-- `term_key_handler`. -/
def termKeyHandler (s : System) (k : Key) : System :=
  let s := { s with curTerm := some s.curTermInd }
  match switchKey k with
  | some ind => s.switchTerm ind
  | none =>
    let d := s.data s.curTermInd
    let s := s.on s.curTermInd fun c => c.handleKey k
    if interrupts d k then
      { s with signals := Function.update s.signals d.curPid (s.signals d.curPid ||| sigKbInt) }
    else s

/-- The end of `term_read`, if it has got what it waits for: the bytes and the terminal. -/
def readResult (canon : Bool) (nbytes : ℕ) (c : Console) : Option (List (BitVec 8) × Console) :=
  if canon then c.readCanon else c.readLine nbytes

/-- The terminal after `term_read` has got what it waits for, or still waits. -/
def readEnd (canon : Bool) (nbytes : ℕ) (c : Console) : Console :=
  match readResult canon nbytes c with
  | none => c
  | some (_, c') => c'

end System

/-! ## Runs -/

/-- One operation: a process of a terminal writes, or begins or ends a read; a key is handled;
`switch_term` is called. -/
inductive Op where
  | write (t : Fin termNum) (bytes : List (BitVec 8))
  | readStart (t : Fin termNum)
  | readEnd (t : Fin termNum) (canon : Bool) (nbytes : ℕ)
  | key (k : Key)
  | switchTerm (ind : Fin termNum)

/-- The state after an operation. -/
def step (s : System) : Op → System
  | .write t bytes => s.termWrite t bytes
  | .readStart t => s.on t readStart
  | .readEnd t canon nbytes => s.on t (System.readEnd canon nbytes)
  | .key k => s.termKeyHandler k
  | .switchTerm ind => s.switchTerm ind

end Term
end CoreOS
