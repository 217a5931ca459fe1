import CoreOS.Kernel.Chars
import Mathlib.Logic.Function.Basic
import Mathlib.Logic.Function.Iterate

/-!
# One terminal

The functions of `term.c` that work on one terminal: output with its escape sequences, the line
editor, and the two ends of a read.

Each of them is given a pointer to a `term_t`.  What it touches through that pointer is the record
itself, the 4000 bytes that `video_mem` points to, and, if the terminal is the one on display, the
cursor position of the VGA chip.  A `Console` is these three.  Since a terminal does not begin or
cease to be displayed in the middle of these functions, `setpos` just notes the position it would
send to the chip, in `shown`.

`oob` records a store outside an array.
-/

namespace CoreOS
namespace Term

/-- `NUM_COLS`. -/
def numCols : ℤ := 80

/-- `NUM_ROWS`. -/
def numRows : ℤ := 25

/-- `VID_MEM_SIZE`. -/
def vidMemSize : ℕ := 2 * 80 * 25

/-- `TERM_BUF_SIZE`. -/
def termBufSize : ℕ := 127

/-- `DEF_ATTR`. -/
def defAttr : BitVec 8 := 0x0F

/-- `esc_state_t`. -/
inductive EscState where
  | idle
  | aEscape
  | aBracket
  | argParse
  | partialFinish
  deriving DecidableEq

/-- `term_t`, less its two pointers.  The counters are bounded by the sizes of the arrays they index,
and the coordinates stay between -1 and 80, so that none of them can wrap around. -/
structure Data where
  termBuf : ℕ → BitVec 8
  termBufCount : ℕ
  termReadDone : Bool
  termCurpos : ℕ
  curX : ℤ
  curY : ℤ
  curXStore : ℤ
  curYStore : ℤ
  attr : BitVec 8
  reading : Bool
  termNoecho : Bool
  termCanon : Bool
  curPid : ℕ
  state : EscState
  buf : ℕ → BitVec 8
  bufLen : ℕ
  args : ℕ → BitVec 8
  argLen : ℕ

/-- The bytes of a screen: for each cell its character and its attribute. -/
abbrev Screen : Type := Fin vidMemSize → BitVec 8

/-- What a function that is given a terminal works on. -/
structure Console extends Data where
  screen : Screen
  /-- The cursor position last sent to the chip, if any. -/
  shown : Option ℤ
  /-- A store has gone outside an array. -/
  oob : Bool

namespace Console

/-! ## Memory -/

/-- `video_mem[i]`. -/
def loadVid (c : Console) (i : ℕ) : BitVec 8 := if h : i < vidMemSize then c.screen ⟨i, h⟩ else 0

/-- `video_mem[i] = b`. -/
def storeVid (c : Console) (i : ℕ) (b : BitVec 8) : Console :=
  if h : i < vidMemSize then { c with screen := Function.update c.screen ⟨i, h⟩ b }
  else { c with oob := true }

/-- `term_buf[i] = b`. -/
def storeTermBuf (c : Console) (i : ℕ) (b : BitVec 8) : Console :=
  { c with
    termBuf := Function.update c.termBuf i b
    oob := c.oob || decide (termBufSize + 1 ≤ i) }

/-- `buf[i] = b`. -/
def storeBuf (c : Console) (i : ℕ) (b : BitVec 8) : Console :=
  { c with buf := Function.update c.buf i b, oob := c.oob || decide (4 ≤ i) }

/-- `args[i] = b`. -/
def storeArgs (c : Console) (i : ℕ) (b : BitVec 8) : Console :=
  { c with args := Function.update c.args i b, oob := c.oob || decide (4 ≤ i) }

/-! ## The screen -/

/-- `setattr`. -/
def setattr (c : Console) (attr : BitVec 8) : Console := { c with attr := attr }

/-- A coordinate brought into `0 .. n - 1`. -/
def clamp (n x : ℤ) : ℤ := if x < 0 then 0 else if n ≤ x then n - 1 else x

/-- `setpos`. -/
def setpos (c : Console) (x y : ℤ) : Console :=
  let x := clamp numCols x
  let y := clamp numRows y
  { c with curX := x, curY := y, shown := some (x + y * numCols) }

/-- `setpos` to where the cursor is, which sends it to the chip. -/
def showCursor (c : Console) : Console := c.setpos c.curX c.curY

/-- `x < 0 || x >= NUM_COLS || y < 0 || y >= NUM_ROWS`. -/
def offScreen (x y : ℤ) : Prop := x < 0 ∨ numCols ≤ x ∨ y < 0 ∨ numRows ≤ y

instance (x y : ℤ) : Decidable (offScreen x y) := inferInstanceAs (Decidable (_ ∨ _))

/-- `(NUM_COLS * y + x) << 1`. -/
def cell (x y : ℤ) : ℕ := ((numCols * y + x) * 2).toNat

/-- `get_vid_char`. -/
def getVidChar (c : Console) (x y : ℤ) : BitVec 8 :=
  if offScreen x y then 0 else c.loadVid (cell x y)

/-- `set_vid_char`. -/
def setVidChar (c : Console) (x y : ℤ) (b : BitVec 8) : Console :=
  if offScreen x y then c else (c.storeVid (cell x y) b).storeVid (cell x y + 1) c.attr

/-- `clear`. -/
def clear (c : Console) : Console :=
  (List.range (25 * 80)).foldl
    (fun c i => (c.storeVid (2 * i) (ch ' ')).storeVid (2 * i + 1) c.attr) c

/-- The body of the copying loop of `scroll`. -/
def scrollCell (y : ℕ) (c : Console) (x : ℕ) : Console :=
  let c := c.setattr (c.loadVid (cell x (y + 1) + 1))
  c.setVidChar x y (c.getVidChar x (y + 1))

/-- The copying loop of `scroll`. -/
def scrollRows (c : Console) : Console :=
  (List.range 24).foldl (fun c y => (List.range 80).foldl (scrollCell y) c) c

/-- The loop of `scroll` that empties the last row. -/
def blankRow (c : Console) : Console :=
  (List.range 80).foldl (fun (c : Console) (x : ℕ) => c.setVidChar x (numRows - 1) (ch ' ')) c

/-- `scroll`. -/
def scroll (c : Console) : Console :=
  let oldAttr := c.attr
  let c := (c.scrollRows.setattr defAttr).blankRow
  let c := c.setpos c.curX (c.curY - 1)
  c.setattr oldAttr

/-- `back`. -/
def back (c : Console) : Console :=
  let c := { c with curX := c.curX - 1 }
  let c := if c.curX < 0 then { c with curX := c.curX + numCols, curY := c.curY - 1 } else c
  c.setpos c.curX c.curY

/-- One step of the cursor to the right, around the end of the row. -/
def advance (c : Console) : Console :=
  let c := { c with curX := c.curX + 1 }
  if numCols ≤ c.curX then { c with curX := c.curX - numCols, curY := c.curY + 1 } else c

/-- `forward`. -/
def forward (c : Console) : Console :=
  let c := c.advance
  c.setpos c.curX c.curY

/-- The end of a line on the last row: scroll and stay there. -/
def scrollIfBelow (c : Console) : Console :=
  if numRows ≤ c.curY then { c.scroll with curY := numRows - 1 } else c

/-- `putc`. -/
def putc (c : Console) (b : BitVec 8) : Console :=
  let c :=
    if b = ch '\n' then scrollIfBelow { c with curY := c.curY + 1, curX := 0 }
    else if b = ch '\r' then { c with curX := 0 }
    else if b = 8 then
      let c := c.back
      c.setVidChar c.curX c.curY (ch ' ')
    else (c.setVidChar c.curX c.curY b).advance.scrollIfBelow
  c.setpos c.curX c.curY

/-- `puts`. -/
def puts (c : Console) (s : List (BitVec 8)) : Console := s.foldl putc c

/-! ## Escape sequences -/

/-- The sequences `s` and `S`: a setting, by its number.  Setting 3 changes the shape of the cursor,
which is in another register of the chip. -/
def setting (c : Console) (on : Bool) : Console :=
  if c.argLen = 0 then c
  else if c.args 0 = 1 then { c with termNoecho := on }
  else if c.args 0 = 2 then { c with termCanon := on }
  else c

/-- `esc_funcs`, on the arguments parsed so far. -/
def escFuncs (c : Console) (f : BitVec 8) : Console :=
  if f = ch 'f' then
    if c.argLen ≠ 0 then c.setattr ((c.attr &&& 0xF0) ||| (c.args 0 &&& 0x0F))
    else c.setattr ((c.attr &&& 0xF0) ||| (defAttr &&& 0x0F))
  else if f = ch 'b' then
    if c.argLen ≠ 0 then c.setattr ((c.attr &&& 0x0F) ||| ((c.args 0 &&& 0x0F) <<< 4))
    else c.setattr ((c.attr &&& 0x0F) ||| (defAttr &&& 0xF0))
  else if f = ch 'p' then
    if 1 < c.argLen then c.setpos ((c.args 1).toNat - 1) ((c.args 0).toNat - 1) else c
  else if f = ch 'e' then
    if c.argLen = 0 then { c with curXStore := c.curX, curYStore := c.curY } else c
  else if f = ch 'r' then
    if c.argLen = 0 then c.setpos c.curXStore c.curYStore else c
  else if f = ch 'c' then
    if c.argLen = 0 then c.clear else c
  else if f = ch 's' then c.setting true
  else if f = ch 'S' then c.setting false
  else c

/-- The end of an escape sequence. -/
def finishEsc (c : Console) (f : BitVec 8) : Console :=
  { c.escFuncs f with state := .idle, bufLen := 0, argLen := 0 }

/-- The end of an argument: its digits are read, if there is room for one more argument. -/
def pushArg (c : Console) : Console :=
  if c.argLen < 3 then
    let c := c.storeBuf c.bufLen 0
    let c := c.storeArgs c.argLen ((atoi (stringIn c.buf 4) 10).setWidth 8)
    { c with argLen := c.argLen + 1 }
  else c

/-- The part of `esc_parse` that runs in state `ARG_PARSE`. -/
def argParse (c : Console) (b : BitVec 8) : Console :=
  if isnum b then
    if c.bufLen < 3 then { c.storeBuf c.bufLen b with bufLen := c.bufLen + 1 } else c
  else
    let c := { c.pushArg with bufLen := 0 }
    if b ≠ ch ';' then c.finishEsc b else c

/-- `esc_parse`: whether the byte is to be put on the screen, and the terminal after the call. -/
def escParse (c : Console) (b : BitVec 8) : Bool × Console :=
  if b = 0x1B then (false, { c with state := .aEscape })
  else if c.state = .aEscape ∧ b = ch '[' then (false, { c with state := .aBracket })
  else if c.state = .aBracket then
    let c := { c with argLen := 0, bufLen := 0, state := .argParse }
    if isnum b then (false, c.argParse b) else (false, c.finishEsc b)
  else if c.state = .argParse then (false, c.argParse b)
  else (true, c)

/-- The body of the loop of `term_write`. -/
def writeByte (c : Console) (b : BitVec 8) : Console :=
  let (visible, c) := c.escParse b
  if visible then c.putc b else c

/-- `term_write`, on the terminal of the process. -/
def termWrite (c : Console) (bytes : List (BitVec 8)) : Console := bytes.foldl writeByte c

/-! ## The line editor -/

/-- The loop of `addch` that makes room at the cursor, from the end of the line down. -/
def openGap (c : Console) : Console :=
  (List.range (c.termBufCount - c.termCurpos)).foldl
    (fun c j => c.storeTermBuf (c.termBufCount - j) (c.termBuf (c.termBufCount - j - 1))) c

/-- Put the rest of the line on the screen, from the cursor on. -/
def putRest (c : Console) : Console :=
  (List.range' c.termCurpos (c.termBufCount - c.termCurpos)).foldl
    (fun (c : Console) i => c.putc (c.termBuf i)) c

/-- The part of `addch` that changes the line. -/
def insertCh (c : Console) (b : BitVec 8) : Console :=
  let c := c.openGap
  let c := c.storeTermBuf c.termCurpos b
  { c with termCurpos := c.termCurpos + 1, termBufCount := c.termBufCount + 1 }

/-- `addch`. -/
def addch (c : Console) (b : BitVec 8) : Console :=
  if c.termBufCount < termBufSize ∧ c.reading = true then
    let c := c.insertCh b
    if c.termNoecho then c
    else
      let c := (c.putc b).putRest
      back^[c.termBufCount - c.termCurpos] c
  else c

/-- The loop of `delch` that closes the gap before the cursor. -/
def closeGap (c : Console) : Console :=
  (List.range' (c.termCurpos - 1) (c.termBufCount - 1 - (c.termCurpos - 1))).foldl
    (fun c i => c.storeTermBuf i (c.termBuf (i + 1))) c

/-- The part of `delch` that changes the line. -/
def removeCh (c : Console) : Console :=
  let c := c.closeGap
  { c with termCurpos := c.termCurpos - 1, termBufCount := c.termBufCount - 1 }

/-- `delch`. -/
def delch (c : Console) : Console :=
  if 0 < c.termCurpos then
    let c := c.removeCh
    if c.termCanon then c
    else
      let c := c.back
      let oldX := c.curX
      let oldY := c.curY
      let c := c.putRest.putc (ch ' ')
      c.setpos oldX oldY
  else c

/-- One step of the cursor to the left, in the line and on the screen. -/
def stepBack (c : Console) : Console := back { c with termCurpos := c.termCurpos - 1 }

/-- One step of the cursor to the right, in the line and on the screen. -/
def stepForward (c : Console) : Console := forward { c with termCurpos := c.termCurpos + 1 }

/-- `while (term_curpos && p(term_buf[term_curpos - 1])) f()`, at most `n` rounds of it. -/
def whileBefore (p : BitVec 8 → Bool) (f : Console → Console) : ℕ → Console → Console
  | 0, c => c
  | n + 1, c =>
    if 0 < c.termCurpos ∧ p (c.termBuf (c.termCurpos - 1)) = true then
      whileBefore p f n (f c)
    else c

/-- `while (term_curpos < term_buf_count && p(term_buf[term_curpos])) f()`, at most `n` rounds. -/
def whileAfter (p : BitVec 8 → Bool) (f : Console → Console) : ℕ → Console → Console
  | 0, c => c
  | n + 1, c =>
    if c.termCurpos < c.termBufCount ∧ p (c.termBuf c.termCurpos) = true then
      whileAfter p f n (f c)
    else c

/-- Whether a byte is of the same kind, alphanumeric or not, as another. -/
def sameKind (a b : BitVec 8) : Bool := isalnum a == isalnum b

/-- Do `f` over the word before the cursor. -/
def wordBefore (f : Console → Console) (c : Console) : Console :=
  if c.termCurpos = 0 then c
  else whileBefore (sameKind (c.termBuf (c.termCurpos - 1))) f c.termCurpos c

/-- Do `f` over the word after the cursor. -/
def wordAfter (f : Console → Console) (c : Console) : Console :=
  if c.termBufCount ≤ c.termCurpos then c
  else whileAfter (sameKind (c.termBuf c.termCurpos)) f (c.termBufCount - c.termCurpos) c

/-- C-l: bring the line being edited to the top of the screen. -/
def clearAbove (c : Console) : Console :=
  let n := c.termCurpos
  let c := back^[n] c
  let c := scroll^[c.curY.toNat] c
  forward^[n] c

/-! ## Keys -/

/-- `MOD_CTRL`. -/
def modCtrl : BitVec 8 := 0x80

/-- `MOD_ALT`. -/
def modAlt : BitVec 8 := 0x20

/-- `KEY_BACK`. -/
def keyBack : BitVec 8 := 0x82

/-- `KEY_ENTER`. -/
def keyEnter : BitVec 8 := 0x83

/-- `KEY_LEFT`. -/
def keyLeft : BitVec 8 := 0x86

/-- `KEY_RIGHT`. -/
def keyRight : BitVec 8 := 0x87

/-- `KEY_F1`. -/
def keyF1 : BitVec 8 := 0x8A

/-- `KEY_F3`. -/
def keyF3 : BitVec 8 := 0x8C

/-- `KEY_F12`. -/
def keyF12 : BitVec 8 := 0x95

/-- `key_t`, less the type of the key, which is never looked at. -/
structure Key where
  modifiers : BitVec 8
  key : BitVec 8
  deriving DecidableEq

/-- The control characters of `term_key_handler`. -/
def ctrlKey (c : Console) (key : BitVec 8) : Console :=
  if key = ch 'l' then c.clearAbove
  else if key = ch 'b' then if 0 < c.termCurpos then c.stepBack else c
  else if key = ch 'f' then if c.termCurpos < c.termBufCount then c.stepForward else c
  else if key = ch 'a' then stepBack^[c.termCurpos] c
  else if key = ch 'e' then stepForward^[c.termBufCount - c.termCurpos] c
  else if key = ch 'w' then wordBefore delch c
  else if key = ch 'u' then delch^[c.termCurpos] c
  else if key = ch 'h' then c.delch
  else if key = ch 'c' then c.puts [ch '^', ch 'C']
  else if key = ch 'm' then { c with termReadDone := true }
  else c

/-- The keys with Alt of `term_key_handler`, other than those that switch terminals. -/
def altKey (c : Console) (key : BitVec 8) : Console :=
  if key = ch 'b' then wordBefore stepBack c
  else if key = ch 'f' then wordAfter stepForward c
  else c

/-- The branches of `term_key_handler` for a terminal in line mode. -/
def lineKey (c : Console) (k : Key) : Console :=
  if k.modifiers = modCtrl then c.ctrlKey k.key
  else if k.modifiers = modAlt then c.altKey k.key
  else if k.key = keyEnter then c.ctrlKey (ch 'm')
  else if k.key = keyBack then c.ctrlKey (ch 'h')
  else if k.key = keyLeft then c.ctrlKey (ch 'b')
  else if k.key = keyRight then c.ctrlKey (ch 'f')
  else if keyF1 ≤ k.key ∧ k.key ≤ keyF12 then c
  else c.addch k.key

/-- What a key that does not switch terminals does to the terminal on display. -/
def handleKey (c : Console) (k : Key) : Console :=
  if c.termCanon then addch { c with termCurpos := c.termBufCount } k.key else c.lineKey k

/-! ## Reading -/

/-- The beginning of `term_read`, before it waits. -/
def readStart (c : Console) : Console := { c with reading := true }

/-- The end of `term_read` for a terminal that was in canonical mode when it began, once it has seen
a byte: the byte delivered, and the terminal after the call. -/
def readCanon (c : Console) : Option (List (BitVec 8) × Console) :=
  if c.termBufCount = 0 then none
  else
    let c := { c with reading := false }
    some ([c.termBuf 0], delch { c with termCurpos := 1 })

/-- The echo of the end of the line, and the newline at the end of the buffer. -/
def endLine (c : Console) : Console :=
  let c := { c with reading := false }
  let c := if c.termNoecho then c else c.putc (ch '\n')
  let c := c.storeTermBuf c.termBufCount (ch '\n')
  { c with termBufCount := c.termBufCount + 1 }

/-- The end of `term_read` for a terminal that was in line mode when it began, once it has seen the
end of the line: the bytes delivered, and the terminal after the call. -/
def readLine (nbytes : ℕ) (c : Console) : Option (List (BitVec 8) × Console) :=
  if c.termReadDone = false then none
  else
    let c := c.endLine
    let copyCount := min nbytes c.termBufCount
    some ((List.range copyCount).map c.termBuf,
      { c with termBufCount := 0, termReadDone := false, termCurpos := 0 })

end Console

end Term
end CoreOS
