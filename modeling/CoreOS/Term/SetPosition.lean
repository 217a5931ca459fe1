import CoreOS.Term.EscParser

/-!
# Setting the position of the cursor

`ESC [ r ; c p` is to put the cursor into row `r` and column `c`, both counted from 1, or as near to
them as there is a row and a column.  Each numeral goes through three places that are too small for
it: the first three of its digits are kept, `args` holds what they stand for modulo 256, and only
then `setpos` brings it into range.

So a numeral can be cut down to one in range, or to zero, before it is compared with anything.
`setsPosition_iff` says which numerals arrive.
-/

namespace CoreOS
namespace Term

open Console

/-! ## Numerals -/

/-- A decimal numeral: one digit or more. -/
def IsNumeral (ds : List (BitVec 8)) : Prop := ds ≠ [] ∧ ∀ d ∈ ds, isnum d = true

instance (ds : List (BitVec 8)) : Decidable (IsNumeral ds) := inferInstanceAs (Decidable (_ ∧ _))

/-- The number a numeral stands for. -/
def value (ds : List (BitVec 8)) : ℕ := ds.foldl (fun n d => 10 * n + (d.toNat - 48)) 0

/-- What arrives of a numeral in `args`. -/
def argOf (ds : List (BitVec 8)) : BitVec 8 := BitVec.ofNat 8 (value (ds.take 3))

/-- The row or column, counted from 0, that is meant by the number `n`, when there are `bound` of
them. -/
def target (bound n : ℕ) : ℤ := min (max n 1) bound - 1

theorem isnum_iff {d : BitVec 8} : isnum d = true ↔ 48 ≤ d.toNat ∧ d.toNat ≤ 57 := by
  rw [isnum, decide_eq_true_eq]
  rfl

theorem digit_of_isnum {d : BitVec 8} (hd : isnum d = true) :
    digit d = ((d.toNat - 48 : ℕ) : ℤ) := by
  obtain ⟨hlow, hhigh⟩ := isnum_iff.mp hd
  have hint : d.toInt = d.toNat := by
    rw [BitVec.toInt_eq_toNat_cond, if_pos (by omega)]
  have hzero : (ch '0').toInt = 48 := by decide
  have hnine : (ch '9').toInt = 57 := by decide
  rw [digit, if_pos (by omega), hint, hzero]
  omega

theorem value_le_append (ds ds' : List (BitVec 8)) : value ds ≤ value (ds ++ ds') := by
  rw [value, value, List.foldl_append]
  generalize List.foldl (fun n (d : BitVec 8) => 10 * n + (d.toNat - 48)) 0 ds = n
  induction ds' generalizing n with
  | nil => exact Nat.le_refl n
  | cons d ds' ih => exact Nat.le_trans (by omega) (ih (10 * n + (d.toNat - 48)))

/-- `atoi` on digits. -/
theorem atoi_eq {ds : List (BitVec 8)} (hds : ∀ d ∈ ds, isnum d = true) :
    atoi ds 10 = BitVec.ofNat 32 (value ds) := by
  have hfold : ∀ (ds : List (BitVec 8)) (n : ℕ), (∀ d ∈ ds, isnum d = true) →
      ds.foldl (fun res d => res * BitVec.ofInt 32 10 + BitVec.ofInt 32 (digit d))
          (BitVec.ofNat 32 n) =
        BitVec.ofNat 32 (ds.foldl (fun n d => 10 * n + (d.toNat - 48)) n) := by
    intro ds
    induction ds with
    | nil => exact fun n _ => rfl
    | cons d ds ih =>
      intro n hds
      have hstep : BitVec.ofNat 32 n * BitVec.ofInt 32 10 + BitVec.ofInt 32 (digit d) =
          BitVec.ofNat 32 (10 * n + (d.toNat - 48)) := by
        rw [digit_of_isnum (hds d List.mem_cons_self), BitVec.ofInt_natCast,
          show BitVec.ofInt 32 10 = BitVec.ofNat 32 10 from rfl, ← BitVec.ofNat_mul,
          ← BitVec.ofNat_add, Nat.mul_comm]
      rw [List.foldl_cons, List.foldl_cons, hstep]
      exact ih _ fun d' hd' => hds d' (List.mem_cons_of_mem d hd')
  exact hfold ds 0 hds

namespace Console

/-! ## Collecting an argument -/

/-- The parser has begun an argument, and has `ds` of its digits in `buf`. -/
structure Collects (c : Console) (ds : List (BitVec 8)) : Prop where
  state : c.state = .argParse
  bufLen : c.bufLen = ds.length
  buf : ∀ i (hi : i < ds.length), c.buf i = ds[i]

/-- What the parser leaves alone before the end of a sequence. -/
structure Unmoved (c c' : Console) : Prop where
  screen : c'.screen = c.screen
  attr : c'.attr = c.attr

theorem Unmoved.refl (c : Console) : Unmoved c c := ⟨rfl, rfl⟩

theorem Unmoved.trans {c c' c'' : Console} (h : Unmoved c c') (h' : Unmoved c' c'') :
    Unmoved c c'' :=
  ⟨h'.screen.trans h.screen, h'.attr.trans h.attr⟩

section parse

variable {c : Console} {b : BitVec 8} {ds : List (BitVec 8)}

theorem isnum_ne_esc (hb : isnum b = true) : b ≠ 0x1B := by
  rintro rfl
  exact absurd hb (by decide)

/-- In the state of arguments a byte other than ESC goes to the part of the parser for them. -/
theorem writeByte_argParse (hstate : c.state = .argParse) (hb : b ≠ 0x1B) :
    c.writeByte b = c.argParse b := by
  rw [writeByte, escParse, if_neg hb, if_neg (by rw [hstate]; simp), if_neg (by rw [hstate]; simp),
    if_pos hstate]
  rfl

/-- The first digit after the bracket. -/
theorem writeByte_aBracket (hstate : c.state = .aBracket) (hb : isnum b = true) :
    c.writeByte b = argParse { c with argLen := 0, bufLen := 0, state := .argParse } b := by
  rw [writeByte, escParse, if_neg (isnum_ne_esc hb), if_neg (by rw [hstate]; simp), if_pos hstate]
  dsimp only
  rw [if_pos hb]
  rfl

/-- **A digit** is kept if it is one of the first three. -/
theorem Collects.digit (h : Collects c (ds.take 3)) (hb : isnum b = true) :
    Collects (c.argParse b) ((ds ++ [b]).take 3) ∧ Unmoved c (c.argParse b) ∧
      (c.argParse b).argLen = c.argLen ∧ (c.argParse b).args = c.args := by
  have hlen := h.bufLen
  rw [List.length_take] at hlen
  rw [argParse, if_pos hb]
  by_cases hroom : c.bufLen < 3
  · have hshort : ds.length < 3 := by omega
    have hall : ds.take 3 = ds := List.take_of_length_le (by omega)
    rw [hall] at h
    have hall' : (ds ++ [b]).take 3 = ds ++ [b] :=
      List.take_of_length_le (by rw [List.length_append, List.length_singleton]; omega)
    rw [if_pos hroom, hall']
    refine ⟨⟨h.state, ?_, fun i hi => ?_⟩, ⟨rfl, rfl⟩, rfl, rfl⟩
    · rw [List.length_append, List.length_singleton, ← h.bufLen]
    · show Function.update c.buf c.bufLen b i = _
      rw [List.length_append, List.length_singleton] at hi
      by_cases hlast : i = c.bufLen
      · have hval : Function.update c.buf c.bufLen b i = b := by rw [hlast, Function.update_self]
        obtain rfl : i = ds.length := hlast.trans h.bufLen
        rw [hval, List.getElem_concat_length rfl]
      · have hlt : i < ds.length := by
          have := h.bufLen
          omega
        rw [Function.update_of_ne hlast, h.buf i hlt, List.getElem_append_left hlt]
  · have hlong : 3 ≤ ds.length := by omega
    rw [if_neg hroom, List.take_append_of_le_length hlong]
    exact ⟨h, Unmoved.refl c, rfl, rfl⟩

/-- More digits. -/
theorem Collects.digits (h : Collects c (ds.take 3)) {ds' : List (BitVec 8)}
    (hds' : ∀ d ∈ ds', isnum d = true) :
    Collects (c.termWrite ds') ((ds ++ ds').take 3) ∧ Unmoved c (c.termWrite ds') ∧
      (c.termWrite ds').argLen = c.argLen ∧ (c.termWrite ds').args = c.args := by
  induction ds' generalizing c ds with
  | nil =>
    rw [List.append_nil]
    exact ⟨h, Unmoved.refl c, rfl, rfl⟩
  | cons d ds' ih =>
    have hd := hds' d List.mem_cons_self
    have hstep := h.digit hd
    rw [← writeByte_argParse h.state (isnum_ne_esc hd)] at hstep
    obtain ⟨hcollects, hunmoved, hlen, hargs⟩ := hstep
    obtain ⟨hcollects', hunmoved', hlen', hargs'⟩ :=
      ih hcollects fun d' hd' => hds' d' (List.mem_cons_of_mem d hd')
    rw [List.append_assoc, List.singleton_append] at hcollects'
    exact ⟨hcollects', hunmoved.trans hunmoved', hlen'.trans hlen, hargs'.trans hargs⟩

/-- The string in `buf` at the end of an argument is what has been collected. -/
theorem Collects.string (h : Collects c ds) (hlen : ds.length ≤ 3)
    (hds : ∀ d ∈ ds, isnum d = true) : stringIn (c.storeBuf c.bufLen 0).buf 4 = ds := by
  have hbuf : ∀ i, (c.storeBuf c.bufLen 0).buf i = if i = ds.length then 0 else c.buf i := by
    intro i
    rw [← h.bufLen]
    exact Function.update_apply ..
  have hrange : List.range 4 = List.range ds.length ++ ds.length ::
      (List.range (3 - ds.length)).map (ds.length + 1 + ·) := by
    have hsplit : (4 : ℕ) = ds.length + 1 + (3 - ds.length) := by omega
    rw [hsplit, List.range_add, List.range_succ, List.append_assoc, List.singleton_append]
  have hfront : (List.range ds.length).map (c.storeBuf c.bufLen 0).buf = ds := by
    refine List.ext_getElem (by simp) fun i hi _ => ?_
    rw [List.length_map, List.length_range] at hi
    rw [List.getElem_map, List.getElem_range, hbuf, if_neg (by omega), h.buf i hi]
  have hne : ∀ d ∈ ds, decide (d ≠ 0) = true := by
    intro d hd
    rw [decide_eq_true_eq]
    rintro rfl
    exact absurd (hds 0 hd) (by decide)
  rw [CoreOS.stringIn, hrange, List.map_append, hfront, List.map_cons, hbuf, if_pos rfl,
    List.takeWhile_append_of_pos hne, List.takeWhile_cons_of_neg (by simp), List.append_nil]

/-- **The end of an argument.** -/
theorem Collects.pushArg (h : Collects c (ds.take 3)) (hds : ∀ d ∈ ds, isnum d = true)
    (hroom : c.argLen < 3) :
    c.pushArg.args = Function.update c.args c.argLen (argOf ds) ∧
      c.pushArg.argLen = c.argLen + 1 ∧ c.pushArg.state = .argParse ∧ Unmoved c c.pushArg := by
  have htake : ∀ d ∈ ds.take 3, isnum d = true := fun d hd => hds d (List.mem_of_mem_take hd)
  have hstring := h.string (by rw [List.length_take]; omega) htake
  have harg : (atoi (CoreOS.stringIn (c.storeBuf c.bufLen 0).buf 4) 10).setWidth 8 = argOf ds := by
    rw [hstring, atoi_eq htake, argOf]
    refine BitVec.eq_of_toNat_eq ?_
    rw [BitVec.toNat_setWidth, BitVec.toNat_ofNat, BitVec.toNat_ofNat, Nat.mod_mod_of_dvd]
    decide
  rw [Console.pushArg, if_pos hroom]
  dsimp only
  rw [harg]
  exact ⟨rfl, rfl, h.state, rfl, rfl⟩

/-! ## The sequence -/

theorem termWrite_append (c : Console) (l l' : List (BitVec 8)) :
    c.termWrite (l ++ l') = (c.termWrite l).termWrite l' :=
  List.foldl_append

/-- The introduction of a sequence, in any state of the parser. -/
theorem termWrite_bracket (c : Console) :
    (c.termWrite [esc, ch '[']).state = .aBracket ∧ Unmoved c (c.termWrite [esc, ch '[']) := by
  have hesc : c.writeByte esc = { c with state := .aEscape } := rfl
  have hbracket : (c.writeByte esc).writeByte (ch '[') = { c with state := .aBracket } := by
    rw [hesc]
    rfl
  have heq : c.termWrite [esc, ch '['] = { c with state := .aBracket } := hbracket
  rw [heq]
  exact ⟨rfl, rfl, rfl⟩

/-- The first numeral. -/
theorem termWrite_first (hstate : c.state = .aBracket) (hds : IsNumeral ds) :
    Collects (c.termWrite ds) (ds.take 3) ∧ Unmoved c (c.termWrite ds) ∧
      (c.termWrite ds).argLen = 0 := by
  obtain ⟨hne, hnum⟩ := hds
  cases ds with
  | nil => exact absurd rfl hne
  | cons d ds =>
    have hd := hnum d List.mem_cons_self
    have hempty : Collects { c with argLen := 0, bufLen := 0, state := .argParse }
        (([] : List (BitVec 8)).take 3) :=
      ⟨rfl, rfl, fun i hi => absurd hi (Nat.not_lt_zero i)⟩
    have hstep := hempty.digit hd
    rw [← writeByte_aBracket hstate hd] at hstep
    obtain ⟨hcollects, hunmoved, hlen, -⟩ := hstep
    obtain ⟨hcollects', hunmoved', hlen', -⟩ :=
      hcollects.digits fun d' hd' => hnum d' (List.mem_cons_of_mem d hd')
    exact ⟨hcollects', Unmoved.trans ⟨hunmoved.screen, hunmoved.attr⟩ hunmoved', hlen'.trans hlen⟩

/-- The semicolon, and the second numeral. -/
theorem termWrite_second (h : Collects c (ds.take 3)) (hds : ∀ d ∈ ds, isnum d = true)
    (hlen : c.argLen = 0) {ds' : List (BitVec 8)} (hds' : ∀ d ∈ ds', isnum d = true) :
    Collects (c.termWrite (ch ';' :: ds')) (ds'.take 3) ∧
      Unmoved c (c.termWrite (ch ';' :: ds')) ∧ (c.termWrite (ch ';' :: ds')).argLen = 1 ∧
      (c.termWrite (ch ';' :: ds')).args 0 = argOf ds := by
  obtain ⟨hargs, hlen', hstate, hunmoved⟩ := h.pushArg hds (by omega)
  have hsemi : c.writeByte (ch ';') = { c.pushArg with bufLen := 0 } := by
    rw [writeByte_argParse h.state (by decide), argParse, if_neg (by decide)]
    exact if_neg (by decide)
  have hempty : Collects (c.writeByte (ch ';')) (([] : List (BitVec 8)).take 3) := by
    rw [hsemi]
    exact ⟨hstate, rfl, fun i hi => absurd hi (Nat.not_lt_zero i)⟩
  obtain ⟨hcollects, hunmoved', hlen'', hargs'⟩ := hempty.digits hds'
  rw [hsemi] at hunmoved' hlen'' hargs'
  refine ⟨hcollects, ?_, ?_, ?_⟩
  · show Unmoved c ((c.writeByte (ch ';')).termWrite ds')
    rw [hsemi]
    exact hunmoved.trans ⟨hunmoved'.screen, hunmoved'.attr⟩
  · show ((c.writeByte (ch ';')).termWrite ds').argLen = 1
    rw [hsemi, hlen'']
    show c.pushArg.argLen = 1
    omega
  · show ((c.writeByte (ch ';')).termWrite ds').args 0 = argOf ds
    rw [hsemi, hargs']
    show c.pushArg.args 0 = argOf ds
    rw [hargs, hlen, Function.update_self]

/-- The final byte. -/
theorem termWrite_final (h : Collects c (ds.take 3)) (hds : ∀ d ∈ ds, isnum d = true)
    (hlen : c.argLen = 1) :
    c.termWrite [ch 'p'] = { c.pushArg.setpos ((argOf ds).toNat - 1) ((c.args 0).toNat - 1) with
      state := .idle, bufLen := 0, argLen := 0 } := by
  obtain ⟨hargs, hlen', -, -⟩ := h.pushArg hds (by omega)
  have hfirst : c.pushArg.args 0 = c.args 0 := by
    rw [hargs, hlen, Function.update_of_ne (by decide)]
  have hsecond : c.pushArg.args 1 = argOf ds := by
    rw [hargs, hlen, Function.update_self]
  have hfinal : c.writeByte (ch 'p') = finishEsc { c.pushArg with bufLen := 0 } (ch 'p') := by
    rw [writeByte_argParse h.state (by decide), argParse, if_neg (by decide)]
    exact if_pos (by decide)
  have hfuncs : escFuncs { c.pushArg with bufLen := 0 } (ch 'p') =
      setpos { c.pushArg with bufLen := 0 } ((argOf ds).toNat - 1) ((c.args 0).toNat - 1) := by
    rw [escFuncs, if_neg (by decide), if_neg (by decide), if_pos rfl]
    dsimp only
    rw [if_pos (by omega), hfirst, hsecond]
  show c.writeByte (ch 'p') = _
  rw [hfinal, finishEsc, hfuncs]
  rfl

end parse

/-- `ESC [ r ; c p`. -/
def positionSequence (r col : List (BitVec 8)) : List (BitVec 8) :=
  [esc, ch '['] ++ (r ++ (ch ';' :: col ++ [ch 'p']))

/-- **The whole sequence.** -/
theorem termWrite_positionSequence (c : Console) {r col : List (BitVec 8)} (hr : IsNumeral r)
    (hcol : IsNumeral col) :
    (c.termWrite (positionSequence r col)).curX = clamp numCols ((argOf col).toNat - 1) ∧
      (c.termWrite (positionSequence r col)).curY = clamp numRows ((argOf r).toNat - 1) ∧
      (c.termWrite (positionSequence r col)).screen = c.screen := by
  obtain ⟨hstate, hunmoved⟩ := termWrite_bracket c
  obtain ⟨hfirst, hunmoved₁, hlen₁⟩ := termWrite_first hstate hr
  obtain ⟨hsecond, hunmoved₂, hlen₂, harg⟩ := termWrite_second hfirst hr.2 hlen₁ hcol.2
  have hpush := (hsecond.pushArg hcol.2 (by omega)).2.2.2
  have hscreen := ((hunmoved.trans hunmoved₁).trans hunmoved₂).trans hpush
  rw [positionSequence, termWrite_append, termWrite_append, termWrite_append,
    termWrite_final hsecond hcol.2 hlen₂, harg]
  exact ⟨rfl, rfl, hscreen.screen⟩

end Console

/-! ## Which numerals arrive -/

/-- **The position is set**: the cursor is in the row and the column that were asked for, or as near
to them as possible, and the screen shows what it did. -/
def SetsPosition (c : Console) (r col : List (BitVec 8)) : Prop :=
  (c.termWrite (positionSequence r col)).curX = target 80 (value col) ∧
    (c.termWrite (positionSequence r col)).curY = target 25 (value r) ∧
    (c.termWrite (positionSequence r col)).screen = c.screen

/-- A numeral for one of `bound` rows or columns that arrives in `setpos` as the same row or column.
It stands for at most 1, or for a number below the bound that its first three digits stand for as
well, or for one that is not below the bound, and neither is what the first three digits stand for,
modulo 256. -/
def Arrives (bound : ℕ) (ds : List (BitVec 8)) : Prop :=
  value ds ≤ 1 ∨ value ds < bound ∧ value (ds.take 3) = value ds ∨
    bound ≤ value ds ∧ bound ≤ value (ds.take 3) % 256

instance (bound : ℕ) (ds : List (BitVec 8)) : Decidable (Arrives bound ds) :=
  inferInstanceAs (Decidable (_ ∨ _))

theorem clamp_argOf_iff (bound : ℕ) (hlow : 1 < bound) (hhigh : bound ≤ 256)
    (ds : List (BitVec 8)) :
    clamp bound ((argOf ds).toNat - 1) = target bound (value ds) ↔ Arrives bound ds := by
  have hle : value (ds.take 3) ≤ value ds := by
    have h := value_le_append (ds.take 3) (ds.drop 3)
    rwa [List.take_append_drop] at h
  have harg : (argOf ds).toNat = value (ds.take 3) % 256 := BitVec.toNat_ofNat ..
  rw [harg, clamp, target, Arrives]
  generalize value (ds.take 3) = v at hle ⊢
  generalize value ds = n at hle ⊢
  split_ifs <;> omega

/-- **When the position is set.**  On every terminal, whatever its parser was doing: when both numerals
arrive. -/
theorem setsPosition_iff (c : Console) (r col : List (BitVec 8)) (hr : IsNumeral r)
    (hcol : IsNumeral col) : SetsPosition c r col ↔ Arrives 25 r ∧ Arrives 80 col := by
  obtain ⟨hx, hy, hscreen⟩ := c.termWrite_positionSequence hr hcol
  have hrow := clamp_argOf_iff 25 (by omega) (by omega) r
  have hcolumn := clamp_argOf_iff 80 (by omega) (by omega) col
  rw [SetsPosition, hx, hy, ← hrow, ← hcolumn]
  constructor
  · exact fun h => ⟨h.2.1, h.1⟩
  · exact fun h => ⟨h.2, h.1, hscreen⟩

/-- A terminal with nothing on it. -/
def clearTerminal : Console :=
  { System.initData with screen := fun _ => 0, shown := none, oob := false }

/-- `ESC [ 25 ; 081 p`. -/
theorem setsPosition_iff_corner :
    SetsPosition clearTerminal [ch '2', ch '5'] [ch '0', ch '8', ch '1'] ↔
      Arrives 25 [ch '2', ch '5'] ∧ Arrives 80 [ch '0', ch '8', ch '1'] :=
  setsPosition_iff _ _ _ (by decide) (by decide)

/-- **The failing sequence.**  `ESC [ 1 ; 256 p` goes to the first column and not to the last. -/
theorem not_setsPosition : ¬ ∀ c r col, IsNumeral r → IsNumeral col → SetsPosition c r col := by
  intro h
  have hcol : IsNumeral [ch '2', ch '5', ch '6'] := by decide
  obtain ⟨hx, -, -⟩ := h clearTerminal [ch '1'] _ (by decide) hcol
  rw [(clearTerminal.termWrite_positionSequence (by decide) hcol).1] at hx
  exact absurd hx (by decide)

end Term
end CoreOS
