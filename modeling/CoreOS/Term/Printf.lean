import CoreOS.Kernel.Itoa
import CoreOS.Lib.Memory
import CoreOS.Term.System

/-!
# Formatted output

`printf` walks through the format and takes its arguments from the stack, one word after the other.
Each conversion that needs text makes it in a buffer of its own, which nothing has been assigned to:
what the buffer holds at first is a parameter, `junk`.  The loops run for as many rounds as they are
given.

A format is a row of plain bytes and conversions, `%` with any number of `#` and a letter (`Item`).
`printf_prints`: what is put out is the text of the items one after the other, each conversion takes
the word that is its own, and the result is the length of the format.  A letter that stands for no
conversion is passed over.  This includes the byte that ends the format: behind a `%` it ends nothing,
and `printf` goes on with whatever lies behind the format.
-/

namespace CoreOS
namespace Term

open FileSys Console

namespace Printf

/-! ## The functions -/

/-- The string at a pointer. -/
def stringAt (m : Memory 32) (p : BitVec 32) : CStr := fun i => m (p + BitVec.ofNat 32 i)

/-- The loop of `puts`, from byte `index` on. -/
def putsFrom (s : CStr) : ℕ → ℕ → Console → Option Console
  | 0, _, _ => none
  | fuel + 1, index, c =>
    if s index ≠ 0 then putsFrom s fuel (index + 1) (c.putc (s index)) else some c

/-- The loop of `%#x` that puts zeros in front, from byte `i` on. -/
def padZeros (convBuf : CStr) (i : ℕ) : CStr :=
  (List.range' i (8 - i)).foldl (fun convBuf i => Function.update convBuf i (ch '0')) convBuf

/-- `%#x`: what is put out. -/
def convAlternate (fuel : ℕ) (value : BitVec 32) (convBuf : CStr) : Option CStr :=
  (itoa fuel value (fun i => convBuf (i + 8)) 16).bind fun digits =>
    (strlen fuel digits).map fun startingIndex =>
      let convBuf := fun i => if i < 8 then convBuf i else digits (i - 8)
      let convBuf := padZeros convBuf startingIndex
      fun i => convBuf (startingIndex + i)

/-- `%d`: what is put out. -/
def convSigned (fuel : ℕ) (value : BitVec 32) (convBuf : CStr) : Option CStr :=
  if value.toInt < 0 then
    (itoa fuel (-value) (fun i => convBuf (i + 1)) 10).map fun digits i =>
      if i = 0 then ch '-' else digits (i - 1)
  else itoa fuel value convBuf 10

/-- Where `printf` is: the console, `buf` as an index into the format, and the number of words that
`esp` has moved on. -/
structure Place where
  console : Console
  buf : ℕ
  esp : ℕ

/-- A text is put out, and its argument is used up. -/
def Place.puts (s : Place) (fuel : ℕ) (text : CStr) : Option Place :=
  (putsFrom text fuel 0 s.console).map fun c => { s with console := c, esp := s.esp + 1 }

section printf

variable (m : Memory 32) (format : CStr) (args : ℕ → BitVec 32) (junk : ℕ → CStr) (fuel : ℕ)

/-- `format_char_switch`, on the byte behind the `%`. -/
def conversion : ℕ → Bool → Place → Option Place
  | 0, _, _ => none
  | rounds + 1, alternate, s =>
    if format s.buf = ch '%' then some { s with console := s.console.putc (ch '%') }
    else if format s.buf = ch '#' then conversion rounds true { s with buf := s.buf + 1 }
    else if format s.buf = ch 'x' then
      (if alternate then convAlternate fuel (args s.esp) (junk s.buf)
        else itoa fuel (args s.esp) (junk s.buf) 16).bind fun text => s.puts fuel text
    else if format s.buf = ch 'u' then
      (itoa fuel (args s.esp) (junk s.buf) 10).bind fun text => s.puts fuel text
    else if format s.buf = ch 'd' then
      (convSigned fuel (args s.esp) (junk s.buf)).bind fun text => s.puts fuel text
    else if format s.buf = ch 'c' then
      some { s with console := s.console.putc ((args s.esp).setWidth 8), esp := s.esp + 1 }
    else if format s.buf = ch 's' then s.puts fuel (stringAt m (args s.esp))
    else some s

/-- The loop of `printf`. -/
def printfLoop : ℕ → Place → Option Place
  | 0, _ => none
  | rounds + 1, s =>
    if format s.buf ≠ 0 then
      (if format s.buf = ch '%' then
          conversion m format args junk fuel fuel false { s with buf := s.buf + 1 }
        else some { s with console := s.console.putc (format s.buf) }).bind fun s =>
        printfLoop rounds { s with buf := s.buf + 1 }
    else some s

/-- `printf`: the console and the result. -/
def printf (c : Console) : Option (Console × ℕ) :=
  (printfLoop m format args junk fuel fuel ⟨c, 0, 0⟩).map fun s => (s.console, s.buf)

end printf

/-! ## Formats -/

/-- A conversion, with the word that is passed for it. -/
inductive Conv where
  | percent
  | hex (value : BitVec 32)
  | unsigned (value : BitVec 32)
  | signed (value : BitVec 32)
  | char (value : BitVec 32)
  | string (p : BitVec 32)
  | ignored (letter : BitVec 8)

/-- A plain byte, or a conversion with so many `#`. -/
inductive Item where
  | plain (b : BitVec 8)
  | conv (marks : ℕ) (k : Conv)

namespace Conv

/-- How a conversion is written. -/
def letter : Conv → BitVec 8
  | percent => ch '%'
  | hex _ => ch 'x'
  | unsigned _ => ch 'u'
  | signed _ => ch 'd'
  | char _ => ch 'c'
  | string _ => ch 's'
  | ignored letter => letter

/-- The words that it takes. -/
def words : Conv → List (BitVec 32)
  | percent => []
  | hex value => [value]
  | unsigned value => [value]
  | signed value => [value]
  | char value => [value]
  | string p => [p]
  | ignored _ => []

end Conv

/-- The letters that mean something behind a `%`. -/
def letters : List (BitVec 8) := [ch '%', ch '#', ch 'x', ch 'u', ch 'd', ch 'c', ch 's']

/-- A number as text, without a leading zero. -/
def numeral (radix n : ℕ) : List (BitVec 8) :=
  if n = 0 then [ch '0'] else (Nat.digits radix n).reverse.map digitChar

/-- A signed number as text. -/
def signedNumeral (n : ℤ) : List (BitVec 8) :=
  if n < 0 then ch '-' :: numeral 10 n.natAbs else numeral 10 n.natAbs

/-- A number in eight hexadecimal digits. -/
def hexDigits (n : ℕ) : List (BitVec 8) :=
  List.replicate (8 - (numeral 16 n).length) (ch '0') ++ numeral 16 n

section text

variable (str : BitVec 32 → List (BitVec 8))

/-- What a conversion puts out, if `str` are the strings at the pointers. -/
def Conv.text (marked : Bool) : Conv → List (BitVec 8)
  | percent => [ch '%']
  | hex value => if marked then hexDigits value.toNat else numeral 16 value.toNat
  | unsigned value => numeral 10 value.toNat
  | signed value => signedNumeral value.toInt
  | char value => [value.setWidth 8]
  | string p => str p
  | ignored _ => []

namespace Item

/-- How an item is written. -/
def render : Item → List (BitVec 8)
  | plain b => [b]
  | conv marks k => ch '%' :: (List.replicate marks (ch '#') ++ [k.letter])

/-- The words that it takes. -/
def words : Item → List (BitVec 32)
  | plain _ => []
  | conv _ k => k.words

/-- The pointers among them. -/
def pointers : Item → List (BitVec 32)
  | conv _ (.string p) => [p]
  | _ => []

/-- What it puts out. -/
def text : Item → List (BitVec 8)
  | plain b => [b]
  | conv marks k => k.text str (0 < marks)

/-- A plain byte is none that begins a conversion or ends the format, and the letters that are passed
over are none of the others. -/
def Proper : Item → Prop
  | plain b => b ≠ 0 ∧ b ≠ ch '%'
  | conv _ (.ignored letter) => letter ∉ letters
  | conv _ _ => True

end Item

end text

/-- The entries from place `i` on. -/
def Row {α : Type*} (f : ℕ → α) : ℕ → List α → Prop
  | _, [] => True
  | i, a :: l => f i = a ∧ Row f (i + 1) l

instance decidableRow {α : Type*} [DecidableEq α] (f : ℕ → α) :
    (i : ℕ) → (l : List α) → Decidable (Row f i l)
  | _, [] => inferInstanceAs (Decidable True)
  | i, _ :: l =>
    have := decidableRow f (i + 1) l
    inferInstanceAs (Decidable (_ ∧ _))

theorem row_append {α : Type*} {f : ℕ → α} {i : ℕ} {l l' : List α} :
    Row f i (l ++ l') ↔ Row f i l ∧ Row f (i + l.length) l' := by
  induction l generalizing i with
  | nil => simp [Row]
  | cons a l ih =>
    rw [List.cons_append, Row, Row, ih, List.length_cons, and_assoc, Nat.add_assoc, Nat.add_comm 1]

/-! ## Texts -/

theorem puts_append (c : Console) (u v : List (BitVec 8)) :
    c.puts (u ++ v) = (c.puts u).puts v :=
  List.foldl_append

theorem putsFrom_eq {s : CStr} {u : List (BitVec 8)} (h : IsString s u) {fuel index : ℕ}
    (hindex : index ≤ u.length) (hfuel : u.length - index < fuel) (c : Console) :
    putsFrom s fuel index c = some (c.puts (u.drop index)) := by
  induction fuel generalizing index c with
  | zero => omega
  | succ fuel ih =>
    rw [putsFrom]
    rcases Nat.eq_or_lt_of_le hindex with rfl | hlt
    · rw [if_neg fun hne => hne h.nul, List.drop_length]
      rfl
    · have hbyte := h.byte index hlt
      have hne : s index ≠ 0 := by
        rw [hbyte]
        exact h.byte_ne _ (List.getElem_mem hlt)
      rw [if_pos hne, ih hlt (by omega), hbyte, List.drop_eq_getElem_cons hlt]
      rfl

/-- **`itoa`** makes the numeral. -/
theorem itoa_numeral (value : BitVec 32) (radix : ℕ) (h₂ : 2 ≤ radix) (h₃₆ : radix ≤ 36) (buf : CStr)
    {fuel : ℕ} (hfuel : 33 ≤ fuel) : ∃ buf', itoa fuel value buf (BitVec.ofNat 32 radix) = some buf' ∧
      IsString buf' (numeral radix value.toNat) := by
  by_cases hvalue : value = 0
  · rw [hvalue]
    refine ⟨_, if_pos rfl, ?_⟩
    show IsString _ (numeral radix 0)
    rw [numeral, if_pos rfl]
    refine ⟨fun k hk => ?_, by decide, rfl⟩
    obtain rfl : k = 0 := Nat.lt_one_iff.mp hk
    rfl
  · have hpos : value.toNat ≠ 0 := fun h => hvalue (BitVec.eq_of_toNat_eq h)
    have hlen : (Nat.digits radix value.toNat).length ≤ 32 := by
      refine (Nat.digits_length_le_iff h₂ _).mpr (value.isLt.trans_le ?_)
      exact Nat.pow_le_pow_left h₂ 32
    rw [numeral, if_neg hpos]
    exact itoa_of_ne hvalue h₂ h₃₆ buf (by omega)

theorem length_numeral_le {radix k n : ℕ} (h₂ : 2 ≤ radix) (hk : 1 ≤ k) (hn : n < radix ^ k) :
    (numeral radix n).length ≤ k := by
  unfold numeral
  split
  · exact hk
  · rw [List.length_map, List.length_reverse]
    exact (Nat.digits_length_le_iff h₂ n).mpr hn

theorem padZeros_apply (convBuf : CStr) {i : ℕ} (hi : i ≤ 8) (j : ℕ) :
    padZeros convBuf i j = if i ≤ j ∧ j < 8 then ch '0' else convBuf j := by
  have hrounds : ∀ n, (List.range' i n).foldl (fun convBuf i => Function.update convBuf i (ch '0'))
      convBuf j = if i ≤ j ∧ j < i + n then ch '0' else convBuf j := by
    intro n
    induction n with
    | zero => exact (if_neg (by omega)).symm
    | succ n ih =>
      rw [List.range'_concat, List.foldl_concat, Nat.one_mul]
      by_cases hj : j = i + n
      · rw [hj, Function.update_self, if_pos (by omega)]
      · rw [Function.update_of_ne hj, ih]
        exact if_congr (by omega) rfl rfl
  rw [padZeros, hrounds, Nat.add_sub_cancel' hi]

/-- **`%#x`** makes eight digits. -/
theorem convAlternate_spec (value : BitVec 32) (convBuf : CStr) {fuel : ℕ} (hfuel : 33 ≤ fuel) :
    ∃ text, convAlternate fuel value convBuf = some text ∧
      IsString text (hexDigits value.toNat) := by
  obtain ⟨digits, hitoa, hstring⟩ := itoa_numeral value 16 (by decide) (by decide)
    (fun i => convBuf (i + 8)) hfuel
  have hle : (numeral 16 value.toNat).length ≤ 8 :=
    length_numeral_le (by decide) (by decide) value.isLt
  have hlen : strlen fuel digits = some (numeral 16 value.toNat).length :=
    strlenFrom_eq hstring (Nat.zero_le _) (by omega)
  have hitoa' : itoa fuel value (fun i => convBuf (i + 8)) 16 = some digits := hitoa
  rw [convAlternate, hitoa', Option.bind_some, hlen]
  refine ⟨fun i => padZeros (fun i => if i < 8 then convBuf i else digits (i - 8))
    (numeral 16 value.toNat).length ((numeral 16 value.toNat).length + i), rfl, ?_⟩
  have hzeros : (hexDigits value.toNat).length = 8 := by
    rw [hexDigits, List.length_append, List.length_replicate]
    omega
  refine ⟨fun k hk => ?_, fun b hb => ?_, ?_⟩
  · rw [hzeros] at hk
    rw [padZeros_apply _ hle]
    by_cases hzero : (numeral 16 value.toNat).length + k < 8
    · rw [if_pos ⟨Nat.le_add_right _ _, hzero⟩]
      simp only [hexDigits]
      rw [List.getElem_append_left (by rw [List.length_replicate]; omega), List.getElem_replicate]
    · rw [if_neg fun h => hzero h.2, if_neg hzero]
      simp only [hexDigits]
      rw [List.getElem_append_right (by rw [List.length_replicate]; omega)]
      simp only [List.length_replicate]
      rw [← hstring.byte]
      congr 1
      omega
  · rcases List.mem_append.mp hb with hb | hb
    · rw [(List.mem_replicate.mp hb).2]
      decide
    · exact hstring.byte_ne b hb
  · rw [hzeros, padZeros_apply _ hle, if_neg (by omega), if_neg (by omega), Nat.add_sub_cancel]
    exact hstring.nul

/-- **`%d`** makes the signed numeral, also of the smallest number, whose opposite is itself. -/
theorem convSigned_spec (value : BitVec 32) (convBuf : CStr) {fuel : ℕ} (hfuel : 33 ≤ fuel) :
    ∃ text, convSigned fuel value convBuf = some text ∧
      IsString text (signedNumeral value.toInt) := by
  have hint := BitVec.toInt_eq_toNat_cond value
  unfold convSigned signedNumeral
  by_cases hneg : value.toInt < 0
  · rw [if_pos hneg, if_pos hneg]
    have habs : (-value).toNat = value.toInt.natAbs := by
      rw [BitVec.toNat_neg]
      omega
    obtain ⟨digits, hitoa, hstring⟩ := itoa_numeral (-value) 10 (by decide) (by decide)
      (fun i => convBuf (i + 1)) hfuel
    have hitoa' : itoa fuel (-value) (fun i => convBuf (i + 1)) 10 = some digits := hitoa
    rw [habs] at hstring
    rw [hitoa']
    refine ⟨fun i => if i = 0 then ch '-' else digits (i - 1), rfl, fun k hk => ?_, fun b hb => ?_, ?_⟩
    · cases k with
      | zero => rfl
      | succ k => exact hstring.byte k (Nat.lt_of_succ_lt_succ hk)
    · rcases List.mem_cons.mp hb with rfl | hb
      · decide
      · exact hstring.byte_ne b hb
    · exact hstring.nul
  · rw [if_neg hneg, if_neg hneg]
    have habs : value.toNat = value.toInt.natAbs := by omega
    rw [← habs]
    exact itoa_numeral value 10 (by decide) (by decide) convBuf hfuel

/-! ## What is put out -/

section prints

variable {m : Memory 32} {format : CStr} {args : ℕ → BitVec 32} {junk : ℕ → CStr} {fuel : ℕ}
  {str : BitVec 32 → List (BitVec 8)}

theorem Place.puts_eq {text : CStr} {u : List (BitVec 8)} (h : IsString text u)
    (hlen : u.length < fuel) (s : Place) :
    s.puts fuel text = some ⟨s.console.puts u, s.buf, s.esp + 1⟩ := by
  rw [Place.puts, putsFrom_eq h (Nat.zero_le _) (by omega), List.drop_zero]
  rfl

/-- A text is made and put out. -/
theorem bind_puts {made : Option CStr} {u : List (BitVec 8)}
    (h : ∃ text, made = some text ∧ IsString text u) (hlen : u.length < fuel) (s : Place) :
    (made.bind fun text => s.puts fuel text) = some ⟨s.console.puts u, s.buf, s.esp + 1⟩ := by
  obtain ⟨text, rfl, hstring⟩ := h
  exact Place.puts_eq hstring hlen s

/-- A pointer points to a string, which the loops have enough rounds for. -/
def Points (m : Memory 32) (str : BitVec 32 → List (BitVec 8)) (fuel : ℕ) (p : BitVec 32) : Prop :=
  IsString (stringAt m p) (str p) ∧ (str p).length < fuel

/-- **One conversion**, by its letter. -/
theorem conversion_letter (hfuel : 34 ≤ fuel) {k : Conv} {marks : ℕ} (hk : (Item.conv marks k).Proper)
    (hpoints : ∀ p ∈ (Item.conv marks k).pointers, Points m str fuel p) {s : Place} (hformat : format s.buf = k.letter)
    (hargs : Row args s.esp k.words) (rounds : ℕ) (marked : Bool) :
    conversion m format args junk fuel (rounds + 1) marked s =
      some ⟨s.console.puts (k.text str marked), s.buf, s.esp + k.words.length⟩ := by
  have hten : ∀ n < 2 ^ 32, (numeral 10 n).length ≤ 10 := fun n hn =>
    length_numeral_le (by decide) (by decide) (hn.trans (by decide))
  have hhex : ∀ n < 2 ^ 32, (numeral 16 n).length ≤ 8 := fun n hn =>
    length_numeral_le (by decide) (by decide) hn
  rw [conversion, hformat]
  cases k with
  | percent => rfl
  | hex value =>
    obtain rfl : args s.esp = value := hargs.1
    have hle := hhex _ (args s.esp).isLt
    cases marked with
    | true =>
      have hlen : (hexDigits (args s.esp).toNat).length < fuel := by
        rw [hexDigits, List.length_append, List.length_replicate]
        omega
      exact bind_puts (convAlternate_spec (args s.esp) (junk s.buf) (by omega)) hlen s
    | false =>
      exact bind_puts (itoa_numeral (args s.esp) 16 (by decide) (by decide) (junk s.buf) (by omega))
        (by omega) s
  | unsigned value =>
    obtain rfl : args s.esp = value := hargs.1
    have hle := hten _ (args s.esp).isLt
    exact bind_puts (itoa_numeral (args s.esp) 10 (by decide) (by decide) (junk s.buf) (by omega))
      (by omega) s
  | signed value =>
    obtain rfl : args s.esp = value := hargs.1
    have hlen : (signedNumeral (args s.esp).toInt).length < fuel := by
      have hint := BitVec.toInt_eq_toNat_cond (args s.esp)
      have hle := hten (args s.esp).toInt.natAbs (by omega)
      unfold signedNumeral
      split
      · rw [List.length_cons]
        omega
      · omega
    exact bind_puts (convSigned_spec (args s.esp) (junk s.buf) (by omega)) hlen s
  | char value =>
    obtain rfl : args s.esp = value := hargs.1
    rfl
  | string p =>
    obtain rfl : args s.esp = p := hargs.1
    obtain ⟨hstring, hlen⟩ := hpoints _ (List.mem_singleton_self _)
    exact Place.puts_eq hstring hlen s
  | ignored letter =>
    simp only [Item.Proper, letters, List.mem_cons, List.not_mem_nil, or_false, not_or] at hk
    obtain ⟨h₁, h₂, h₃, h₄, h₅, h₆, h₇⟩ := hk
    exact (if_neg h₁).trans ((if_neg h₂).trans ((if_neg h₃).trans ((if_neg h₄).trans
      ((if_neg h₅).trans ((if_neg h₆).trans (if_neg h₇))))))

/-- With its marks. -/
theorem conversion_eq (hfuel : 34 ≤ fuel) {k : Conv} {marks : ℕ} (hk : (Item.conv marks k).Proper)
    (hpoints : ∀ p ∈ (Item.conv marks k).pointers, Points m str fuel p) {left rounds : ℕ} {s : Place} {marked : Bool}
    (hformat : Row format s.buf (List.replicate left (ch '#') ++ [k.letter]))
    (hargs : Row args s.esp k.words) (hrounds : left < rounds) :
    conversion m format args junk fuel rounds marked s =
      some ⟨s.console.puts (k.text str (marked || decide (0 < left))), s.buf + left,
        s.esp + k.words.length⟩ := by
  obtain ⟨rounds, rfl⟩ := Nat.exists_eq_add_of_lt hrounds
  induction left generalizing s marked with
  | zero =>
    have hmarked : (marked || decide (0 < 0)) = marked := Bool.or_false marked
    rw [hmarked]
    exact conversion_letter hfuel hk hpoints hformat.1 hargs _ marked
  | succ left ih =>
    obtain ⟨hmark, hrest⟩ := hformat
    have hround : conversion m format args junk fuel (left + 1 + rounds + 1) marked s =
        conversion m format args junk fuel (left + rounds + 1) true { s with buf := s.buf + 1 } := by
      rw [conversion, hmark, if_neg (by decide), if_pos rfl, Nat.add_right_comm left 1 rounds]
    rw [hround, ih (s := { s with buf := s.buf + 1 }) hrest hargs (by omega)]
    simp [Nat.add_right_comm s.buf 1 left, Nat.add_assoc]

/-- **One round** of the loop is one item. -/
theorem printfLoop_item (hfuel : 34 ≤ fuel) {i : Item} (hproper : i.Proper)
    (hpoints : ∀ p ∈ i.pointers, Points m str fuel p) {s : Place} (hformat : Row format s.buf i.render)
    (hargs : Row args s.esp i.words) (hlen : i.render.length < fuel) (rounds : ℕ) :
    printfLoop m format args junk fuel (rounds + 1) s = printfLoop m format args junk fuel rounds
      ⟨s.console.puts (i.text str), s.buf + i.render.length, s.esp + i.words.length⟩ := by
  rw [printfLoop]
  cases i with
  | plain b =>
    obtain ⟨hzero, hpercent⟩ : b ≠ 0 ∧ b ≠ ch '%' := hproper
    rw [hformat.1, if_pos hzero, if_neg hpercent]
    rfl
  | conv marks k =>
    obtain ⟨hpercent, hconv⟩ := hformat
    have hlength : (Item.conv marks k).render.length = 1 + marks + 1 := by
      simp [Item.render, Nat.add_comm]
    have hone : conversion m format args junk fuel fuel false { s with buf := s.buf + 1 } =
        some ⟨s.console.puts (k.text str (false || decide (0 < marks))), s.buf + 1 + marks,
          s.esp + k.words.length⟩ :=
      conversion_eq hfuel hproper hpoints hconv hargs (by omega)
    rw [Bool.false_or, Nat.add_assoc] at hone
    rw [hpercent, if_pos (by decide), if_pos rfl, hone, hlength]
    rfl

/-- **The loop** puts out the items one after the other. -/
theorem printfLoop_eq (hfuel : 34 ≤ fuel) {items : List Item} (hproper : ∀ i ∈ items, i.Proper)
    (hpoints : ∀ p ∈ items.flatMap Item.pointers, Points m str fuel p) {s : Place}
    (hformat : Row format s.buf (items.flatMap Item.render ++ [0]))
    (hargs : Row args s.esp (items.flatMap Item.words))
    (hlen : ∀ i ∈ items, i.render.length < fuel) {rounds : ℕ} (hrounds : items.length < rounds) :
    printfLoop m format args junk fuel rounds s =
      some ⟨s.console.puts (items.flatMap (Item.text str)),
        s.buf + (items.flatMap Item.render).length, s.esp + (items.flatMap Item.words).length⟩ := by
  induction items generalizing s rounds with
  | nil =>
    obtain ⟨rounds, rfl⟩ := Nat.exists_eq_add_of_lt hrounds
    rw [printfLoop, if_neg fun hne => hne hformat.1]
    rfl
  | cons i items ih =>
    obtain ⟨rounds, rfl⟩ := Nat.exists_eq_add_of_lt hrounds
    rw [List.flatMap_cons, List.append_assoc, row_append] at hformat
    rw [List.flatMap_cons, row_append] at hargs
    rw [List.flatMap_cons] at hpoints
    rw [List.length_cons, printfLoop_item hfuel (hproper i List.mem_cons_self)
      (fun p hp => hpoints p (List.mem_append_left _ hp)) hformat.1 hargs.1
      (hlen i List.mem_cons_self), ih (fun i' hi' => hproper i' (List.mem_cons_of_mem i hi'))
      (fun p hp => hpoints p (List.mem_append_right _ hp)) hformat.2 hargs.2
      (fun i' hi' => hlen i' (List.mem_cons_of_mem i hi')) (by omega)]
    simp [puts_append, Nat.add_assoc]

/-- **`printf`.**  The items of a format are put out one after the other: plain bytes as they are, the
numbers as numerals, the signed ones with their sign and the marked hexadecimal ones in eight digits,
the characters, and the strings that the words point to.  The result is the length of the format. -/
theorem printf_prints (hfuel : 34 ≤ fuel) (items : List Item) (hproper : ∀ i ∈ items, i.Proper)
    (hpoints : ∀ p ∈ items.flatMap Item.pointers, Points m str fuel p)
    (hformat : Row format 0 (items.flatMap Item.render ++ [0]))
    (hargs : Row args 0 (items.flatMap Item.words))
    (hlen : (items.flatMap Item.render).length < fuel) (c : Console) :
    printf m format args junk fuel c =
      some (c.puts (items.flatMap (Item.text str)), (items.flatMap Item.render).length) := by
  have hitems : items.length ≤ (items.flatMap Item.render).length := by
    rw [List.length_flatMap]
    have hsum := List.length_le_sum_of_one_le (items.map fun i => i.render.length) fun n hn => by
      obtain ⟨i, -, rfl⟩ := List.mem_map.mp hn
      cases i <;> simp [Item.render]
    rwa [List.length_map] at hsum
  have heach : ∀ i ∈ items, i.render.length < fuel := fun i hi =>
    ((List.sublist_flatten_of_mem (List.mem_map_of_mem hi)).length_le).trans_lt hlen
  rw [printf, printfLoop_eq hfuel hproper hpoints hformat hargs heach (hitems.trans_lt hlen)]
  simp

end prints

instance decidableProper : (i : Item) → Decidable i.Proper
  | .plain _ => inferInstanceAs (Decidable (_ ∧ _))
  | .conv _ (.ignored _) => inferInstanceAs (Decidable (_ ∉ _))
  | .conv _ .percent => inferInstanceAs (Decidable True)
  | .conv _ (.hex _) => inferInstanceAs (Decidable True)
  | .conv _ (.unsigned _) => inferInstanceAs (Decidable True)
  | .conv _ (.signed _) => inferInstanceAs (Decidable True)
  | .conv _ (.char _) => inferInstanceAs (Decidable True)
  | .conv _ (.string _) => inferInstanceAs (Decidable True)

/-- `%#x %d %s%`, with `!` behind the end of the format, which is put out too. -/
theorem printf_prints_past_the_end :
    let c : Console := { System.initData with screen := fun _ => 0, shown := none, oob := false }
    let format : List (BitVec 8) := [ch '%', ch '#', ch 'x', ch ' ', ch '%', ch 'd', ch ' ', ch '%',
      ch 's', ch '%', 0, ch '!', 0]
    let m : Memory 32 := fun p => [ch 'o', ch 'k'].getD p.toNat 0
    let args : List (BitVec 32) := [0xBEEF, -7, 0]
    printf m (fun i => format.getD i 0) (fun i => args.getD i 0) (fun _ _ => 0) 64 c =
      some (c.puts [ch '0', ch '0', ch '0', ch '0', ch 'B', ch 'E', ch 'E', ch 'F', ch ' ', ch '-',
        ch '7', ch ' ', ch 'o', ch 'k', ch '!'], 12) := by
  intro c format m args
  have hpoints : ∀ p ∈ [(0 : BitVec 32)], Points m (fun _ => [ch 'o', ch 'k']) 64 p := by
    intro p hp
    obtain rfl : p = 0 := List.mem_singleton.mp hp
    refine ⟨⟨fun k hk => ?_, by decide, rfl⟩, by decide⟩
    obtain rfl | rfl : k = 0 ∨ k = 1 := Nat.le_one_iff_eq_zero_or_eq_one.mp (Nat.le_of_lt_succ hk)
    · rfl
    · rfl
  exact printf_prints (by decide) [.conv 1 (.hex 0xBEEF), .plain (ch ' '), .conv 0 (.signed (-7)),
    .plain (ch ' '), .conv 0 (.string 0), .conv 0 (.ignored 0), .plain (ch '!')] (by decide) hpoints
      (by decide) (by decide) (by decide) c

end Printf
end Term
end CoreOS
