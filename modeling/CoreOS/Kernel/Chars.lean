import Mathlib.Data.Int.Notation
import Mathlib.Data.Nat.Notation

/-!
# Characters and numerals

The character tests and `atoi` of `lib.c`.  A string is the list of its bytes before the terminating
NUL.
-/

namespace CoreOS

/-- A character constant, as a byte. -/
def ch (c : Char) : BitVec 8 := BitVec.ofNat 8 c.toNat

/-- `isalpha`. -/
def isalpha (c : BitVec 8) : Bool :=
  decide (ch 'a' ≤ c ∧ c ≤ ch 'z') || decide (ch 'A' ≤ c ∧ c ≤ ch 'Z')

/-- `isnum`. -/
def isnum (c : BitVec 8) : Bool := decide (ch '0' ≤ c ∧ c ≤ ch '9')

/-- `isalnum`. -/
def isalnum (c : BitVec 8) : Bool := isalpha c || isnum c

/-- The digit a byte stands for in `atoi`.  The bytes are signed there, so that those from 0x80 on
are below all characters tested for. -/
def digit (c : BitVec 8) : ℤ :=
  if (ch '0').toInt ≤ c.toInt ∧ c.toInt ≤ (ch '9').toInt then c.toInt - (ch '0').toInt
  else if (ch 'a').toInt ≤ c.toInt ∧ c.toInt ≤ (ch 'z').toInt then c.toInt - (ch 'a').toInt + 10
  else if (ch 'A').toInt ≤ c.toInt ∧ c.toInt ≤ (ch 'Z').toInt then c.toInt - (ch 'A').toInt + 10
  else 0

/-- `atoi`, with the overflow of an `int32_t`. -/
def atoi (s : List (BitVec 8)) (radix : ℤ) : BitVec 32 :=
  s.foldl (fun res c => res * BitVec.ofInt 32 radix + BitVec.ofInt 32 (digit c)) 0

/-- The string in an array of `n` bytes. -/
def stringIn (buf : ℕ → BitVec 8) (n : ℕ) : List (BitVec 8) :=
  ((List.range n).map buf).takeWhile fun c => c ≠ 0

end CoreOS
