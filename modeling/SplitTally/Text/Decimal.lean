/-!
# Decimal text of a 64-bit word

The digits are read from the left, behind at most one plus. The first character that is no digit
and the first digit that makes the number too large are refused, whichever comes first.
-/

namespace SplitTally.Decimal

/-- Why a text is no word. -/
inductive Fault where
  /-- The text is empty. -/
  | empty
  /-- A character is no digit. -/
  | invalidDigit
  /-- The number has more than 64 bits. -/
  | tooLarge
  deriving DecidableEq, Repr

/-- The text of the fault. -/
def Fault.message : Fault → String
  | .empty => "cannot parse integer from empty string"
  | .invalidDigit => "invalid digit found in string"
  | .tooLarge => "number too large to fit in target type"

/-- The value of a digit. -/
def digit? (c : Char) : Option Nat :=
  if '0' ≤ c ∧ c ≤ '9' then some (c.toNat - '0'.toNat) else none

/-- The word whose decimal digits are those of `value` and the given ones. -/
def readFrom (value : Nat) : List Char → Except Fault Nat
  | [] => .ok value
  | c :: rest =>
    match digit? c with
    | none => .error .invalidDigit
    | some d =>
      if 10 * value + d < 2 ^ 64 then readFrom (10 * value + d) rest else .error .tooLarge

/-- The word that the characters spell. A plus needs something behind it. -/
def read : List Char → Except Fault Nat
  | [] => .error .empty
  | ['+'] => .error .invalidDigit
  | '+' :: rest => readFrom 0 rest
  | cs => readFrom 0 cs

/-- The word that a text spells. -/
def word (text : String) : Except Fault UInt64 := (read text.toList).map Nat.toUInt64

end SplitTally.Decimal
