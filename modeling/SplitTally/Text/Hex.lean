import SplitTally.Text.Quoted

/-!
# Bytes as hexadecimal digits

Two digits a byte, the higher half first. Both cases of the letters are read; which case is written
is the caller's choice.
-/

namespace SplitTally.Hex

/-- Whether the letters among the digits are capitals. -/
inductive Case where
  /-- The digits `a` to `f`. -/
  | lower
  /-- The digits `A` to `F`. -/
  | upper
  deriving DecidableEq

/-- The digit of a number below sixteen. -/
def digit (letters : Case) (n : Nat) : Char :=
  if n < 10 then Char.ofNat (0x30 + n)
  else match letters with
    | .lower => Char.ofNat (0x57 + n)
    | .upper => Char.ofNat (0x37 + n)

/-- The two digits of a byte. -/
def digits (letters : Case) (b : UInt8) : List Char :=
  [digit letters (b.toNat / 16), digit letters (b.toNat % 16)]

/-- The digits of a byte string. -/
def encode (letters : Case) (bytes : List UInt8) : String :=
  String.ofList (bytes.flatMap (digits letters))

/-- Why a text holds no byte string. -/
inductive Fault where
  /-- The last digit has no partner. -/
  | oddLength
  /-- The byte at this position of the text is no digit. -/
  | invalidDigit (byte : UInt8) (position : Nat)
  deriving DecidableEq, Repr

/-- The text of the fault. -/
def Fault.message : Fault → String
  | .oddLength => "Odd number of digits"
  | .invalidDigit byte position =>
    "Invalid character " ++ Quoted.char (Char.ofNat byte.toNat) ++ " at position " ++
      toString position

/-- The number of a digit of either case, given as a byte of the text. -/
def value? (c : UInt8) : Option Nat :=
  let n := c.toNat
  if 0x30 ≤ n ∧ n ≤ 0x39 then some (n - 0x30)
  else if 0x41 ≤ n ∧ n ≤ 0x46 then some (n - 0x37)
  else if 0x61 ≤ n ∧ n ≤ 0x66 then some (n - 0x57)
  else none

/-- The bytes of the digits from the given position on, behind those already read in `done`, latest
first. -/
def decodeFrom (done : List UInt8) (position : Nat) : List UInt8 → Except Fault (List UInt8)
  | high :: low :: rest =>
    match value? high, value? low with
    | some h, some l => decodeFrom ((16 * h + l).toUInt8 :: done) (position + 2) rest
    | none, _ => .error (.invalidDigit high position)
    | some _, none => .error (.invalidDigit low (position + 1))
  | _ => .ok done.reverse

/-- The byte string that the bytes of a text spell. An odd number of them is refused before any of
them is looked at. -/
def decodeBytes (text : List UInt8) : Except Fault (List UInt8) :=
  if text.length % 2 = 0 then decodeFrom [] 0 text else .error .oddLength

/-- The byte string that a text spells. -/
def decode (text : String) : Except Fault (List UInt8) := decodeBytes text.toUTF8.toList

end SplitTally.Hex
