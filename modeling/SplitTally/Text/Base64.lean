/-!
# Bytes as base 64

Three bytes are written as four symbols of six bits each. At the end one or two bytes make two or
three symbols, and pads fill up the group of four. Only this canonical form is read: the pads must
be there, and the bits that stand for no byte must be zero.
-/

namespace SplitTally.Base64

/-- The symbol of a number below 64. -/
def symbol (n : Nat) : Char :=
  if n < 26 then Char.ofNat (0x41 + n)
  else if n < 52 then Char.ofNat (0x61 + (n - 26))
  else if n < 62 then Char.ofNat (0x30 + (n - 52))
  else if n = 62 then '+'
  else '/'

/-- The symbols of a byte string, with pads at the end. -/
def symbols : List UInt8 → List Char
  | a :: b :: c :: rest =>
    let n := a.toNat * 0x10000 + b.toNat * 0x100 + c.toNat
    symbol (n / 0x40000) :: symbol (n / 0x1000 % 64) :: symbol (n / 64 % 64) :: symbol (n % 64) ::
      symbols rest
  | [a, b] =>
    let n := a.toNat * 0x100 + b.toNat
    [symbol (n / 0x400), symbol (n / 16 % 64), symbol (n % 16 * 4), '=']
  | [a] => [symbol (a.toNat / 4), symbol (a.toNat % 4 * 16), '=', '=']
  | [] => []

/-- The text of a byte string. -/
def encode (bytes : List UInt8) : String := String.ofList (symbols bytes)

/-- Why a text holds no byte string. -/
inductive Fault where
  /-- The byte at this offset is no symbol, or a pad that is out of place. -/
  | invalidSymbol (byte : UInt8) (offset : Nat)
  /-- The text ends after so many bytes within a group. -/
  | invalidLength (length : Nat)
  /-- The last symbol, at this offset, has bits that stand for no byte. -/
  | invalidLastSymbol (byte : UInt8) (offset : Nat)
  /-- Pads are missing, or there are too many. -/
  | invalidPadding
  deriving DecidableEq, Repr

/-- The text of the fault. -/
def Fault.message : Fault → String
  | .invalidSymbol byte offset =>
    "Invalid symbol " ++ toString byte ++ ", offset " ++ toString offset ++ "."
  | .invalidLength length => "Invalid input length: " ++ toString length
  | .invalidLastSymbol byte offset =>
    "Invalid last symbol " ++ toString byte ++ ", offset " ++ toString offset ++ "."
  | .invalidPadding => "Invalid padding"

/-- The byte of the pad. -/
def pad : UInt8 := 0x3d

/-- The number of a symbol, given as a byte of the text. -/
def value? (c : UInt8) : Option Nat :=
  let n := c.toNat
  if 0x41 ≤ n ∧ n ≤ 0x5a then some (n - 0x41)
  else if 0x61 ≤ n ∧ n ≤ 0x7a then some (n - 0x61 + 26)
  else if 0x30 ≤ n ∧ n ≤ 0x39 then some (n - 0x30 + 52)
  else if n = 0x2b then some 62
  else if n = 0x2f then some 63
  else none

/-- The six-bit numbers of the symbols from the given offset on, in front of which `done` holds the
earlier ones, latest first. -/
def valuesFrom (done : List Nat) (offset : Nat) : List UInt8 → Except Fault (List Nat)
  | [] => .ok done
  | c :: rest =>
    match value? c with
    | some n => valuesFrom (n :: done) (offset + 1) rest
    | none => .error (.invalidSymbol c offset)

/-- The three bytes of each group of four numbers, behind those already found in `done`, latest
first. -/
def groupsOnto (done : List UInt8) : List Nat → List UInt8
  | a :: b :: c :: d :: rest =>
    let n := a * 0x40000 + b * 0x1000 + c * 64 + d
    groupsOnto (n.toUInt8 :: (n / 0x100).toUInt8 :: (n / 0x10000).toUInt8 :: done) rest
  | _ => done.reverse

/-- What the last one to four bytes of a text hold: the numbers of the symbols, latest first, the
last symbol, and the number of pads after them. -/
structure Tail where
  /-- The numbers of the symbols, latest first. -/
  values : List Nat
  /-- The last symbol. -/
  last : UInt8
  /-- The number of pads. -/
  pads : Nat
  deriving DecidableEq, Repr

/-- Reads the last bytes of a text, of which `index` were read, from the offset `start` on. A pad is
refused in the first half of the group, and at the first pad whatever follows that is no pad. -/
def readTail (start : Nat) : (index : Nat) → Tail → List UInt8 → Except Fault Tail
  | _, tail, [] => .ok tail
  | index, tail, c :: rest =>
    if c = pad then
      if index < 2 then .error (.invalidSymbol pad (start + index))
      else readTail start (index + 1) { tail with pads := tail.pads + 1 } rest
    else if 0 < tail.pads then .error (.invalidSymbol pad (start + index - tail.pads))
    else match value? c with
      | none => .error (.invalidSymbol c (start + index))
      | some n =>
        readTail start (index + 1) { tail with values := n :: tail.values, last := c } rest

/-- The bytes of the last group, which starts at the offset `start`. -/
def decodeTail (start : Nat) (text : List UInt8) : Except Fault (List UInt8) := do
  let tail ← readTail start 0 ⟨[], 0, 0⟩ text
  if text.isEmpty then return []
  let count := tail.values.length
  if count < 2 then throw (.invalidLength (start + count))
  if (count + tail.pads) % 4 ≠ 0 then throw .invalidPadding
  let offset := start + count - 1
  match tail.values with
  | [b, a] =>
    if b % 16 ≠ 0 then throw (.invalidLastSymbol tail.last offset)
    return [(a * 4 + b / 16).toUInt8]
  | [c, b, a] =>
    if c % 4 ≠ 0 then throw (.invalidLastSymbol tail.last offset)
    return [(a * 4 + b / 16).toUInt8, (b * 16 + c / 4).toUInt8]
  | [d, c, b, a] =>
    return [(a * 4 + b / 16).toUInt8, (b * 16 + c / 4).toUInt8, (c * 64 + d).toUInt8]
  | _ => throw .invalidPadding

/-- The byte string that the bytes of a text spell. A last byte that is neither symbol nor pad is
refused first when it is the only one of its group. -/
def decodeBytes (text : List UInt8) : Except Fault (List UInt8) := do
  let length := text.length
  if length % 4 = 1 then
    match text.getLast? with
    | some c =>
      if c ≠ pad ∧ (value? c).isNone then throw (.invalidSymbol c (length - 1))
    | none => pure ()
  let start := (length - 1) / 4 * 4
  let values ← valuesFrom [] 0 (text.take start)
  let tail ← decodeTail start (text.drop start)
  return groupsOnto [] values.reverse ++ tail

/-- The byte string that a text spells. -/
def decode (text : String) : Except Fault (List UInt8) := decodeBytes text.toUTF8.toList

end SplitTally.Base64
