import SplitTally.Wire.Stream

/-!
# Items read into reserved room

The items of a sequence are read behind a cursor one after the other, into room that is reserved for
all of them once their count is known. The bytes that they take at least are multiplied out in a
word and compared with the bytes that are left before any room is reserved, so a count that the
input cannot hold reserves none.
-/

namespace SplitTally

/-- The product of two words, or the greatest word if the product does not fit. -/
def WordArithmetic.saturatingMul (x y : UInt64) : UInt64 :=
  if x.toNat * y.toNat < UInt64.size then x * y else UInt64.ofNat (UInt64.size - 1)

namespace Wire

/-- What came of reading a sequence of items. -/
structure ItemsRead (α : Type) where
  /-- The number of items that room was reserved for, if it came to that. -/
  reserved : Option Nat
  /-- The items and the cursor behind them, or why they were refused. -/
  outcome : Except WireError (List α × Cursor)

namespace Cursor

variable {α : Type}

/-- The number of bytes behind the cursor. -/
def remaining (cursor : Cursor) : Nat := cursor.bytes.length - cursor.position

/-- Reads so many items one after the other. -/
def readMany (cursor : Cursor) (item : Decoder α) : Nat → Except WireError (List α × Cursor)
  | 0 => .ok ([], cursor)
  | n + 1 => do
    let (x, cursor) ← cursor.read item
    let (xs, cursor) ← cursor.readMany item n
    return (x :: xs, cursor)

/-- Reads a count and then so many items, whatever is left behind the count. -/
def readCounted (cursor : Cursor) (item : Decoder α) : Except WireError (List α × Cursor) := do
  let (count, cursor) ← cursor.read word32
  cursor.readMany item count.toNat

/-- Reads a count, and then so many items if there are enough bytes left for items of at least
`least` bytes each. -/
def readItems (cursor : Cursor) (least : UInt64) (item : Decoder α) : ItemsRead α :=
  match cursor.read word32 with
  | .error cause => { reserved := none, outcome := .error cause }
  | .ok (count, cursor) =>
    if cursor.remaining < (WordArithmetic.saturatingMul count.toUInt64 least).toNat then
      { reserved := none, outcome := .error .unexpectedEnd }
    else { reserved := some count.toNat, outcome := cursor.readMany item count.toNat }

end Cursor

end Wire

end SplitTally
