import SplitTally.Bundle

/-!
# Streams of values

Values of several formats are appended to one buffer, one after the other. They are read again
behind a cursor, which each of them moves on.
-/

namespace SplitTally.Wire

/-! ### Buffers -/

/-- Appends to a buffer. What was appended before a failure stays. -/
abbrev Writer := EStateM WireError (List UInt8) Unit

namespace Writer

/-- Appends bytes. -/
def bytes (s : List UInt8) : Writer := modify (· ++ s)

/-- Appends a byte string behind its length in two bytes. -/
def opaqueBytes (s : List UInt8) : Writer :=
  let length := s.length
  if length < 0x10000 then do
    bytes (Words.toBE16 length.toUInt16)
    bytes s
  else throw (.lengthOverflow length)

/-- Appends a count of items in four bytes. -/
def count (n : Nat) : Writer :=
  if n < 0x100000000 then bytes (Words.toBE32 n.toUInt32) else throw (.lengthOverflow n)

/-- Appends items one after the other, behind their count. -/
def items {α : Type} (item : α → Writer) (xs : List α) : Writer := do
  count xs.length
  xs.forM item

/-- Appends the fields of a bundle one after the other. -/
def bundle (b : Bundle) : Writer := do
  opaqueBytes b.batch
  bytes b.server.encode
  count b.data.length
  items (fun a => bytes (encodeResidue a)) b.data
  items (fun a => bytes (encodeResidue a)) b.proof

end Writer

/-! ### Cursors -/

/-- A position within bytes, up to which they have been read. -/
structure Cursor where
  /-- All bytes. -/
  bytes : List UInt8
  /-- The number of bytes that have been read. -/
  position : Nat
  deriving DecidableEq, Repr

/-- Reads a value behind the cursor and moves the cursor behind the value. -/
def Cursor.read {α : Type} (cursor : Cursor) (decoder : Decoder α) :
    Except WireError (α × Cursor) :=
  match decoder (cursor.bytes.drop cursor.position) with
  | .ok (x, rest) => .ok (x, { cursor with position := cursor.bytes.length - rest.length })
  | .error cause => .error cause

/-! ### Formats -/

/-- A format of values that all have one size, which can be the items of a sequence. -/
inductive Scalar where
  /-- A byte. -/
  | byte
  /-- A 16-bit word. -/
  | word16
  /-- A 32-bit word. -/
  | word32
  /-- A residue. -/
  | residue
  deriving DecidableEq, Repr

namespace Scalar

/-- The values of a format. -/
def Carrier : Scalar → Type
  | .byte => UInt8
  | .word16 => UInt16
  | .word32 => UInt32
  | .residue => Residue

/-- The number of bytes of a value. -/
def size : Scalar → Nat
  | .byte => 1
  | .word16 => 2
  | .word32 => 4
  | .residue => 4

/-- The bytes of a value. -/
def encode : (kind : Scalar) → kind.Carrier → List UInt8
  | .byte, (b : UInt8) => [b]
  | .word16, (w : UInt16) => Words.toBE16 w
  | .word32, (w : UInt32) => Words.toBE32 w
  | .residue, (a : Residue) => encodeResidue a

/-- The next value. -/
def decode : (kind : Scalar) → Decoder kind.Carrier
  | .byte => Wire.byte
  | .word16 => Wire.word16
  | .word32 => Wire.word32
  | .residue => Wire.residue

end Scalar

/-- A format of values. That of items also tells how few bytes an item can have. -/
inductive Format where
  /-- One value of a fixed size. -/
  | scalar (kind : Scalar)
  /-- A server. -/
  | server
  /-- A byte string behind its length. -/
  | byteString
  /-- Items behind their count. -/
  | items (kind : Scalar) (least : Nat)
  /-- A share bundle. -/
  | bundle
  deriving DecidableEq, Repr

namespace Format

/-- The values of a format. -/
def Carrier : Format → Type
  | .scalar kind => kind.Carrier
  | .server => Server
  | .byteString => List UInt8
  | .items kind _ => List kind.Carrier
  | .bundle => Bundle

/-- Appends a value. -/
def write : (format : Format) → format.Carrier → Writer
  | .scalar kind, x => .bytes (kind.encode x)
  | .server, s => .bytes (Server.encode s)
  | .byteString, s => .opaqueBytes s
  | .items kind _, xs => .items (fun x => .bytes (kind.encode x)) xs
  | .bundle, b => .bundle b

/-- The next value. -/
def decode : (format : Format) → Decoder format.Carrier
  | .scalar kind => kind.decode
  | .server => Server.decode
  | .byteString => Wire.opaqueBytes
  | .items kind least => Wire.items least kind.decode
  | .bundle => Bundle.decode

end Format

/-- A value with its format. -/
abbrev Value := (format : Format) × format.Carrier

/-- Appends values one after the other, and returns what the buffer holds after each of them. -/
def writeEach : List Value → EStateM WireError (List UInt8) (List (List UInt8))
  | [] => return []
  | value :: rest => do
    value.1.write value.2
    let buffer ← get
    return buffer :: (← writeEach rest)

/-- Reads values of the formats one after the other, each of them with the position behind it. -/
def readEach (cursor : Cursor) : List Format → Except WireError (List (Value × Nat))
  | [] => return []
  | format :: rest => do
    let (x, cursor) ← cursor.read format.decode
    return (⟨format, x⟩, cursor.position) :: (← readEach cursor rest)

end SplitTally.Wire
