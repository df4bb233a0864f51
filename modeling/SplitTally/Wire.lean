import SplitTally.Residue
import SplitTally.Words

/-!
# The wire format

Integers and lengths are written most significant byte first, residues least significant byte
first. A byte string carries its length in two bytes, a sequence of items their count in four. An
encoder returns the bytes that it appends; a decoder takes the bytes of its value from the front of
the input and returns the rest.
-/

namespace SplitTally

/-- Why a value cannot be written, or bytes cannot be read. -/
inductive WireError where
  /-- The input ends within a word or a byte string. -/
  | shortBlock
  /-- The input ends within a residue, or is too short for the items that it announces. -/
  | unexpectedEnd
  /-- So many bytes follow the value. -/
  | bytesLeftOver (count : Nat)
  /-- A length that its field cannot hold. -/
  | lengthOverflow (length : Nat)
  /-- A value that is not allowed where it stands. -/
  | unexpectedValue
  deriving DecidableEq, Repr

/-- The text of the error. -/
def WireError.message : WireError → String
  | .shortBlock | .unexpectedEnd => "I/O error"
  | .bytesLeftOver count => toString count ++ " bytes left in buffer after decoding value"
  | .lengthOverflow length =>
    "value of length " ++ toString length ++ " does not fit in length prefix"
  | .unexpectedValue => "unexpected value"

/-- The text of the error below, if there is one. -/
def WireError.cause? : WireError → Option String
  | .shortBlock => some "failed to fill whole buffer"
  | .unexpectedEnd => some "unexpected end of file"
  | _ => none

namespace Wire

/-! ### Encoders -/

/-- The bytes of a residue. -/
def encodeResidue (a : Residue) : List UInt8 := Words.toLE32 a.val

/-- A byte string behind its length in two bytes. -/
def encodeOpaque (s : List UInt8) : Except WireError (List UInt8) :=
  let length := s.length
  if length < 0x10000 then .ok (Words.toBE16 length.toUInt16 ++ s)
  else .error (.lengthOverflow length)

/-- A count of items in four bytes. -/
def encodeCount (count : Nat) : Except WireError (List UInt8) :=
  if count < 0x100000000 then .ok (Words.toBE32 count.toUInt32)
  else .error (.lengthOverflow count)

/-- Items behind their count in four bytes. -/
def encodeItems {α : Type} (item : α → List UInt8) (xs : List α) :
    Except WireError (List UInt8) := do
  let count ← encodeCount xs.length
  return count ++ xs.flatMap item

/-! ### Decoders -/

/-- Reads a value from the front of a byte string and keeps the rest. -/
abbrev Decoder (α : Type) := StateT (List UInt8) (Except WireError) α

/-- The next byte. -/
def byte : Decoder UInt8
  | a :: rest => .ok (a, rest)
  | _ => .error .shortBlock

/-- The next 16-bit word. -/
def word16 : Decoder UInt16
  | a :: b :: rest => .ok (Words.ofBE16 a b, rest)
  | _ => .error .shortBlock

/-- The next 32-bit word. -/
def word32 : Decoder UInt32
  | a :: b :: c :: d :: rest => .ok (Words.ofBE32 a b c d, rest)
  | _ => .error .shortBlock

/-- The next `n` bytes. -/
def bytes (n : Nat) : Decoder (List UInt8) := fun input =>
  let block := input.take n
  if block.length = n then .ok (block, input.drop n) else .error .shortBlock

/-- The next residue, with the reason it is refused. -/
def readResidue : List UInt8 → Except ResidueError (Residue × List UInt8)
  | a :: b :: c :: d :: rest =>
    let w := Words.ofLE32 a b c d
    if h : w.toNat < modulus then .ok (⟨w, h⟩, rest) else .error .notReduced
  | _ => .error .shortRead

/-- The next residue. -/
def residue : Decoder Residue := fun input =>
  match readResidue input with
  | .ok r => .ok r
  | .error .shortRead => .error .unexpectedEnd
  | .error _ => .error .unexpectedValue

/-- The next byte string with its length in two bytes. -/
def opaqueBytes : Decoder (List UInt8) := do
  let length ← word16
  bytes length.toNat

/-- So many items, in front of those already read in `done`, latest first. -/
def itemsOnto {α : Type} (item : Decoder α) : Nat → List α → Decoder (List α)
  | 0, done => fun input => .ok (done.reverse, input)
  | n + 1, done => fun input =>
    match item input with
    | .ok (x, rest) => itemsOnto item n (x :: done) rest
    | .error e => .error e

/-- Items behind their count in four bytes. The count is refused at once when the input is too
short for so many items of at least `least` bytes each. -/
def items {α : Type} (least : Nat) (item : Decoder α) : Decoder (List α) := do
  let count ← word32
  let input ← get
  if input.length < count.toNat * least then throw .unexpectedEnd
  itemsOnto item count.toNat []

/-- The value that the whole input holds. -/
def whole {α : Type} (decoder : Decoder α) (input : List UInt8) : Except WireError α := do
  let (x, rest) ← decoder input
  if rest.isEmpty then return x else throw (.bytesLeftOver rest.length)

end Wire

end SplitTally
