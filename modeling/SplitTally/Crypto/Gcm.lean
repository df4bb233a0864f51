import SplitTally.Crypto.Aes128
import SplitTally.Words

/-!
# Authenticated encryption: AES-128 in Galois/counter mode

The plaintext is masked with the encryptions of successive counter blocks. The tag is a polynomial
in a secret element of the field with `2 ^ 128` elements, whose coefficients are the associated
data, the ciphertext and their lengths, masked with the encryption of the first counter block.
-/

namespace SplitTally.Gcm

-- Powers of numbers are those of core, whatever other powers are in scope.
attribute [local instance (high)] instPowNat

/-! ### The field with `2 ^ 128` elements -/

/-- A polynomial over two elements of degree below 128, the coefficient of the lowest power in the
highest bit. -/
structure Element where
  /-- The coefficients of the lower 64 powers. -/
  hi : UInt64
  /-- The coefficients of the upper 64 powers. -/
  lo : UInt64
  deriving DecidableEq

namespace Element

/-- The sum of two elements. -/
def add (x y : Element) : Element := ⟨x.hi ^^^ y.hi, x.lo ^^^ y.lo⟩

/-- The product with `x`, modulo `x¹²⁸ + x⁷ + x² + x + 1`. -/
def shift (v : Element) : Element :=
  let hi := v.hi >>> 1
  let lo := (v.lo >>> 1) ||| (v.hi <<< 63)
  if v.lo &&& 1 = 0 then ⟨hi, lo⟩ else ⟨hi ^^^ 0xe100000000000000, lo⟩

/-- Adds to `acc` the product of `v` with the polynomial in the highest `n` bits of a word, and
returns `v` times the `n`-th power of `x` too. -/
def timesWord : Nat → UInt64 → Element → Element → Element × Element
  | 0, _, v, acc => (v, acc)
  | n + 1, bits, v, acc =>
    timesWord n (bits <<< 1) v.shift (if bits &&& 0x8000000000000000 = 0 then acc else acc.add v)

/-- The product of two elements. -/
def mul (x y : Element) : Element :=
  let (v, acc) := timesWord 64 x.hi y ⟨0, 0⟩
  (timesWord 64 x.lo v acc).2

/-- The word of eight bytes that hold two 32-bit words. -/
def word (high low : UInt32) : UInt64 := (high.toUInt64 <<< 32) ||| low.toUInt64

/-- The 32-bit word of a column. -/
def columnWord (c : Aes128.Column) : UInt32 := Words.ofBE32 c.b0 c.b1 c.b2 c.b3

/-- The element that a block holds. -/
def ofBlock (x : Aes128.Block) : Element :=
  ⟨word (columnWord x.c0) (columnWord x.c1), word (columnWord x.c2) (columnWord x.c3)⟩

/-- The sixteen bytes of an element. -/
def toList (x : Element) : List UInt8 :=
  [(x.hi >>> 32).toUInt32, x.hi.toUInt32, (x.lo >>> 32).toUInt32, x.lo.toUInt32].flatMap
    Words.toBE32

end Element

/-- Takes the next `n` blocks of a byte string into a polynomial in `key`; the last block is filled
up with zeros. -/
def absorb (key : Element) : Nat → Element → List UInt8 → Element
  | 0, acc, _ => acc
  | n + 1, acc, bytes =>
    absorb key n ((acc.add (.ofBlock (.ofList (bytes.take 16)))).mul key) (bytes.drop 16)

/-- The number of blocks that hold `n` bytes. -/
def blockCount (n : Nat) : Nat := (n + 15) / 16

/-- The polynomial in `key` of the associated data, the ciphertext and their lengths in bits. -/
def authenticate (key : Element) (associated ciphertext : List UInt8) : Element :=
  let acc := absorb key (blockCount associated.length) ⟨0, 0⟩ associated
  let acc := absorb key (blockCount ciphertext.length) acc ciphertext
  let lengths : Element := ⟨(8 * associated.length).toUInt64, (8 * ciphertext.length).toUInt64⟩
  (acc.add lengths).mul key

/-! ### Sealing and opening -/

/-- The number of bytes of a tag. -/
def tagSize : Nat := 16

/-- The greatest number of bytes that are sealed. -/
def maxPlaintext : Nat := 2 ^ (36 : Nat)

/-- The greatest number of bytes of a ciphertext that is opened. -/
def maxCiphertext : Nat := 2 ^ (36 : Nat) + 16

/-- The encryption of the counter block with the given nonce and counter. -/
def counterBlock (schedule : Aes128.Schedule) (nonce : List UInt8) (counter : UInt32) :
    List UInt8 :=
  (Aes128.encrypt schedule (.ofList (nonce ++ Words.toBE32 counter))).toList

/-- The mask of a text of `size` bytes: whole counter blocks from the second one on. -/
def mask (schedule : Aes128.Schedule) (nonce : List UInt8) (size : Nat) : List UInt8 :=
  (List.range (blockCount size)).flatMap fun i =>
    counterBlock schedule nonce (i + 2).toUInt32

/-- A text with the mask added, or taken away again. -/
def applyMask (schedule : Aes128.Schedule) (nonce text : List UInt8) : List UInt8 :=
  List.zipWith (· ^^^ ·) text (mask schedule nonce text.length)

/-- The tag of a ciphertext and its associated data. -/
def tag (schedule : Aes128.Schedule) (nonce associated ciphertext : List UInt8) : List UInt8 :=
  let zero := Aes128.Block.ofList []
  let key := Element.ofBlock (Aes128.encrypt schedule zero)
  List.zipWith (· ^^^ ·) (authenticate key associated ciphertext).toList
    (counterBlock schedule nonce 1)

/-- The ciphertext of a plaintext, followed by its tag. -/
def encrypt (key nonce associated plaintext : List UInt8) : List UInt8 :=
  let schedule := Aes128.Schedule.ofKey key
  let ciphertext := applyMask schedule nonce plaintext
  ciphertext ++ tag schedule nonce associated ciphertext

/-- The ciphertext of a plaintext that is not too long, followed by its tag. -/
def encrypt? (key nonce associated plaintext : List UInt8) : Option (List UInt8) :=
  if maxPlaintext < plaintext.length then none
  else some (encrypt key nonce associated plaintext)

/-- The plaintext of a ciphertext that is followed by its tag, if the tag is right and the
ciphertext is not too long. -/
def decrypt? (key nonce associated sealed : List UInt8) : Option (List UInt8) :=
  let schedule := Aes128.Schedule.ofKey key
  let size := sealed.length - tagSize
  let ciphertext := sealed.take size
  if maxCiphertext < size then none
  else if sealed.drop size = tag schedule nonce associated ciphertext then
    some (applyMask schedule nonce ciphertext)
  else none

end SplitTally.Gcm
