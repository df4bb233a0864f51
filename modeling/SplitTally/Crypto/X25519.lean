/-!
# Key agreement on the Montgomery curve over `2 ^ 255 - 19`

A point of the curve `v² = u³ + 486662 u² + u` is known by its coordinate `u`. The coordinate of a
multiple is computed along the bits of the scalar from those of two points whose difference stays
the given point, with `u` kept as a fraction so that only one division is needed.
-/

namespace SplitTally.X25519

-- Powers of numbers are those of core, whatever other powers are in scope.
attribute [local instance (high)] instPowNat

/-- The prime below which coordinates are reduced. -/
def prime : Nat := 2 ^ (255 : Nat) - 19

/-- The number of bytes of a scalar and of a coordinate. -/
def size : Nat := 32

/-- The number in a byte string, least significant byte first. -/
def ofBytes (bytes : List UInt8) : Nat := bytes.foldr (fun b n => b.toNat + 256 * n) 0

/-- The lowest `n` bytes of a number, least significant first. -/
def toBytes : (n value : Nat) → List UInt8
  | 0, _ => []
  | n + 1, value => value.toUInt8 :: toBytes n (value / 256)

/-- So many bytes are written, whatever the value. -/
theorem length_toBytes (n value : Nat) : (toBytes n value).length = n := by
  induction n generalizing value with
  | zero => rfl
  | succ n ih => simp [toBytes, ih]

/-- The lowest `n` bits of a number, most significant first. -/
def bits (n value : Nat) : List Bool :=
  (List.range n).map fun i => value.testBit (n - 1 - i)

/-- The scalar of a secret: the three lowest bits are cleared and the highest bit is bit 254. -/
def scalar (secret : List UInt8) : Nat := ofBytes secret % 2 ^ (254 : Nat) / 8 * 8 + 2 ^ (254 : Nat)

/-- The coordinate that a public key stands for; its highest bit is ignored. -/
def coordinate (key : List UInt8) : Nat := ofBytes key % 2 ^ (255 : Nat) % prime

/-- The power `a ^ e` modulo the prime, for an exponent of 255 bits. -/
def power (a e : Nat) : Nat :=
  (bits 255 e).foldl (fun acc bit => if bit then acc * acc * a % prime else acc * acc % prime) 1

/-- A coordinate as a fraction; the denominator of the point at infinity is zero. -/
structure Fraction where
  /-- The numerator. -/
  x : Nat
  /-- The denominator. -/
  z : Nat
  deriving DecidableEq

/-- The coordinate of twice a point. -/
def twice (p : Fraction) : Fraction :=
  let sum := p.x + p.z
  let difference := p.x + (prime - p.z)
  let sumSquare := sum * sum % prime
  let differenceSquare := difference * difference % prime
  let gap := (sumSquare + (prime - differenceSquare)) % prime
  { x := sumSquare * differenceSquare % prime, z := gap * (sumSquare + 121665 * gap) % prime }

/-- The coordinate of the sum of two points whose difference has the coordinate `u`. -/
def addWithDifference (u : Nat) (p q : Fraction) : Fraction :=
  let cross := (p.x + (prime - p.z)) * (q.x + q.z) % prime
  let cross' := (p.x + p.z) * (q.x + (prime - q.z)) % prime
  let sum := cross + cross'
  let difference := cross + (prime - cross')
  { x := sum * sum % prime, z := u * (difference * difference % prime) % prime }

/-- One bit of the scalar, on the coordinates of a multiple and of the multiple after it. -/
def step (u : Nat) (pair : Fraction × Fraction) (bit : Bool) : Fraction × Fraction :=
  let (p, q) := pair
  if bit then (addWithDifference u p q, twice q) else (twice p, addWithDifference u p q)

/-- The coordinate of a multiple of a point, as 32 bytes. -/
def multiply (scalar u : Nat) : List UInt8 :=
  let (p, _) := (bits 255 scalar).foldl (step u) (⟨1, 0⟩, ⟨u, 1⟩)
  toBytes size (p.x * power p.z (prime - 2) % prime)

/-- A multiple of a point is told by a coordinate of 32 bytes. -/
theorem length_multiply (scalar u : Nat) : (multiply scalar u).length = size := by
  rw [multiply, length_toBytes]

/-- The public key of a secret. -/
def publicKey (secret : List UInt8) : List UInt8 := multiply (scalar secret) 9

/-- A public key has 32 bytes. -/
theorem length_publicKey (secret : List UInt8) : (publicKey secret).length = size := by
  rw [publicKey, length_multiply]

/-- The secret that the holder of a secret shares with the holder of a public key. -/
def agree (secret key : List UInt8) : List UInt8 := multiply (scalar secret) (coordinate key)

end SplitTally.X25519
