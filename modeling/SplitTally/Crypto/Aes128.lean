/-!
# The block cipher AES-128

A block is four columns of four bytes. Each of the ten rounds substitutes all bytes, turns the rows
of the block, mixes each column and adds a round key; the last round does not mix.
-/

namespace SplitTally.Aes128

/-! ### Bytes as polynomials over two elements, modulo `x⁸ + x⁴ + x³ + x + 1` -/

/-- The product with `x`. -/
def double (b : UInt8) : UInt8 := (b <<< 1) ^^^ (if b &&& 0x80 = 0 then 0 else 0x1b)

/-- The product of two bytes, by the lowest `n` bits of the second. -/
def times : Nat → UInt8 → UInt8 → UInt8
  | 0, _, _ => 0
  | n + 1, a, b => (if b &&& 1 = 0 then 0 else a) ^^^ times n (double a) (b >>> 1)

/-- The inverse of a byte, and zero for zero: its power with exponent 254. -/
def inverse (a : UInt8) : UInt8 :=
  let square (b : UInt8) := times 8 b b
  let three := times 8 (square a) a
  let seven := times 8 (square three) a
  let fifteen := times 8 (square seven) a
  let thirtyOne := times 8 (square fifteen) a
  let sixtyThree := times 8 (square thirtyOne) a
  square (times 8 (square sixtyThree) a)

/-- The byte turned left by `n` bits. -/
def rotateLeft (b n : UInt8) : UInt8 := (b <<< n) ||| (b >>> (8 - n))

/-- The substitution of all bytes: the inverse, mixed with its rotations. -/
def substitutions : Vector UInt8 256 := Vector.ofFn fun i =>
  let b := inverse i.val.toUInt8
  b ^^^ rotateLeft b 1 ^^^ rotateLeft b 2 ^^^ rotateLeft b 3 ^^^ rotateLeft b 4 ^^^ 0x63

/-- The substitution of a byte. -/
def substitute (b : UInt8) : UInt8 := substitutions.get ⟨b.toNat, b.toNat_lt⟩

/-! ### Columns and blocks -/

/-- Four bytes, from top to bottom. -/
structure Column where
  /-- The first byte. -/
  b0 : UInt8
  /-- The second byte. -/
  b1 : UInt8
  /-- The third byte. -/
  b2 : UInt8
  /-- The fourth byte. -/
  b3 : UInt8
  deriving DecidableEq

namespace Column

/-- The sum of two columns. -/
def add (u v : Column) : Column := ⟨u.b0 ^^^ v.b0, u.b1 ^^^ v.b1, u.b2 ^^^ v.b2, u.b3 ^^^ v.b3⟩

/-- The column with the top byte moved to the bottom. -/
def turn (u : Column) : Column := ⟨u.b1, u.b2, u.b3, u.b0⟩

/-- The column with all bytes substituted. -/
def substitute (u : Column) : Column :=
  ⟨Aes128.substitute u.b0, Aes128.substitute u.b1, Aes128.substitute u.b2, Aes128.substitute u.b3⟩

/-- One byte of a mixed column, from the bytes in turned order. -/
def mixed (a b c d : UInt8) : UInt8 := double a ^^^ (double b ^^^ b) ^^^ c ^^^ d

/-- The product with the fixed matrix. -/
def mix (u : Column) : Column :=
  ⟨mixed u.b0 u.b1 u.b2 u.b3, mixed u.b1 u.b2 u.b3 u.b0,
    mixed u.b2 u.b3 u.b0 u.b1, mixed u.b3 u.b0 u.b1 u.b2⟩

/-- The bytes of a column. -/
def toList (u : Column) : List UInt8 := [u.b0, u.b1, u.b2, u.b3]

end Column

/-- Sixteen bytes in four columns. -/
structure Block where
  /-- The first column. -/
  c0 : Column
  /-- The second column. -/
  c1 : Column
  /-- The third column. -/
  c2 : Column
  /-- The fourth column. -/
  c3 : Column
  deriving DecidableEq

namespace Block

/-- The block of the first sixteen bytes, zeros standing for those that are missing. -/
def ofList (bytes : List UInt8) : Block :=
  match bytes ++ List.replicate 16 0 with
  | a0 :: a1 :: a2 :: a3 :: b0 :: b1 :: b2 :: b3 :: c0 :: c1 :: c2 :: c3 :: d0 :: d1 :: d2 :: d3 ::
      _ => ⟨⟨a0, a1, a2, a3⟩, ⟨b0, b1, b2, b3⟩, ⟨c0, c1, c2, c3⟩, ⟨d0, d1, d2, d3⟩⟩
  | _ => ⟨⟨0, 0, 0, 0⟩, ⟨0, 0, 0, 0⟩, ⟨0, 0, 0, 0⟩, ⟨0, 0, 0, 0⟩⟩

/-- The bytes of a block. -/
def toList (x : Block) : List UInt8 :=
  x.c0.toList ++ (x.c1.toList ++ (x.c2.toList ++ x.c3.toList))

/-- The sum of two blocks. -/
def add (x y : Block) : Block :=
  ⟨x.c0.add y.c0, x.c1.add y.c1, x.c2.add y.c2, x.c3.add y.c3⟩

/-- The block with all bytes substituted. -/
def substitute (x : Block) : Block :=
  ⟨x.c0.substitute, x.c1.substitute, x.c2.substitute, x.c3.substitute⟩

/-- The block with row `r` turned by `r` columns. -/
def turnRows (x : Block) : Block :=
  ⟨⟨x.c0.b0, x.c1.b1, x.c2.b2, x.c3.b3⟩, ⟨x.c1.b0, x.c2.b1, x.c3.b2, x.c0.b3⟩,
    ⟨x.c2.b0, x.c3.b1, x.c0.b2, x.c1.b3⟩, ⟨x.c3.b0, x.c0.b1, x.c1.b2, x.c2.b3⟩⟩

/-- The block with each column mixed. -/
def mix (x : Block) : Block := ⟨x.c0.mix, x.c1.mix, x.c2.mix, x.c3.mix⟩

end Block

/-! ### Keys and encryption -/

/-- The round key after `key`, whose constant is `constant`. -/
def nextKey (key : Block) (constant : UInt8) : Block :=
  let t := key.c3.turn.substitute
  let c0 := (key.c0.add t).add ⟨constant, 0, 0, 0⟩
  let c1 := key.c1.add c0
  let c2 := key.c2.add c1
  ⟨c0, c1, c2, key.c3.add c2⟩

/-- The next `n` round keys after `key`; the constant doubles from one to the next. -/
def keysAfter : Nat → Block → UInt8 → List Block
  | 0, _, _ => []
  | n + 1, key, constant =>
    let next := nextKey key constant
    next :: keysAfter n next (double constant)

/-- A key and its ten round keys. -/
structure Schedule where
  /-- The key, which is added before the first round. -/
  first : Block
  /-- The keys of the rounds. -/
  rounds : List Block

/-- The schedule of a key of sixteen bytes. -/
def Schedule.ofKey (key : List UInt8) : Schedule :=
  let first := Block.ofList key
  ⟨first, keysAfter 10 first 1⟩

/-- The rounds with the given keys; the last one does not mix. -/
def runRounds : List Block → Block → Block
  | [], x => x
  | [key], x => x.substitute.turnRows.add key
  | key :: keys, x => runRounds keys (x.substitute.turnRows.mix.add key)

/-- The encryption of one block. -/
def encrypt (schedule : Schedule) (x : Block) : Block :=
  runRounds schedule.rounds (x.add schedule.first)

end SplitTally.Aes128
