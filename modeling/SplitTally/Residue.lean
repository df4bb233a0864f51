import SplitTally.Entropy
import SplitTally.Residue.Representative

/-!
# Residues modulo the share modulus

Shares, proof points and totals are residues modulo the prime `2 ^ 32 - 2 ^ 20 + 1`. A residue is
held as its representative below the modulus, in one 32-bit word, so equal residues are equal
words. It is computed with in 64-bit words, where the sum and the product of two representatives
are exact.
-/

namespace SplitTally

-- Powers of numbers are those of core, whatever other powers are in scope.
attribute [local instance (high)] instPowNat

/-- A residue modulo `modulus`, as its representative below the modulus. -/
structure Residue where
  /-- The representative. -/
  val : UInt32
  /-- The representative is reduced. -/
  val_lt : val.toNat < modulus
  deriving DecidableEq, Repr

namespace Residue

open Representative (toNat_ofNat ofNat_lt)

/-- The representative in a 64-bit word. -/
def word (a : Residue) : UInt64 := a.val.toUInt64

/-- The representative as a natural number. -/
def toNat (a : Residue) : Nat := a.val.toNat

/-- A residue is below the modulus. -/
theorem toNat_lt (a : Residue) : a.toNat < modulus := a.val_lt

/-- The word of a residue holds its number. -/
theorem toNat_word (a : Residue) : a.word.toNat = a.toNat := by
  simp [word, toNat]

/-- The word of a residue is below the modulus. -/
theorem word_lt (a : Residue) : a.word.toNat < modulus := by
  rw [toNat_word]
  exact a.toNat_lt

/-- Residues with equal representatives are equal. -/
theorem ext_toNat {a b : Residue} (h : a.toNat = b.toNat) : a = b := by
  cases a
  cases b
  simp only [mk.injEq]
  exact UInt32.toNat_inj.1 h

/-- The residue with the representative that a 64-bit word holds. -/
def ofRepresentative (w : UInt64) {n : Nat} (h : w = Representative.ofNat n) : Residue where
  val := w.toUInt32
  val_lt := by
    have hlt := ofNat_lt n
    rw [UInt64.toNat_toUInt32, h, toNat_ofNat]
    exact Nat.lt_of_le_of_lt (Nat.mod_le _ _) hlt

/-- The residue of a representative is the remainder of the number that it represents. -/
theorem toNat_ofRepresentative {w : UInt64} {n : Nat} (h : w = Representative.ofNat n) :
    (ofRepresentative w h).toNat = n % modulus := by
  have hlt := Nat.lt_trans (ofNat_lt n) (show modulus < 2 ^ 32 by decide)
  rw [toNat, ofRepresentative, UInt64.toNat_toUInt32, h, toNat_ofNat, Nat.mod_eq_of_lt hlt]

/-- The residue of a 32-bit word. -/
def ofWord (w : UInt32) : Residue :=
  ofRepresentative (Representative.reduce w.toUInt64) (Representative.reduce_eq _)

/-- A word is reduced to its remainder. -/
theorem toNat_ofWord (w : UInt32) : (ofWord w).toNat = w.toNat % modulus := by
  rw [ofWord, toNat_ofRepresentative, UInt32.toNat_toUInt64]

/-! ### The operations -/

section

open WordArithmetic (wrapping exact_wrapping)

instance : Zero Residue := ⟨⟨0, by decide⟩⟩

instance : One Residue := ⟨⟨1, by decide⟩⟩

instance : Inhabited Residue := ⟨0⟩

instance : Add Residue :=
  ⟨fun a b => ofRepresentative (Representative.add wrapping a.word b.word).run
    (Representative.add_eq exact_wrapping a.word_lt b.word_lt)⟩

instance : Sub Residue :=
  ⟨fun a b => ofRepresentative (Representative.sub a.word b.word)
    (Representative.sub_eq (Nat.le_of_lt b.word_lt) (Nat.lt_add_left _ a.word_lt))⟩

instance : Neg Residue :=
  ⟨fun a => ofRepresentative (Representative.neg a.word) (Representative.neg_eq a.word_lt)⟩

instance : Mul Residue :=
  ⟨fun a b => ofRepresentative (Representative.mul wrapping a.word b.word).run
    (Representative.mul_eq exact_wrapping a.word_lt b.word_lt)⟩

/-- The power `a ^ e`; `a ^ 0` is one, also for zero. -/
def pow (a : Residue) (e : UInt32) : Residue :=
  ofRepresentative (Representative.pow wrapping a.word e.toUInt64).run
    (Representative.pow_eq exact_wrapping a.word_lt _)

/-- The power with exponent two below the modulus: the inverse of a residue other than zero. -/
def inverse (a : Residue) : Residue :=
  ofRepresentative (Representative.inv wrapping a.word).run
    (Representative.inv_eq exact_wrapping a.word_lt)

end

/-- Replaces the residue that is held by its sum with another. -/
def addAssign (b : Residue) : StateM Residue Unit := modify (· + b)

/-- Replaces the residue that is held by its difference to another. -/
def subAssign (b : Residue) : StateM Residue Unit := modify (· - b)

/-- Replaces the residue that is held by its product with another. -/
def mulAssign (b : Residue) : StateM Residue Unit := modify (· * b)

instance : ToString Residue := ⟨fun a => toString a.val⟩

/-- Zero is the number zero. -/
theorem toNat_zero : (0 : Residue).toNat = 0 := rfl

/-- One is the number one. -/
theorem toNat_one : (1 : Residue).toNat = 1 := rfl

/-- A sum is the remainder of the sum of the numbers. -/
theorem toNat_add (a b : Residue) : (a + b).toNat = (a.toNat + b.toNat) % modulus :=
  (toNat_ofRepresentative _).trans (by rw [toNat_word, toNat_word])

/-- Subtracting adds the complement of the representative in the modulus. -/
theorem toNat_sub (a b : Residue) :
    (a - b).toNat = (a.toNat + (modulus - b.toNat)) % modulus :=
  (toNat_ofRepresentative _).trans (by rw [toNat_word, toNat_word])

/-- The negative is what is missing to the modulus. -/
theorem toNat_neg (a : Residue) : (-a).toNat = (modulus - a.toNat) % modulus :=
  (toNat_ofRepresentative _).trans (by rw [toNat_word])

/-- A product is the remainder of the product of the numbers. -/
theorem toNat_mul (a b : Residue) : (a * b).toNat = a.toNat * b.toNat % modulus :=
  (toNat_ofRepresentative _).trans (by rw [toNat_word, toNat_word])

/-- A power is the remainder of the power of the number. -/
theorem toNat_pow (a : Residue) (e : UInt32) : (a.pow e).toNat = a.toNat ^ e.toNat % modulus :=
  (toNat_ofRepresentative _).trans (by rw [toNat_word, UInt32.toNat_toUInt64])

/-- The inverse is the remainder of the power for it. -/
theorem toNat_inverse (a : Residue) : a.inverse.toNat = a.toNat ^ (modulus - 2) % modulus :=
  (toNat_ofRepresentative _).trans (by rw [toNat_word])

end Residue

/-- Why an operation on residues is refused. -/
inductive ResidueError where
  /-- Two vectors that are taken together have different lengths. -/
  | sizeMismatch
  /-- Fewer bytes are left than a residue takes. -/
  | shortRead
  /-- The bytes hold a number that is not below the modulus. -/
  | notReduced
  /-- Zero has no inverse. -/
  | inverseOfZero
  /-- The source of random bytes gave out. -/
  | entropy
  deriving DecidableEq, Repr

/-- The text of the error. -/
def ResidueError.message : ResidueError → String
  | .sizeMismatch => "input sizes do not match"
  | .shortRead => "short read from bytes"
  | .notReduced => "read from byte slice exceeds modulus"
  | .inverseOfZero => "inverse of zero"
  | .entropy => "system entropy source failed: " ++ Entropy.failure

namespace Residue

/-- The inverse of `a`, refused for zero. -/
def inv? (a : Residue) : Except ResidueError Residue :=
  if a = 0 then .error .inverseOfZero else .ok a.inverse

/-- The sum of two vectors of one length, position by position. -/
def merge (total other : List Residue) : Except ResidueError (List Residue) :=
  if total.length = other.length then .ok (List.zipWith (· + ·) total other)
  else .error .sizeMismatch

/-- Adds a vector to the one in a buffer, one position after the other. A vector of another length
is refused before the first position. -/
def mergeInto (total other : Array Residue) : Except ResidueError Unit × Array Residue :=
  if total.size = other.size then
    (.ok (), other.size.fold (fun i _ total =>
      total.modify i fun a => ((addAssign (other.getD i 0)).run a).run.2) total)
  else (.error .sizeMismatch, total)

end Residue

end SplitTally
