import SplitTally.Residue.Draw
import SplitTally.Transform

/-!
# Proofs that all slots are bits

Let `N` be the least power of two above the number of slots. The polynomials `f` and `g` take
random values at the first `N`-th root of unity, and `x` and `x - 1` at the root of each slot `x`;
at the roots left over both are zero. Their product `h` is zero at the root of a slot exactly when
the slot is zero or one. The proof consists of the values of `f`, `g` and `h` at the first root and
of the values of `h` at the `2 * N`-th roots of unity with odd exponent; those with even exponent
are the `N`-th roots, where an honest `h` is known.
-/

namespace SplitTally

-- Powers of numbers are those of core, whatever other powers are in scope.
attribute [local instance (high)] instPowNat

/-- Why a proof cannot be built or taken apart. -/
inductive BitProofError where
  /-- There are not enough roots of unity for so many slots. -/
  | dimensionTooLarge (dimension : Nat)
  /-- The input has another length than the number of slots demands. -/
  | sizeMismatch
  /-- An operation on residues failed. -/
  | residue (cause : ResidueError)
  deriving DecidableEq, Repr

/-- The text of the error. -/
def BitProofError.message : BitProofError → String
  | .dimensionTooLarge dimension =>
    "dimension " ++ toString dimension ++ " exceeds field capacity"
  | .sizeMismatch => "input has wrong length"
  | .residue cause => cause.message

/-- A proof that the slots of a vector are bits. -/
structure BitProof where
  /-- The value of `f` at the first root. -/
  f0 : Residue
  /-- The value of `g` at the first root. -/
  g0 : Residue
  /-- The value of `h` at the first root. -/
  h0 : Residue
  /-- The values of `h` at the roots with odd exponent. -/
  packed : List Residue
  deriving DecidableEq, Repr

namespace BitProof

/-- The number of binary digits of a number; none for zero. -/
def digits (n : Nat) : Nat := if n = 0 then 0 else n.log2 + 1

/-- The exponent of the number of points for so many slots. -/
def pointBits (dimension : Nat) : Nat := digits dimension

/-- The number of points for so many slots: the least power of two above their number. -/
def pointCount (dimension : Nat) : Nat := 2 ^ pointBits dimension

/-- The number of residues of a proof about so many slots. -/
def flatSize (dimension : Nat) : Nat := 3 + pointCount dimension

/-- The residues of a proof in their fixed order. -/
def flatten (proof : BitProof) : List Residue :=
  proof.f0 :: proof.g0 :: proof.h0 :: proof.packed

/-- The proof, or share of a proof, about so many slots whose residues are given. -/
def ofFlat (dimension : Nat) (flat : List Residue) : Except BitProofError BitProof :=
  if flat.length = flatSize dimension then
    match flat with
    | f0 :: g0 :: h0 :: packed => .ok ⟨f0, g0, h0, packed⟩
    | _ => .error .sizeMismatch
  else .error .sizeMismatch

/-- One of the residues of a proof. -/
inductive Part where
  /-- The value of `f` at the first root. -/
  | f0
  /-- The value of `g` at the first root. -/
  | g0
  /-- The value of `h` at the first root. -/
  | h0
  /-- The value of `h` at the root with the exponent `2 * index + 1`. -/
  | packed (index : Nat)
  deriving DecidableEq, Repr

/-- The proof with `x` added to one of its residues. -/
def add (proof : BitProof) (part : Part) (x : Residue) : BitProof :=
  match part with
  | .f0 => { proof with f0 := proof.f0 + x }
  | .g0 => { proof with g0 := proof.g0 + x }
  | .h0 => { proof with h0 := proof.h0 + x }
  | .packed index => { proof with packed := proof.packed.modify index (· + x) }

/-- The values of a polynomial at the `2 ^ k`-th roots of unity: `first` at the first root, then the
entries of `xs`, and zero at the roots left over. -/
def points (k : Nat) (first : Residue) (xs : List Residue) : Vector Residue (2 ^ k) :=
  let entries := xs.toArray
  Vector.ofFn fun i => if i.val = 0 then first else entries.getD (i.val - 1) 0

/-- The values at the `2 ^ (k + 1)`-th roots of unity with odd exponent of the polynomial with the
given values at the `2 ^ k`-th roots of unity. -/
def oddValues (k : Nat) (points : Vector Residue (2 ^ k)) : Vector Residue (2 ^ k) :=
  Transform.odds (Transform.values (k + 1) (Transform.zeroExtend (Transform.interpolate k points)))

/-- The proof about the slots `xs` with the chosen values of `f` and `g` at the first root. -/
def build (xs : List Residue) (f0 g0 : Residue) : BitProof :=
  let k := pointBits xs.length
  let f := oddValues k (points k f0 xs)
  let g := oddValues k (points k g0 (xs.map (· - 1)))
  { f0, g0, h0 := f0 * g0, packed := (Vector.zipWith (· * ·) f g).toList }

end BitProof

/-- A prover for vectors of one length, for which there are enough roots of unity. -/
structure Prover where
  /-- The number of slots. -/
  dimension : Nat
  /-- Twice the number of points are roots of unity. -/
  fits : 2 * BitProof.pointCount dimension ≤ Roots.groupOrder

namespace Prover

/-- The prover for vectors of `dimension` slots. -/
def ofDimension (dimension : Nat) : Except BitProofError Prover :=
  if h : 2 * BitProof.pointCount dimension ≤ Roots.groupOrder then
    .ok ⟨dimension, h⟩
  else .error (.dimensionTooLarge dimension)

/-- Proves that the slots are bits. Slots that are no bits get a proof too, which is refused. -/
def prove (prover : Prover) (xs : List Residue) : Draw BitProofError BitProof := do
  if xs.length ≠ prover.dimension then throw .sizeMismatch
  let f0 ← Residue.draw.mapError .residue
  let g0 ← Residue.draw.mapError .residue
  return BitProof.build xs f0 g0

end Prover

/-- Proves that the slots are bits, for a vector of any length that has a proof. -/
def BitProof.prove (xs : List Residue) : Draw BitProofError BitProof := do
  let prover ← Draw.ofExcept (Prover.ofDimension xs.length)
  prover.prove xs

end SplitTally
