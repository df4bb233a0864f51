import SplitTally.Roots

/-!
# Evaluation and interpolation at the roots of unity

A polynomial is the vector of its coefficients, lowest first. Evaluating it at all `2 ^ k`-th roots
of unity splits into two evaluations of half the size: the values at the even powers of the root
come from the sums of opposite coefficients, those at the odd powers from their twisted
differences. Evaluating at the inverse roots and dividing by their number recovers the coefficients
from the values.
-/

namespace SplitTally.Transform

-- Powers of numbers are those of core, whatever other powers are in scope.
attribute [local instance (high)] instPowNat

variable {α : Type}

/-- The next power of two has twice as many entries. -/
theorem pow_succ_eq (k : Nat) : 2 ^ (k + 1) = 2 * 2 ^ k := by
  rw [Nat.pow_succ, Nat.mul_comm]

/-- The first half of a vector. -/
def low {k : Nat} (v : Vector α (2 ^ (k + 1))) : Vector α (2 ^ k) :=
  Vector.ofFn fun i => v.get ⟨i, by have := i.isLt; have := pow_succ_eq k; omega⟩

/-- The second half of a vector. -/
def high {k : Nat} (v : Vector α (2 ^ (k + 1))) : Vector α (2 ^ k) :=
  Vector.ofFn fun i => v.get ⟨2 ^ k + i, by have := i.isLt; have := pow_succ_eq k; omega⟩

/-- The entries at even positions. -/
def evens {k : Nat} (v : Vector α (2 ^ (k + 1))) : Vector α (2 ^ k) :=
  Vector.ofFn fun i => v.get ⟨2 * i, by have := i.isLt; have := pow_succ_eq k; omega⟩

/-- The entries at odd positions. -/
def odds {k : Nat} (v : Vector α (2 ^ (k + 1))) : Vector α (2 ^ k) :=
  Vector.ofFn fun i => v.get ⟨2 * i + 1, by have := i.isLt; have := pow_succ_eq k; omega⟩

/-- The vector with the first argument at its even and the second at its odd positions. -/
def interleave {k : Nat} (even odd : Vector α (2 ^ k)) : Vector α (2 ^ (k + 1)) :=
  Vector.ofFn fun i =>
    have h : i.val / 2 < 2 ^ k := by have := i.isLt; have := pow_succ_eq k; omega
    if i.val % 2 = 0 then even.get ⟨i.val / 2, h⟩ else odd.get ⟨i.val / 2, h⟩

/-- The values at the entries of `roots` of the polynomial with the given coefficients. The roots
are the powers of a `2 ^ k`-th root of unity in the order of their exponents. -/
def evaluate : (k : Nat) → (roots coefficients : Vector Residue (2 ^ k)) →
    Vector Residue (2 ^ k)
  | 0, _, coefficients => coefficients
  | k + 1, roots, coefficients =>
    let first := low coefficients
    let second := high coefficients
    let halved := evens roots
    let twisted := Vector.zipWith (· * ·) (Vector.zipWith (· - ·) first second) (low roots)
    interleave (evaluate k halved (Vector.zipWith (· + ·) first second))
      (evaluate k halved twisted)

/-- The values of a polynomial at the `2 ^ k`-th roots of unity. -/
def values (k : Nat) (coefficients : Vector Residue (2 ^ k)) : Vector Residue (2 ^ k) :=
  evaluate k (Roots.table k false) coefficients

/-- The coefficients of the polynomial of degree below `2 ^ k` with the given values at the
`2 ^ k`-th roots of unity. -/
def interpolate (k : Nat) (points : Vector Residue (2 ^ k)) : Vector Residue (2 ^ k) :=
  let scale := (Residue.ofWord (2 ^ k).toUInt32).inverse
  (evaluate k (Roots.table k true) points).map (· * scale)

/-- The vector of twice the length that continues with zeros. -/
def zeroExtend {k : Nat} (v : Vector Residue (2 ^ k)) : Vector Residue (2 ^ (k + 1)) :=
  Vector.ofFn fun i => if h : i.val < 2 ^ k then v.get ⟨i.val, h⟩ else 0

/-- The value of a polynomial at `x`, by nested multiplication. -/
def valueAt {n : Nat} (coefficients : Vector Residue n) (x : Residue) : Residue :=
  coefficients.foldr (fun c acc => acc * x + c) 0

/-- The value at `x` of the polynomial of degree below `2 ^ k` with the given values at the
`2 ^ k`-th roots of unity. -/
def interpolateAt (k : Nat) (points : Vector Residue (2 ^ k)) (x : Residue) : Residue :=
  valueAt (interpolate k points) x

end SplitTally.Transform
