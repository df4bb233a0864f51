import SplitTally.Transform

/-!
# The transform in kept buffers

The transform writes its values into a buffer that is kept from one transform to the next, and so
are the buffers for what it computes on the way. Each buffer for what is on the way is split: the
first half of the entries serves one recursive transform and then the other, and what is left serves
the recursion inside both. Entries are overwritten and never cleared, so a buffer may hold more
entries than a transform needs, and any values before it.
-/

namespace SplitTally.Transform

-- Powers of numbers are those of core, whatever other powers are in scope.
attribute [local instance (high)] instPowNat

/-- The buffer with `value i` written to `position i` for each `i` below `n`, one after the other.
All other entries stay. -/
def write (buffer : Array Residue) (n : Nat) (position : Nat → Nat) (value : Nat → Residue) :
    Array Residue :=
  n.fold (fun i _ buffer => buffer.setIfInBounds (position i) (value i)) buffer

/-- The first `2 ^ k` entries of a buffer. -/
def front (k : Nat) (buffer : Array Residue) : Vector Residue (2 ^ k) :=
  Vector.ofFn fun i => buffer.getD i 0

/-- The buffers for what a transform computes on the way. -/
structure Scratch where
  /-- The values of a polynomial of half the size. -/
  values : Array Residue
  /-- The coefficients of a polynomial of half the size. -/
  coefficients : Array Residue
  /-- Every other root. -/
  roots : Array Residue

namespace Scratch

/-- Buffers of `n` zeros. -/
def zeros (n : Nat) : Scratch where
  values := Array.replicate n 0
  coefficients := Array.replicate n 0
  roots := Array.replicate n 0

/-- The first `n` entries of each buffer, and the entries after them. -/
def split (scratch : Scratch) (n : Nat) : Scratch × Scratch :=
  let ⟨values, coefficients, roots⟩ := scratch
  (⟨values.extract 0 n, coefficients.extract 0 n, roots.extract 0 n⟩,
    ⟨values.extract n, coefficients.extract n, roots.extract n⟩)

/-- Each buffer with the entries of the other one behind its own. -/
def append (scratch other : Scratch) : Scratch where
  values := scratch.values ++ other.values
  coefficients := scratch.coefficients ++ other.coefficients
  roots := scratch.roots ++ other.roots

end Scratch

/-- Writes the values at the first `2 ^ k` entries of `roots` of the polynomial whose coefficients
are the first `2 ^ k` entries of `coefficients` to the front of the buffer `out`. -/
def evaluateInto : (k : Nat) → (out roots coefficients : Array Residue) → Scratch →
    Array Residue × Scratch
  | 0, out, _, coefficients, scratch => (out.setIfInBounds 0 (coefficients.getD 0 0), scratch)
  | k + 1, out, roots, coefficients, scratch =>
    let half := 2 ^ k
    let (⟨values, halves, halved⟩, rest) := scratch.split half
    let halves := write halves half id fun i =>
      coefficients.getD i 0 + coefficients.getD (i + half) 0
    let halved := write halved half id fun i => roots.getD (2 * i) 0
    let (values, rest) := evaluateInto k values halved halves rest
    let out := write out half (2 * ·) fun i => values.getD i 0
    let halves := write halves half id fun i =>
      (coefficients.getD i 0 - coefficients.getD (i + half) 0) * roots.getD i 0
    let (values, rest) := evaluateInto k values halved halves rest
    let out := write out half (2 * · + 1) fun i => values.getD i 0
    (out, Scratch.append ⟨values, halves, halved⟩ rest)

/-- Writes the coefficients of the polynomial with the values `points` at the `2 ^ k`-th roots of
unity to the front of the buffer `out`. -/
def interpolateInto (k : Nat) (out inverseRoots points : Array Residue) (scratch : Scratch) :
    Array Residue × Scratch :=
  let (out, scratch) := evaluateInto k out inverseRoots points scratch
  let scale := (Residue.ofWord (2 ^ k).toUInt32).inverse
  (write out (2 ^ k) id fun i => out.getD i 0 * scale, scratch)

end SplitTally.Transform
