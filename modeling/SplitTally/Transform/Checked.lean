import SplitTally.Transform.InPlace

/-!
# The transform with checked accesses

An entry that a transform reads or writes must be one of its buffer, and a buffer that is split must
be long enough for the first part. The transform below looks at this each time and has no result as
soon as an entry is missing.
-/

namespace SplitTally.Transform

-- Powers of numbers are those of core, whatever other powers are in scope.
attribute [local instance (high)] instPowNat

/-- The buffer with the entry at a position replaced, if it has that entry. -/
def set? (buffer : Array Residue) (position : Nat) (x : Residue) : Option (Array Residue) :=
  if h : position < buffer.size then some (buffer.set position x h) else none

/-- The buffer with `value i` written to `position i` for each `i` below `n`, one after the other,
if all of these values and entries are there. -/
def write? (buffer : Array Residue) (n : Nat) (position : Nat → Nat)
    (value : Nat → Option Residue) : Option (Array Residue) :=
  n.fold (fun i _ written => do set? (← written) (position i) (← value i)) (some buffer)

/-- The first `n` entries of each buffer, and the entries after them, if every buffer has `n`. -/
def Scratch.split? (scratch : Scratch) (n : Nat) : Option (Scratch × Scratch) :=
  if n ≤ scratch.values.size ∧ n ≤ scratch.coefficients.size ∧ n ≤ scratch.roots.size then
    some (scratch.split n)
  else none

/-- The sum of the `i`-th coefficient and the opposite one. -/
def sum? (coefficients : Array Residue) (half i : Nat) : Option Residue := do
  return (← coefficients[i]?) + (← coefficients[i + half]?)

/-- The difference of the `i`-th coefficient and the opposite one, times the `i`-th root. -/
def twisted? (roots coefficients : Array Residue) (half i : Nat) : Option Residue := do
  return ((← coefficients[i]?) - (← coefficients[i + half]?)) * (← roots[i]?)

/-- Writes the values at the first `2 ^ k` entries of `roots` of the polynomial whose coefficients
are the first `2 ^ k` entries of `coefficients` to the front of the buffer `out`. -/
def evaluateInto? : (k : Nat) → (out roots coefficients : Array Residue) → Scratch →
    Option (Array Residue × Scratch)
  | 0, out, _, coefficients, scratch => do
    return (← set? out 0 (← coefficients[0]?), scratch)
  | k + 1, out, roots, coefficients, scratch => do
    let half := 2 ^ k
    let (⟨values, halves, halved⟩, rest) ← scratch.split? half
    let halves ← write? halves half id (sum? coefficients half)
    let halved ← write? halved half id fun i => roots[2 * i]?
    let (values, rest) ← evaluateInto? k values halved halves rest
    let out ← write? out half (2 * ·) fun i => values[i]?
    let halves ← write? halves half id (twisted? roots coefficients half)
    let (values, rest) ← evaluateInto? k values halved halves rest
    let out ← write? out half (2 * · + 1) fun i => values[i]?
    return (out, Scratch.append ⟨values, halves, halved⟩ rest)

/-- The multiple of the `i`-th value. -/
def scaled? (values : Array Residue) (scale : Residue) (i : Nat) : Option Residue := do
  return (← values[i]?) * scale

/-- Writes the values of a polynomial at the listed roots to the front of the buffer `out`, divided
by the number of the roots if these are the inverted ones. -/
def transformInto? (k : Nat) (inverted : Bool) (out roots points : Array Residue)
    (scratch : Scratch) : Option (Array Residue × Scratch) := do
  let (out, scratch) ← evaluateInto? k out roots points scratch
  if inverted then
    let scale := (Residue.ofWord (2 ^ k).toUInt32).inverse
    return (← write? out (2 ^ k) id (scaled? out scale), scratch)
  else return (out, scratch)

/-- The first `n` entries of a buffer, if it has as many. -/
def front? (n : Nat) (buffer : Array Residue) : Option (Array Residue) :=
  if n ≤ buffer.size then some (buffer.extract 0 n) else none

/-- The value of a polynomial at `x`, by nested multiplication from its last coefficient on. -/
def valueAt? (coefficients : Array Residue) (x : Residue) : Option Residue :=
  (coefficients.size - 1).foldRev
    (fun i _ value => do return (← value) * x + (← coefficients[i]?))
    coefficients[coefficients.size - 1]?

end SplitTally.Transform
