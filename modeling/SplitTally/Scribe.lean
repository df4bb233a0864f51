import SplitTally.BitProof
import SplitTally.Transform.InPlace

/-!
# Scribes

A scribe is a prover at work: it lists the roots of unity once and writes every proof in new
buffers. Within a proof both polynomials go through the same buffer for coefficients and the same
scratch buffers, so the second one finds there what the first one left.
-/

namespace SplitTally

-- Powers of numbers are those of core, whatever other powers are in scope.
attribute [local instance (high)] instPowNat

/-- A prover with its roots of unity. -/
structure Scribe where
  /-- The prover. -/
  prover : Prover
  /-- The roots of unity at which the polynomials are evaluated. -/
  roots : Array Residue
  /-- The inverses of the roots of unity at which the polynomials are given. -/
  inverses : Array Residue

namespace Scribe

open BitProof (pointBits)
open Transform (Scratch write)

/-- The scribe of a prover. -/
def ofProver (prover : Prover) : Scribe where
  prover := prover
  roots := (Roots.table (pointBits prover.dimension + 1) false).toArray
  inverses := (Roots.table (pointBits prover.dimension) true).toArray

/-- The scribe for vectors of `dimension` slots. -/
def ofDimension (dimension : Nat) : Except BitProofError Scribe :=
  (Prover.ofDimension dimension).map ofProver

/-- A new buffer of `2 ^ k` entries with `first` at its front, the entries of `xs` behind it, and
zeros behind these. -/
def load (k : Nat) (first : Residue) (xs : List Residue) : Array Residue :=
  let entries := xs.toArray
  write ((Array.replicate (2 ^ k) 0).setIfInBounds 0 first) entries.size (· + 1) fun i =>
    entries.getD i 0

/-- Writes the values of the polynomial through the points at twice as many roots of unity to the
buffer `out`. Its coefficients are written to their buffer, and the rest of that is cleared. -/
def spread (scribe : Scribe) (k : Nat) (out coefficients points : Array Residue)
    (scratch : Scratch) : Array Residue × Array Residue × Scratch :=
  let (coefficients, scratch) :=
    Transform.interpolateInto k coefficients scribe.inverses points scratch
  let coefficients := write coefficients (coefficients.size - 2 ^ k) (2 ^ k + ·) fun _ => 0
  let (out, scratch) := Transform.evaluateInto (k + 1) out scribe.roots coefficients scratch
  (out, coefficients, scratch)

/-- Every other entry, from the second one on. -/
def everyOther : List Residue → List Residue
  | _ :: x :: rest => x :: everyOther rest
  | _ => []

/-- The proof about the slots `xs` with the chosen values of `f` and `g` at the first root. -/
def build (scribe : Scribe) (xs : List Residue) (f0 g0 : Residue) : BitProof :=
  let k := pointBits scribe.prover.dimension
  let zeros := Array.replicate (2 ^ (k + 1)) 0
  let (f, coefficients, scratch) :=
    scribe.spread k zeros zeros (load k f0 xs) (Scratch.zeros (2 ^ (k + 1)))
  let (g, _, _) := scribe.spread k zeros coefficients (load k g0 (xs.map (· - 1))) scratch
  { f0, g0, h0 := f0 * g0, packed := everyOther (List.zipWith (· * ·) f.toList g.toList) }

/-- Proves that the slots are bits. Slots that are no bits get a proof too, which is refused. -/
def prove (scribe : Scribe) (xs : List Residue) : Draw BitProofError BitProof := do
  if xs.length ≠ scribe.prover.dimension then throw .sizeMismatch
  let f0 ← Residue.draw.mapError .residue
  let g0 ← Residue.draw.mapError .residue
  return scribe.build xs f0 g0

/-- Proves that the slots are bits, with a scribe for this vector alone. -/
def proveAlone (xs : List Residue) : Draw BitProofError BitProof := do
  let scribe ← Draw.ofExcept (ofDimension xs.length)
  scribe.prove xs

/-- Writes proofs about several vectors, whatever becomes of each. -/
def proveEach (scribe : Scribe) (vectors : List (List Residue)) (e : Entropy) :
    List (Except BitProofError BitProof) × Entropy :=
  match vectors with
  | [] => ([], e)
  | xs :: vectors =>
    let (outcome, e) := (scribe.prove xs).runOn e
    let (outcomes, e) := scribe.proveEach vectors e
    (outcome :: outcomes, e)

end Scribe

end SplitTally
