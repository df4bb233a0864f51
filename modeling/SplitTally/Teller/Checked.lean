import SplitTally.Teller
import SplitTally.Text.Cut
import SplitTally.Transform.Checked

/-!
# Messages with checked accesses

To form a message a teller takes a proof apart, writes a bundle to its buffers and evaluates three
polynomials. The entries it reads and writes must be there, in the bundle and in every buffer. The
teller below looks at this each time and has no answer as soon as an entry is missing.
-/

namespace SplitTally

-- Powers of numbers are those of core, whatever other powers are in scope.
attribute [local instance (high)] instPowNat

open Transform (front? set? transformInto? valueAt? write?)

/-- The proof, or share of a proof, about so many slots whose residues are given, if these can be
cut behind the third one. -/
def BitProof.ofFlat? (dimension : Nat) (flat : List Residue) :
    Option (Except BitProofError BitProof) :=
  if flat.length ≠ flatSize dimension then some (.error .sizeMismatch)
  else (Cut.atPosition? 3 flat).map fun (first, packed) =>
    match first with
    | [f0, g0, h0] => .ok ⟨f0, g0, h0, packed⟩
    | _ => .error .sizeMismatch

namespace Workspace

/-- Writes a server's shares of the values of the polynomials to the buffers. The values of `h` are
written to every other entry of its buffer as long as there are both values and entries. -/
def load? (workspace : Workspace) (server : Server) (data : List Residue) (proof : BitProof) :
    Option Workspace := do
  let slots := data.toArray
  let shifted := (Verifier.shiftedData server data).toArray
  let packed := proof.packed.toArray
  let f ← set? workspace.f 0 proof.f0
  let g ← set? workspace.g 0 proof.g0
  let h ← set? workspace.h 0 proof.h0
  let f ← write? f slots.size (· + 1) fun i => slots[i]?
  let g ← write? g slots.size (· + 1) fun i => shifted[i]?
  let h ← write? h (min (h.size / 2) packed.size) (2 * · + 1) fun i => packed[i]?
  return { workspace with f, g, h }

/-- The value at `x` of the polynomial with the values `points` at the `2 ^ k`-th roots of unity. -/
def valueAt? (workspace : Workspace) (k : Nat) (inverses points : Array Residue) (x : Residue) :
    Option (Residue × Workspace) :=
  if points.size ≠ 2 ^ k then none
  else do
    let (coefficients, scratch) ←
      transformInto? k true workspace.coefficients inverses points workspace.scratch
    let value ← Transform.valueAt? (← front? points.size coefficients) x
    return (value, { workspace with coefficients, scratch })

end Workspace

/-- Evaluates the server's shares of the polynomials at the point `x`. -/
def Teller.message? (teller : Teller) (x : Residue) (bundle : Bundle) :
    Option (Except VerifyError Message × Teller) :=
  let dimension := teller.verifier.dimension
  if bundle.dimension ≠ dimension then
    some (.error (.dimensionMismatch dimension bundle.dimension), teller)
  else do
    match ← BitProof.ofFlat? dimension bundle.proof with
    | .error cause => return (.error (.proof cause), teller)
    | .ok proof =>
      let k := BitProof.pointBits dimension
      let workspace ← teller.workspace.load? teller.verifier.server bundle.data proof
      let (f, workspace) ← workspace.valueAt? k workspace.halfInverses workspace.f x
      let (g, workspace) ← workspace.valueAt? k workspace.halfInverses workspace.g x
      let (h, workspace) ← workspace.valueAt? (k + 1) workspace.inverses workspace.h x
      return (.ok { f, g, h }, { teller with workspace })

end SplitTally
