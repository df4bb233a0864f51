import SplitTally.Transform.InPlace
import SplitTally.Verifier

/-!
# Tellers

A teller is a verifier at work: it checks one bundle after another in the same buffers, which are
made once for the number of slots and are not cleared between bundles.
-/

namespace SplitTally

-- Powers of numbers are those of core, whatever other powers are in scope.
attribute [local instance (high)] instPowNat

/-- The buffers in which the shares of the polynomials are evaluated, and the roots of unity. -/
structure Workspace where
  /-- The values of `f` at the roots of unity. -/
  f : Array Residue
  /-- The values of `g` at the roots of unity. -/
  g : Array Residue
  /-- The values of `h` at twice as many roots of unity. -/
  h : Array Residue
  /-- The roots of unity for `h`. -/
  roots : Array Residue
  /-- The inverses of the roots of unity for `h`. -/
  inverses : Array Residue
  /-- The inverses of the roots of unity for `f` and `g`. -/
  halfInverses : Array Residue
  /-- The coefficients of the polynomial that is evaluated. -/
  coefficients : Array Residue
  /-- The buffers for what a transform computes on the way. -/
  scratch : Transform.Scratch

namespace Workspace

open BitProof (pointBits)

/-- The buffers for so many slots, all of them zero. -/
def start (dimension : Nat) : Workspace :=
  let k := pointBits dimension
  { f := Array.replicate (2 ^ k) 0
    g := Array.replicate (2 ^ k) 0
    h := Array.replicate (2 ^ (k + 1)) 0
    roots := (Roots.table (k + 1) false).toArray
    inverses := (Roots.table (k + 1) true).toArray
    halfInverses := (Roots.table k true).toArray
    coefficients := Array.replicate (2 ^ (k + 1)) 0
    scratch := Transform.Scratch.zeros (2 ^ (k + 1)) }

/-- Writes a server's shares of the values of the polynomials to the buffers. The values that are
zero for every bundle are not written. -/
def load (workspace : Workspace) (server : Server) (data : List Residue) (proof : BitProof) :
    Workspace :=
  let slots := data.toArray
  let shifted := (Verifier.shiftedData server data).toArray
  let packed := proof.packed.toArray
  let write (points : Array Residue) (first : Residue) :=
    Transform.write (points.setIfInBounds 0 first)
  { workspace with
    f := write workspace.f proof.f0 slots.size (· + 1) fun i => slots.getD i 0
    g := write workspace.g proof.g0 slots.size (· + 1) fun i => shifted.getD i 0
    h := write workspace.h proof.h0 packed.size (2 * · + 1) fun i => packed.getD i 0 }

/-- The value at `x` of the polynomial with the values `points` at the `2 ^ k`-th roots of unity. -/
def valueAt (workspace : Workspace) (k : Nat) (inverses points : Array Residue) (x : Residue) :
    Residue × Workspace :=
  let (coefficients, scratch) :=
    Transform.interpolateInto k workspace.coefficients inverses points workspace.scratch
  (Transform.valueAt (Transform.front k coefficients) x, { workspace with coefficients, scratch })

end Workspace

/-- A verifier and its buffers. -/
structure Teller where
  /-- The verifier. -/
  verifier : Verifier
  /-- The buffers. -/
  workspace : Workspace

namespace Teller

/-- A teller that has seen no bundle yet. -/
def start (dimension : Nat) (server : Server) (key : PrivateKey) (batch : List UInt8) : Teller where
  verifier := .start dimension server key batch
  workspace := .start dimension

/-- Draws a point for the evaluation, outside the roots of unity of the proof. -/
def choosePoint (teller : Teller) : Draw VerifyError Residue :=
  (Residue.drawAccepted fun r => !teller.workspace.roots.contains r).mapError .residue

/-- Evaluates the server's shares of the polynomials at the point `x`. A bundle that is refused
leaves the buffers as they were. -/
def message (teller : Teller) (x : Residue) (bundle : Bundle) :
    Except VerifyError Message × Teller :=
  let dimension := teller.verifier.dimension
  if bundle.dimension ≠ dimension then
    (.error (.dimensionMismatch dimension bundle.dimension), teller)
  else match BitProof.ofFlat dimension bundle.proof with
    | .error cause => (.error (.proof cause), teller)
    | .ok proof =>
      let k := BitProof.pointBits dimension
      let workspace := teller.workspace.load teller.verifier.server bundle.data proof
      let (f, workspace) := workspace.valueAt k workspace.halfInverses workspace.f x
      let (g, workspace) := workspace.valueAt k workspace.halfInverses workspace.g x
      let (h, workspace) := workspace.valueAt (k + 1) workspace.inverses workspace.h x
      (.ok { f, g, h }, { teller with workspace })

/-- Adds a vector of shares to the total, in place. -/
def merge (teller : Teller) (shares : List Residue) : Except VerifyError Unit × Teller :=
  let (outcome, total) := Residue.mergeInto teller.verifier.total.toArray shares.toArray
  (outcome.mapError .residue,
    { teller with verifier := { teller.verifier with total := total.toList } })

/-- Adds the data share of a bundle to the total if the messages accept it, and tells whether they
do. -/
def aggregate (teller : Teller) (bundle : Bundle) (v w : Message) :
    Except VerifyError Bool × Teller :=
  if v.agrees w then
    let (outcome, teller) := teller.merge bundle.data
    (outcome.map fun _ => true, teller)
  else (.ok false, teller)

/-- What can be asked of a teller. -/
inductive Call where
  /-- Choose a point for the evaluation. -/
  | choosePoint (entropy : Entropy)
  /-- Evaluate the polynomials of a bundle. -/
  | message (x : Residue) (bundle : Bundle)
  /-- Add a bundle to the total if the messages accept it. -/
  | aggregate (bundle : Bundle) (v w : Message)
  /-- Add shares to the total. -/
  | merge (shares : List Residue)

/-- The teller after a call, whatever its answer was. -/
def after (teller : Teller) : Call → Teller
  | .choosePoint _ => teller
  | .message x bundle => (teller.message x bundle).2
  | .aggregate bundle v w => (teller.aggregate bundle v w).2
  | .merge shares => (teller.merge shares).2

/-- The teller after a sequence of calls. -/
def afterAll (teller : Teller) (calls : List Call) : Teller := calls.foldl after teller

end Teller

end SplitTally
