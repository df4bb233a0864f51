import SplitTally.Bundle
import SplitTally.Envelope

/-!
# Verifiers

Each server opens the envelopes that are addressed to it, takes part in checking the proofs, and
adds up the data shares of the bundles that pass. To check a proof both servers evaluate their
shares of the polynomials at one random point and exchange the values: the sums of the shares must
be a product, which shares of a wrong proof miss at almost every point.
-/

namespace SplitTally

-- Powers of numbers are those of core, whatever other powers are in scope.
attribute [local instance (high)] instPowNat

/-- Why a verifier refuses a bundle. -/
inductive VerifyError where
  /-- The envelope cannot be opened. -/
  | envelope (cause : EnvelopeError)
  /-- The text in the envelope is no bundle. -/
  | wire (cause : WireError)
  /-- The bundle is addressed to the other server. -/
  | wrongServer (server : Server)
  /-- The bundle belongs to another batch. -/
  | wrongBatch
  /-- The bundle has another number of slots. -/
  | dimensionMismatch (expected got : Nat)
  /-- The proof share cannot be taken apart. -/
  | proof (cause : BitProofError)
  /-- An operation on residues failed. -/
  | residue (cause : ResidueError)
  deriving DecidableEq, Repr

/-- The text of the error. -/
def VerifyError.message : VerifyError → String
  | .envelope _ => "decryption error"
  | .wire _ => "malformed share bundle"
  | .wrongServer server => "bundle is addressed to server " ++ server.letter
  | .wrongBatch => "bundle belongs to another batch"
  | .dimensionMismatch expected got =>
    "bundle has dimension " ++ toString got ++ ", expected " ++ toString expected
  | .proof cause => cause.message
  | .residue cause => cause.message

/-- The values of a server's shares of the three polynomials at the common point. -/
structure Message where
  /-- The value of the share of `f`. -/
  f : Residue
  /-- The value of the share of `g`. -/
  g : Residue
  /-- The value of the share of `h`. -/
  h : Residue
  deriving DecidableEq, Repr

/-- Whether the messages of the two servers accept the proof: the sum of the values of `h` is the
product of those of `f` and `g`. -/
def Message.agrees (v w : Message) : Bool := (v.f + w.f) * (v.g + w.g) = v.h + w.h

/-- One of the servers, with its share of the sum of all accepted measurements. -/
structure Verifier where
  /-- The number of slots. -/
  dimension : Nat
  /-- Which of the two servers this is. -/
  server : Server
  /-- The private key. -/
  key : PrivateKey
  /-- The batch whose bundles are accepted. -/
  batch : List UInt8
  /-- The share of the sum. -/
  total : List Residue

namespace Verifier

/-- A verifier that has accepted nothing yet. -/
def start (dimension : Nat) (server : Server) (key : PrivateKey) (batch : List UInt8) :
    Verifier :=
  { dimension, server, key, batch, total := List.replicate dimension 0 }

/-- Opens an envelope and checks that the bundle is meant for this server and batch, and has the
right number of slots. -/
def decrypt (verifier : Verifier) (envelope : List UInt8) : Except VerifyError Bundle := do
  let text ← (Envelope.openWith verifier.key envelope).mapError .envelope
  let bundle ← (Wire.whole Bundle.decode text).mapError .wire
  if bundle.server ≠ verifier.server then throw (.wrongServer bundle.server)
  if bundle.batch ≠ verifier.batch then throw .wrongBatch
  if bundle.dimension ≠ verifier.dimension then
    throw (.dimensionMismatch verifier.dimension bundle.dimension)
  return bundle

/-- The server's share of the values of `g` at the roots of the slots; only one of the servers
subtracts the constant. -/
def shiftedData (server : Server) (data : List Residue) : List Residue :=
  if server.isFirst then data.map (· - 1) else data

/-- The values of `h` at the `2 ^ (k + 1)`-th roots of unity: `first` at the first root, zero at the
other even exponents, and the packed values at the odd ones. -/
def productPoints (k : Nat) (first : Residue) (packed : List Residue) :
    Vector Residue (2 ^ (k + 1)) :=
  let entries := packed.toArray
  Vector.ofFn fun i =>
    if i.val = 0 then first
    else if i.val % 2 = 1 then entries.getD (i.val / 2) 0
    else 0

/-- Evaluates the server's shares of the polynomials at the point `x`. -/
def message (verifier : Verifier) (x : Residue) (bundle : Bundle) :
    Except VerifyError Message := do
  if bundle.dimension ≠ verifier.dimension then
    throw (.dimensionMismatch verifier.dimension bundle.dimension)
  let proof ← (BitProof.ofFlat verifier.dimension bundle.proof).mapError .proof
  let k := BitProof.pointBits verifier.dimension
  let f := BitProof.points k proof.f0 bundle.data
  let g := BitProof.points k proof.g0 (shiftedData verifier.server bundle.data)
  let h := productPoints k proof.h0 proof.packed
  return { f := Transform.interpolateAt k f x, g := Transform.interpolateAt k g x,
           h := Transform.interpolateAt (k + 1) h x }

end Verifier

/-- The sums of the slots, from the totals of both servers. -/
def reconstructTotals (a b : List Residue) : Except VerifyError (List UInt64) := do
  let sum ← (Residue.merge a b).mapError .residue
  return sum.map Residue.word

end SplitTally
