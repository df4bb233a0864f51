import SplitTally.Bundle
import SplitTally.Envelope
import SplitTally.Measurements
import SplitTally.Share

/-!
# Clients

A client turns measurements into a packet of two envelopes, one for each server. The slots and the
proof that they are bits are split into shares, and the bundle of each server is sealed under the
public key of that server.
-/

namespace SplitTally

/-- Why measurements cannot be turned into a packet. -/
inductive ClientError where
  /-- The measurements do not fit the schema. -/
  | measurement (cause : MeasurementError)
  /-- An operation that does not fail under a valid schema failed, with this text. -/
  | arithmetic (text : String)
  /-- A public key cannot be used. -/
  | invalidKey (cause : EnvelopeError)
  /-- The source of random bytes gave out. -/
  | entropy
  /-- A bundle cannot be written. -/
  | wire (cause : WireError)
  deriving DecidableEq, Repr

namespace ClientError

/-- The text of the error. -/
def message : ClientError → String
  | .measurement cause => cause.message
  | .arithmetic text => "arithmetic error: " ++ text
  | .invalidKey cause => "invalid public key: " ++ cause.message
  | .entropy => "secure randomness unavailable: " ++ Entropy.failure
  | .wire _ => "serialization error"

/-- The error of a client for that of an operation on residues. -/
def ofResidue : ResidueError → ClientError
  | .entropy => .entropy
  | e => .arithmetic e.message

/-- The error of a client for that of a proof. -/
def ofBitProof : BitProofError → ClientError
  | .residue e => ofResidue e
  | e => .arithmetic e.message

/-- The error of a client for that of an envelope. -/
def ofEnvelope : EnvelopeError → ClientError
  | .entropy => .entropy
  | e => if e.isKeyError then .invalidKey e else .arithmetic e.message

end ClientError

/-- The bundles of both servers about the given slots. The slots are split first, then the proof
that they are bits is built and split. -/
def Prover.bundles (prover : Prover) (batch : List UInt8) (data : List Residue) :
    Draw ClientError (Bundle × Bundle) := do
  let (dataA, dataB) ← (Share.splitVector data).mapError .ofResidue
  let proof ← (prover.prove data).mapError .ofBitProof
  let (proofA, proofB) ← (Share.splitVector proof.flatten).mapError .ofResidue
  return ({ batch, server := .a, data := dataA, proof := proofA },
    { batch, server := .b, data := dataB, proof := proofB })

/-- What a client sends: an envelope for each server, and the batch in the clear. -/
structure Packet where
  /-- The batch. -/
  batch : List UInt8
  /-- The envelope for the first server. -/
  a : List UInt8
  /-- The envelope for the second server. -/
  b : List UInt8
  deriving DecidableEq, Repr

/-- The envelope that a server gets. -/
def Packet.envelope (packet : Packet) : Server → List UInt8 := Server.pick (packet.a, packet.b)

/-- A client with a schema and the public keys of the servers. -/
structure Client where
  /-- The schema. -/
  schema : Schema
  /-- The public key of the first server. -/
  keyA : PublicKey
  /-- The public key of the second server. -/
  keyB : PublicKey
  /-- The prover for vectors of the schema. -/
  prover : Prover

namespace Client

/-- The client with the given schema and keys. -/
def new (schema : Schema) (keyA keyB : PublicKey) : Except ClientError Client := do
  let prover ← (Prover.ofDimension schema.dimension).mapError .ofBitProof
  return { schema, keyA, keyB, prover }

/-- The client with the given schema and the keys that the bytes hold. -/
def ofKeyBytes (schema : Schema) (keyA keyB : List UInt8) : Except ClientError Client := do
  let keyA ← (PublicKey.ofBytes keyA).mapError .ofEnvelope
  let keyB ← (PublicKey.ofBytes keyB).mapError .ofEnvelope
  new schema keyA keyB

/-- Turns measurements into a packet. The slots and their proof are shared out first, then both
bundles are written, and only then is either of them sealed. -/
def encode (client : Client) (batch : List UInt8) (measurements : Measurements) :
    Draw ClientError Packet := do
  let data ← Draw.ofExcept ((client.schema.encode measurements).mapError .measurement)
  let (bundleA, bundleB) ← client.prover.bundles batch data
  let bytesA ← Draw.ofExcept (bundleA.encode.mapError .wire)
  let bytesB ← Draw.ofExcept (bundleB.encode.mapError .wire)
  let a ← (Envelope.sealFor client.keyA bytesA).mapError .ofEnvelope
  let b ← (Envelope.sealFor client.keyB bytesB).mapError .ofEnvelope
  return { batch, a, b }

end Client

end SplitTally
