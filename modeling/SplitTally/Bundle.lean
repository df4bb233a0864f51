import SplitTally.BitProof
import SplitTally.Server

/-!
# Share bundles

What one server learns about one measurement: its share of the slots and its share of the proof
that they are bits, together with the batch and the server that they are meant for.
-/

namespace SplitTally

/-- A share of the slots of a measurement and of their proof. -/
structure Bundle where
  /-- The batch that the measurement belongs to. -/
  batch : List UInt8
  /-- The server that the bundle is meant for. -/
  server : Server
  /-- The share of the slots. -/
  data : List Residue
  /-- The share of the flat proof. -/
  proof : List Residue
  deriving DecidableEq, Repr

namespace Bundle

/-- The number of slots. -/
def dimension (bundle : Bundle) : Nat := bundle.data.length

/-- The bytes of a bundle. The number of slots is written twice, by itself and in front of the
slots. -/
def encode (bundle : Bundle) : Except WireError (List UInt8) := do
  let batch ← Wire.encodeOpaque bundle.batch
  let dimension ← Wire.encodeCount bundle.data.length
  let data ← Wire.encodeItems Wire.encodeResidue bundle.data
  let proof ← Wire.encodeItems Wire.encodeResidue bundle.proof
  return batch ++ (bundle.server.encode ++ (dimension ++ (data ++ proof)))

/-- The least number of bytes of a residue. -/
def residueSize : Nat := 4

/-- The next bundle. Refused when the number of slots is not the announced one, or the proof has
another length than the slots demand. -/
def decode : Wire.Decoder Bundle := do
  let batch ← Wire.opaqueBytes
  let server ← Server.decode
  let dimension ← Wire.word32
  let data ← Wire.items residueSize Wire.residue
  if data.length ≠ dimension.toNat then throw .unexpectedValue
  let proof ← Wire.items residueSize Wire.residue
  if proof.length ≠ BitProof.flatSize dimension.toNat then throw .unexpectedValue
  return { batch, server, data, proof }

end Bundle

end SplitTally
