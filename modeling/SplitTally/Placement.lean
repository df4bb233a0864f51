import SplitTally.Measurements
import SplitTally.Transform.InPlace

/-!
# Measurements written in place

A client looks up where the slots of each measurement are, and writes the bits of the values one
measurement after the other into a vector of zeros. Slots that are written must be there: the walk
has no outcome as soon as a range of slots reaches behind the vector.
-/

namespace SplitTally

/-- A measurement whose metric has been looked up. -/
structure Placement where
  /-- The name. -/
  name : String
  /-- The value. -/
  value : UInt64
  /-- The offset of the first slot. -/
  offset : Nat
  /-- The metric of the name. -/
  metric : Metric
  deriving DecidableEq, Repr

namespace Placement

/-- The bit of the value at an exponent. -/
def bit (placement : Placement) (exponent : Nat) : Residue :=
  Residue.ofWord ((placement.value >>> exponent.toUInt64) &&& 1).toUInt32

/-- Writes the bits of the value to its slots, if they are all there. -/
def writeTo? (placement : Placement) (slots : Array Residue) : Option (Array Residue) :=
  let width := placement.metric.kind.width
  if placement.offset + width ≤ slots.size then
    some (Transform.write slots width (placement.offset + ·) fun i =>
      placement.bit (width - 1 - i))
  else none

/-- Writes the values to their slots, one placement after the other, up to the first value that is
too great. -/
def writeAll? (slots : Array Residue) :
    List Placement → Option (Except MeasurementError (Array Residue))
  | [] => some (.ok slots)
  | placement :: rest =>
    if placement.metric.kind.maxValue < placement.value then
      some (.error (.outOfRange placement.name placement.value))
    else do writeAll? (← placement.writeTo? slots) rest

end Placement

namespace Schema

/-- Looks up the metrics of the entries, up to the first name that the schema does not have. -/
def locate (schema : Schema) :
    List (String × UInt64) → Except MeasurementError (List Placement)
  | [] => .ok []
  | (name, value) :: rest =>
    match schema.position? name with
    | some (offset, metric) => (schema.locate rest).map ({ name, value, offset, metric } :: ·)
    | none => .error (.unknownMetric name)

/-- The slots of the measurements, written in place. -/
def encodeInPlace? (schema : Schema) (measurements : Measurements) :
    Option (Except MeasurementError (List Residue)) :=
  match schema.locate measurements.entries with
  | .error cause => some (.error cause)
  | .ok placements => do
    let outcome ← Placement.writeAll? (Array.replicate schema.dimension 0) placements
    return outcome.map Array.toList

end Schema

end SplitTally
