import SplitTally.Placement
import SplitTally.Transform.Checked

/-!
# Measurements written within their slots

The first slot of a metric is found by counting the slots of the metrics in front of it in a 64-bit
word, and every bit of a value is shifted down from its place in the word. No count may leave its
word, the slots that are written must be a part of the vector, and no shift may go below zero or as
far as a word is wide. The walk below looks at this each time and has no outcome as soon as an index
is out of range.
-/

namespace SplitTally

namespace Schema

section

variable {m : Type → Type} [Monad m] (arithmetic : WordArithmetic m)

/-- The first slot and the metric of the given name, in a list of metrics whose slots start at
`offset`. -/
def seek (name : String) (offset : UInt64) : List Metric → m (Option (UInt64 × Metric))
  | [] => return none
  | metric :: rest =>
    if metric.name = name then return some (offset, metric)
    else do seek name (← arithmetic.add offset metric.kind.width.toUInt64) rest

end

end Schema

variable (arithmetic : WordArithmetic Option)

namespace Placement

/-- The difference of two numbers, if it is none below zero. -/
def less? (a b : Nat) : Option Nat := if b ≤ a then some (a - b) else none

/-- The bit of the value at an exponent, if a word has that many. -/
def bit? (placement : Placement) (exponent : Nat) : Option Residue :=
  if exponent < 64 then some (placement.bit exponent) else none

/-- Writes the bits of the value to its slots, if these are a part of the vector and every bit is
one of the word. -/
def writeWithin? (placement : Placement) (slots : Array Residue) : Option (Array Residue) := do
  let width := placement.metric.kind.width
  let last ← arithmetic.add placement.offset.toUInt64 width.toUInt64
  if placement.offset ≤ last.toNat ∧ last.toNat ≤ slots.size then
    Transform.write? slots width (placement.offset + ·) fun i => do
      placement.bit? (← less? (← less? width 1) i)
  else none

/-- Writes the values to their slots, one placement after the other, up to the first value that is
too great. -/
def writeAllWithin? (slots : Array Residue) :
    List Placement → Option (Except MeasurementError (Array Residue))
  | [] => some (.ok slots)
  | placement :: rest =>
    if placement.metric.kind.maxValue < placement.value then
      some (.error (.outOfRange placement.name placement.value))
    else do writeAllWithin? (← placement.writeWithin? arithmetic slots) rest

end Placement

namespace Schema

/-- Looks up the metrics of the entries, up to the first name that the schema does not have. -/
def locateWithin? (schema : Schema) :
    List (String × UInt64) → Option (Except MeasurementError (List Placement))
  | [] => some (.ok [])
  | (name, value) :: rest => do
    match ← seek arithmetic name 0 schema.metrics with
    | some (offset, metric) =>
      let located ← schema.locateWithin? rest
      return located.map ({ name, value, offset := offset.toNat, metric } :: ·)
    | none => return .error (.unknownMetric name)

/-- The slots of the measurements, if every index on the way to them is in range. -/
def encodeWithin? (schema : Schema) (measurements : Measurements) :
    Option (Except MeasurementError (List Residue)) := do
  match ← schema.locateWithin? arithmetic measurements.entries with
  | .error cause => return .error cause
  | .ok placements =>
    let zeros := Array.replicate schema.dimension 0
    let outcome ← Placement.writeAllWithin? arithmetic zeros placements
    return outcome.map Array.toList

end Schema

end SplitTally
