import SplitTally.Residue.Representative
import SplitTally.Schema

/-!
# Metrics surveyed in one walk

The metrics of a schema are checked one after the other, and their slots are counted on the way. The
names met so far are kept in a set, and the slots in a 64-bit word. What becomes of a count that
does not fit in a word is left to the arithmetic that the walk is run with.
-/

namespace SplitTally.Schema

variable {m : Type → Type} [Monad m] (arithmetic : WordArithmetic m)

/-- Counts the slots of metrics on top of those counted before, up to the first metric that repeats
a name or has an unsupported width. -/
def countSlots (seen : Std.HashSet String) (counted : UInt64) :
    List Metric → m (Except SchemaError UInt64)
  | [] => return .ok counted
  | metric :: rest =>
    if metric.name ∈ seen then return .error (.duplicateName metric.name)
    else if metric.kind.isSupported then do
      let counted ← arithmetic.add counted metric.kind.width.toUInt64
      countSlots (seen.insert metric.name) counted rest
    else return .error (.invalidWidth metric.name metric.kind.width)

/-- The metrics of a schema and the number of their slots, or why they are no schema. -/
def survey (metrics : List Metric) : m (Except SchemaError (List Metric × UInt64)) :=
  if metrics.isEmpty then return .error .empty
  else do
    match ← countSlots arithmetic ∅ 0 metrics with
    | .error cause => return .error cause
    | .ok dimension =>
      if maxDimension.toUInt64 < dimension then return .error (.tooLarge dimension.toNat)
      else return .ok (metrics, dimension)

end SplitTally.Schema
