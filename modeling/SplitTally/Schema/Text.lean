import SplitTally.Json.Reader
import SplitTally.Json.Writer
import SplitTally.Schema

/-!
# The text of a schema

A schema is written as a JSON list of its metrics. A metric is an object with its name and its type;
that of an integer metric also has its number of bits. Reading takes the members in any order and
skips members with other keys.
-/

namespace SplitTally

/-- Why a text is no schema. -/
inductive SchemaTextError where
  /-- The text is not JSON of the right form. -/
  | json (fault : Json.Fault)
  /-- The text lists metrics that make up no schema. -/
  | schema (cause : SchemaError)
  deriving DecidableEq, Repr

namespace MetricKind

/-- The members of an object that tell the kind. -/
def members : MetricKind → List (String × List Char)
  | .boolean => [("type", Json.quote "boolean")]
  | .integer bits => [("type", Json.quote "integer"), ("bits", Json.writeNat bits.toNat)]

/-- The text of a kind. -/
def toJson (kind : MetricKind) : String := String.ofList (Json.writeObject kind.members)

/-- The values of the members with the given key. -/
def valuesOf (key : String) (members : List (String × Json.Value)) : List Json.Value :=
  (members.filter fun m => m.1 = key).map (·.2)

/-- The kind that the members of an object tell. The type must occur once, as a word or as its
number in the list of types, and so must the number of bits of an integer. -/
def ofMembers? (members : List (String × Json.Value)) : Option MetricKind :=
  match valuesOf "type" members with
  | [.text "boolean"] | [.whole 0] => some .boolean
  | [.text "integer"] | [.whole 1] =>
    match valuesOf "bits" members with
    | [.whole bits] => if bits < 256 then some (.integer bits.toUInt8) else none
    | _ => none
  | _ => none

end MetricKind

namespace Metric

/-- The text of a metric. -/
def toJson (metric : Metric) : List Char :=
  Json.writeObject (("name", Json.quote metric.name) :: metric.kind.members)

/-- The members of a metric that were read so far. -/
structure Draft where
  /-- The name. -/
  name : Option String
  /-- The other members, latest first. -/
  others : List (String × Json.Value)

/-- How deep the values of other members may be nested, within an object in a list. -/
def memberDepth : Nat := Json.nestingLimit - 2

/-- Reads a member of a metric. A name is refused when it occurs a second time, before its value is
looked at. -/
def readMember (draft : Draft) (key : String) : Json.Reader Draft :=
  if key = "name" then
    if draft.name.isSome then throw .misfit
    else do
      Json.colon
      return { draft with name := some (← Json.string) }
  else do
    Json.colon
    return { draft with others := (key, ← Json.value memberDepth) :: draft.others }

/-- Reads a metric. Missing and wrong members are refused at the end of the object. -/
def read : Json.Reader Metric := do
  let draft ← Json.object readMember ⟨none, []⟩
  match draft.name, MetricKind.ofMembers? draft.others with
  | some name, some kind => return { name, kind }
  | _, _ => throw .misfit

end Metric

namespace Schema

/-- The text of a schema. -/
def toJson (schema : Schema) : String :=
  String.ofList (Json.writeList (schema.metrics.map Metric.toJson))

/-- Reads the metrics of a schema. -/
def readMetrics : Json.Reader (List Metric) := do
  let metrics ← Json.list (fun done => do return (← Metric.read) :: done) []
  return metrics.reverse

/-- The schema that a text holds. A list of metrics that is no schema is refused before what follows
it is looked at. -/
def ofJson (text : String) : Except SchemaTextError Schema :=
  match readMetrics text.toList with
  | .error fault => .error (.json fault)
  | .ok (metrics, rest) =>
    match ofMetrics metrics with
    | .error cause => .error (.schema cause)
    | .ok schema =>
      if (Json.skipBlanks rest).isEmpty then .ok schema else .error (.json .malformed)

end Schema

end SplitTally
