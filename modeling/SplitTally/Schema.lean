import SplitTally.Roots
import SplitTally.Text.Quoted
import Std.Data.HashSet

/-!
# Schemas

A schema is the ordered list of the metrics that a client reports. A metric takes as many slots as
its greatest value has bits, and the slots of the metrics follow one another in the order of the
schema, so client and servers with one schema agree on the meaning of every slot.
-/

namespace SplitTally

-- Powers and sums of numbers are those of core, whatever others are in scope.
attribute [local instance (high)] instPowNat Zero.ofOfNat0

/-- What a metric counts. -/
inductive MetricKind where
  /-- Whether something is the case. -/
  | boolean
  /-- A number of at most so many bits. -/
  | integer (bits : UInt8)
  deriving DecidableEq, Repr

namespace MetricKind

/-- The number of slots. -/
def width : MetricKind → Nat
  | .boolean => 1
  | .integer bits => bits.toNat

/-- The greatest value, as far as 64-bit words go. -/
def maxValue (kind : MetricKind) : UInt64 :=
  if kind.width < 64 then (2 ^ kind.width - 1).toUInt64 else UInt64.ofNat (2 ^ (64 : Nat) - 1)

/-- Whether a schema may hold a metric of this kind. -/
def isSupported : MetricKind → Bool
  | .boolean => true
  | .integer bits => 1 ≤ bits && bits ≤ 32

end MetricKind

/-- A named quantity that clients report. -/
structure Metric where
  /-- The name. -/
  name : String
  /-- What is counted. -/
  kind : MetricKind
  deriving DecidableEq, Repr

/-- Why a list of metrics is no schema, or slots do not fit one. -/
inductive SchemaError where
  /-- There are no metrics. -/
  | empty
  /-- Two metrics have this name. -/
  | duplicateName (name : String)
  /-- The metric of this name has a number of bits that is not supported. -/
  | invalidWidth (name : String) (bits : Nat)
  /-- The metrics take so many slots, for which there are not enough roots of unity. -/
  | tooLarge (dimension : Nat)
  /-- A vector has another number of slots than the schema. -/
  | dimensionMismatch (expected got : Nat)
  deriving DecidableEq, Repr

namespace Schema

/-- The greatest number of slots: one less than half the number of roots of unity. -/
def maxDimension : Nat := Roots.groupOrder / 2 - 1

end Schema

/-- The text of the error. -/
def SchemaError.message : SchemaError → String
  | .empty => "schema has no metrics"
  | .duplicateName name => "duplicate metric name " ++ Quoted.text name
  | .invalidWidth name bits =>
    "metric " ++ Quoted.text name ++ " has unsupported bit width " ++ toString bits
  | .tooLarge dimension =>
    "schema dimension " ++ toString dimension ++ " exceeds maximum of " ++
      toString Schema.maxDimension
  | .dimensionMismatch expected got =>
    "expected " ++ toString expected ++ " values, got " ++ toString got

namespace Schema

/-- The number of slots of a list of metrics. -/
def totalWidth (metrics : List Metric) : Nat := (metrics.map fun m => m.kind.width).sum

/-- The first metric in the list that repeats a name, of this list or of those seen before, or has
an unsupported width. A metric with both faults is reported for its name. -/
def metricFault? (seen : Std.HashSet String) : List Metric → Option SchemaError
  | [] => none
  | m :: rest =>
    if m.name ∈ seen then some (.duplicateName m.name)
    else if m.kind.isSupported then metricFault? (seen.insert m.name) rest
    else some (.invalidWidth m.name m.kind.width)

/-- Why a list of metrics is no schema. -/
def fault? (metrics : List Metric) : Option SchemaError :=
  if metrics.isEmpty then some .empty
  else match metricFault? ∅ metrics with
    | some e => some e
    | none =>
      if maxDimension < totalWidth metrics then some (.tooLarge (totalWidth metrics)) else none

end Schema

/-- An ordered list of metrics without fault. -/
structure Schema where
  /-- The metrics, in the order of their slots. -/
  metrics : List Metric
  /-- The list is a schema. -/
  faultless : Schema.fault? metrics = none

namespace Schema

/-- The schema of a list of metrics. -/
def ofMetrics (metrics : List Metric) : Except SchemaError Schema :=
  match h : fault? metrics with
  | none => .ok ⟨metrics, h⟩
  | some e => .error e

/-- The three metrics that a browser reports about itself. -/
def browserMetrics : List Metric :=
  [⟨"browserIsUserDefault", .boolean⟩, ⟨"newTabPageEnabled", .boolean⟩,
    ⟨"userChromeCssLoaded", .boolean⟩]

/-- The metrics of the browser have no fault. -/
theorem fault?_browserMetrics : fault? browserMetrics = none := by
  simp [fault?, browserMetrics, metricFault?, MetricKind.isSupported, totalWidth,
    MetricKind.width, maxDimension, Roots.groupOrder]

/-- The schema of the browser metrics. -/
def browser : Schema := ⟨browserMetrics, fault?_browserMetrics⟩

/-- The number of slots. -/
def dimension (schema : Schema) : Nat := totalWidth schema.metrics

/-- The offset of the first slot and the metric of the given name, in a list of metrics whose slots
start at `offset`. -/
def positionFrom (name : String) (offset : Nat) : List Metric → Option (Nat × Metric)
  | [] => none
  | m :: rest =>
    if m.name = name then some (offset, m) else positionFrom name (offset + m.kind.width) rest

/-- The offset of the first slot and the metric of the given name. -/
def position? (schema : Schema) (name : String) : Option (Nat × Metric) :=
  positionFrom name 0 schema.metrics

/-- The number that slots hold, the first one weighing most, modulo `2 ^ 64`. -/
def total (slots : List UInt64) : UInt64 := slots.foldl (fun acc s => (acc <<< 1) + s) 0

/-- The totals of the metrics whose slots are in front of `slots`, behind those of the metrics
before them in `done`, latest first. -/
def totalsOnto (done : List (String × UInt64)) :
    List Metric → List UInt64 → List (String × UInt64)
  | [], _ => done.reverse
  | m :: rest, slots =>
    totalsOnto ((m.name, total (slots.take m.kind.width)) :: done) rest
      (slots.drop m.kind.width)

/-- The total of each metric, from the sums of its slots. -/
def decodeSums (schema : Schema) (slots : List UInt64) :
    Except SchemaError (List (String × UInt64)) :=
  if slots.length = schema.dimension then .ok (totalsOnto [] schema.metrics slots)
  else .error (.dimensionMismatch schema.dimension slots.length)

end Schema

end SplitTally
