import SplitTally.Schema

/-!
# Measurements and their slots

A set of measurements assigns values to names, each name at most once, and is kept in the order of
the names. Under a schema it becomes a vector of bits: the values of the metrics in their order,
zero for a metric that was not measured, each with its most significant bit first.
-/

namespace SplitTally

/-- Values by name, in increasing order of the names. -/
structure Measurements where
  /-- The names with their values. -/
  entries : List (String × UInt64)
  /-- The names increase. -/
  sorted : entries.Pairwise fun a b => a.1 < b.1

namespace Measurements

/-- The entries with the value of a name set, which keeps their order. -/
def setEntry (name : String) (value : UInt64) :
    List (String × UInt64) → List (String × UInt64)
  | [] => [(name, value)]
  | e :: rest =>
    if name = e.1 then (name, value) :: rest
    else if name < e.1 then (name, value) :: e :: rest
    else e :: setEntry name value rest

/-- Setting a value adds no other entries. -/
theorem mem_setEntry {name : String} {value : UInt64} {e : String × UInt64}
    {entries : List (String × UInt64)} (h : e ∈ setEntry name value entries) :
    e = (name, value) ∨ e ∈ entries := by
  induction entries with
  | nil => simpa [setEntry] using h
  | cons d rest ih =>
    simp only [setEntry] at h
    split at h
    · grind
    · split at h
      · grind
      · grind

/-- Setting a value keeps the entries in the order of their names, each name once. -/
theorem pairwise_setEntry (name : String) (value : UInt64) {entries : List (String × UInt64)}
    (h : entries.Pairwise fun a b => a.1 < b.1) :
    (setEntry name value entries).Pairwise fun a b => a.1 < b.1 := by
  induction entries with
  | nil => simp [setEntry]
  | cons d rest ih =>
    rw [List.pairwise_cons] at h
    obtain ⟨hd, hrest⟩ := h
    simp only [setEntry]
    split
    · next heq =>
      rw [List.pairwise_cons]
      exact ⟨fun e he => heq ▸ hd e he, hrest⟩
    · next hne =>
      split
      · next hlt =>
        rw [List.pairwise_cons, List.pairwise_cons]
        refine ⟨fun e he => ?_, hd, hrest⟩
        rcases List.mem_cons.1 he with rfl | he
        · exact hlt
        · exact String.lt_trans hlt (hd e he)
      · next hnlt =>
        rw [List.pairwise_cons]
        refine ⟨fun e he => ?_, ih hrest⟩
        rcases mem_setEntry he with rfl | he
        · exact Std.lt_of_le_of_ne (String.not_lt.1 hnlt) (Ne.symm hne)
        · exact hd e he

/-- No measurements. -/
def empty : Measurements := ⟨[], List.Pairwise.nil⟩

/-- The measurements with the value of a name set. -/
def set (measurements : Measurements) (name : String) (value : UInt64) : Measurements :=
  ⟨setEntry name value measurements.entries, pairwise_setEntry name value measurements.sorted⟩

/-- The measurements in a list; of several values of one name the last one counts. -/
def ofList (pairs : List (String × UInt64)) : Measurements :=
  pairs.foldl (fun measurements (name, value) => measurements.set name value) empty

/-- The value of a name, or zero. -/
def value (measurements : Measurements) (name : String) : UInt64 :=
  match measurements.entries.find? fun e => e.1 = name with
  | some e => e.2
  | none => 0

end Measurements

/-- Why measurements do not fit a schema. -/
inductive MeasurementError where
  /-- The schema has no metric of this name. -/
  | unknownMetric (name : String)
  /-- The value of this name is greater than its metric allows. -/
  | outOfRange (name : String) (value : UInt64)
  deriving DecidableEq, Repr

/-- The text of the error. -/
def MeasurementError.message : MeasurementError → String
  | .unknownMetric name => "unknown metric " ++ Quoted.text name
  | .outOfRange name value =>
    "measurement " ++ Quoted.text name ++ " has out-of-range value " ++ toString value

namespace Schema

/-- The first entry whose name the schema does not have. -/
def firstUnknown? (schema : Schema) (entries : List (String × UInt64)) :
    Option (String × UInt64) :=
  entries.find? fun e => (schema.position? e.1).isNone

/-- Whether the schema has a metric of this name that does not allow the value. -/
def exceeds (schema : Schema) (e : String × UInt64) : Bool :=
  match schema.position? e.1 with
  | some (_, metric) => metric.kind.maxValue < e.2
  | none => false

/-- Why the measurements do not fit the schema. All names are looked up before any value. -/
def measurementFault? (schema : Schema) (measurements : Measurements) :
    Option MeasurementError :=
  match schema.firstUnknown? measurements.entries with
  | some e => some (.unknownMetric e.1)
  | none =>
    match measurements.entries.find? schema.exceeds with
    | some e => some (.outOfRange e.1 e.2)
    | none => none

/-- The lowest `width` bits of a value, most significant first. -/
def slotsOf (width : Nat) (value : UInt64) : List Residue :=
  (List.range width).map fun i => if value.toNat.testBit (width - 1 - i) then 1 else 0

/-- The slots of the measurements. -/
def encode (schema : Schema) (measurements : Measurements) :
    Except MeasurementError (List Residue) :=
  match schema.measurementFault? measurements with
  | some e => .error e
  | none =>
    .ok (schema.metrics.flatMap fun m => slotsOf m.kind.width (measurements.value m.name))

end Schema

end SplitTally
