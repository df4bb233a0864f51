import SplitTally.Proofs.Admission
import SplitTally.Proofs.JsonText
import SplitTally.Schema.Text

/-!
# The text of a schema is read back

A metric is written as an object with its name and the members that tell its kind, and it is read
back from this object whatever its name is. So a written list of metrics is read as what the metrics
make up, and a schema is read back from its text.
-/

namespace SplitTally

namespace MetricKind

/-- The members that tell the kind, as values. -/
def values : MetricKind → List (String × Json.Value)
  | .boolean => [("type", .text "boolean")]
  | .integer bits => [("type", .text "integer"), ("bits", .whole bits.toNat)]

/-- The members are written as their values. -/
theorem members_written (kind : MetricKind) :
    List.Forall₂ Json.IsWritten kind.members kind.values := by
  have htype (word : String) : Json.IsWritten ("type", Json.quote word) ("type", .text word) :=
    ⟨rfl, fun depth => Json.reads_value_quote depth word⟩
  cases kind with
  | boolean => exact .cons (htype "boolean") .nil
  | integer bits =>
    have hword : bits.toNat < Json.wordRange := bits.toNat_lt.trans (by decide)
    have hbits : Json.IsWritten ("bits", Json.writeNat bits.toNat) ("bits", .whole bits.toNat) :=
      ⟨rfl, fun depth => Json.reads_value_writeNat depth hword⟩
    exact .cons (htype "integer") (.cons hbits .nil)

/-- The members of a kind, which are kept latest first, tell the kind. -/
theorem ofMembers?_values_reverse (kind : MetricKind) :
    ofMembers? kind.values.reverse = some kind := by
  cases kind with
  | boolean => rfl
  | integer bits =>
    have hsmall : bits.toNat < 256 := bits.toNat_lt
    simp [ofMembers?, valuesOf, values, hsmall]

/-- No member of a kind is taken for a name. -/
theorem key_ne_name {kind : MetricKind} : ∀ m ∈ kind.values, m.1 ≠ "name" := by
  cases kind <;> simp [values]

end MetricKind

namespace Metric

/-- A member with another key is kept beside the name. -/
theorem membersRead_readMember {written : List (String × List Char)}
    {members : List (String × Json.Value)} (h : List.Forall₂ Json.IsWritten written members)
    (hkeys : ∀ m ∈ members, m.1 ≠ "name") (draft : Draft) :
    Json.MembersRead readMember draft written
      { draft with others := members.reverse ++ draft.others } := by
  induction h generalizing draft with
  | nil => exact .nil
  | @cons w m written members hm _ ih =>
    obtain ⟨key, text⟩ := w
    obtain ⟨rfl, hvalue⟩ := hm
    rw [List.forall_mem_cons] at hkeys
    have hmember : Json.Reads (readMember draft m.1) (':' :: text)
        { draft with others := m :: draft.others } := by
      rw [readMember, if_neg hkeys.1]
      exact (hvalue memberDepth).behind_colon fun v =>
        { draft with others := (m.1, v) :: draft.others }
    have hothers := ih hkeys.2 { draft with others := m :: draft.others }
    rw [List.reverse_cons, List.append_assoc, List.singleton_append]
    exact .cons hmember hothers

/-- A written metric is read back. -/
theorem reads_toJson (metric : Metric) : Json.Reads read metric.toJson metric := by
  intro rest _
  have hname : Json.Reads (readMember ⟨none, []⟩ "name") (':' :: Json.quote metric.name)
      ⟨some metric.name, []⟩ := by
    rw [readMember, if_pos rfl]
    exact (Json.reads_string_quote metric.name).behind_colon fun name =>
      (⟨some name, []⟩ : Draft)
  have hmembers := Json.MembersRead.cons hname (membersRead_readMember metric.kind.members_written
    MetricKind.key_ne_name ⟨some metric.name, []⟩)
  have hobject := hmembers.object_writeObject rest
  rw [read, toJson, Json.bind_of_ok _ hobject]
  simp only [List.append_nil, MetricKind.ofMembers?_values_reverse]
  rfl

/-- A metric is written as an object of its name and the members that tell its kind. -/
theorem readObject_toJson (metric : Metric) : Json.readObject (String.ofList metric.toJson) =
    .ok (("name", .text metric.name) :: metric.kind.values) := by
  have hname : Json.IsWritten ("name", Json.quote metric.name) ("name", .text metric.name) :=
    ⟨rfl, fun depth => Json.reads_value_quote depth metric.name⟩
  exact Json.readObject_writeObject (.cons hname metric.kind.members_written)

end Metric

namespace Schema

/-- Written metrics are read in their order. -/
theorem elementsRead_toJson (metrics done : List Metric) :
    Json.ElementsRead (fun done => do return (← Metric.read) :: done) done
      (metrics.map Metric.toJson) (metrics.reverse ++ done) := by
  induction metrics generalizing done with
  | nil => exact .nil
  | cons metric metrics ih =>
    have helement : Json.Reads (do return (← Metric.read) :: done) metric.toJson
        (metric :: done) := by
      intro rest hrest
      exact Json.bind_of_ok _ (metric.reads_toJson rest hrest)
    rw [List.map_cons, List.reverse_cons, List.append_assoc, List.singleton_append]
    exact .cons (by decide) (by decide) helement (ih (metric :: done))

/-- A written list of metrics is read as what the metrics make up. -/
theorem ofJson_writeList (metrics : List Metric) :
    ofJson (String.ofList (Json.writeList (metrics.map Metric.toJson))) =
      (ofMetrics metrics).mapError .schema := by
  have hlist := (elementsRead_toJson metrics []).list_writeList []
  have hread : readMetrics (Json.writeList (metrics.map Metric.toJson)) = .ok (metrics, []) := by
    rw [List.append_nil, List.append_nil] at hlist
    rw [readMetrics, Json.bind_of_ok _ hlist, List.reverse_reverse]
    rfl
  rw [ofJson, String.toList_ofList, hread]
  cases h : ofMetrics metrics <;> simp [h, Except.mapError, Json.skipBlanks]

/-- The metrics of a schema make it up. -/
theorem ofMetrics_metrics (schema : Schema) : ofMetrics schema.metrics = .ok schema := by
  unfold ofMetrics
  split
  · rfl
  · next cause hfault =>
    rw [schema.faultless] at hfault
    cases hfault

/-- A metric is written as an object that holds its name, its kind and the number of bits if that is
an integer, and nothing else. A written list of metrics is read as the schema that they make up, or
refused as they are. So every schema is read back from its text, with the same metrics in the same
order, whatever their names are. -/
theorem ofJson_toJson :
    (∀ metric : Metric, Json.readObject (String.ofList metric.toJson) =
      .ok (("name", .text metric.name) :: metric.kind.values)) ∧
    (∀ metrics : List Metric,
      ofJson (String.ofList (Json.writeList (metrics.map Metric.toJson))) =
        (ofMetrics metrics).mapError .schema) ∧
    ∀ schema : Schema, ofJson schema.toJson = .ok schema := by
  refine ⟨Metric.readObject_toJson, ofJson_writeList, fun schema => ?_⟩
  rw [toJson, ofJson_writeList, ofMetrics_metrics]
  rfl

end Schema

end SplitTally
