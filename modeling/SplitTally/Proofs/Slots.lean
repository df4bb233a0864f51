import Mathlib.Data.List.Nodup
import Mathlib.Tactic.Common
import SplitTally.Measurements

/-!
# Schemas and the slots of measurements

A list of metrics is a schema exactly when it is not empty, its names differ, its widths are
supported and its slots are not too many. Measurements fit a schema exactly when every name is that
of a metric and no value exceeds what the metric allows; a set that does not fit is refused for the
first unknown name, or else for the first value that is too great. The slots of measurements that
fit are as many as the schema has, and all of them are bits.
-/

namespace SplitTally

namespace MetricKind

/-- A supported metric has a slot. -/
theorem width_pos {kind : MetricKind} (h : kind.isSupported = true) : 0 < kind.width := by
  cases kind with
  | boolean => exact Nat.one_pos
  | integer bits =>
    simp only [isSupported, Bool.and_eq_true, decide_eq_true_eq] at h
    exact UInt8.le_iff_toNat_le.mp h.1

/-- A supported metric has no more than 32 slots. -/
theorem width_le {kind : MetricKind} (h : kind.isSupported = true) : kind.width ≤ 32 := by
  cases kind with
  | boolean => decide
  | integer bits =>
    simp only [isSupported, Bool.and_eq_true, decide_eq_true_eq] at h
    exact UInt8.le_iff_toNat_le.mp h.2

end MetricKind

namespace Schema

/-! ### Schemas -/

/-- Metrics pass one after the other when their names are new and their widths supported. -/
theorem metricFault?_eq_none_iff {seen : Std.HashSet String} {metrics : List Metric} :
    metricFault? seen metrics = none ↔
      (∀ m ∈ metrics, m.name ∉ seen ∧ m.kind.isSupported = true) ∧
        (metrics.map Metric.name).Nodup := by
  induction metrics generalizing seen with
  | nil => simp [metricFault?]
  | cons m metrics ih =>
    unfold metricFault?
    by_cases hseen : m.name ∈ seen
    · simp [hseen]
    · by_cases hwidth : m.kind.isSupported = true
      · rw [if_neg hseen, if_pos hwidth, ih]
        simp only [Std.HashSet.mem_insert, List.mem_cons, List.map_cons, List.nodup_cons,
          List.mem_map, not_exists, not_and, forall_eq_or_imp, beq_iff_eq, not_or]
        constructor
        · rintro ⟨hrest, hnodup⟩
          refine ⟨⟨⟨hseen, hwidth⟩, fun x hx => ⟨(hrest x hx).1.2, (hrest x hx).2⟩⟩, ?_, hnodup⟩
          intro x hx heq
          exact (hrest x hx).1.1 heq.symm
        · rintro ⟨⟨-, hrest⟩, hnew, hnodup⟩
          refine ⟨fun x hx => ⟨⟨?_, (hrest x hx).1⟩, (hrest x hx).2⟩, hnodup⟩
          intro heq
          exact hnew x hx heq.symm
      · simp [hseen, hwidth]

/-- Metrics have no fault if there are some, with distinct names, supported widths and not too many
slots. -/
theorem fault?_eq_none_iff {metrics : List Metric} :
    fault? metrics = none ↔ metrics ≠ [] ∧ (metrics.map Metric.name).Nodup ∧
      (∀ m ∈ metrics, m.kind.isSupported = true) ∧ totalWidth metrics ≤ maxDimension := by
  have hmetrics : metricFault? ∅ metrics = none ↔ _ := metricFault?_eq_none_iff
  unfold fault?
  cases metrics with
  | nil => simp
  | cons m metrics =>
    cases hfault : metricFault? ∅ (m :: metrics) with
    | some cause =>
      rw [hfault] at hmetrics
      simp only [Std.HashSet.not_mem_empty, not_false_eq_true, true_and, reduceCtorEq, false_iff,
        not_and] at hmetrics
      simp only [List.isEmpty_cons, Bool.false_eq_true, if_false, reduceCtorEq, ne_eq,
        not_false_eq_true, true_and, false_iff]
      rintro ⟨hnodup, hwidth, -⟩
      exact hmetrics hwidth hnodup
    | none =>
      obtain ⟨hwidth, hnodup⟩ := hmetrics.mp hfault
      simp only [List.isEmpty_cons, Bool.false_eq_true, if_false, ite_eq_right_iff, reduceCtorEq,
        imp_false, Nat.not_lt, ne_eq, not_false_eq_true, true_and, hnodup]
      exact ⟨fun h => ⟨fun x hx => (hwidth x hx).2, h⟩, fun h => h.2⟩

variable {schema : Schema}

/-- The names of the metrics in a schema are distinct. -/
theorem nodup_names (schema : Schema) : (schema.metrics.map Metric.name).Nodup :=
  (fault?_eq_none_iff.mp schema.faultless).2.1

/-- The metrics in a schema have supported widths. -/
theorem isSupported_of_mem {m : Metric} (h : m ∈ schema.metrics) : m.kind.isSupported = true :=
  (fault?_eq_none_iff.mp schema.faultless).2.2.1 m h

/-- A schema has no more slots than are allowed. -/
theorem dimension_le (schema : Schema) : schema.dimension ≤ maxDimension :=
  (fault?_eq_none_iff.mp schema.faultless).2.2.2

/-- A schema has a metric. -/
theorem metrics_ne_nil (schema : Schema) : schema.metrics ≠ [] :=
  (fault?_eq_none_iff.mp schema.faultless).1

/-! ### Names -/

/-- The schema has a metric of this name. -/
def Knows (schema : Schema) (name : String) : Prop := ∃ m ∈ schema.metrics, m.name = name

/-- The schema has a metric of the name of the entry, which does not allow its value. -/
def Exceeded (schema : Schema) (e : String × UInt64) : Prop :=
  ∃ m ∈ schema.metrics, m.name = e.1 ∧ m.kind.maxValue < e.2

private theorem positionFrom_eq_none_iff {name : String} {offset : ℕ} {metrics : List Metric} :
    positionFrom name offset metrics = none ↔ ∀ m ∈ metrics, m.name ≠ name := by
  induction metrics generalizing offset with
  | nil => simp [positionFrom]
  | cons m metrics ih =>
    unfold positionFrom
    by_cases hname : m.name = name
    · simp [hname]
    · simp [hname, ih]

/-- A metric that is found starts where the slots of the metrics in front of it end. -/
theorem exists_split_of_positionFrom {name : String} {offset first : ℕ} {metrics : List Metric}
    {m : Metric} (h : positionFrom name offset metrics = some (first, m)) :
    ∃ before after, metrics = before ++ m :: after ∧ first = offset + totalWidth before ∧
      m.name = name := by
  induction metrics generalizing offset with
  | nil => cases h
  | cons m' metrics ih =>
    unfold positionFrom at h
    by_cases hname : m'.name = name
    · rw [if_pos hname] at h
      cases h
      exact ⟨[], metrics, rfl, rfl, hname⟩
    · rw [if_neg hname] at h
      obtain ⟨before, after, rfl, rfl, hm⟩ := ih h
      refine ⟨m' :: before, after, rfl, ?_, hm⟩
      simp only [totalWidth, List.map_cons, List.sum_cons, Nat.add_assoc]

/-- A name has no position if the schema does not know it. -/
theorem position?_eq_none_iff {name : String} :
    schema.position? name = none ↔ ¬ schema.Knows name := by
  rw [position?, positionFrom_eq_none_iff]
  simp [Knows]

/-- Names are unique, so the metric of a name is the only one. -/
theorem eq_of_name_eq {m m' : Metric} (hm : m ∈ schema.metrics) (hm' : m' ∈ schema.metrics)
    (h : m.name = m'.name) : m = m' :=
  List.inj_on_of_nodup_map (nodup_names schema) hm hm' h

/-- The check for values that are too great does what it is for. -/
theorem exceeds_iff {e : String × UInt64} : schema.exceeds e = true ↔ schema.Exceeded e := by
  unfold exceeds
  cases hposition : schema.position? e.1 with
  | none =>
    have hunknown := position?_eq_none_iff.mp hposition
    constructor
    · intro h
      cases h
    · rintro ⟨m, hm, hname, -⟩
      exact absurd ⟨m, hm, hname⟩ hunknown
  | some p =>
    obtain ⟨before, after, hmetrics, -, hname⟩ := exists_split_of_positionFrom hposition
    have hmem : p.2 ∈ schema.metrics := by simp [hmetrics]
    simp only [decide_eq_true_eq]
    constructor
    · intro h
      exact ⟨p.2, hmem, hname, h⟩
    · rintro ⟨m, hm, hname', h⟩
      rwa [eq_of_name_eq hmem hm (hname.trans hname'.symm)]

end Schema

/-! ### Measurements -/

namespace Measurements

/-- The entry has the property, and no entry with the property has a smaller name. -/
structure First (measurements : Measurements) (p : String × UInt64 → Prop)
    (e : String × UInt64) : Prop where
  /-- It is one of the entries. -/
  mem : e ∈ measurements.entries
  /-- It has the property. -/
  holds : p e
  /-- Its name is the smallest one. -/
  least : ∀ e' ∈ measurements.entries, p e' → e.1 ≤ e'.1

/-- Entries of one name are equal. -/
theorem eq_of_fst_eq {measurements : Measurements} {e e' : String × UInt64}
    (he : e ∈ measurements.entries) (he' : e' ∈ measurements.entries) (h : e.1 = e'.1) :
    e = e' := by
  have hnames : (measurements.entries.map Prod.fst).Nodup := by
    rw [List.Nodup, List.pairwise_map]
    refine measurements.sorted.imp fun {a b} hlt heq => ?_
    rw [heq] at hlt
    exact String.lt_irrefl _ hlt
  exact List.inj_on_of_nodup_map hnames he he' h

/-- Searching the entries in their order finds the one with the smallest name. -/
theorem find?_eq_some_iff_first {measurements : Measurements} {q : String × UInt64 → Bool}
    {p : String × UInt64 → Prop} (hq : ∀ e, q e = true ↔ p e) {e : String × UInt64} :
    measurements.entries.find? q = some e ↔ measurements.First p e := by
  have hfound {e : String × UInt64} (h : measurements.entries.find? q = some e) :
      measurements.First p e := by
    have hsorted := measurements.sorted
    obtain ⟨he, before, after, hentries, hbefore⟩ := List.find?_eq_some_iff_append.mp h
    refine ⟨by simp [hentries], (hq e).mp he, fun e' he' hp => ?_⟩
    rw [hentries] at he' hsorted
    rcases List.mem_append.mp he' with hmem | hmem
    · have hnot := hbefore e' hmem
      rw [(hq e').mpr hp] at hnot
      cases hnot
    · rcases List.mem_cons.mp hmem with rfl | hmem
      · exact String.le_refl _
      · have hpair := (List.pairwise_append.mp hsorted).2.1
        exact Std.le_of_lt ((List.pairwise_cons.mp hpair).1 e' hmem)
  constructor
  · exact hfound
  · intro hfirst
    cases h : measurements.entries.find? q with
    | none =>
      have hnot := List.find?_eq_none.mp h e hfirst.mem
      exact absurd ((hq e).mpr hfirst.holds) hnot
    | some e' =>
      have hfirst' := hfound h
      have hname : e'.1 = e.1 := String.le_antisymm
        (hfirst'.least e hfirst.mem hfirst.holds) (hfirst.least e' hfirst'.mem hfirst'.holds)
      rw [eq_of_fst_eq hfirst'.mem hfirst.mem hname]

end Measurements

namespace Schema

variable {schema : Schema} {measurements : Measurements}

/-- All names are those of metrics, and no value exceeds what its metric allows. -/
structure Fits (schema : Schema) (measurements : Measurements) : Prop where
  /-- The names. -/
  known : ∀ e ∈ measurements.entries, schema.Knows e.1
  /-- The values. -/
  bounded : ∀ e ∈ measurements.entries, ¬ schema.Exceeded e

private theorem isNone_position?_iff {e : String × UInt64} :
    (schema.position? e.1).isNone = true ↔ ¬ schema.Knows e.1 := by
  rw [Option.isNone_iff_eq_none, position?_eq_none_iff]

/-- Measurements are refused for the first unknown name. -/
theorem encode_of_unknown {e : String × UInt64}
    (h : measurements.First (fun e => ¬ schema.Knows e.1) e) :
    schema.encode measurements = .error (.unknownMetric e.1) := by
  have hfind := (Measurements.find?_eq_some_iff_first fun _ => isNone_position?_iff).mpr h
  rw [encode, measurementFault?, firstUnknown?, hfind]

/-- Measurements of known names are refused for the first value that is too great. -/
theorem encode_of_exceeded (hknown : ∀ e ∈ measurements.entries, schema.Knows e.1)
    {e : String × UInt64} (h : measurements.First schema.Exceeded e) :
    schema.encode measurements = .error (.outOfRange e.1 e.2) := by
  have hnone : schema.firstUnknown? measurements.entries = none := by
    rw [firstUnknown?, List.find?_eq_none]
    intro e he hunknown
    exact isNone_position?_iff.mp hunknown (hknown e he)
  have hfind := (Measurements.find?_eq_some_iff_first fun _ => exceeds_iff).mpr h
  rw [encode, measurementFault?, hnone, hfind]

/-- Measurements that fit are accepted. -/
theorem encode_of_fits (h : schema.Fits measurements) :
    schema.encode measurements = .ok (schema.metrics.flatMap fun m =>
      slotsOf m.kind.width (measurements.value m.name)) := by
  have hunknown : schema.firstUnknown? measurements.entries = none := by
    rw [firstUnknown?, List.find?_eq_none]
    intro e he hunknown
    exact isNone_position?_iff.mp hunknown (h.known e he)
  have hexceeded : measurements.entries.find? schema.exceeds = none := by
    rw [List.find?_eq_none]
    intro e he hexceeds
    exact h.bounded e he (exceeds_iff.mp hexceeds)
  rw [encode, measurementFault?, hunknown, hexceeded]

/-- Measurements have an unknown name, or all names are known and a value is too great, or they
fit. -/
theorem unknown_or_exceeded_or_fits (schema : Schema) (measurements : Measurements) :
    (∃ e, measurements.First (fun e => ¬ schema.Knows e.1) e) ∨
      (∀ e ∈ measurements.entries, schema.Knows e.1) ∧
        (∃ e, measurements.First schema.Exceeded e) ∨ schema.Fits measurements := by
  cases hunknown : measurements.entries.find? fun e => (schema.position? e.1).isNone with
  | some e =>
    exact .inl ⟨e, (Measurements.find?_eq_some_iff_first fun _ => isNone_position?_iff).mp hunknown⟩
  | none =>
    have hknown : ∀ e ∈ measurements.entries, schema.Knows e.1 := by
      intro e he
      by_contra hnot
      exact List.find?_eq_none.mp hunknown e he (isNone_position?_iff.mpr hnot)
    cases hexceeded : measurements.entries.find? schema.exceeds with
    | some e =>
      have hfirst := (Measurements.find?_eq_some_iff_first fun _ => exceeds_iff).mp hexceeded
      exact .inr (.inl ⟨hknown, e, hfirst⟩)
    | none =>
      refine .inr (.inr ⟨hknown, fun e he hexceeds => ?_⟩)
      exact List.find?_eq_none.mp hexceeded e he (exceeds_iff.mpr hexceeds)

/-- Only measurements that fit are accepted. -/
theorem fits_of_encode {xs : List Residue} (h : schema.encode measurements = .ok xs) :
    schema.Fits measurements := by
  rcases unknown_or_exceeded_or_fits schema measurements with
    ⟨e, hfirst⟩ | ⟨hknown, e, hfirst⟩ | hfits
  · rw [encode_of_unknown hfirst] at h
    cases h
  · rw [encode_of_exceeded hknown hfirst] at h
    cases h
  · exact hfits

/-! ### Slots -/

/-- A value has as many slots as its metric is wide. -/
theorem length_slotsOf (width : ℕ) (value : UInt64) : (slotsOf width value).length = width := by
  simp [slotsOf]

/-- There are as many slots as the schema has. -/
theorem length_encode {xs : List Residue} (h : schema.encode measurements = .ok xs) :
    xs.length = schema.dimension := by
  rw [encode_of_fits (fits_of_encode h)] at h
  cases h
  simp only [List.length_flatMap, length_slotsOf, dimension, totalWidth]

/-- Every slot is a bit. -/
theorem bits_of_encode {xs : List Residue} (h : schema.encode measurements = .ok xs) :
    ∀ x ∈ xs, x = 0 ∨ x = 1 := by
  rw [encode_of_fits (fits_of_encode h)] at h
  cases h
  intro x hx
  obtain ⟨m, -, hslot⟩ := List.mem_flatMap.mp hx
  obtain ⟨i, -, rfl⟩ := List.mem_map.mp hslot
  split
  · exact .inr rfl
  · exact .inl rfl

end Schema

end SplitTally
