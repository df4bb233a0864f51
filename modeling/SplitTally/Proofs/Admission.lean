import SplitTally.Proofs.ExactArithmetic
import SplitTally.Proofs.Slots
import SplitTally.Schema.Survey
import SplitTally.Schema.Text

/-!
# Which lists of metrics are schemas

A list of metrics is a schema when it is not empty, its names differ, its integers have one to 32
bits and its slots are not too many. Any other list is refused for the first reason of a fixed
order: that it is empty, the first metric that repeats a name or has an unsupported number of bits,
and last the number of slots. The same lists are accepted from a text, and by a walk that counts the
slots in a word.
-/

namespace SplitTally

open WordArithmetic (checked exact_checked exact_wrapping toNat_toUInt64_of_lt wrapping)

/-- Booleans are supported, and integers of one to 32 bits. -/
theorem MetricKind.isSupported_iff {kind : MetricKind} :
    kind.isSupported = true ↔ ∀ bits, kind = .integer bits → bits.toNat ∈ Set.Icc 1 32 := by
  cases kind with
  | boolean => simp [isSupported]
  | integer bits => simp [isSupported, UInt8.le_iff_toNat_le]

namespace Schema

/-! ### The first fault -/

/-- Metrics with names of their own and integers of one to 32 bits. -/
structure Sound (metrics : List Metric) : Prop where
  /-- No name is repeated. -/
  names : (metrics.map Metric.name).Nodup
  /-- The integers have from one to 32 bits. -/
  widths : ∀ m ∈ metrics, ∀ bits, m.kind = .integer bits → bits.toNat ∈ Set.Icc 1 32

/-- Why a list of metrics is no schema: the first of the cases that applies. -/
inductive Fault : List Metric → SchemaError → Prop
  /-- There are no metrics. -/
  | empty : Fault [] .empty
  /-- The metrics before this one are sound, and one of them has its name. -/
  | repeated (before : List Metric) (m : Metric) (after : List Metric) (hbefore : Sound before)
      (hname : m.name ∈ before.map Metric.name) :
      Fault (before ++ m :: after) (.duplicateName m.name)
  /-- The metrics before this one are sound and have other names, and its number of bits is not
  supported. -/
  | width (before : List Metric) (name : String) (bits : UInt8) (after : List Metric)
      (hbefore : Sound before) (hname : name ∉ before.map Metric.name)
      (hbits : bits.toNat ∉ Set.Icc 1 32) :
      Fault (before ++ ⟨name, .integer bits⟩ :: after) (.invalidWidth name bits.toNat)
  /-- All metrics are sound, and they have more slots than can be proved. -/
  | tooLarge (metrics : List Metric) (hsound : Sound metrics)
      (hlarge : maxDimension < totalWidth metrics) :
      Fault metrics (.tooLarge (totalWidth metrics))

variable {metrics before after : List Metric} {seen : Std.HashSet String} {cause : SchemaError}

/-- Metrics are sound if the walk over them meets neither a repeated name nor a wrong width. -/
theorem sound_iff : Sound metrics ↔ metricFault? ∅ metrics = none := by
  rw [metricFault?_eq_none_iff]
  simp only [Std.HashSet.not_mem_empty, not_false_eq_true, true_and, MetricKind.isSupported_iff]
  exact ⟨fun h => ⟨h.widths, h.names⟩, fun h => ⟨h.2, h.1⟩⟩

/-- Metrics have no fault if there are some, they are sound and their slots are not too many. -/
theorem fault?_eq_none_iff_sound :
    fault? metrics = none ↔ metrics ≠ [] ∧ Sound metrics ∧ totalWidth metrics ≤ maxDimension := by
  rw [fault?_eq_none_iff]
  simp only [MetricKind.isSupported_iff]
  exact ⟨fun ⟨hne, hnames, hwidths, hle⟩ => ⟨hne, ⟨hnames, hwidths⟩, hle⟩,
    fun ⟨hne, hsound, hle⟩ => ⟨hne, hsound.names, hsound.widths, hle⟩⟩

/-- Behind metrics without fault the search goes on with their names among those seen. -/
theorem metricFault?_append (h : metricFault? seen before = none) :
    metricFault? seen (before ++ after) =
      metricFault? (seen.insertMany (before.map Metric.name)) after := by
  induction before generalizing seen with
  | nil => simp
  | cons m before ih =>
    unfold metricFault? at h
    split at h
    · cases h
    · next hseen =>
      split at h
      · next hwidth =>
        rw [List.cons_append, metricFault?, if_neg hseen, if_pos hwidth, ih h, List.map_cons,
          Std.HashSet.insertMany_cons]
      · cases h

/-- Behind sound metrics the next one is looked at by itself, for its name first. -/
theorem metricFault?_append_cons (hbefore : Sound before) (m : Metric) :
    metricFault? ∅ (before ++ m :: after) =
      if m.name ∈ before.map Metric.name then some (.duplicateName m.name)
      else if m.kind.isSupported then
        metricFault? ((Std.HashSet.insertMany ∅ (before.map Metric.name)).insert m.name) after
      else some (.invalidWidth m.name m.kind.width) := by
  have hmem : m.name ∈ Std.HashSet.insertMany (∅ : Std.HashSet String)
      (before.map Metric.name) ↔ m.name ∈ before.map Metric.name := by
    rw [Std.HashSet.mem_insertMany_list]
    simp
  rw [metricFault?_append (sound_iff.mp hbefore), metricFault?]
  simp only [hmem]

/-- Each of the cases is the fault that is found. -/
theorem Fault.fault?_eq (h : Fault metrics cause) : fault? metrics = some cause := by
  have hfault {metrics : List Metric} {cause : SchemaError} (hne : metrics ≠ [])
      (h : metricFault? ∅ metrics = some cause) : fault? metrics = some cause := by
    rw [fault?, if_neg (by simpa using hne), h]
  cases h with
  | empty => rfl
  | repeated before m after hbefore hname =>
    refine hfault (by simp) ?_
    rw [metricFault?_append_cons hbefore, if_pos hname]
  | width before name bits after hbefore hname hbits =>
    have hwidth : ¬ MetricKind.isSupported (.integer bits) = true := fun hsupported =>
      hbits (MetricKind.isSupported_iff.mp hsupported bits rfl)
    refine hfault (by simp) ?_
    rw [metricFault?_append_cons hbefore, if_neg hname, if_neg hwidth]
    rfl
  | tooLarge metrics hsound hlarge =>
    have hne : metrics ≠ [] := by
      rintro rfl
      exact Nat.not_lt_zero _ hlarge
    rw [fault?, if_neg (by simpa using hne), sound_iff.mp hsound]
    exact if_pos hlarge

/-- Metrics behind sound ones are all sound with them, or there is a first one that is not. -/
theorem sound_or_exists_fault (hbefore : Sound before) (after : List Metric) :
    Sound (before ++ after) ∨ ∃ cause, Fault (before ++ after) cause := by
  induction after generalizing before with
  | nil => exact .inl (by rwa [List.append_nil])
  | cons m after ih =>
    by_cases hname : m.name ∈ before.map Metric.name
    · exact .inr ⟨_, .repeated before m after hbefore hname⟩
    by_cases hwidth : ∀ bits, m.kind = .integer bits → bits.toNat ∈ Set.Icc 1 32
    · have hnext : Sound (before ++ [m]) := by
        refine ⟨?_, fun x hx => ?_⟩
        · rw [List.map_append, List.nodup_append]
          refine ⟨hbefore.names, by simp, ?_⟩
          rintro _ hmem _ hm rfl
          exact hname (List.mem_singleton.mp hm ▸ hmem)
        · rcases List.mem_append.mp hx with hmem | hmem
          · exact hbefore.widths x hmem
          · rw [List.mem_singleton.mp hmem]
            exact hwidth
      simpa using ih hnext
    · obtain ⟨name, kind⟩ := m
      push Not at hwidth
      obtain ⟨bits, rfl, hbits⟩ := hwidth
      exact .inr ⟨_, .width before name bits after hbefore hname hbits⟩

/-- A list of metrics has a fault or is a schema. -/
theorem exists_fault_of_ne_none (h : fault? metrics ≠ none) : ∃ cause, Fault metrics cause := by
  have hnil : Sound [] := ⟨List.nodup_nil, by simp⟩
  rcases sound_or_exists_fault hnil metrics with hsound | hfault
  · by_cases hne : metrics = []
    · subst hne
      exact ⟨_, .empty⟩
    · refine ⟨_, .tooLarge metrics hsound (Nat.not_le.mp fun hle => h ?_)⟩
      exact fault?_eq_none_iff_sound.mpr ⟨hne, hsound, hle⟩
  · exact hfault

/-- The search finds the first fault and no other. -/
theorem fault?_eq_some_iff : fault? metrics = some cause ↔ Fault metrics cause := by
  refine ⟨fun h => ?_, Fault.fault?_eq⟩
  obtain ⟨cause', hfault⟩ := exists_fault_of_ne_none (h ▸ Option.some_ne_none cause)
  rwa [← Option.some.inj (hfault.fault?_eq.symm.trans h)]

/-! ### Schemas of lists -/

/-- Metrics are refused for their first fault. -/
theorem ofMetrics_eq_error_iff : ofMetrics metrics = .error cause ↔ Fault metrics cause := by
  rw [← fault?_eq_some_iff]
  unfold ofMetrics
  split <;> simp [*]

/-- A schema has the metrics that it was made of, in their order. -/
theorem metrics_of_ofMetrics {schema : Schema} (h : ofMetrics metrics = .ok schema) :
    schema.metrics = metrics := by
  unfold ofMetrics at h
  split at h <;> cases h
  rfl

/-- Metrics are a schema exactly if they have no fault. -/
theorem exists_ofMetrics_eq_ok_iff : (∃ schema, ofMetrics metrics = .ok schema) ↔
    metrics ≠ [] ∧ Sound metrics ∧ totalWidth metrics ≤ maxDimension := by
  rw [← fault?_eq_none_iff_sound]
  unfold ofMetrics
  split <;> simp [*]

/-! ### The walk in words -/

section Survey

variable {m : Type → Type} [Monad m] [LawfulMonad m] {arithmetic : WordArithmetic m}

/-- The slots of each metric are at most 32, so as long as the metrics are not too many the count
stays in its word, and what is found is the first fault or the number of slots. -/
theorem countSlots_eq (h : arithmetic.Exact) {counted : UInt64}
    (hroom : counted.toNat + 32 * metrics.length < UInt64.size) :
    countSlots arithmetic seen counted metrics = pure (match metricFault? seen metrics with
      | some cause => .error cause
      | none => .ok (UInt64.ofNat (counted.toNat + totalWidth metrics))) := by
  induction metrics generalizing seen counted with
  | nil => simp [countSlots, metricFault?, totalWidth]
  | cons metric metrics ih =>
    unfold countSlots metricFault?
    by_cases hseen : metric.name ∈ seen
    · rw [if_pos hseen, if_pos hseen]
    by_cases hsupported : metric.kind.isSupported = true
    · have hwidth := MetricKind.width_le hsupported
      have hword : metric.kind.width.toUInt64.toNat = metric.kind.width :=
        toNat_toUInt64_of_lt (hwidth.trans_lt (by decide))
      rw [List.length_cons] at hroom
      have hfits : counted.toNat + metric.kind.width.toUInt64.toNat < UInt64.size := by omega
      have hsum : (counted + metric.kind.width.toUInt64).toNat =
          counted.toNat + metric.kind.width := by
        rw [UInt64.toNat_add, hword]
        exact Nat.mod_eq_of_lt (by simpa [hword, UInt64.size] using hfits)
      rw [if_neg hseen, if_pos hsupported, if_neg hseen, if_pos hsupported, h.add hfits, pure_bind,
        ih (by omega), hsum, totalWidth, totalWidth, List.map_cons, List.sum_cons, Nat.add_assoc]
    · rw [if_neg hseen, if_neg hsupported, if_neg hseen, if_neg hsupported]

/-- Metrics without fault have at most 32 slots each. -/
theorem totalWidth_le (h : metricFault? seen metrics = none) :
    totalWidth metrics ≤ 32 * metrics.length := by
  obtain ⟨hmetrics, -⟩ := metricFault?_eq_none_iff.mp h
  have hsum := List.sum_le_card_nsmul (metrics.map fun m => m.kind.width) 32 (by
    simp only [List.mem_map, forall_exists_index, and_imp, forall_apply_eq_imp_iff₂]
    exact fun metric hmem => MetricKind.width_le (hmetrics metric hmem).2)
  rw [List.length_map, smul_eq_mul] at hsum
  rw [totalWidth]
  omega

/-- The walk returns the metrics of the schema and the number of its slots, or its fault, whatever
arithmetic the slots are counted in. -/
theorem survey_eq (h : arithmetic.Exact) (hmetrics : metrics.length < 2 ^ 58) :
    survey arithmetic metrics =
      pure ((ofMetrics metrics).map fun schema => (schema.metrics, schema.dimension.toUInt64)) := by
  have houtcome : (ofMetrics metrics).map
      (fun schema => (schema.metrics, schema.dimension.toUInt64)) = match fault? metrics with
        | some cause => .error cause
        | none => .ok (metrics, (totalWidth metrics).toUInt64) := by
    unfold ofMetrics
    split <;> simp [*, Except.map, dimension]
  have hroom : (0 : UInt64).toNat + 32 * metrics.length < UInt64.size := by
    simp only [UInt64.size, UInt64.toNat_zero]
    omega
  rw [houtcome, survey, fault?]
  by_cases hempty : metrics.isEmpty = true
  · rw [if_pos hempty, if_pos hempty]
  rw [if_neg hempty, if_neg hempty, countSlots_eq h hroom, pure_bind]
  cases hfault : metricFault? ∅ metrics with
  | some cause => rfl
  | none =>
    have hword : (totalWidth metrics).toUInt64.toNat = totalWidth metrics := by
      have hle := totalWidth_le hfault
      exact toNat_toUInt64_of_lt (hle.trans_lt (by simp only [UInt64.size]; omega))
    have hmax : maxDimension.toUInt64.toNat = maxDimension := by decide
    have hlarge : maxDimension.toUInt64 < (totalWidth metrics).toUInt64 ↔
        maxDimension < totalWidth metrics := by
      rw [UInt64.lt_iff_toNat_lt, hmax, hword]
    dsimp only
    rw [UInt64.toNat_zero, Nat.zero_add, ← Nat.toUInt64_eq]
    by_cases hmany : maxDimension < totalWidth metrics
    · rw [if_pos (hlarge.mpr hmany), if_pos hmany, hword]
    · rw [if_neg (mt hlarge.mp hmany), if_neg hmany]

end Survey

/-! ### Schemas of texts -/

/-- A text is a schema if the metrics in it are, and only blanks follow them. -/
theorem ofJson_eq_ok_iff {text : String} {schema : Schema} : ofJson text = .ok schema ↔
    ∃ metrics rest, readMetrics text.toList = .ok (metrics, rest) ∧
      ofMetrics metrics = .ok schema ∧ Json.skipBlanks rest = [] := by
  unfold ofJson
  cases hread : readMetrics text.toList with
  | error fault => simp
  | ok read =>
    obtain ⟨metrics, rest⟩ := read
    cases hmetrics : ofMetrics metrics with
    | error cause => simp [hmetrics]
    | ok schema' =>
      by_cases hrest : Json.skipBlanks rest = []
      · simp [hmetrics, hrest]
      · simp [hmetrics, hrest]

/-- A text is refused for a fault of the metrics in it whatever follows them. -/
theorem ofJson_eq_error_iff {text : String} : ofJson text = .error (.schema cause) ↔
    ∃ metrics rest, readMetrics text.toList = .ok (metrics, rest) ∧
      ofMetrics metrics = .error cause := by
  unfold ofJson
  cases hread : readMetrics text.toList with
  | error fault => simp
  | ok read =>
    obtain ⟨metrics, rest⟩ := read
    cases hmetrics : ofMetrics metrics with
    | error cause' => simp [hmetrics]
    | ok schema =>
      by_cases hrest : Json.skipBlanks rest = []
      · simp [hmetrics, hrest]
      · simp [hmetrics, hrest]

/-- A list of metrics is a schema exactly when it is not empty, its metrics are sound and they have
no more slots than can be proved. The schema then has the metrics of the list in their order, and
their slots. Any other list is refused for its first fault. A text holds a schema when its metrics
are one, and is refused for their fault. Metrics that fit in memory are also decided by a walk that
counts the slots in a word, and no count leaves the word. -/
theorem ofMetrics_reports_first_fault :
    (∀ metrics : List Metric,
      ((∃ schema, ofMetrics metrics = .ok schema) ↔
        metrics ≠ [] ∧ Sound metrics ∧ totalWidth metrics ≤ maxDimension) ∧
      (∀ schema, ofMetrics metrics = .ok schema →
        schema.metrics = metrics ∧ schema.dimension = totalWidth metrics) ∧
      ∀ cause, ofMetrics metrics = .error cause ↔ Fault metrics cause) ∧
    (∀ text : String,
      (∀ schema, ofJson text = .ok schema ↔
        ∃ metrics rest, readMetrics text.toList = .ok (metrics, rest) ∧
          ofMetrics metrics = .ok schema ∧ Json.skipBlanks rest = []) ∧
      ∀ cause, ofJson text = .error (.schema cause) ↔
        ∃ metrics rest, readMetrics text.toList = .ok (metrics, rest) ∧ Fault metrics cause) ∧
    ∀ metrics : List Metric, metrics.length < 2 ^ 58 →
      survey wrapping metrics =
        (ofMetrics metrics).map (fun schema => (schema.metrics, schema.dimension.toUInt64)) ∧
      survey checked metrics =
        some ((ofMetrics metrics).map fun schema =>
          (schema.metrics, schema.dimension.toUInt64)) := by
  refine ⟨fun metrics => ⟨exists_ofMetrics_eq_ok_iff, fun schema h => ?_, fun cause =>
    ofMetrics_eq_error_iff⟩, fun text => ⟨fun schema => ofJson_eq_ok_iff, fun cause => ?_⟩,
    fun metrics hmetrics =>
      ⟨survey_eq exact_wrapping hmetrics, survey_eq exact_checked hmetrics⟩⟩
  · have hmetrics := metrics_of_ofMetrics h
    exact ⟨hmetrics, by rw [dimension, hmetrics]⟩
  · simp only [ofJson_eq_error_iff, ofMetrics_eq_error_iff]

/-- Of two faults of one metric the repeated name is reported, and a fault behind it is not. -/
theorem ofMetrics_reports_first_fault_of_two :
    ofMetrics [⟨"a", .boolean⟩, ⟨"a", .integer 0⟩, ⟨"b", .integer 33⟩] =
      .error (.duplicateName "a") ∧
    survey wrapping [⟨"a", .boolean⟩, ⟨"a", .integer 0⟩, ⟨"b", .integer 33⟩] =
      .error (.duplicateName "a") ∧
    (∃ schema, ofMetrics [⟨"a", .boolean⟩, ⟨"b", .integer 32⟩] = .ok schema ∧
      schema.dimension = 33) := by
  obtain ⟨hlists, -, hwalk⟩ := ofMetrics_reports_first_fault
  have hbefore : Sound [⟨"a", .boolean⟩] := ⟨by decide, by simp⟩
  have hrefused := (hlists _).2.2 _ |>.mpr
    (.repeated [⟨"a", .boolean⟩] ⟨"a", .integer 0⟩ [⟨"b", .integer 33⟩] hbefore (by simp))
  have hsound : Sound [⟨"a", .boolean⟩, ⟨"b", .integer 32⟩] := ⟨by decide, by simp⟩
  obtain ⟨schema, hschema⟩ := (hlists [⟨"a", .boolean⟩, ⟨"b", .integer 32⟩]).1.mpr
    ⟨by simp, hsound, by decide⟩
  refine ⟨hrefused, ?_, schema, hschema, ((hlists _).2.1 _ hschema).2⟩
  have hsurvey := (hwalk [⟨"a", .boolean⟩, ⟨"a", .integer 0⟩, ⟨"b", .integer 33⟩] (by decide)).1
  rw [hsurvey]
  exact congrArg (Except.map _) hrefused

end Schema

end SplitTally
