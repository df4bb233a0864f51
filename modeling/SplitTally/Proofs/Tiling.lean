import Mathlib.Order.Interval.Set.Union
import Mathlib.Order.SuccPred.IntervalSucc
import SplitTally.Placement.Checked
import SplitTally.Proofs.Admission
import SplitTally.Proofs.DiscreteTransform
import SplitTally.Proofs.Placements
import SplitTally.Proofs.WeightedSums

/-!
# How metrics share out the slots

The slots of each metric start where those of the metric in front of it end. So the ranges of the
metrics of a schema tile its slots: none is empty, no two of them meet, and together they are all
slots. A metric is found by its name at the start of its range, and whatever the measurements are,
writing them stays within the ranges and within the words of the values.
-/

namespace SplitTally

open WordArithmetic (checked exact_checked exact_wrapping toNat_toUInt64_of_lt wrapping)

namespace Schema

variable {schema : Schema} {metrics : List Metric} {name : String}

/-! ### Ranges of slots -/

/-- The slots of the metric at an index. -/
def slots (schema : Schema) (i : Fin schema.metrics.length) : Set ℕ :=
  Set.Ico (schema.offset i) (schema.offset i + schema.metrics[i].kind.width)

/-- The first metric begins at the first slot. -/
theorem offset_zero (schema : Schema) : schema.offset 0 = 0 := rfl

/-- The last metric ends where the vector does. -/
theorem offset_length (schema : Schema) :
    schema.offset schema.metrics.length = schema.dimension := by
  rw [offset, List.take_length, dimension]

/-- The slots of a metric start where those of the one in front of it end. -/
theorem offset_succ {i : ℕ} (hi : i < schema.metrics.length) :
    schema.offset (i + 1) = schema.offset i + schema.metrics[i].kind.width := by
  rw [offset, List.take_succ_eq_append_getElem hi, totalWidth, List.map_append, List.sum_append,
    List.map_singleton, List.sum_singleton, offset, totalWidth]

/-- Later metrics do not begin before earlier ones. -/
theorem offset_monotone (schema : Schema) : Monotone schema.offset := by
  refine monotone_nat_of_le_succ fun i => ?_
  by_cases hi : i < schema.metrics.length
  · rw [offset_succ hi]
    exact Nat.le_add_right _ _
  · -- Behind the last metric nothing is added any more.
    have hlength := Nat.not_lt.mp hi
    rw [offset, offset, List.take_of_length_le hlength, List.take_of_length_le (by omega)]

/-- The slots of a metric end where those of the next one begin. -/
theorem slots_eq (i : Fin schema.metrics.length) :
    schema.slots i = Set.Ico (schema.offset i) (schema.offset (i + 1)) := by
  rw [slots, offset_succ i.isLt]
  rfl

/-- Every metric has a slot. -/
theorem slots_nonempty (i : Fin schema.metrics.length) : (schema.slots i).Nonempty := by
  have hpos := MetricKind.width_pos (isSupported_of_mem (List.getElem_mem i.isLt))
  exact Set.nonempty_Ico.mpr (Nat.lt_add_of_pos_right hpos)

/-- No slot is one of two metrics. -/
theorem slots_disjoint (schema : Schema) :
    Pairwise fun i j => schema.slots i ∩ schema.slots j = ∅ := by
  intro i j hij
  rw [slots_eq, slots_eq]
  have hdisjoint := schema.offset_monotone.pairwise_disjoint_on_Ico_succ (Fin.val_ne_of_ne hij)
  exact Set.disjoint_iff_inter_eq_empty.mp hdisjoint

/-- Every slot is one of a metric. -/
theorem iUnion_slots (schema : Schema) :
    ⋃ i, schema.slots i = Set.Ico 0 schema.dimension := by
  refine Set.Subset.antisymm (Set.iUnion_subset fun i => ?_) fun slot hslot => ?_
  · exact Set.Ico_subset_Ico (Nat.zero_le _) (offset_add_width_le i.isLt)
  · rw [← offset_zero schema, ← offset_length] at hslot
    obtain ⟨i, hi, hmem⟩ := Set.mem_iUnion₂.mp (Ico_subset_biUnion_Ico _ _ hslot)
    refine Set.mem_iUnion.mpr ⟨⟨i, Finset.mem_range.mp hi⟩, ?_⟩
    rwa [slots_eq]

/-- The metrics of a schema share out its slots in their order. -/
structure Tiled (schema : Schema) : Prop where
  /-- Every metric has slots. -/
  nonempty : ∀ i, (schema.slots i).Nonempty
  /-- The first metric has the first slot. -/
  first : schema.offset 0 = 0
  /-- Each metric starts where the one in front of it ends. -/
  next : ∀ i : Fin schema.metrics.length,
    schema.offset (i + 1) = schema.offset i + schema.metrics[i].kind.width
  /-- The last metric has the last slot. -/
  last : schema.offset schema.metrics.length = schema.dimension
  /-- No slot is one of two metrics. -/
  disjoint : Pairwise fun i j => schema.slots i ∩ schema.slots j = ∅
  /-- Every slot is one of a metric, and no other is. -/
  cover : ⋃ i, schema.slots i = Set.Ico 0 schema.dimension

/-- The metrics tile the vector. -/
theorem tiled (schema : Schema) : schema.Tiled where
  nonempty := slots_nonempty
  first := offset_zero schema
  next i := offset_succ i.isLt
  last := offset_length schema
  disjoint := slots_disjoint schema
  cover := iUnion_slots schema

/-! ### Names -/

/-- A metric behind others of other names is found where their slots end. -/
theorem positionFrom_append {before : List Metric} {m : Metric} (after : List Metric) (offset : ℕ)
    (h : ∀ x ∈ before, x.name ≠ m.name) :
    positionFrom m.name offset (before ++ m :: after) = some (offset + totalWidth before, m) := by
  induction before generalizing offset with
  | nil => simp [positionFrom, totalWidth]
  | cons x before ih =>
    rw [List.forall_mem_cons] at h
    rw [List.cons_append, positionFrom, if_neg h.1, ih _ h.2, totalWidth, totalWidth,
      List.map_cons, List.sum_cons, Nat.add_assoc]

/-- Each metric is found by its name, at the start of its slots. -/
theorem position?_getElem {i : ℕ} (hi : i < schema.metrics.length) :
    schema.position? schema.metrics[i].name = some (schema.offset i, schema.metrics[i]) := by
  have hsplit : schema.metrics = schema.metrics.take i ++ schema.metrics[i] ::
      schema.metrics.drop (i + 1) := by simp
  -- The scan stops at the first metric of the name, and the ones in front have other names.
  have hbefore : ∀ x ∈ schema.metrics.take i, x.name ≠ schema.metrics[i].name := by
    have hnames := schema.nodup_names
    rw [hsplit, List.map_append, List.map_cons, List.nodup_append] at hnames
    exact fun x hx => hnames.2.2 _ (List.mem_map_of_mem hx) _ List.mem_cons_self
  have hfound := positionFrom_append (schema.metrics.drop (i + 1)) 0 hbefore
  rwa [← hsplit, Nat.zero_add] at hfound

/-- What is found by a name is the metric of that name, and its slots are those of the schema. -/
theorem of_position?_eq_some {p : ℕ × Metric} (h : schema.position? name = some p) :
    p.2 ∈ schema.metrics ∧ p.2.name = name ∧ p.1 + p.2.kind.width ≤ schema.dimension := by
  obtain ⟨before, after, hmetrics, hoffset, hname⟩ := exists_split_of_positionFrom h
  refine ⟨by simp [hmetrics], hname, ?_⟩
  rw [hoffset, dimension, hmetrics, totalWidth, totalWidth, List.map_append, List.map_cons,
    List.sum_append, List.sum_cons]
  omega

/-- A name has a position if a metric has the name. -/
theorem exists_position?_iff :
    (∃ p, schema.position? name = some p) ↔ name ∈ schema.metrics.map Metric.name := by
  rw [← Option.isSome_iff_exists, Option.isSome_iff_ne_none, ne_eq, position?_eq_none_iff, not_not,
    Knows, List.mem_map]

/-! ### Counting in words -/

/-- No count of slots leaves its word. -/
theorem dimension_lt_size (schema : Schema) : schema.dimension < UInt64.size :=
  schema.dimension_le.trans_lt (by decide)

section Seek

variable {m : Type → Type} [Monad m] [LawfulMonad m] {arithmetic : WordArithmetic m}

/-- Looking for a metric in words finds it where it is, as long as the slots fit in a word. -/
theorem seek_eq (h : arithmetic.Exact) {offset : ℕ}
    (hfits : offset + totalWidth metrics < UInt64.size) :
    seek arithmetic name offset.toUInt64 metrics =
      pure ((positionFrom name offset metrics).map fun p => (p.1.toUInt64, p.2)) := by
  induction metrics generalizing offset with
  | nil => rfl
  | cons metric metrics ih =>
    have hwidth : totalWidth (metric :: metrics) = metric.kind.width + totalWidth metrics := rfl
    unfold seek positionFrom
    by_cases hname : metric.name = name
    · rw [if_pos hname, if_pos hname]
      rfl
    · have hoffset : offset.toUInt64.toNat = offset := toNat_toUInt64_of_lt (by omega)
      have hslots : metric.kind.width.toUInt64.toNat = metric.kind.width :=
        toNat_toUInt64_of_lt (by omega)
      have hsum : offset.toUInt64 + metric.kind.width.toUInt64 =
          (offset + metric.kind.width).toUInt64 := by
        rw [Nat.toUInt64_eq, Nat.toUInt64_eq, Nat.toUInt64_eq, UInt64.ofNat_add]
      rw [if_neg hname, if_neg hname, h.add (by omega), pure_bind, hsum, ih (by omega)]

/-- Counting in words finds every metric where it is. -/
theorem seek_metrics (h : arithmetic.Exact) (schema : Schema) (name : String) :
    seek arithmetic name 0 schema.metrics =
      pure ((schema.position? name).map fun p => (p.1.toUInt64, p.2)) := by
  have hfits : 0 + totalWidth schema.metrics < UInt64.size := by
    rw [Nat.zero_add]
    exact schema.dimension_lt_size
  exact seek_eq h hfits

end Seek

end Schema

/-! ### Writing -/

variable {arithmetic : WordArithmetic Option}

namespace Placement

variable {placement : Placement} {slots : Array Residue}

private theorem less?_eq_some {a b : ℕ} (h : b ≤ a) : less? a b = some (a - b) := if_pos h

private theorem bit?_eq_some {exponent : ℕ} (h : exponent < 64) :
    placement.bit? exponent = some (placement.bit exponent) := if_pos h

/-- The slots of the placement are among the first `n`, and are no more than a value has bits. -/
structure Within (placement : Placement) (n : ℕ) : Prop where
  /-- The number of slots. -/
  width_le : placement.metric.kind.width ≤ 64
  /-- The last slot. -/
  last_le : placement.offset + placement.metric.kind.width ≤ n

/-- A value whose slots are there is written without leaving them, its word or the count of them. -/
theorem Within.writeWithin?_eq (h : arithmetic.Exact) (hplacement : placement.Within slots.size)
    (hslots : slots.size < UInt64.size) :
    placement.writeWithin? arithmetic slots = placement.writeTo? slots := by
  obtain ⟨hwidth, hlast⟩ := hplacement
  have hoffset : placement.offset.toUInt64.toNat = placement.offset :=
    toNat_toUInt64_of_lt (by omega)
  have hcount : placement.metric.kind.width.toUInt64.toNat = placement.metric.kind.width :=
    toNat_toUInt64_of_lt (by omega)
  have hfits : placement.offset.toUInt64.toNat + placement.metric.kind.width.toUInt64.toNat <
      UInt64.size := by omega
  have hsum : (placement.offset.toUInt64 + placement.metric.kind.width.toUInt64).toNat =
      placement.offset + placement.metric.kind.width := by
    rw [UInt64.toNat_add, Nat.mod_eq_of_lt hfits, hoffset, hcount]
  have hbits : ∀ i < placement.metric.kind.width,
      (do placement.bit? (← less? (← less? placement.metric.kind.width 1) i)) =
        some (placement.bit (placement.metric.kind.width - 1 - i)) := by
    intro i hi
    rw [less?_eq_some (show 1 ≤ _ by omega)]
    dsimp only [Option.bind_eq_bind, Option.bind_some]
    rw [less?_eq_some (by omega), Option.bind_some, bit?_eq_some (by omega)]
  rw [writeWithin?, writeTo?, if_pos hlast, h.add hfits]
  dsimp only [Option.bind_eq_bind, Option.pure_def, Option.bind_some]
  rw [if_pos (by omega)]
  exact Transform.write?_eq_some (fun i hi => by omega) hbits

/-- Writing a value leaves the number of slots as it was. -/
theorem size_of_writeTo? {written : Array Residue} (h : placement.writeTo? slots = some written) :
    written.size = slots.size := by
  unfold writeTo? at h
  dsimp only at h
  split at h
  · cases h
    exact Transform.size_write
  · cases h

/-- Values that lie within the vector are written as if positions were numbers. -/
theorem writeAllWithin?_eq (h : arithmetic.Exact) {placements : List Placement}
    (hplacements : ∀ placement ∈ placements, placement.Within slots.size)
    (hslots : slots.size < UInt64.size) :
    writeAllWithin? arithmetic slots placements = writeAll? slots placements := by
  induction placements generalizing slots with
  | nil => rfl
  | cons placement placements ih =>
    rw [List.forall_mem_cons] at hplacements
    rw [writeAllWithin?, writeAll?, hplacements.1.writeWithin?_eq h hslots]
    by_cases hgreat : placement.metric.kind.maxValue < placement.value
    · rw [if_pos hgreat, if_pos hgreat]
    · rw [if_neg hgreat, if_neg hgreat]
      cases hwritten : placement.writeTo? slots with
      | none => rfl
      | some written =>
        -- Writing keeps the size of the vector, so the other placements are still within it.
        have hkept := size_of_writeTo? hwritten
        exact ih (hkept ▸ hplacements.2) (hkept ▸ hslots)

end Placement

namespace Schema

variable {schema : Schema}

/-- Metrics are located in words where they are located as numbers. -/
theorem locateWithin?_eq (h : arithmetic.Exact) (entries : List (String × UInt64)) :
    schema.locateWithin? arithmetic entries = some (schema.locate entries) := by
  induction entries with
  | nil => rfl
  | cons e entries ih =>
    rw [locateWithin?, locate, seek_metrics h, Option.pure_def, Option.bind_eq_bind,
      Option.bind_some]
    cases hposition : schema.position? e.1 with
    | none => rfl
    | some p =>
      have hfirst : p.1.toUInt64.toNat = p.1 := by
        have hlast := (of_position?_eq_some hposition).2.2
        have hdimension := schema.dimension_lt_size
        exact toNat_toUInt64_of_lt (by omega)
      dsimp only [Option.map_some]
      rw [ih, hfirst]
      rfl

/-- Every measurement is placed within the slots of the schema. -/
theorem within_of_locate {entries : List (String × UInt64)} {placements : List Placement}
    (h : schema.locate entries = .ok placements) :
    ∀ placement ∈ placements, placement.Within schema.dimension := by
  induction entries generalizing placements with
  | nil =>
    cases h
    exact fun placement hmem => absurd hmem List.not_mem_nil
  | cons e entries ih =>
    rw [locate] at h
    cases hposition : schema.position? e.1 with
    | none =>
      rw [hposition] at h
      cases h
    | some p =>
      obtain ⟨hmem, -, hlast⟩ := of_position?_eq_some hposition
      have hwidth := MetricKind.width_le (isSupported_of_mem hmem)
      rw [hposition] at h
      dsimp only at h
      cases hlocate : schema.locate entries with
      | error cause =>
        rw [hlocate] at h
        cases h
      | ok rest =>
        rw [hlocate] at h
        cases h
        exact List.forall_mem_cons.mpr ⟨⟨hwidth.trans (by decide), hlast⟩, ih hlocate⟩

/-- Whatever the measurements are, every index on the way to their slots is in range. -/
theorem encodeWithin?_eq (h : arithmetic.Exact) (measurements : Measurements) :
    schema.encodeWithin? arithmetic measurements = some (schema.encode measurements) := by
  have hwritten := encodeInPlace?_eq schema measurements
  rw [encodeInPlace?] at hwritten
  rw [encodeWithin?, locateWithin?_eq h, Option.bind_eq_bind, Option.bind_some]
  cases hlocate : schema.locate measurements.entries with
  | error cause =>
    rw [hlocate] at hwritten
    exact hwritten
  | ok placements =>
    have hwithin : ∀ placement ∈ placements,
        placement.Within (Array.replicate schema.dimension (0 : Residue)).size := by
      rw [Array.size_replicate]
      exact within_of_locate hlocate
    have hsize : (Array.replicate schema.dimension (0 : Residue)).size < UInt64.size := by
      rw [Array.size_replicate]
      exact schema.dimension_lt_size
    rw [hlocate] at hwritten
    dsimp only
    rw [Placement.writeAllWithin?_eq h hwithin hsize]
    exact hwritten

/-! ### Schemas of lists -/

/-- Every metric has a slot, so there are no more metrics than slots. -/
theorem length_le_dimension (schema : Schema) : schema.metrics.length ≤ schema.dimension := by
  have hone : ∀ width ∈ schema.metrics.map fun m => m.kind.width, 1 ≤ width := by
    intro width hwidth
    obtain ⟨m, hm, rfl⟩ := List.mem_map.mp hwidth
    exact MetricKind.width_pos (isSupported_of_mem hm)
  have hsum := List.length_le_sum_of_one_le _ hone
  rwa [List.length_map] at hsum

/-- A list of metrics that is a schema is surveyed without a fault. -/
theorem survey_metrics {m : Type → Type} [Monad m] [LawfulMonad m] {arithmetic : WordArithmetic m}
    (h : arithmetic.Exact) {metrics : List Metric} (hschema : ofMetrics metrics = .ok schema) :
    survey arithmetic metrics = pure (.ok (metrics, schema.dimension.toUInt64)) := by
  have hmetrics := metrics_of_ofMetrics hschema
  have hlength : metrics.length < 2 ^ 58 := by
    rw [← hmetrics]
    exact (schema.length_le_dimension.trans schema.dimension_le).trans_lt (by decide)
  rw [survey_eq h hlength, hschema, Except.map, hmetrics]

/-- The schema of a list finds a metric by exactly the names in the list, and the one of that name.
Each metric is found at the start of its slots, and their ranges tile the slots of the schema. These
are as many as were counted while the metrics were checked. Counted in words, whether these wrap
around or are checked, metrics are found where they are, and whatever the measurements are, every
index on the way to their slots is in range. -/
theorem tiled_of_ofMetrics {metrics : List Metric} (h : ofMetrics metrics = .ok schema) :
    schema.metrics = metrics ∧
    (∀ name, (∃ p, schema.position? name = some p) ↔ name ∈ metrics.map Metric.name) ∧
    (∀ name p, schema.position? name = some p → p.2 ∈ metrics ∧ p.2.name = name) ∧
    (∀ i : Fin schema.metrics.length,
      schema.position? schema.metrics[i].name = some (schema.offset i, schema.metrics[i])) ∧
    schema.Tiled ∧
    survey wrapping metrics = .ok (metrics, schema.dimension.toUInt64) ∧
    survey checked metrics = some (.ok (metrics, schema.dimension.toUInt64)) ∧
    (∀ name, seek wrapping name 0 metrics =
      (schema.position? name).map fun p => (p.1.toUInt64, p.2)) ∧
    (∀ name, seek checked name 0 metrics =
      some ((schema.position? name).map fun p => (p.1.toUInt64, p.2))) ∧
    ∀ measurements,
      schema.encodeWithin? checked measurements = some (schema.encode measurements) := by
  have hwrapping := survey_metrics exact_wrapping h
  have hchecked := survey_metrics exact_checked h
  obtain rfl := metrics_of_ofMetrics h
  refine ⟨rfl, fun name => exists_position?_iff, fun name p hposition => ?_,
    fun i => position?_getElem i.isLt, schema.tiled, hwrapping, hchecked,
    seek_metrics exact_wrapping schema, seek_metrics exact_checked schema,
    encodeWithin?_eq exact_checked⟩
  obtain ⟨hmem, hname, -⟩ := of_position?_eq_some hposition
  exact ⟨hmem, hname⟩

/-- A number of four bits has the slots between those of two flags. -/
theorem tiled_of_ofMetrics_three : ∃ schema : Schema,
    ofMetrics [⟨"flag", .boolean⟩, ⟨"count", .integer 4⟩, ⟨"other", .boolean⟩] = .ok schema ∧
    schema.position? "count" = some (1, ⟨"count", .integer 4⟩) ∧
    schema.position? "other" = some (5, ⟨"other", .boolean⟩) ∧
    (¬ ∃ p, schema.position? "nope" = some p) ∧
    ⋃ i, schema.slots i = Set.Ico 0 6 ∧
    schema.encodeWithin? checked (.ofList [("count", 11)]) = some (.ok [0, 1, 0, 1, 1, 0]) := by
  have hsound : Sound [⟨"flag", .boolean⟩, ⟨"count", .integer 4⟩, ⟨"other", .boolean⟩] :=
    ⟨by decide, by simp⟩
  obtain ⟨⟨listed, hfaultless⟩, h⟩ :=
    exists_ofMetrics_eq_ok_iff.mpr ⟨List.cons_ne_nil _ _, hsound, by decide⟩
  obtain ⟨hlisted, hnames, -, hposition, htiled, -, -, -, -, hencode⟩ := tiled_of_ofMetrics h
  obtain rfl : listed = _ := hlisted
  refine ⟨_, h, hposition ⟨1, show 1 < 3 by decide⟩,
    hposition ⟨2, show 2 < 3 by decide⟩, ?_, htiled.cover,
    (hencode _).trans (congrArg some rfl)⟩
  rw [hnames]
  decide

end Schema

end SplitTally
