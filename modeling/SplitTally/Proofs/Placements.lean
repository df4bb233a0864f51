import Mathlib.Data.List.Forall2
import SplitTally.Placement
import SplitTally.Proofs.InPlace
import SplitTally.Proofs.Slots

/-!
# Slots written in place

A metric is found where the slots of the metrics in front of it end. So the ranges of different
metrics are disjoint: writing a value replaces the slots of its own metric and leaves all others,
and when all values are written each metric has the slots of its own one.
-/

namespace SplitTally

open Transform (write)

namespace Schema

/-! ### Slots by name -/

/-- The slots of metrics with the given values. -/
def slotsWith (values : String → UInt64) (metrics : List Metric) : List Residue :=
  metrics.flatMap fun m => slotsOf m.kind.width (values m.name)

variable {values : String → UInt64} {metrics : List Metric} {name : String}

/-- The slots of metrics one behind the other. -/
theorem slotsWith_append (metrics metrics' : List Metric) :
    slotsWith values (metrics ++ metrics') =
      slotsWith values metrics ++ slotsWith values metrics' :=
  List.flatMap_append

/-- The slots of the first metric are in front. -/
theorem slotsWith_cons (m : Metric) (metrics : List Metric) :
    slotsWith values (m :: metrics) =
      slotsOf m.kind.width (values m.name) ++ slotsWith values metrics := rfl

/-- Every metric has as many slots as it is wide. -/
theorem length_slotsWith (values : String → UInt64) (metrics : List Metric) :
    (slotsWith values metrics).length = totalWidth metrics := by
  simp only [slotsWith, List.length_flatMap, length_slotsOf, totalWidth]

/-- Only the slots of the metrics of a name depend on its value. -/
theorem slotsWith_update (value : UInt64) (h : ∀ m ∈ metrics, m.name ≠ name) :
    slotsWith (Function.update values name value) metrics = slotsWith values metrics := by
  refine List.flatMap_congr fun m hm => ?_
  rw [Function.update_of_ne (h m hm)]

/-- The bits of zero are zero. -/
theorem slotsOf_zero (width : ℕ) : slotsOf width 0 = List.replicate width 0 := by
  simp [slotsOf]

/-- If all values are zero, so are all slots. -/
theorem slotsWith_zero (metrics : List Metric) :
    slotsWith (fun _ => 0) metrics = List.replicate (totalWidth metrics) 0 := by
  induction metrics with
  | nil => rfl
  | cons m metrics ih =>
    have hwidth : totalWidth (m :: metrics) = m.kind.width + totalWidth metrics := rfl
    rw [slotsWith_cons, ih, slotsOf_zero, hwidth, List.replicate_add]

end Schema

/-! ### Writing a range -/

/-- Writing a range replaces it and leaves what is in front of it and behind it. -/
theorem Transform.toList_write {buffer : Array Residue} {before range after : List Residue}
    (h : buffer.toList = before ++ range ++ after) (value : ℕ → Residue) :
    (write buffer range.length (before.length + ·) value).toList =
      before ++ (List.range range.length).map value ++ after := by
  induction range using List.reverseRecOn generalizing after with
  | nil => exact h
  | append_singleton range x ih =>
    have hrange : buffer.toList = before ++ range ++ x :: after := by
      rw [h]
      simp
    rw [List.length_append, List.length_singleton, write_succ, Array.toList_setIfInBounds,
      ih hrange, List.range_succ]
    rw [List.set_append_right _ _ (by simp)]
    simp

namespace Placement

open Schema (slotsOf slotsWith)

variable {placement : Placement}

/-- The bits of a value that are written are its binary digits. -/
theorem bit_eq {exponent : ℕ} (h : exponent < 64) :
    placement.bit exponent = if placement.value.toNat.testBit exponent then 1 else 0 := by
  have hshift : exponent.toUInt64.toNat % 64 = exponent := by
    rw [Nat.toUInt64_eq, UInt64.toNat_ofNat']
    omega
  have hdigit : (placement.value >>> exponent.toUInt64) &&& 1 =
      if placement.value.toNat.testBit exponent then 1 else 0 := by
    rw [← UInt64.toNat_inj, UInt64.toNat_and, UInt64.toNat_shiftRight, hshift,
      Nat.shiftRight_eq_div_pow, UInt64.toNat_one, Nat.and_one_is_mod, ← Nat.toNat_testBit]
    cases placement.value.toNat.testBit exponent <;> rfl
  rw [bit, hdigit]
  cases placement.value.toNat.testBit exponent <;> rfl

/-- The bits of a placement, from the highest one on, are the slots of its value. -/
theorem map_bit {width : ℕ} (h : width ≤ 64) :
    ((List.range width).map fun i => placement.bit (width - 1 - i)) =
      slotsOf width placement.value := by
  refine List.map_congr_left fun i hi => bit_eq ?_
  have := List.mem_range.mp hi
  omega

end Placement

namespace Schema

variable {schema : Schema} {values : String → UInt64}

/-- The placement is that of an entry. -/
structure Places (schema : Schema) (e : String × UInt64) (placement : Placement) : Prop where
  /-- The name. -/
  name_eq : placement.name = e.1
  /-- The value. -/
  value_eq : placement.value = e.2
  /-- The offset and the metric. -/
  position_eq : schema.position? e.1 = some (placement.offset, placement.metric)

/-- Writing a placement gives the metric of its name its value and leaves those of all others. -/
theorem Places.writeTo?_eq {e : String × UInt64} {placement : Placement}
    (h : schema.Places e placement) {slots : Array Residue}
    (hslots : slots.toList = slotsWith values schema.metrics) :
    ∃ written, placement.writeTo? slots = some written ∧
      written.toList = slotsWith (Function.update values e.1 e.2) schema.metrics := by
  obtain ⟨before, after, hmetrics, hoffset, hname⟩ := exists_split_of_positionFrom h.position_eq
  have hmem : placement.metric ∈ schema.metrics := by simp [hmetrics]
  have hwidth : placement.metric.kind.width ≤ 32 := MetricKind.width_le (isSupported_of_mem hmem)
  have hothers : ∀ m ∈ before ++ after, m.name ≠ e.1 := by
    have hnodup := schema.nodup_names
    rw [hmetrics, List.map_append, List.map_cons, List.nodup_middle, List.nodup_cons, hname,
      ← List.map_append] at hnodup
    exact fun m hm heq => hnodup.1 (heq ▸ List.mem_map_of_mem hm)
  have hbefore : ∀ m ∈ before, m.name ≠ e.1 := fun m hm =>
    hothers m (List.mem_append_left _ hm)
  have hafter : ∀ m ∈ after, m.name ≠ e.1 := fun m hm =>
    hothers m (List.mem_append_right _ hm)
  have hsplit : slots.toList = slotsWith values before ++
      slotsOf placement.metric.kind.width (values e.1) ++ slotsWith values after := by
    rw [hslots, hmetrics, slotsWith_append, slotsWith_cons, hname, List.append_assoc]
  have hfirst : placement.offset = (slotsWith values before).length := by
    rw [hoffset, length_slotsWith, Nat.zero_add]
  have hrange : placement.metric.kind.width =
      (slotsOf placement.metric.kind.width (values e.1)).length := (length_slotsOf _ _).symm
  have hroom : placement.offset + placement.metric.kind.width ≤ slots.size := by
    rw [← Array.length_toList, hsplit, List.length_append, List.length_append, ← hfirst, ← hrange]
    exact Nat.le_add_right _ _
  refine ⟨_, if_pos hroom, ?_⟩
  have hwritten := Transform.toList_write hsplit fun i =>
    placement.bit (placement.metric.kind.width - 1 - i)
  rw [← hrange, ← hfirst, Placement.map_bit (by omega)] at hwritten
  rw [hwritten, hmetrics, slotsWith_append, slotsWith_cons, hname, slotsWith_update _ hbefore,
    slotsWith_update _ hafter, Function.update_self, h.value_eq, List.append_assoc]

/-- Entries with an unknown name are not located. -/
theorem locate_of_unknown {entries : List (String × UInt64)} {e : String × UInt64}
    (h : schema.firstUnknown? entries = some e) :
    schema.locate entries = .error (.unknownMetric e.1) := by
  induction entries with
  | nil => cases h
  | cons e' entries ih =>
    rw [firstUnknown?, List.find?_cons] at h
    rw [locate]
    cases hposition : schema.position? e'.1 with
    | none =>
      rw [hposition] at h
      cases h
      rfl
    | some p =>
      rw [hposition] at h
      dsimp only
      rw [ih h]
      rfl

/-- Entries with known names are located. -/
theorem exists_locate {entries : List (String × UInt64)}
    (h : schema.firstUnknown? entries = none) :
    ∃ placements, schema.locate entries = .ok placements ∧
      List.Forall₂ schema.Places entries placements := by
  induction entries with
  | nil => exact ⟨[], rfl, .nil⟩
  | cons e entries ih =>
    rw [firstUnknown?, List.find?_cons] at h
    rw [locate]
    cases hposition : schema.position? e.1 with
    | none =>
      rw [hposition] at h
      cases h
    | some p =>
      rw [hposition] at h
      obtain ⟨placements, hlocate, hplaces⟩ := ih h
      dsimp only
      rw [hlocate]
      exact ⟨_, rfl, .cons ⟨rfl, rfl, hposition⟩ hplaces⟩

/-- The values of entries, and of others for names without an entry. -/
def valuesOver (values : String → UInt64) (entries : List (String × UInt64)) (name : String) :
    UInt64 :=
  match entries.find? fun e => e.1 = name with
  | some e => e.2
  | none => values name

/-- An entry of a name that does not come again can be counted first. -/
theorem valuesOver_update {e : String × UInt64} {entries : List (String × UInt64)}
    (h : ∀ e' ∈ entries, e'.1 ≠ e.1) :
    valuesOver (Function.update values e.1 e.2) entries = valuesOver values (e :: entries) := by
  funext name
  unfold valuesOver
  rw [List.find?_cons]
  by_cases hname : e.1 = name
  · have hnone : (entries.find? fun e' => e'.1 = name) = none := by
      rw [List.find?_eq_none]
      intro e' he'
      simpa [← hname] using h e' he'
    rw [hnone]
    simp [hname]
  · simp [hname, Function.update_of_ne (Ne.symm hname)]

/-- The walk over placements is refused for the first value that is too great, and otherwise gives
every metric the value of its entry. -/
theorem writeAll?_eq {entries : List (String × UInt64)} {placements : List Placement}
    (hplaces : List.Forall₂ schema.Places entries placements)
    (hsorted : entries.Pairwise fun a b => a.1 < b.1) {slots : Array Residue}
    (hslots : slots.toList = slotsWith values schema.metrics) :
    ∃ outcome, Placement.writeAll? slots placements = some outcome ∧ outcome.map Array.toList =
      match entries.find? schema.exceeds with
      | some e => .error (.outOfRange e.1 e.2)
      | none => .ok (slotsWith (valuesOver values entries) schema.metrics) := by
  induction hplaces generalizing values slots with
  | nil => exact ⟨.ok slots, rfl, congrArg Except.ok hslots⟩
  | @cons e placement entries placements hplace _ ih =>
    obtain ⟨hfirst, hrest⟩ := List.pairwise_cons.mp hsorted
    have hothers : ∀ e' ∈ entries, e'.1 ≠ e.1 := fun e' he' heq =>
      String.lt_irrefl _ (heq ▸ hfirst e' he')
    have hexceeds : schema.exceeds e =
        decide (placement.metric.kind.maxValue < placement.value) := by
      rw [exceeds, hplace.position_eq, hplace.value_eq]
    rw [Placement.writeAll?, List.find?_cons, hexceeds]
    by_cases hgreat : placement.metric.kind.maxValue < placement.value
    · rw [if_pos hgreat, decide_eq_true hgreat, hplace.name_eq, hplace.value_eq]
      exact ⟨_, rfl, rfl⟩
    · obtain ⟨written, hwrite, hwritten⟩ := hplace.writeTo?_eq hslots
      obtain ⟨outcome, hrun, houtcome⟩ := ih hrest hwritten
      rw [if_neg hgreat, decide_eq_false hgreat, hwrite, ← valuesOver_update hothers]
      exact ⟨outcome, hrun, houtcome⟩

/-- What is written in place are the slots of the measurements, and every slot that is written is
there. -/
theorem encodeInPlace?_eq (schema : Schema) (measurements : Measurements) :
    schema.encodeInPlace? measurements = some (schema.encode measurements) := by
  unfold encodeInPlace? encode measurementFault?
  cases hunknown : schema.firstUnknown? measurements.entries with
  | some e => rw [locate_of_unknown hunknown]
  | none =>
    obtain ⟨placements, hlocate, hplaces⟩ := exists_locate hunknown
    have hzeros : (Array.replicate schema.dimension (0 : Residue)).toList =
        slotsWith (fun _ => 0) schema.metrics := by
      rw [Array.toList_replicate, slotsWith_zero, dimension]
    obtain ⟨outcome, hwritten, houtcome⟩ := writeAll?_eq hplaces measurements.sorted hzeros
    rw [hlocate]
    dsimp only
    rw [hwritten, Option.bind_eq_bind, Option.bind_some, houtcome]
    cases measurements.entries.find? schema.exceeds <;> rfl

end Schema

end SplitTally
