import Mathlib.Data.List.Sort
import SplitTally.Proofs.Assignments
import SplitTally.Proofs.Placements
import SplitTally.Proofs.SlotSums

/-!
# Bit vectors and measurements

Measurements are written as bits and read back by walks of their own, which agree on the slots of
every metric. The bits of a metric hold one number of as many bits, so every vector of bits comes
from exactly one set of measurements that has a value for each metric.
-/

namespace SplitTally

namespace Measurements

/-- An entry holds the value of its name. -/
theorem value_of_mem {measurements : Measurements} {e : String × UInt64}
    (h : e ∈ measurements.entries) : measurements.value e.1 = e.2 := by
  unfold value
  split
  · next e' hfound =>
    have hname : e'.1 = e.1 := by simpa using List.find?_some hfound
    rw [eq_of_fst_eq (List.mem_of_find?_eq_some hfound) h hname]
  · next hnone => exact absurd (decide_eq_true rfl) (List.find?_eq_none.mp hnone e h)

/-- Measurements are determined by their entries, whatever the order in which these are found. -/
theorem eq_of_mem_iff {measurements measurements' : Measurements}
    (h : ∀ e, e ∈ measurements.entries ↔ e ∈ measurements'.entries) :
    measurements = measurements' := by
  let before (a b : String × UInt64) := a.1 < b.1
  have hirrefl : Std.Irrefl before := ⟨fun a => String.lt_irrefl a.1⟩
  have hantisymm : Std.Antisymm before :=
    ⟨fun a b hab hba => absurd (String.lt_trans hab hba) (String.lt_irrefl a.1)⟩
  obtain ⟨entries, hsorted⟩ := measurements
  obtain ⟨entries', hsorted'⟩ := measurements'
  obtain rfl : entries = entries' := List.Pairwise.eq_of_mem_iff (r := before) hsorted hsorted' h
  rfl

end Measurements

namespace Schema

/-! ### The bits of a number -/

/-- The last slot of a value is its last binary digit. -/
theorem slotsOf_succ {width : ℕ} {value half : UInt64} (h : value.toNat / 2 = half.toNat) :
    slotsOf (width + 1) value = slotsOf width half ++ [if value.toNat % 2 = 1 then 1 else 0] := by
  unfold slotsOf
  rw [List.range_succ, List.map_append, List.map_singleton]
  congr 1
  · refine List.map_congr_left fun i hi => ?_
    have hexponent : width + 1 - 1 - i = width - 1 - i + 1 := by
      have := List.mem_range.mp hi
      omega
    rw [hexponent, Nat.testBit_succ, h]
  · rw [Nat.add_sub_cancel, Nat.sub_self, Nat.testBit_zero]
    simp only [decide_eq_true_eq]

/-- Bits are the slots of the number that they hold. -/
theorem slotsOf_total {bits : List Residue} (hbits : ∀ x ∈ bits, x = 0 ∨ x = 1)
    (hlength : bits.length ≤ 64) :
    (total (bits.map Residue.word)).toNat < 2 ^ bits.length ∧
      slotsOf bits.length (total (bits.map Residue.word)) = bits := by
  induction bits using List.reverseRecOn with
  | nil => exact ⟨by decide, rfl⟩
  | append_singleton bits x ih =>
    rw [List.length_append, List.length_singleton] at hlength ⊢
    obtain ⟨hlt, hslots⟩ := ih (fun y hy => hbits y (List.mem_append_left _ hy)) (by omega)
    have hnext := toNat_total_append (bits.map Residue.word) x.word
    rw [List.map_append, List.map_singleton]
    have hx := hbits x (List.mem_append_right _ (List.mem_singleton_self x))
    generalize total (bits.map Residue.word) = half at hlt hslots hnext
    generalize total (bits.map Residue.word ++ [x.word]) = value at hnext ⊢
    have hpow : 2 ^ (bits.length + 1) ≤ 2 ^ 64 := Nat.pow_le_pow_right (by decide) hlength
    have hdouble : 2 ^ (bits.length + 1) = 2 * 2 ^ bits.length := Nat.pow_succ'
    have hbit : x.toNat ≤ 1 := by
      rcases hx with rfl | rfl <;> decide
    have hvalue : value.toNat = 2 * half.toNat + x.toNat := by
      rw [hnext, Residue.toNat_word]
      omega
    have hhalf : value.toNat / 2 = half.toNat := by omega
    refine ⟨by omega, ?_⟩
    rw [slotsOf_succ hhalf, hslots, hvalue]
    congr 2
    rcases hx with rfl | rfl
    · rw [Residue.toNat_zero, if_neg (by omega)]
    · rw [Residue.toNat_one, if_pos (by omega)]

/-- Bits are the slots of metrics with some values, which are small enough for them. -/
theorem exists_slotsWith_eq {metrics : List Metric} (hnames : (metrics.map Metric.name).Nodup)
    (hwidth : ∀ m ∈ metrics, m.kind.width ≤ 32) {xs : List Residue}
    (hlength : xs.length = totalWidth metrics) (hbits : ∀ x ∈ xs, x = 0 ∨ x = 1) :
    ∃ values : String → UInt64, slotsWith values metrics = xs ∧
      ∀ m ∈ metrics, (values m.name).toNat < 2 ^ m.kind.width := by
  induction metrics generalizing xs with
  | nil =>
    obtain rfl : xs = [] := List.eq_nil_of_length_eq_zero hlength
    exact ⟨fun _ => 0, rfl, fun m hm => absurd hm List.not_mem_nil⟩
  | cons m metrics ih =>
    rw [List.map_cons, List.nodup_cons] at hnames
    rw [List.forall_mem_cons] at hwidth
    have hall : totalWidth (m :: metrics) = m.kind.width + totalWidth metrics := rfl
    have htake : (xs.take m.kind.width).length = m.kind.width := by
      rw [List.length_take]
      omega
    have hdrop : (xs.drop m.kind.width).length = totalWidth metrics := by
      rw [List.length_drop]
      omega
    obtain ⟨values, hvalues, hsmall⟩ := ih hnames.2 hwidth.2 hdrop
      fun x hx => hbits x (List.mem_of_mem_drop hx)
    obtain ⟨hlt, hslots⟩ := slotsOf_total (fun x hx => hbits x (List.mem_of_mem_take hx))
      (show (xs.take m.kind.width).length ≤ 64 by omega)
    rw [htake] at hlt hslots
    have hothers : ∀ m' ∈ metrics, m'.name ≠ m.name := fun m' hm' heq =>
      hnames.1 (heq ▸ List.mem_map_of_mem hm')
    refine ⟨Function.update values m.name (total ((xs.take m.kind.width).map Residue.word)),
      ?_, List.forall_mem_cons.mpr ⟨?_, fun m' hm' => ?_⟩⟩
    · rw [slotsWith_cons, Function.update_self, hslots, slotsWith_update _ hothers, hvalues,
        List.take_append_drop]
    · rwa [Function.update_self]
    · rw [Function.update_of_ne (hothers m' hm')]
      exact hsmall m' hm'

/-! ### The measurements of a vector -/

variable {schema : Schema} {measurements measurements' : Measurements} {xs : List Residue}

/-- Measurements fit a schema when every entry is of a metric that allows its value. -/
theorem fits_iff : schema.Fits measurements ↔ ∀ e ∈ measurements.entries,
    ∃ m ∈ schema.metrics, m.name = e.1 ∧ e.2 ≤ m.kind.maxValue := by
  constructor
  · intro hfits e he
    obtain ⟨m, hm, hname⟩ := hfits.known e he
    have hbounded : ¬ m.kind.maxValue < e.2 := fun hlt => hfits.bounded e he ⟨m, hm, hname, hlt⟩
    exact ⟨m, hm, hname, UInt64.not_lt.mp hbounded⟩
  · intro h
    refine ⟨fun e he => ?_, fun e he => ?_⟩
    · obtain ⟨m, hm, hname, -⟩ := h e he
      exact ⟨m, hm, hname⟩
    · rintro ⟨m', hm', hname', hlt⟩
      obtain ⟨m, hm, hname, hle⟩ := h e he
      obtain rfl := eq_of_name_eq hm hm' (hname.trans hname'.symm)
      exact UInt64.not_lt.mpr hle hlt

/-- Every metric of the schema has an entry. -/
def NamesAll (schema : Schema) (measurements : Measurements) : Prop :=
  ∀ m ∈ schema.metrics, ∃ e ∈ measurements.entries, e.1 = m.name

/-- An entry that fits is one of all measurements of all metrics that agree on the values. -/
theorem NamesAll.mem (hall : schema.NamesAll measurements) (hfits : schema.Fits measurements')
    (hvalue : ∀ m ∈ schema.metrics, measurements.value m.name = measurements'.value m.name)
    {e : String × UInt64} (he : e ∈ measurements'.entries) : e ∈ measurements.entries := by
  obtain ⟨m, hm, hname⟩ := hfits.known e he
  obtain ⟨e', he', hname'⟩ := hall m hm
  have hsame : e' = e := by
    refine Prod.ext (hname'.trans hname) ?_
    rw [← Measurements.value_of_mem he', ← Measurements.value_of_mem he, hname', ← hname,
      hvalue m hm]
  exact hsame ▸ he'

/-- Measurements of all metrics are determined by their slots. -/
theorem eq_of_encode (hall : schema.NamesAll measurements) (hall' : schema.NamesAll measurements')
    (h : schema.encode measurements = .ok xs) (h' : schema.encode measurements' = .ok xs) :
    measurements = measurements' := by
  have hdecoded := Except.ok.inj ((decodeSums_of_encode h).symm.trans (decodeSums_of_encode h'))
  have hvalue : ∀ m ∈ schema.metrics, measurements.value m.name = measurements'.value m.name := by
    intro m hm
    exact (Prod.mk.inj (List.map_inj_left.mp hdecoded m hm)).2
  refine Measurements.eq_of_mem_iff fun e => ⟨fun he => ?_, fun he => ?_⟩
  · exact hall'.mem (fits_of_encode h) (fun m hm => (hvalue m hm).symm) he
  · exact hall.mem (fits_of_encode h') hvalue he

/-- Every vector of bits holds the slots of measurements of all metrics. -/
theorem exists_encode_eq (hlength : xs.length = schema.dimension)
    (hbits : ∀ x ∈ xs, x = 0 ∨ x = 1) :
    ∃ measurements, schema.NamesAll measurements ∧ schema.encode measurements = .ok xs := by
  obtain ⟨values, rfl, hsmall⟩ := exists_slotsWith_eq schema.nodup_names
    (fun m hm => MetricKind.width_le (isSupported_of_mem hm)) hlength hbits
  let pairs := schema.metrics.map fun m => (m.name, values m.name)
  have hnames : pairs.map Prod.fst = schema.metrics.map Metric.name := by simp [pairs]
  have hentries : (Measurements.ofList pairs).entries.Perm pairs :=
    Measurements.perm_entries_ofList (hnames ▸ schema.nodup_names)
  have hentry : ∀ m ∈ schema.metrics,
      (m.name, values m.name) ∈ (Measurements.ofList pairs).entries := fun m hm =>
    hentries.mem_iff.mpr (List.mem_map_of_mem hm)
  have hfits : schema.Fits (Measurements.ofList pairs) := by
    refine fits_iff.mpr fun e he => ?_
    obtain ⟨m, hm, rfl⟩ := List.mem_map.mp (hentries.mem_iff.mp he)
    have hmax := MetricKind.toNat_maxValue (MetricKind.width_le (isSupported_of_mem hm))
    have hle : (values m.name).toNat ≤ m.kind.maxValue.toNat := by
      have := hsmall m hm
      omega
    exact ⟨m, hm, rfl, UInt64.le_iff_toNat_le.mpr hle⟩
  refine ⟨_, fun m hm => ⟨_, hentry m hm, rfl⟩, (encode_of_fits hfits).trans ?_⟩
  refine congrArg Except.ok (List.flatMap_congr fun m hm => ?_)
  rw [Measurements.value_of_mem (hentry m hm)]

/-- Written in place, and with every slot there that is written, measurements are accepted exactly
when each of them is of a metric that allows its value. Then there is a bit for each slot, and the
slots decode to the values of the metrics in the order of the schema, zero for those that were not
measured. And every vector of bits comes from exactly one set of measurements of all metrics. -/
theorem bijective_encodeInPlace (schema : Schema) :
    (∀ measurements, ∃ outcome, schema.encodeInPlace? measurements = some outcome ∧
      ((∃ xs, outcome = .ok xs) ↔ ∀ e ∈ measurements.entries,
        ∃ m ∈ schema.metrics, m.name = e.1 ∧ e.2 ≤ m.kind.maxValue) ∧
      ∀ xs, outcome = .ok xs → xs.length = schema.dimension ∧ (∀ x ∈ xs, x = 0 ∨ x = 1) ∧
        schema.decodeSums (xs.map Residue.word) =
          .ok (schema.metrics.map fun m => (m.name, measurements.value m.name))) ∧
    ∀ xs : List Residue, xs.length = schema.dimension → (∀ x ∈ xs, x = 0 ∨ x = 1) →
      ∃! measurements, schema.NamesAll measurements ∧
        schema.encodeInPlace? measurements = some (.ok xs) := by
  constructor
  · intro measurements
    refine ⟨_, encodeInPlace?_eq schema measurements, ?_, fun xs hxs =>
      ⟨length_encode hxs, bits_of_encode hxs, decodeSums_of_encode hxs⟩⟩
    rw [← fits_iff]
    exact ⟨fun ⟨xs, hxs⟩ => fits_of_encode hxs, fun hfits => ⟨_, encode_of_fits hfits⟩⟩
  · intro xs hlength hbits
    obtain ⟨measurements, hall, hencode⟩ := exists_encode_eq hlength hbits
    refine ⟨measurements, ⟨hall, by rw [encodeInPlace?_eq, hencode]⟩, ?_⟩
    rintro measurements' ⟨hall', hwritten⟩
    rw [encodeInPlace?_eq, Option.some_inj] at hwritten
    exact eq_of_encode hall' hall hwritten hencode

/-- The bits one, zero and one come from exactly one set of measurements of all browser metrics. -/
theorem bijective_encodeInPlace_browser :
    [(1 : Residue), 0, 1].length = browser.dimension ∧
    (∀ x ∈ [(1 : Residue), 0, 1], x = 0 ∨ x = 1) ∧
    ∃! measurements, browser.NamesAll measurements ∧
      browser.encodeInPlace? measurements = some (.ok [1, 0, 1]) := by
  have hlength : [(1 : Residue), 0, 1].length = browser.dimension := rfl
  have hbits : ∀ x ∈ [(1 : Residue), 0, 1], x = 0 ∨ x = 1 := by
    simp only [List.forall_mem_cons, true_or, or_true, true_and]
    exact fun _ h => absurd h List.not_mem_nil
  exact ⟨hlength, hbits, (bijective_encodeInPlace browser).2 _ hlength hbits⟩

end Schema

end SplitTally
