import SplitTally.Proofs.SlotSums

/-!
# Decoded sums

The total of a metric is the sum of its slots, each with the weight of its position, modulo `2 ^
64`: the shift drops the highest bit and the sum wraps around, and neither is more than a reduction.
So totals add up as the slots do, whatever words these are. Sums of residues are below the modulus,
and with 32 slots of them the total of a metric still fits in a word.
-/

namespace SplitTally

open Finset

namespace Schema

/-- The number in the `width` slots from `first` on: their sum, where each of them weighs twice as
much as the next one and the last one weighs one. -/
def weightedSum (slots : List UInt64) (first width : ℕ) : ℕ :=
  ∑ j ∈ range width, (slots.getD (first + j) 0).toNat * 2 ^ (width - 1 - j)

/-- The offset of the first slot of the `i`-th metric: the slots of all metrics in front of it. -/
def offset (schema : Schema) (i : ℕ) : ℕ := totalWidth (schema.metrics.take i)

variable {slots slots' : List UInt64} {first width : ℕ}

/-- One more slot doubles what the others weigh. -/
theorem weightedSum_succ (slots : List UInt64) (first width : ℕ) :
    weightedSum slots first (width + 1) =
      2 * weightedSum slots first width + (slots.getD (first + width) 0).toNat := by
  rw [weightedSum, sum_range_succ, weightedSum, mul_sum]
  congr 1
  · refine sum_congr rfl fun j hj => ?_
    have hweight : width + 1 - 1 - j = width - 1 - j + 1 := by
      have := mem_range.mp hj
      omega
    rw [hweight, pow_succ]
    ring
  · simp

/-- Slots that are below the modulus weigh less than the modulus does in all of their positions. -/
theorem weightedSum_le (h : ∀ s ∈ slots, s.toNat < modulus) (first width : ℕ) :
    weightedSum slots first width ≤ (modulus - 1) * (2 ^ width - 1) := by
  induction width with
  | zero => exact Nat.zero_le _
  | succ width ih =>
    have hslot : (slots.getD (first + width) 0).toNat ≤ modulus - 1 := by
      rw [List.getD_eq_getElem?_getD]
      cases hfound : slots[first + width]? with
      | none => exact Nat.zero_le _
      | some s => exact Nat.le_sub_one_of_lt (h s (List.mem_of_getElem? hfound))
    have hpow : 2 ^ (width + 1) - 1 = 2 * (2 ^ width - 1) + 1 := by
      have := Nat.two_pow_pos width
      rw [pow_succ]
      omega
    calc weightedSum slots first (width + 1)
        = 2 * weightedSum slots first width + (slots.getD (first + width) 0).toNat :=
          weightedSum_succ slots first width
      _ ≤ 2 * ((modulus - 1) * (2 ^ width - 1)) + (modulus - 1) := by omega
      _ = (modulus - 1) * (2 ^ (width + 1) - 1) := by rw [hpow]; ring

/-! ### The total of one metric -/

/-- The total of the slots in a window is their weighted sum, reduced to a word. -/
theorem toNat_total_window (h : first + width ≤ slots.length) :
    (total ((slots.drop first).take width)).toNat = weightedSum slots first width % 2 ^ 64 := by
  induction width with
  | zero => rfl
  | succ width ih =>
    have hinside : width < (slots.drop first).length := by
      rw [List.length_drop]
      omega
    have hlast : (slots.drop first)[width] = slots.getD (first + width) 0 := by
      simp [show first + width < slots.length by omega]
    rw [List.take_succ_eq_append_getElem hinside, toNat_total_append, ih (by omega), hlast,
      weightedSum_succ]
    omega

/-- Totals of slots add up as the slots do. -/
theorem total_zipWith_add (h : slots.length = slots'.length) :
    total (List.zipWith (· + ·) slots slots') = total slots + total slots' := by
  induction slots using List.reverseRecOn generalizing slots' with
  | nil =>
    obtain rfl := List.eq_nil_of_length_eq_zero h.symm
    rfl
  | append_singleton slots s ih =>
    rcases List.eq_nil_or_concat' slots' with rfl | ⟨slots', s', rfl⟩
    · simp at h
    · have hlength : slots.length = slots'.length := by simpa using h
      have hshift : (total slots + total slots') <<< 1 =
          (total slots <<< 1) + (total slots' <<< 1) :=
        UInt64.toBitVec_inj.mp (by simp [BitVec.shiftLeft_add_distrib])
      rw [List.zipWith_append hlength, List.zipWith_cons_cons, List.zipWith_nil_left, total_append,
        total_append, total_append, ih hlength, hshift]
      ac_rfl

/-! ### The totals of all metrics -/

/-- Every metric gets the total of the slots that the metrics in front of it have left. -/
theorem totalsOnto_eq (done : List (String × UInt64)) (metrics : List Metric)
    (slots : List UInt64) :
    totalsOnto done metrics slots = done.reverse ++ metrics.mapIdx fun i m =>
      (m.name, total ((slots.drop (totalWidth (metrics.take i))).take m.kind.width)) := by
  induction metrics generalizing done slots with
  | nil => simp [totalsOnto]
  | cons m metrics ih =>
    have hoffset (i : ℕ) : totalWidth ((m :: metrics).take (i + 1)) =
        m.kind.width + totalWidth (metrics.take i) := rfl
    rw [totalsOnto, ih, List.mapIdx_cons]
    simp only [hoffset, List.drop_drop, List.reverse_cons, List.append_assoc,
      List.singleton_append]
    rfl

variable {schema : Schema}

/-- Sums are decoded if they are as many as the slots, each metric from its own slots. -/
theorem decodeSums_eq_ok_iff {totals : List (String × UInt64)} :
    schema.decodeSums slots = .ok totals ↔ slots.length = schema.dimension ∧
      totals = schema.metrics.mapIdx fun i m =>
        (m.name, total ((slots.drop (schema.offset i)).take m.kind.width)) := by
  unfold decodeSums
  rw [totalsOnto_eq]
  by_cases h : slots.length = schema.dimension
  · simp [h, eq_comm, offset]
  · simp [h]

/-- Sums are refused only if they are not as many as the slots. -/
theorem decodeSums_eq_error_iff {cause : SchemaError} :
    schema.decodeSums slots = .error cause ↔ slots.length ≠ schema.dimension ∧
      cause = .dimensionMismatch schema.dimension slots.length := by
  unfold decodeSums
  by_cases h : slots.length = schema.dimension
  · simp [h]
  · simp [h, eq_comm]

/-- The slots of every metric are among those of the schema. -/
theorem offset_add_width_le {i : ℕ} (hi : i < schema.metrics.length) :
    schema.offset i + schema.metrics[i].kind.width ≤ schema.dimension := by
  have hsplit : schema.metrics = schema.metrics.take i ++ schema.metrics[i] ::
      schema.metrics.drop (i + 1) := by simp
  have hwidth : schema.dimension = schema.offset i + (schema.metrics[i].kind.width +
      totalWidth (schema.metrics.drop (i + 1))) := by
    rw [dimension, offset]
    conv_lhs => rw [hsplit]
    simp only [totalWidth, List.map_append, List.map_cons, List.sum_append, List.sum_cons]
  omega

/-- The totals are the weighted sums of the slots of the metrics, reduced to words. -/
theorem toNat_decodeSums {totals : List (String × UInt64)}
    (h : schema.decodeSums slots = .ok totals) :
    (totals.map fun t => (t.1, t.2.toNat)) = schema.metrics.mapIdx fun i m =>
      (m.name, weightedSum slots (schema.offset i) m.kind.width % 2 ^ 64) := by
  obtain ⟨hlength, rfl⟩ := decodeSums_eq_ok_iff.mp h
  refine List.ext_getElem (by simp) fun i _ hi => ?_
  have hi : i < schema.metrics.length := by simpa using hi
  have hwindow := (offset_add_width_le hi).trans_eq hlength.symm
  simp [toNat_total_window hwindow]

/-- A metric of at most 32 slots that are below the modulus has a total that fits in a word. -/
theorem weightedSum_lt (h : ∀ s ∈ slots, s.toNat < modulus) {m : Metric}
    (hm : m ∈ schema.metrics) : weightedSum slots first m.kind.width < 2 ^ 64 := by
  have hwidth : m.kind.width ≤ 32 := MetricKind.width_le (isSupported_of_mem hm)
  have hpow : 2 ^ m.kind.width ≤ 2 ^ 32 := Nat.pow_le_pow_right (by decide) hwidth
  calc weightedSum slots first m.kind.width
      ≤ (modulus - 1) * (2 ^ m.kind.width - 1) := weightedSum_le h first m.kind.width
    _ ≤ (modulus - 1) * (2 ^ 32 - 1) := Nat.mul_le_mul_left _ (Nat.sub_le_sub_right hpow 1)
    _ < 2 ^ 64 := by decide

/-- Decoding the sums of two lists of slots adds up the totals of every metric. -/
theorem decodeSums_zipWith_add {totals totals' : List (String × UInt64)}
    (h : schema.decodeSums slots = .ok totals) (h' : schema.decodeSums slots' = .ok totals') :
    schema.decodeSums (List.zipWith (· + ·) slots slots') =
      .ok (List.zipWith (fun t t' => (t.1, t.2 + t'.2)) totals totals') := by
  obtain ⟨hlength, rfl⟩ := decodeSums_eq_ok_iff.mp h
  obtain ⟨hlength', rfl⟩ := decodeSums_eq_ok_iff.mp h'
  refine decodeSums_eq_ok_iff.mpr ⟨by simp [hlength, hlength'], ?_⟩
  refine List.ext_getElem (by simp) fun i hi _ => ?_
  have hi : i < schema.metrics.length := by simpa using hi
  have hwindows : ((slots.drop (schema.offset i)).take schema.metrics[i].kind.width).length =
      ((slots'.drop (schema.offset i)).take schema.metrics[i].kind.width).length := by
    simp [hlength, hlength']
  simp [← total_zipWith_add hwindows, List.take_zipWith, List.drop_zipWith]

/-- The sums that are reconstructed from the totals of both servers are below the modulus. -/
theorem lt_modulus_of_reconstructTotals {a b : List Residue} {sums : List UInt64}
    (h : reconstructTotals a b = .ok sums) : ∀ s ∈ sums, s.toNat < modulus := by
  unfold reconstructTotals at h
  cases hmerge : Residue.merge a b with
  | error cause =>
    rw [hmerge] at h
    cases h
  | ok total =>
    rw [hmerge] at h
    cases h
    intro s hs
    obtain ⟨r, -, rfl⟩ := List.mem_map.mp hs
    exact r.word_lt

/-- Decoding fails exactly for a list of another length than the schema has slots. Otherwise the
total of every metric, in the order of the schema, is the weighted sum of its slots modulo `2 ^ 64`,
for any words, and decoding a sum of lists adds up their totals. The weighted sum fits in a word if
the slots are below the modulus, as all sums are that are reconstructed from totals. -/
theorem weighted_additive_decodeSums (schema : Schema) :
    (∀ slots cause, schema.decodeSums slots = .error cause ↔ slots.length ≠ schema.dimension ∧
      cause = .dimensionMismatch schema.dimension slots.length) ∧
    (∀ slots totals, schema.decodeSums slots = .ok totals →
      (totals.map fun t => (t.1, t.2.toNat)) = schema.metrics.mapIdx fun i m =>
        (m.name, weightedSum slots (schema.offset i) m.kind.width % 2 ^ 64)) ∧
    (∀ slots slots' totals totals', schema.decodeSums slots = .ok totals →
      schema.decodeSums slots' = .ok totals' →
      schema.decodeSums (List.zipWith (· + ·) slots slots') =
        .ok (List.zipWith (fun t t' => (t.1, t.2 + t'.2)) totals totals')) ∧
    (∀ slots totals, schema.decodeSums slots = .ok totals → (∀ s ∈ slots, s.toNat < modulus) →
      (totals.map fun t => (t.1, t.2.toNat)) = schema.metrics.mapIdx fun i m =>
        (m.name, weightedSum slots (schema.offset i) m.kind.width)) ∧
    ∀ a b sums, reconstructTotals a b = .ok sums → ∀ s ∈ sums, s.toNat < modulus := by
  refine ⟨fun slots cause => decodeSums_eq_error_iff, fun slots totals => toNat_decodeSums,
    fun slots slots' totals totals' => decodeSums_zipWith_add, fun slots totals h hsmall => ?_,
    fun a b sums => lt_modulus_of_reconstructTotals⟩
  rw [toNat_decodeSums h, List.mapIdx_eq_mapIdx_iff]
  intro i hi
  rw [Nat.mod_eq_of_lt (weightedSum_lt hsmall (List.getElem_mem hi))]

/-- A flag behind a number of 32 bits. -/
def flagged : Schema where
  metrics := [⟨"number", .integer 32⟩, ⟨"flag", .boolean⟩]
  faultless := by
    simp [fault?, metricFault?, MetricKind.isSupported, totalWidth, MetricKind.width, maxDimension,
      Roots.groupOrder]

/-- Slots of the greatest residue, which just fit, and slots whose weighted sum wraps around. -/
theorem weighted_additive_decodeSums_flagged :
    let greatest : List UInt64 := List.replicate 33 4293918720
    let wrapping : List UInt64 := 8589934593 :: List.replicate 31 0 ++ [7]
    (∀ s ∈ greatest, s.toNat < modulus) ∧
    (∃ cause, flagged.decodeSums [1, 2] = .error cause) ∧
    ∃ totals totals', flagged.decodeSums greatest = .ok totals ∧
      flagged.decodeSums wrapping = .ok totals' ∧
      (totals.map fun t => (t.1, t.2.toNat)) =
        [("number", 4293918720 * (2 ^ 32 - 1)), ("flag", 4293918720)] ∧
      (totals'.map fun t => (t.1, t.2.toNat)) = [("number", 2 ^ 31), ("flag", 7)] ∧
      flagged.decodeSums (List.zipWith (· + ·) greatest wrapping) =
        .ok (List.zipWith (fun t t' => (t.1, t.2 + t'.2)) totals totals') ∧
      ∃ sums, reconstructTotals [5, 4293918720] [6, 4293918720] = .ok sums ∧
        ∀ s ∈ sums, s.toNat < modulus := by
  intro greatest wrapping
  have hsmall : ∀ s ∈ greatest, s.toNat < modulus := fun s hs => by
    rw [List.eq_of_mem_replicate hs]
    decide
  obtain ⟨herror, hweighted, hadd, hexact, hsums⟩ := weighted_additive_decodeSums flagged
  have htotals := decodeSums_eq_ok_iff.mpr ⟨show greatest.length = flagged.dimension from rfl, rfl⟩
  have htotals' := decodeSums_eq_ok_iff.mpr ⟨show wrapping.length = flagged.dimension from rfl, rfl⟩
  refine ⟨hsmall, ⟨_, (herror [1, 2] _).mpr ⟨by decide, rfl⟩⟩, _, _, htotals, htotals', ?_, ?_,
    hadd _ _ _ _ htotals htotals', _, rfl,
    hsums [5, 4293918720] [6, 4293918720] _ rfl⟩
  · rw [hexact _ _ htotals hsmall]
    decide +kernel
  · rw [hweighted _ _ htotals']
    decide +kernel

end Schema

end SplitTally
