import Mathlib.Algebra.BigOperators.Fin
import Mathlib.Data.List.GetD
import SplitTally.Proofs.SharePolynomials
import SplitTally.Proofs.Slots

/-!
# Sums of slots

The slots of a metric are the bits of its values, so the sums of the slots over many measurements
weigh as much as the sum of the values. A sum of fewer bits than the modulus does not wrap around as
a residue, and that of as many values of at most 32 bits does not wrap around as a word: the totals
of the metrics are exact.
-/

namespace SplitTally

open Finset

namespace Residue

/-- The representative of a sum is that of the sum of the representatives. -/
theorem toNat_sum {ι : Type*} (s : Finset ι) (f : ι → Residue) :
    (∑ i ∈ s, f i).toNat = (∑ i ∈ s, (f i).toNat) % modulus := by
  have hsum : (∑ i ∈ s, f i).toZMod = ((∑ i ∈ s, (f i).toNat : ℕ) : ZMod modulus) := by
    rw [Nat.cast_sum]
    exact map_sum toZModHom f s
  rw [← val_toZMod, hsum, ZMod.val_natCast]

/-- The sum of fewer bits than the modulus does not wrap around. -/
theorem toNat_sum_of_bits {n : ℕ} (hn : n < modulus) {f : Fin n → Residue}
    (hbits : ∀ i, f i = 0 ∨ f i = 1) : (∑ i, f i).toNat = ∑ i, (f i).toNat := by
  have hle : ∑ i, (f i).toNat ≤ n := by
    calc ∑ i, (f i).toNat ≤ ∑ _i : Fin n, 1 := sum_le_sum fun i _ => by
          rcases hbits i with h | h <;> simp [h, toNat_zero, toNat_one]
      _ = n := by simp
  rw [toNat_sum, Nat.mod_eq_of_lt (hle.trans_lt hn)]

/-- The sums of the entries of vectors at the first `d` positions. -/
def slotSums (d : ℕ) (vectors : List (List Residue)) : List Residue :=
  (List.range d).map fun j => (vectors.map fun xs => xs.getD j 0).sum

variable {d n : ℕ}

/-- The sums have so many slots, whatever is added. -/
theorem length_slotSums (d : ℕ) (vectors : List (List Residue)) :
    (slotSums d vectors).length = d := by
  simp [slotSums]

/-- Nothing adds up to zeros. -/
theorem slotSums_nil (d : ℕ) : slotSums d [] = List.replicate d 0 := by
  simp [slotSums]

/-- The sums over one vector are the vector. -/
theorem slotSums_singleton {xs : List Residue} (h : xs.length = d) : slotSums d [xs] = xs := by
  refine List.ext_getElem ((length_slotSums d _).trans h.symm) fun i _ hi => ?_
  simp [slotSums, hi]

/-- A vector is added to the sums. -/
theorem merge_slotSums (vectors : List (List Residue)) {xs : List Residue} (h : xs.length = d) :
    merge (slotSums d vectors) xs = .ok (slotSums d (vectors ++ [xs])) := by
  rw [merge, if_pos ((length_slotSums d vectors).trans h.symm)]
  congr 1
  refine List.ext_getElem (by simp [length_slotSums, h]) fun i hi hi' => ?_
  simp only [length_slotSums] at hi'
  simp [slotSums, h ▸ hi']

/-- The order of the vectors does not matter. -/
theorem slotSums_of_perm {vectors vectors' : List (List Residue)} (h : vectors.Perm vectors') :
    slotSums d vectors = slotSums d vectors' := by
  unfold slotSums
  exact List.map_congr_left fun j _ => (h.map _).sum_eq

/-- Each slot of the sums is the sum over that slot. -/
theorem slotSums_ofFn (d : ℕ) (xs : Fin n → List Residue) :
    slotSums d (List.ofFn xs) = (List.range d).map fun j => ∑ i, (xs i).getD j 0 := by
  simp only [slotSums, List.map_ofFn, List.sum_ofFn, Function.comp_apply]

/-- The sums of two shares of vectors add up to the sums of the vectors. -/
theorem merge_slotSums_ofFn {as bs xs : Fin n → List Residue}
    (h : ∀ i, Share.reconstruct? (as i) (bs i) = some (xs i)) :
    merge (slotSums d (List.ofFn as)) (slotSums d (List.ofFn bs)) =
      .ok (slotSums d (List.ofFn xs)) := by
  rw [merge, if_pos ((length_slotSums d _).trans (length_slotSums d _).symm)]
  simp only [slotSums_ofFn, List.zipWith_map, List.zipWith_self]
  congr 1
  refine List.map_congr_left fun j _ => ?_
  rw [← sum_add_distrib]
  refine sum_congr rfl fun i _ => ?_
  obtain ⟨hlength, hsum⟩ := Share.reconstruct?_eq_some_iff.mp (h i)
  rw [← hsum, getD_zipWith_add _ _ hlength]

end Residue

namespace Schema

/-! ### The number in sums of bits -/

/-- The sums of the bits of the values, most significant first. -/
def bitSums {n : ℕ} (width : ℕ) (v : Fin n → ℕ) : List ℕ :=
  (List.range width).map fun j => ∑ i, ((v i).testBit (width - 1 - j)).toNat

variable {n : ℕ}

/-- There is a sum for each bit. -/
theorem length_bitSums (width : ℕ) (v : Fin n → ℕ) : (bitSums width v).length = width := by
  simp [bitSums]

/-- The least significant bits come last. -/
theorem bitSums_succ (width : ℕ) (v : Fin n → ℕ) :
    bitSums (width + 1) v = bitSums width (fun i => v i / 2) ++ [∑ i, v i % 2] := by
  unfold bitSums
  rw [List.range_succ, List.map_append, List.map_singleton]
  congr 1
  · refine List.map_congr_left fun j hj => sum_congr rfl fun i _ => ?_
    have hbit : width + 1 - 1 - j = width - 1 - j + 1 := by
      have := List.mem_range.mp hj
      omega
    rw [hbit, Nat.testBit_succ]
  · congr 1
    refine sum_congr rfl fun i _ => ?_
    rw [Nat.toNat_testBit, Nat.add_sub_cancel, Nat.sub_self, pow_zero, Nat.div_one]

/-- One more slot doubles what the others weigh. -/
theorem total_append (slots : List UInt64) (last : UInt64) :
    total (slots ++ [last]) = (total slots <<< 1) + last := by
  simp [total]

/-- One more slot doubles the total and is added to it, modulo `2 ^ 64`. -/
theorem toNat_total_append (slots : List UInt64) (last : UInt64) :
    (total (slots ++ [last])).toNat = (2 * (total slots).toNat + last.toNat) % 2 ^ 64 := by
  have hshift : (total slots).toNat <<< (UInt64.toNat 1 % 64) = 2 * (total slots).toNat := by
    rw [Nat.shiftLeft_eq, mul_comm]
    rfl
  rw [total_append, UInt64.toNat_add, UInt64.toNat_shiftLeft, hshift, Nat.mod_add_mod]

/-- Sums of bits hold the sum of the values, as long as it is small enough for a word. -/
theorem toNat_total {width : ℕ} {v : Fin n → ℕ} (hv : ∀ i, v i < 2 ^ width)
    (hsmall : n * 2 ^ width < 2 ^ 64) {slots : List UInt64}
    (hslots : slots.map UInt64.toNat = bitSums width v) : (total slots).toNat = ∑ i, v i := by
  induction width generalizing v slots with
  | zero =>
    have hempty : slots = [] := by simpa [bitSums] using hslots
    have hzero : ∀ i, v i = 0 := fun i => by simpa using hv i
    simp [hempty, total, hzero]
  | succ width ih =>
    rw [bitSums_succ, List.map_eq_append_iff] at hslots
    obtain ⟨init, rest, rfl, hinit, hrest⟩ := hslots
    obtain ⟨last, rfl, hlast⟩ := List.map_eq_singleton_iff.mp hrest
    have hhalf : ∀ i, v i / 2 < 2 ^ width := fun i => by
      have := hv i
      rw [pow_succ] at this
      omega
    have hfewer : n * 2 ^ width ≤ n * 2 ^ (width + 1) :=
      Nat.mul_le_mul_left n (Nat.pow_le_pow_right (by decide) (Nat.le_succ width))
    have htotal := ih hhalf (hfewer.trans_lt hsmall) hinit
    have hdigits : 2 * ∑ i, v i / 2 + ∑ i, v i % 2 = ∑ i, v i := by
      rw [mul_sum, ← sum_add_distrib]
      exact sum_congr rfl fun i _ => Nat.div_add_mod (v i) 2
    have hle : ∑ i, v i ≤ n * 2 ^ (width + 1) := by
      calc ∑ i, v i ≤ ∑ _i : Fin n, 2 ^ (width + 1) := sum_le_sum fun i _ => (hv i).le
        _ = n * 2 ^ (width + 1) := by simp
    rw [toNat_total_append, htotal, hlast]
    omega

/-- From sums of the bits of values the totals of metrics are the sums of the values. -/
theorem map_totalsOnto (done : List (String × UInt64)) {metrics : List Metric}
    (hwidth : ∀ m ∈ metrics, m.kind.width ≤ 32) (hn : n < 2 ^ 32) {v : Metric → Fin n → ℕ}
    (hv : ∀ m ∈ metrics, ∀ i, v m i < 2 ^ m.kind.width) {slots : List UInt64}
    (hslots : slots.map UInt64.toNat = metrics.flatMap fun m => bitSums m.kind.width (v m)) :
    (totalsOnto done metrics slots).map (fun t => (t.1, t.2.toNat)) =
      done.reverse.map (fun t => (t.1, t.2.toNat)) ++
        metrics.map fun m => (m.name, ∑ i, v m i) := by
  induction metrics generalizing done slots with
  | nil => simp [totalsOnto]
  | cons m metrics ih =>
    rw [List.forall_mem_cons] at hwidth hv
    rw [List.flatMap_cons] at hslots
    have hlength : (bitSums m.kind.width (v m)).length = m.kind.width := length_bitSums _ _
    have htake : (slots.take m.kind.width).map UInt64.toNat = bitSums m.kind.width (v m) := by
      rw [List.map_take, hslots, List.take_left' hlength]
    have hdrop : (slots.drop m.kind.width).map UInt64.toNat =
        metrics.flatMap fun m => bitSums m.kind.width (v m) := by
      rw [List.map_drop, hslots, List.drop_left' hlength]
    have hsmall : n * 2 ^ m.kind.width < 2 ^ 64 := by
      have hpow : 2 ^ m.kind.width ≤ 2 ^ 32 := Nat.pow_le_pow_right (by decide) hwidth.1
      calc n * 2 ^ m.kind.width ≤ n * 2 ^ 32 := Nat.mul_le_mul_left n hpow
        _ < 2 ^ 32 * 2 ^ 32 := Nat.mul_lt_mul_of_pos_right hn (by decide)
        _ = 2 ^ 64 := by decide
    have htotal := toNat_total hv.1 hsmall htake
    rw [totalsOnto, ih _ hwidth.2 hv.2 hdrop]
    simp [htotal]

end Schema

/-! ### The values of measurements -/

namespace MetricKind

/-- The greatest value of a metric has all its bits set. -/
theorem toNat_maxValue {kind : MetricKind} (h : kind.width ≤ 32) :
    kind.maxValue.toNat = 2 ^ kind.width - 1 := by
  have hpow : 2 ^ kind.width ≤ 2 ^ 32 := Nat.pow_le_pow_right (by decide) h
  have hsmall : 2 ^ kind.width - 1 < 2 ^ 64 := by omega
  rw [maxValue, if_pos (by omega)]
  exact Nat.mod_eq_of_lt hsmall

end MetricKind

namespace Schema

variable {schema : Schema} {measurements : Measurements}

/-- The value of a metric has no more bits than the metric has slots. -/
theorem Fits.value_lt (h : schema.Fits measurements) {m : Metric} (hm : m ∈ schema.metrics) :
    (measurements.value m.name).toNat < 2 ^ m.kind.width := by
  have hmax := MetricKind.toNat_maxValue (MetricKind.width_le (isSupported_of_mem hm))
  have hpos : 0 < 2 ^ m.kind.width := Nat.two_pow_pos _
  unfold Measurements.value
  split
  · next e hfound =>
    have hname : e.1 = m.name := by simpa using List.find?_some hfound
    have hbounded : ¬ m.kind.maxValue < e.2 := fun hlt =>
      h.bounded e (List.mem_of_find?_eq_some hfound) ⟨m, hm, hname.symm, hlt⟩
    have hle := UInt64.le_iff_toNat_le.mp (UInt64.not_lt.mp hbounded)
    omega
  · exact hpos

/-- The slots of a value hold its bits. -/
theorem toNat_getD_slotsOf {width j : ℕ} (value : UInt64) (hj : j < width) :
    ((slotsOf width value).getD j 0).toNat = (value.toNat.testBit (width - 1 - j)).toNat := by
  have hslot : (slotsOf width value).getD j 0 =
      if value.toNat.testBit (width - 1 - j) then 1 else 0 := by
    simp [slotsOf, hj]
  rw [hslot]
  cases value.toNat.testBit (width - 1 - j) <;> rfl

/-- The sums of the slots of measurements are those of the bits of their values. -/
theorem sum_getD_flatMap_slotsOf {n : ℕ} (metrics : List Metric)
    (values : Fin n → Metric → UInt64) :
    ((List.range (totalWidth metrics)).map fun j => ∑ i,
        ((metrics.flatMap fun m => slotsOf m.kind.width (values i m)).getD j 0).toNat) =
      metrics.flatMap fun m => bitSums m.kind.width fun i => (values i m).toNat := by
  induction metrics with
  | nil => rfl
  | cons m metrics ih =>
    have hwidth : totalWidth (m :: metrics) = m.kind.width + totalWidth metrics := rfl
    have hlength (i : Fin n) : (slotsOf m.kind.width (values i m)).length = m.kind.width :=
      length_slotsOf _ _
    simp only [List.flatMap_cons]
    rw [hwidth, List.range_add, List.map_append, ← ih, List.map_map]
    congr 1
    · refine List.map_congr_left fun j hj => sum_congr rfl fun i _ => ?_
      have hj := List.mem_range.mp hj
      have hfront : j < (slotsOf m.kind.width (values i m)).length := by
        rw [hlength i]
        exact hj
      rw [List.getD_append _ _ _ _ hfront, toNat_getD_slotsOf _ hj]
    · refine List.map_congr_left fun j _ => sum_congr rfl fun i _ => ?_
      have hbehind : (slotsOf m.kind.width (values i m)).length ≤ m.kind.width + j := by
        rw [hlength i]
        exact Nat.le_add_right _ j
      dsimp only
      rw [List.getD_append_right _ _ _ _ hbehind, hlength i, Nat.add_sub_cancel_left]

/-- Fewer measurements than the modulus are counted exactly: the sums of their slots decode to the
sums of their values, metric by metric in the order of the schema. -/
theorem decodeSums_slotSums {n : ℕ} (hn : n < modulus) {measurements : Fin n → Measurements}
    {xs : Fin n → List Residue} (h : ∀ i, schema.encode (measurements i) = .ok (xs i)) :
    ∃ totals, schema.decodeSums
        ((Residue.slotSums schema.dimension (List.ofFn xs)).map Residue.word) = .ok totals ∧
      totals.map (fun t => (t.1, t.2.toNat)) =
        schema.metrics.map fun m => (m.name, ∑ i, ((measurements i).value m.name).toNat) := by
  have hfits (i : Fin n) := fits_of_encode (h i)
  have hxs (i : Fin n) : xs i = schema.metrics.flatMap fun m =>
      slotsOf m.kind.width ((measurements i).value m.name) :=
    Except.ok.inj ((h i).symm.trans (encode_of_fits (hfits i)))
  have hbit (i : Fin n) (j : ℕ) : (xs i).getD j 0 = 0 ∨ (xs i).getD j 0 = 1 := by
    rw [List.getD_eq_getElem?_getD]
    cases hslot : (xs i)[j]? with
    | none => exact .inl rfl
    | some x => exact bits_of_encode (h i) x (List.mem_of_getElem? hslot)
  have hlength : ((Residue.slotSums schema.dimension (List.ofFn xs)).map Residue.word).length =
      schema.dimension := by
    rw [List.length_map, Residue.length_slotSums]
  have hslots : ((Residue.slotSums schema.dimension (List.ofFn xs)).map Residue.word).map
      UInt64.toNat = schema.metrics.flatMap fun m =>
        bitSums m.kind.width fun i => ((measurements i).value m.name).toNat := by
    rw [← sum_getD_flatMap_slotsOf, Residue.slotSums_ofFn, List.map_map, List.map_map]
    refine List.map_congr_left fun j _ => ?_
    simp only [Function.comp_apply, Residue.toNat_word]
    rw [Residue.toNat_sum_of_bits hn fun i => hbit i j]
    simp only [hxs]
  have hwidth : ∀ m ∈ schema.metrics, m.kind.width ≤ 32 := fun m hm =>
    MetricKind.width_le (isSupported_of_mem hm)
  have hvalues : ∀ m ∈ schema.metrics, ∀ i,
      ((measurements i).value m.name).toNat < 2 ^ m.kind.width := fun m hm i =>
    (hfits i).value_lt hm
  refine ⟨_, if_pos hlength, ?_⟩
  exact map_totalsOnto [] hwidth (hn.trans (by decide)) hvalues hslots

/-- The slots of measurements, read as sums, decode to the value of every metric. -/
theorem decodeSums_of_encode {measurements : Measurements} {xs : List Residue}
    (hxs : schema.encode measurements = .ok xs) :
    schema.decodeSums (xs.map Residue.word) =
      .ok (schema.metrics.map fun m => (m.name, measurements.value m.name)) := by
  obtain ⟨totals, hdecode, htotals⟩ :=
    decodeSums_slotSums (show 1 < modulus by decide) fun _ : Fin 1 => hxs
  have hinjective : Function.Injective fun t : String × UInt64 => (t.1, t.2.toNat) := by
    rintro ⟨name, value⟩ ⟨name', value'⟩ h
    rw [Prod.mk.injEq, UInt64.toNat_inj] at h
    exact Prod.ext h.1 h.2
  have hvalues : totals = schema.metrics.map fun m => (m.name, measurements.value m.name) := by
    refine List.map_injective_iff.mpr hinjective (htotals.trans ?_)
    simp
  rw [← hvalues, ← hdecode]
  exact congrArg (fun slots => schema.decodeSums (slots.map Residue.word))
    (Residue.slotSums_singleton (length_encode hxs)).symm

end Schema

end SplitTally
