import Mathlib.Algebra.BigOperators.Intervals
import Mathlib.Algebra.Field.GeomSum
import Mathlib.LinearAlgebra.Lagrange
import SplitTally.Proofs.RootsOfUnity
import SplitTally.Transform

/-!
# The transform computes values and interpolates

The halving recursion evaluates the polynomial with the given coefficients at all powers of the
root, which are distinct. On the inverse roots it therefore recovers the coefficients from the
values up to the number of points, so evaluation and interpolation undo each other, and
interpolation followed by nested multiplication is the evaluation of the unique polynomial of degree
below `2 ^ k` through the points.
-/

namespace SplitTally.Transform

open Finset Polynomial

/-- The entry of a vector at a position, or zero past its end. -/
def entry {n : ℕ} (v : Vector Residue n) (i : ℕ) : Residue := v[i]?.getD 0

/-- The entries of a vector are those that are there. -/
theorem entry_of_lt {n i : ℕ} (v : Vector Residue n) (hi : i < n) : entry v i = v[i] := by
  simp [entry, hi]

/-- Vectors with the same entries are the same. -/
theorem ext_entry {n : ℕ} {u v : Vector Residue n} (h : ∀ i < n, entry u i = entry v i) :
    u = v := by
  apply Vector.ext
  intro i hi
  simpa [entry_of_lt, hi] using h i hi

/-- An entry of a vector that is given by its entries. -/
theorem entry_ofFn {n i : ℕ} (f : Fin n → Residue) (hi : i < n) :
    entry (Vector.ofFn f) i = f ⟨i, hi⟩ := by
  rw [entry_of_lt _ hi, Vector.getElem_ofFn]

/-- An entry of two vectors that are combined entry by entry. -/
theorem entry_zipWith {n i : ℕ} (f : Residue → Residue → Residue) (u v : Vector Residue n)
    (hi : i < n) : entry (Vector.zipWith f u v) i = f (entry u i) (entry v i) := by
  simp [entry_of_lt, hi]

/-- An entry of a vector that is mapped entry by entry. -/
theorem entry_map {n i : ℕ} (f : Residue → Residue) (v : Vector Residue n) (hi : i < n) :
    entry (v.map f) i = f (entry v i) := by
  simp [entry_of_lt, hi]

section Halves

variable {k i : ℕ} (v : Vector Residue (2 ^ (k + 1)))

/-- The first half keeps its places. -/
theorem entry_low (hi : i < 2 ^ k) : entry (low v) i = entry v i := by
  have := pow_succ_eq k
  rw [low, entry_ofFn _ hi, entry_of_lt _ (by omega)]
  rfl

/-- The second half begins in the middle. -/
theorem entry_high (hi : i < 2 ^ k) : entry (high v) i = entry v (2 ^ k + i) := by
  have := pow_succ_eq k
  rw [high, entry_ofFn _ hi, entry_of_lt _ (by omega)]
  rfl

/-- The entries at even places move to half of these. -/
theorem entry_evens (hi : i < 2 ^ k) : entry (evens v) i = entry v (2 * i) := by
  have := pow_succ_eq k
  rw [evens, entry_ofFn _ hi, entry_of_lt _ (by omega)]
  rfl

/-- The entries at odd places move to half of these, rounded down. -/
theorem entry_odds (hi : i < 2 ^ k) : entry (odds v) i = entry v (2 * i + 1) := by
  have := pow_succ_eq k
  rw [odds, entry_ofFn _ hi, entry_of_lt _ (by omega)]
  rfl

/-- At even places stand the entries of the first vector. -/
theorem entry_interleave_even (even odd : Vector Residue (2 ^ k)) (hi : i < 2 ^ k) :
    entry (interleave even odd) (2 * i) = entry even i := by
  have := pow_succ_eq k
  rw [interleave, entry_ofFn _ (by omega), entry_of_lt _ hi]
  simp [Vector.get]

/-- At odd places stand the entries of the second vector. -/
theorem entry_interleave_odd (even odd : Vector Residue (2 ^ k)) (hi : i < 2 ^ k) :
    entry (interleave even odd) (2 * i + 1) = entry odd i := by
  have := pow_succ_eq k
  have hhalf : (2 * i + 1) / 2 = i := by omega
  rw [interleave, entry_ofFn _ (by omega), entry_of_lt _ hi]
  simp [Vector.get, Nat.add_mod, hhalf]

end Halves

/-! ### Evaluation -/

/-- The value at `x` of the polynomial with the given coefficients, lowest first. -/
def sumAt {n : ℕ} (coefficients : Vector Residue n) (x : Residue) : Residue :=
  ∑ j ∈ range n, entry coefficients j * x ^ j

private theorem sumAt_eq_add {k : ℕ} (c : Vector Residue (2 ^ (k + 1))) (x : Residue) :
    sumAt c x = ∑ j ∈ range (2 ^ k), entry c j * x ^ j +
      ∑ j ∈ range (2 ^ k), entry c (2 ^ k + j) * x ^ (2 ^ k + j) := by
  have hrange : range (2 ^ (k + 1)) = range (2 ^ k + 2 ^ k) := by rw [pow_succ_eq, two_mul]
  rw [sumAt, hrange, sum_range_add]

/-- The recursive evaluation at a root with even exponent: opposite coefficients are added. -/
private theorem sumAt_of_pow_eq_one {k : ℕ} (c : Vector Residue (2 ^ (k + 1))) {x : Residue}
    (hx : x ^ 2 ^ k = 1) :
    sumAt c x = sumAt (Vector.zipWith (· + ·) (low c) (high c)) x := by
  rw [sumAt_eq_add, ← sum_add_distrib]
  apply sum_congr rfl
  intro j hj
  have hj' := mem_range.mp hj
  rw [entry_zipWith _ _ _ hj', entry_low _ hj', entry_high _ hj', pow_add x, hx]
  ring

/-- The recursive evaluation at a root with odd exponent: the differences of opposite coefficients
are twisted by the powers of the root. -/
private theorem sumAt_of_pow_eq_neg_one {k : ℕ} (c : Vector Residue (2 ^ (k + 1)))
    {roots : Vector Residue (2 ^ (k + 1))} {w x : Residue}
    (hroots : ∀ i < 2 ^ (k + 1), entry roots i = w ^ i) (hx : (w * x) ^ 2 ^ k = -1) :
    sumAt c (w * x) = sumAt (Vector.zipWith (· * ·)
      (Vector.zipWith (· - ·) (low c) (high c)) (low roots)) x := by
  rw [sumAt_eq_add, ← sum_add_distrib]
  apply sum_congr rfl
  intro j hj
  have hj' := mem_range.mp hj
  have := pow_succ_eq k
  rw [entry_zipWith _ _ _ hj', entry_zipWith _ _ _ hj', entry_low _ hj', entry_high _ hj',
    entry_low _ hj', hroots j (by omega), pow_add (w * x), hx]
  ring

/-- The recursion evaluates the polynomial at all powers of the root. -/
theorem entry_evaluate (k : ℕ) (roots coefficients : Vector Residue (2 ^ k)) {w : Residue}
    (hw : IsPrimitiveRoot w (2 ^ k)) (hroots : ∀ i < 2 ^ k, entry roots i = w ^ i) :
    ∀ i < 2 ^ k, entry (evaluate k roots coefficients) i = sumAt coefficients (w ^ i) := by
  induction k generalizing w with
  | zero =>
    intro i hi
    obtain rfl : i = 0 := by omega
    simp [evaluate, sumAt]
  | succ k ih =>
    have hsize := pow_succ_eq k
    have hsq : IsPrimitiveRoot (w ^ 2) (2 ^ k) := hw.pow (by positivity) hsize
    have hhalf : w ^ 2 ^ k = -1 := by
      have hne : w ^ 2 ^ k ≠ 1 := hw.pow_ne_one_of_pos_of_lt (by positivity)
        (Nat.pow_lt_pow_right (by decide) k.lt_succ_self)
      have hsquare : w ^ 2 ^ k * w ^ 2 ^ k = 1 := by
        rw [← pow_add, ← two_mul, ← hsize, hw.pow_eq_one]
      exact (mul_self_eq_one_iff.mp hsquare).resolve_left hne
    have hevens : ∀ i < 2 ^ k, entry (evens roots) i = (w ^ 2) ^ i := by
      intro i hi
      rw [entry_evens _ hi, hroots _ (by omega), pow_mul]
    have hone (m : ℕ) : ((w ^ 2) ^ m) ^ 2 ^ k = 1 := by
      rw [← pow_mul, mul_comm, pow_mul, hsq.pow_eq_one, one_pow]
    intro i hi
    rcases Nat.even_or_odd' i with ⟨m, rfl | rfl⟩
    · have hm : m < 2 ^ k := by omega
      rw [evaluate, entry_interleave_even _ _ hm, ih _ _ hsq hevens m hm, pow_mul,
        sumAt_of_pow_eq_one _ (hone m)]
    · have hm : m < 2 ^ k := by omega
      have hsplit : w ^ (2 * m + 1) = w * (w ^ 2) ^ m := by rw [pow_succ', pow_mul]
      have hneg : (w * (w ^ 2) ^ m) ^ 2 ^ k = -1 := by rw [mul_pow, hone, hhalf, mul_one]
      rw [evaluate, entry_interleave_odd _ _ hm, ih _ _ hsq hevens m hm, hsplit,
        sumAt_of_pow_eq_neg_one _ hroots hneg]

/-- The values of a polynomial at the listed roots of unity. -/
theorem entry_values {k : ℕ} (hk : k ≤ 20) (coefficients : Vector Residue (2 ^ k)) {i : ℕ}
    (hi : i < 2 ^ k) :
    entry (values k coefficients) i = sumAt coefficients (Roots.base k false ^ i) := by
  refine entry_evaluate k _ _ (Roots.isPrimitiveRoot_base hk) (fun j hj => ?_) i hi
  rw [entry_of_lt _ hj, Roots.getElem_table k false hj]

/-! ### Interpolation -/

/-- The roots of one order are distinct. -/
theorem injOn_roots {k : ℕ} (hk : k ≤ 20) :
    Set.InjOn (fun i => Roots.base k false ^ i) (range (2 ^ k) : Set ℕ) := by
  intro i hi j hj hij
  exact (Roots.isPrimitiveRoot_base hk).pow_inj (by simpa using hi) (by simpa using hj) hij

/-- The polynomial of degree below `2 ^ k` with the value `r i` at the `i`-th of the `2 ^ k`-th
roots of unity, as a linear function of these values. -/
noncomputable def through (k : ℕ) : (ℕ → Residue) →ₗ[Residue] Residue[X] :=
  Lagrange.interpolate (range (2 ^ k)) fun i => Roots.base k false ^ i

/-- The polynomial through the points has a degree below their number. -/
theorem degree_through_lt {k : ℕ} (hk : k ≤ 20) (r : ℕ → Residue) :
    (through k r).degree < (2 ^ k : ℕ) := by
  simpa [through] using Lagrange.degree_interpolate_lt r (injOn_roots hk)

/-- The polynomial through the points takes their values at the roots of unity. -/
theorem eval_through {k i : ℕ} (hk : k ≤ 20) (r : ℕ → Residue) (hi : i < 2 ^ k) :
    (through k r).eval (Roots.base k false ^ i) = r i :=
  Lagrange.eval_interpolate_at_node r (injOn_roots hk) (mem_range.mpr hi)

/-- There is no other polynomial of that degree with these values. -/
theorem eq_through {k : ℕ} (hk : k ≤ 20) {r : ℕ → Residue} {f : Residue[X]}
    (hdegree : f.degree < (2 ^ k : ℕ))
    (hvalues : ∀ i < 2 ^ k, f.eval (Roots.base k false ^ i) = r i) : f = through k r :=
  Lagrange.eq_interpolate_of_eval_eq r (injOn_roots hk) (by simpa using hdegree)
    fun i hi => hvalues i (mem_range.mp hi)

/-- The polynomial depends on the values at the roots only. -/
theorem through_congr {k : ℕ} {r r' : ℕ → Residue} (h : ∀ i < 2 ^ k, r i = r' i) :
    through k r = through k r' :=
  Lagrange.interpolate_eq_of_values_eq_on _ _ fun i hi => h i (mem_range.mp hi)

/-- The polynomial with the given coefficients, lowest first. -/
noncomputable def toPolynomial {n : ℕ} (coefficients : Vector Residue n) : Residue[X] :=
  ∑ j ∈ range n, C (entry coefficients j) * X ^ j

/-- The polynomial with the coefficients takes the values of the sums over them. -/
theorem eval_toPolynomial {n : ℕ} (coefficients : Vector Residue n) (x : Residue) :
    (toPolynomial coefficients).eval x = sumAt coefficients x := by
  simp [toPolynomial, sumAt, eval_finsetSum]

/-- The degree is below the number of coefficients. -/
theorem degree_toPolynomial_lt {n : ℕ} (coefficients : Vector Residue n) :
    (toPolynomial coefficients).degree < (n : ℕ) := by
  refine (degree_sum_le _ _).trans_lt ((Finset.sup_lt_iff (WithBot.bot_lt_coe n)).mpr ?_)
  intro j hj
  exact (degree_C_mul_X_pow_le j _).trans_lt (WithBot.coe_lt_coe.mpr (mem_range.mp hj))

/-- The sum over all powers of a primitive root vanishes except for the exponent zero. -/
private theorem sum_pow_eq {k i j : ℕ} {w : Residue} (hw : IsPrimitiveRoot w (2 ^ k))
    (hi : i < 2 ^ k) (hj : j < 2 ^ k) :
    ∑ m ∈ range (2 ^ k), (w⁻¹ ^ m) ^ j * (w ^ i) ^ m = if i = j then (2 ^ k : Residue) else 0 := by
  have hw0 : w ≠ 0 := hw.ne_zero (by positivity)
  have hterm (m : ℕ) : (w⁻¹ ^ m) ^ j * (w ^ i) ^ m = (w ^ i / w ^ j) ^ m := by
    rw [div_pow, div_eq_mul_inv, mul_comm, inv_pow, inv_pow, ← pow_mul w m j, ← pow_mul w j m,
      mul_comm m j]
  simp only [hterm]
  by_cases hij : i = j
  · simp [hij, hw0]
  · have hne : w ^ i / w ^ j ≠ 1 := by
      intro h
      exact hij (hw.pow_inj hi hj ((div_eq_one_iff_eq (pow_ne_zero j hw0)).mp h))
    have hpow : (w ^ i / w ^ j) ^ 2 ^ k = 1 := by
      rw [div_pow, ← pow_mul, ← pow_mul, mul_comm i, mul_comm j, pow_mul, pow_mul,
        hw.pow_eq_one, one_pow, one_pow, div_one]
    rw [if_neg hij, geom_sum_eq hne, hpow, sub_self, zero_div]

/-- Interpolating evaluates at the inverse roots and divides by their number. -/
theorem entry_interpolate {k : ℕ} (hk : k ≤ 20) (points : Vector Residue (2 ^ k)) {i : ℕ}
    (hi : i < 2 ^ k) : entry (interpolate k points) i =
      sumAt points ((Roots.base k false)⁻¹ ^ i) * (2 ^ k : Residue)⁻¹ := by
  have hcount : (Residue.ofWord (2 ^ k).toUInt32) = (2 ^ k : Residue) := by
    have hword : (2 ^ k : ℕ) < 2 ^ 32 := Nat.pow_lt_pow_right (by decide) (by omega)
    rw [Residue.ofWord_eq, Nat.toUInt32_eq, UInt32.toNat_ofNat', Nat.mod_eq_of_lt hword]
    norm_num
  have htable : ∀ j < 2 ^ k, entry (Roots.table k true) j = (Roots.base k false)⁻¹ ^ j := by
    intro j hj
    rw [entry_of_lt _ hj, Roots.getElem_table k true hj, Roots.base_true]
  rw [interpolate, entry_map _ _ hi,
    entry_evaluate k _ _ (Roots.isPrimitiveRoot_base hk).inv htable i hi, hcount]
  rfl

/-- Interpolating recovers the values at the listed roots. -/
theorem sumAt_interpolate {k : ℕ} (hk : k ≤ 20) (points : Vector Residue (2 ^ k)) {i : ℕ}
    (hi : i < 2 ^ k) : sumAt (interpolate k points) (Roots.base k false ^ i) = entry points i := by
  set w := Roots.base k false with hwdef
  have hw : IsPrimitiveRoot w (2 ^ k) := Roots.isPrimitiveRoot_base hk
  have hinverse : (2 ^ k : Residue) * (2 ^ k : Residue)⁻¹ = 1 :=
    mul_inv_cancel₀ (pow_ne_zero k (by decide))
  calc sumAt (interpolate k points) (w ^ i)
      = ∑ m ∈ range (2 ^ k), ∑ j ∈ range (2 ^ k),
          entry points j * (w⁻¹ ^ m) ^ j * (2 ^ k : Residue)⁻¹ * (w ^ i) ^ m := by
        unfold sumAt
        apply sum_congr rfl
        intro m hm
        rw [entry_interpolate hk points (mem_range.mp hm), ← hwdef, sumAt, sum_mul, sum_mul]
    _ = ∑ j ∈ range (2 ^ k), entry points j * (2 ^ k : Residue)⁻¹ *
          ∑ m ∈ range (2 ^ k), (w⁻¹ ^ m) ^ j * (w ^ i) ^ m := by
        rw [sum_comm]
        simp only [mul_sum]
        apply sum_congr rfl
        intro j _
        apply sum_congr rfl
        intro m _
        ring
    _ = ∑ j ∈ range (2 ^ k), entry points j * (2 ^ k : Residue)⁻¹ *
          (if i = j then (2 ^ k : Residue) else 0) := by
        apply sum_congr rfl
        intro j hj
        rw [sum_pow_eq hw hi (mem_range.mp hj)]
    _ = entry points i := by
        simp only [mul_ite, mul_zero, sum_ite_eq, mem_range, hi, if_true]
        rw [mul_assoc, mul_comm (2 ^ k : Residue)⁻¹, hinverse, mul_one]

/-- Interpolation gives the coefficients of the polynomial through the points. -/
theorem toPolynomial_interpolate {k : ℕ} (hk : k ≤ 20) (points : Vector Residue (2 ^ k)) :
    toPolynomial (interpolate k points) = through k (entry points) := by
  apply eq_through hk (degree_toPolynomial_lt _)
  intro i hi
  rw [eval_toPolynomial, sumAt_interpolate hk points hi]

/-- The coefficients of the polynomial are the entries. -/
theorem coeff_toPolynomial {n i : ℕ} (coefficients : Vector Residue n) (hi : i < n) :
    (toPolynomial coefficients).coeff i = entry coefficients i := by
  simp only [toPolynomial, finsetSum_coeff, coeff_C_mul_X_pow]
  simp [hi]

/-- Evaluating recovers the values that were interpolated. -/
theorem values_interpolate {k : ℕ} (hk : k ≤ 20) (points : Vector Residue (2 ^ k)) :
    values k (interpolate k points) = points :=
  ext_entry fun i hi => by rw [entry_values hk _ hi, sumAt_interpolate hk points hi]

/-- Interpolating recovers the coefficients of the polynomial that was evaluated. -/
theorem interpolate_values {k : ℕ} (hk : k ≤ 20) (coefficients : Vector Residue (2 ^ k)) :
    interpolate k (values k coefficients) = coefficients := by
  have hpolynomial : toPolynomial coefficients =
      toPolynomial (interpolate k (values k coefficients)) := by
    rw [toPolynomial_interpolate hk]
    refine eq_through hk (degree_toPolynomial_lt _) fun i hi => ?_
    rw [eval_toPolynomial, entry_values hk _ hi]
  refine ext_entry fun i hi => ?_
  rw [← coeff_toPolynomial _ hi, ← coeff_toPolynomial _ hi, hpolynomial]

private theorem foldr_eq_sum (cs : List Residue) (x : Residue) :
    cs.foldr (fun c acc => acc * x + c) 0 = ∑ j ∈ range cs.length, cs[j]?.getD 0 * x ^ j := by
  induction cs with
  | nil => rfl
  | cons c cs ih =>
    rw [List.foldr_cons, ih, List.length_cons, sum_range_succ', sum_mul]
    simp [pow_succ, mul_assoc]

/-- Nested multiplication evaluates a polynomial. -/
theorem valueAt_eq_sumAt {n : ℕ} (coefficients : Vector Residue n) (x : Residue) :
    valueAt coefficients x = sumAt coefficients x := by
  have h := foldr_eq_sum coefficients.toList x
  rw [Vector.length_toList] at h
  rw [valueAt, ← Vector.foldr_toList, h]
  simp [sumAt, entry]

/-- The value at any point of the polynomial of degree below `2 ^ k` through the points. -/
theorem interpolateAt_eq {k : ℕ} (hk : k ≤ 20) (points : Vector Residue (2 ^ k)) (x : Residue) :
    interpolateAt k points x = (through k (entry points)).eval x := by
  rw [interpolateAt, valueAt_eq_sumAt, ← eval_toPolynomial, toPolynomial_interpolate hk]

end SplitTally.Transform
