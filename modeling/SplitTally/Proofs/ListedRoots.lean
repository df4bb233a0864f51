import SplitTally.Proofs.Capacity

/-!
# Lists of roots of unity

For every power of two up to the order of the group as many roots of unity are listed, all
different, as the powers of one whose order is that number, and in the inverted list the inverse of
each is at its place. Every other root of a list is one of the list for half the number. So a
transform of half the size finds its roots among those of the whole one, and values at twice as many
roots as there are points still hold the points.
-/

namespace SplitTally

open Transform (front write?)

/-- A buffer without entries behind its front holds nothing else. -/
theorem Transform.eq_toArray_of_front {k : ℕ} {buffer : Array Residue} {v : Vector Residue (2 ^ k)}
    (hsize : buffer.size = 2 ^ k) (hfront : front k buffer = v) : buffer = v.toArray := by
  refine Array.ext (hsize.trans v.size_toArray.symm) fun i hi hi' => ?_
  have hpow : i < 2 ^ k := hi.trans_eq hsize
  rw [Vector.getElem_toArray, ← entry_of_lt v hpow, ← hfront, entry_front _ hpow,
    Array.getD_eq_getD_getElem?, Array.getElem?_eq_getElem hi, Option.getD_some]

/-! ### Roots in their order -/

namespace Roots

variable {k : ℕ} {inverted : Bool}

/-- The table lists the powers of its base. -/
theorem getElem?_table {i : ℕ} (hi : i < 2 ^ k) :
    (table k inverted).toArray[i]? = some (base k inverted ^ i) := by
  have hsize : i < (table k inverted).toArray.size := by rwa [Vector.size_toArray]
  rw [Array.getElem?_eq_getElem hsize, Vector.getElem_toArray, getElem_table k inverted hi]

/-- No root is listed twice. -/
theorem nodup_table (hk : k ≤ 20) : (table k false).toArray.toList.Nodup := by
  rw [List.nodup_iff_getElem?_ne_getElem?]
  intro i j hij hj heq
  rw [Array.length_toList, Vector.size_toArray] at hj
  rw [Array.getElem?_toList, Array.getElem?_toList, getElem?_table (hij.trans hj),
    getElem?_table hj, Option.some_inj] at heq
  exact hij.ne ((isPrimitiveRoot_base hk).pow_inj (hij.trans hj) hj heq)

/-- The inverse of each root is at its place in the inverted list. -/
theorem mul_eq_one_of_table (hk : k ≤ 20) {i : ℕ} {root inverse : Residue}
    (hroot : (table k false).toArray[i]? = some root)
    (hinverse : (table k true).toArray[i]? = some inverse) : root * inverse = 1 := by
  have hi : i < 2 ^ k := by
    by_contra hlarge
    rw [Array.getElem?_eq_none (by rw [Vector.size_toArray]; omega)] at hroot
    cases hroot
  -- A root of unity is not zero, so the power of the inverse base is the inverse of the power.
  have hne : base k false ≠ 0 := (isPrimitiveRoot_base hk).ne_zero (Nat.two_pow_pos k).ne'
  rw [getElem?_table hi, Option.some_inj] at hroot hinverse
  rw [← hroot, ← hinverse, base_true, ← mul_pow, mul_inv_cancel₀ hne, one_pow]

/-- Every other root of a list is one of the list for half the number. -/
theorem getElem?_table_two_mul (hk : k < 20) (inverted : Bool) (i : ℕ) :
    (table k inverted).toArray[i]? = (table (k + 1) inverted).toArray[2 * i]? := by
  have hdouble := Transform.pow_succ_eq k
  by_cases hi : i < 2 ^ k
  · rw [getElem?_table hi, getElem?_table (by omega), base_pow_two_mul hk]
  · -- Both lists end at the same place, the whole one with a root in between.
    rw [Array.getElem?_eq_none (by rw [Vector.size_toArray]; omega),
      Array.getElem?_eq_none (by rw [Vector.size_toArray]; omega)]

/-- A list of `n` roots that holds every other one of `roots`, as does a buffer of `n` entries to
which a transform writes the roots for half its size. -/
structure Halves (roots halved : Array Residue) (n : ℕ) : Prop where
  /-- The roots in the list. -/
  getElem?_eq : ∀ i : ℕ, halved[i]? = roots[2 * i]?
  /-- The roots of the transform. -/
  write?_eq : ∀ buffer : Array Residue, buffer.size = n →
    write? buffer n id (fun i => roots[2 * i]?) = some halved

/-- Every other root of a table is one of the table half as long. -/
theorem halves_table (hk : k < 20) (inverted : Bool) :
    Halves (table (k + 1) inverted).toArray (table k inverted).toArray (2 ^ k) := by
  refine ⟨getElem?_table_two_mul hk inverted, fun buffer hbuffer => ?_⟩
  have hposition : ∀ i < 2 ^ k, id i < buffer.size := fun i hi => hi.trans_eq hbuffer.symm
  have hroot : ∀ i < 2 ^ k, (table (k + 1) inverted).toArray[2 * i]? =
      some (base k inverted ^ i) := fun i hi =>
    (getElem?_table_two_mul hk inverted i).symm.trans (getElem?_table hi)
  obtain ⟨-, hfront⟩ := Transform.startsWith_write (v := table k inverted) hbuffer.ge fun i hi =>
    ((Transform.entry_of_lt _ hi).trans (getElem_table k inverted hi)).symm
  rw [Transform.write?_eq_some hposition hroot,
    Transform.eq_toArray_of_front (Transform.size_write.trans hbuffer) hfront]

end Roots

/-! ### Values at twice as many roots -/

/-- A polynomial through points has them as its values at every other one of twice as many roots. -/
theorem Transform.entry_values_two_mul {k i : ℕ} (hk : k < 20) (points : Vector Residue (2 ^ k))
    (hi : i < 2 ^ k) :
    entry (values (k + 1) (zeroExtend (interpolate k points))) (2 * i) = entry points i := by
  have hdouble := pow_succ_eq k
  rw [entry_values hk _ (by omega), BitProof.sumAt_zeroExtend, Roots.base_pow_two_mul hk,
    sumAt_interpolate hk.le _ hi]

/-- Whatever the buffers hold, the points that the scribe spreads are every other one of the values
at twice as many roots. -/
def Scribe.KeepsPoints (scribe : Scribe) (k : ℕ) : Prop :=
  ∀ out coefficients points scratch, 2 ^ (k + 1) ≤ Array.size out →
    coefficients.size = 2 ^ (k + 1) → Transform.Scratch.Holds scratch (2 ^ (k + 1)) →
    ∀ i < 2 ^ k,
      (scribe.spread k out coefficients points scratch).1.getD (2 * i) 0 = points.getD i 0

/-- With the tables of roots a scribe keeps the points that it spreads. -/
theorem Scribe.keepsPoints_of_table {scribe : Scribe} {k : ℕ} (hk : k < 20)
    (hroots : scribe.roots = (Roots.table (k + 1) false).toArray)
    (hinverses : scribe.inverses = (Roots.table k true).toArray) : scribe.KeepsPoints k := by
  intro out coefficients points scratch hout hcoefficients hscratch i hi
  have hdouble := Transform.pow_succ_eq k
  obtain ⟨-, hvalues, -⟩ := spread_spec hroots hinverses points hout hcoefficients hscratch
  rw [← Transform.entry_front _ (show 2 * i < 2 ^ (k + 1) by omega), hvalues,
    Transform.entry_values_two_mul hk _ hi, Transform.entry_front _ hi]

/-! ### Lists of every size -/

namespace Roots

private theorem two_pow_succ_div_two (k : ℕ) : 2 ^ (k + 1) / 2 = 2 ^ k := by
  rw [Transform.pow_succ_eq, Nat.mul_div_cancel_left _ Nat.two_pos]

/-- There are as many roots as the power tells up to the exponent 20. -/
theorem two_pow_le_groupOrder_iff {k : ℕ} : 2 ^ k ≤ groupOrder ↔ k ≤ 20 := by
  have horder : groupOrder = 2 ^ 20 := rfl
  rw [horder, Nat.pow_le_pow_iff_right (by decide)]

/-- Half of a count is that of the roots of half the order. -/
theorem list?_half {k : ℕ} (hk : k < 20) {count : UInt64} (hcount : count.toNat = 2 ^ (k + 1))
    (inverted : Bool) : list? (count / 2) inverted = some (table k inverted).toArray := by
  refine list?_eq_some hk.le ?_ inverted
  have htwo : (2 : UInt64).toNat = 2 := rfl
  rw [UInt64.toNat_div, hcount, htwo, two_pow_succ_div_two]

/-- For every power of two up to the order of the group as many roots are listed. They are all
different and are the powers of one whose order is that number, and each of them has its inverse at
its place in the inverted list. From two roots on, every other one of either list is listed for half
the number: a transform that goes on with every other root goes on with that list, and a scribe with
the inverted one spreads points so that they are every other one of the values at all roots. -/
theorem exists_list?_of_two_pow {count : UInt64} (hpower : ∃ k, count.toNat = 2 ^ k)
    (hcount : count.toNat ≤ groupOrder) :
    let n := count.toNat
    let w := generator ^ (groupOrder / n)
    orderOf w = n ∧ ∃ roots : Bool → Array Residue,
      (∀ inverted, list? count inverted = some (roots inverted) ∧ (roots inverted).size = n) ∧
      (roots false).toList.Nodup ∧
      (∀ i < n, (roots false)[i]? = some (w ^ i)) ∧
      (∀ (i : ℕ) root inverse, (roots false)[i]? = some root → (roots true)[i]? = some inverse →
        root * inverse = 1) ∧
      (2 ≤ n → ∃ halved : Bool → Array Residue,
        (∀ inverted, list? (count / 2) inverted = some (halved inverted) ∧
          Halves (roots inverted) (halved inverted) (n / 2)) ∧
        ∀ scribe : Scribe, scribe.roots = roots false → scribe.inverses = halved true →
          ∀ k, n = 2 ^ (k + 1) → scribe.KeepsPoints k) := by
  intro n w
  obtain ⟨k, hpow⟩ := hpower
  have hn : n = 2 ^ k := hpow
  have hk : k ≤ 20 := two_pow_le_groupOrder_iff.mp (hpow ▸ hcount)
  have hw : w = base k false := by
    rw [← generator_pow_groupOrder_div hk, ← hn]
  rw [hw, hn]
  refine ⟨(isPrimitiveRoot_base hk).eq_orderOf.symm, fun inverted => (table k inverted).toArray,
    fun inverted => ⟨list?_eq_some hk hpow inverted, Vector.size_toArray _⟩, nodup_table hk,
    fun i hi => getElem?_table hi, fun i root inverse => mul_eq_one_of_table hk, fun htwo => ?_⟩
  cases k with
  | zero => exact absurd htwo (by decide)
  | succ k =>
    rw [two_pow_succ_div_two]
    refine ⟨fun inverted => (table k inverted).toArray, fun inverted =>
      ⟨list?_half hk hpow inverted, halves_table hk inverted⟩, ?_⟩
    intro scribe hroots hinverses j hj
    obtain rfl : k = j := Nat.succ.inj (Nat.pow_right_injective le_rfl hj)
    exact Scribe.keepsPoints_of_table hk hroots hinverses

/-- The four roots of order four are listed, the third one is minus one, and the two square roots of
one are the first and the third of them. -/
theorem exists_list?_of_two_pow_four :
    (∃ k, (4 : UInt64).toNat = 2 ^ k) ∧ (4 : UInt64).toNat ≤ groupOrder ∧
    orderOf (generator ^ (groupOrder / 4)) = 4 ∧ ∃ roots inverses halved,
      list? 4 false = some roots ∧ list? 4 true = some inverses ∧ list? 2 false = some halved ∧
      roots.size = 4 ∧ roots.toList.Nodup ∧ roots[2]? = some (-1 : Residue) ∧
      halved[1]? = roots[2]? := by
  have hpower : ∃ k, (4 : UInt64).toNat = 2 ^ k := ⟨2, rfl⟩
  have hcount : (4 : UInt64).toNat ≤ groupOrder := by decide
  obtain ⟨horder, roots, hlisted, hnodup, hpowers, -, hhalves⟩ :=
    exists_list?_of_two_pow hpower hcount
  obtain ⟨halved, hhalved, -⟩ := hhalves (by decide)
  have hminus : (generator ^ (groupOrder / 4)) ^ 2 = -1 := by
    rw [← pow_mul]
    exact generator_pow_half
  exact ⟨hpower, hcount, horder, _, _, _, (hlisted false).1, (hlisted true).1, (hhalved false).1,
    (hlisted false).2, hnodup, (hpowers 2 (by decide)).trans (congrArg some hminus),
    (hhalved false).2.getElem?_eq 1⟩

end Roots

end SplitTally
