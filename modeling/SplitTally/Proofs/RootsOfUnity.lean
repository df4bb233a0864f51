import Mathlib.RingTheory.RootsOfUnity.PrimitiveRoots
import SplitTally.Proofs.ResidueField
import SplitTally.Roots

/-!
# The listed roots of unity

The generator has order `2 ^ 20`, so for each `k` up to 20 the base of the listed roots is a
primitive `2 ^ k`-th root of unity, and the table holds its successive powers. The table of inverse
roots holds the powers of its inverse, and each base is the square of the next one.
-/

namespace SplitTally.Roots

/-- Half the order of the group takes the generator to minus one. -/
theorem generator_pow_half : generator ^ 2 ^ 19 = -1 := by
  have h : generator.pow (2 ^ 19) = -1 := by decide +kernel
  rwa [Residue.pow_eq] at h

/-- The generator has the order of the group of roots of unity. -/
theorem isPrimitiveRoot_generator : IsPrimitiveRoot generator (2 ^ 20) := by
  have horder : orderOf generator = 2 ^ (19 + 1) := by
    apply orderOf_eq_prime_pow
    · rw [generator_pow_half]
      decide
    · rw [pow_succ, pow_mul, generator_pow_half]
      ring
  exact IsPrimitiveRoot.iff_orderOf.mpr horder

/-- The `2 ^ k`-th roots of unity are the powers of the generator with exponents that are multiples
of `2 ^ (20 - k)`. -/
theorem base_eq {k : ℕ} (hk : k ≤ 20) : base k false = generator ^ 2 ^ (20 - k) := by
  have hle : 2 ^ (20 - k) ≤ 2 ^ 20 := Nat.pow_le_pow_right (by decide) (by omega)
  have hdiv : groupOrder / 2 ^ k = 2 ^ (20 - k) := Nat.pow_div hk (by decide)
  have hword : ((2 ^ (20 - k) : ℕ).toUInt32).toNat = 2 ^ (20 - k) := by
    simp only [Nat.toUInt32_eq, UInt32.toNat_ofNat']
    exact Nat.mod_eq_of_lt (by omega)
  simp only [base, Bool.false_eq_true, if_false, Residue.pow_eq, hdiv, hword]

/-- The base of the listed roots is the generator to the order of the group divided by theirs. -/
theorem generator_pow_groupOrder_div {k : ℕ} (hk : k ≤ 20) :
    generator ^ (groupOrder / 2 ^ k) = base k false := by
  have hdiv : groupOrder / 2 ^ k = 2 ^ (20 - k) := Nat.pow_div hk (by decide)
  rw [hdiv, base_eq hk]

/-- The base of the listed `2 ^ k`-th roots is a primitive one. -/
theorem isPrimitiveRoot_base {k : ℕ} (hk : k ≤ 20) : IsPrimitiveRoot (base k false) (2 ^ k) := by
  rw [base_eq hk]
  apply isPrimitiveRoot_generator.pow (by decide)
  rw [← pow_add]
  congr 1
  omega

/-- The square of a base is the base of the roots of half the order. -/
theorem base_succ_sq {k : ℕ} (hk : k < 20) : base (k + 1) false ^ 2 = base k false := by
  rw [base_eq (by omega), base_eq (by omega), ← pow_mul, ← pow_succ]
  congr 2
  omega

/-- The base of the inverse roots is the inverse of the base. -/
theorem base_true {k : ℕ} : base k true = (base k false)⁻¹ := by
  have hpow : generator.pow (groupOrder - 1).toUInt32 = generator⁻¹ := by
    have hexponent : (groupOrder - 1).toUInt32.toNat = 2 ^ 20 - 1 := rfl
    rw [Residue.pow_eq, hexponent]
    apply eq_inv_of_mul_eq_one_left
    rw [← pow_succ]
    exact isPrimitiveRoot_generator.pow_eq_one
  simp only [base, if_true, Bool.false_eq_true, if_false, hpow, Residue.pow_eq, inv_pow]

/-- Every other power of a base is a power of the base of the roots of half the order. -/
theorem base_pow_two_mul {k : ℕ} (hk : k < 20) (inverted : Bool) (i : ℕ) :
    base (k + 1) inverted ^ (2 * i) = base k inverted ^ i := by
  rw [pow_mul]
  cases inverted with
  | false => rw [base_succ_sq hk]
  | true => rw [base_true, base_true, inv_pow, base_succ_sq hk]

private theorem powersThrough_succ (w : Residue) (n : ℕ) :
    powersThrough w (n + 1) =
      ((powersThrough w n).1.push (powersThrough w n).2, (powersThrough w n).2 * w) := rfl

private theorem powersThrough_snd (w : Residue) (n : ℕ) : (powersThrough w n).2 = w ^ n := by
  induction n with
  | zero => rfl
  | succ n ih => rw [powersThrough_succ, ih, pow_succ]

private theorem getElem_powersThrough (w : Residue) {n i : ℕ} (hi : i < n) :
    (powersThrough w n).1[i]? = some (w ^ i) := by
  induction n with
  | zero => omega
  | succ n ih =>
    rw [powersThrough_succ, Array.getElem?_push, size_powersThrough]
    by_cases h : i = n
    · rw [if_pos h, powersThrough_snd, h]
    · rw [if_neg h, ih (by omega)]

/-- The table lists the powers of its base in the order of the exponents. -/
theorem getElem_table (k : ℕ) (inverted : Bool) {i : ℕ} (hi : i < 2 ^ k) :
    (table k inverted)[i] = base k inverted ^ i := by
  have h := getElem_powersThrough (base k inverted) hi
  rw [Array.getElem?_eq_getElem (by rwa [size_powersThrough])] at h
  exact Option.some.inj h

/-- Each root of unity is listed, and nothing else is. -/
theorem mem_table_iff {k : ℕ} (hk : k ≤ 20) {r : Residue} : r ∈ table k false ↔ r ^ 2 ^ k = 1 := by
  have hbase := isPrimitiveRoot_base hk
  rw [Vector.mem_iff_getElem]
  constructor
  · rintro ⟨i, hi, rfl⟩
    rw [getElem_table, ← pow_mul, mul_comm, pow_mul, hbase.pow_eq_one, one_pow]
  · intro hone
    -- In a field all roots of an order are powers of a primitive one.
    obtain ⟨i, hi, rfl⟩ := hbase.eq_pow_of_pow_eq_one hone
    exact ⟨i, hi, getElem_table k false hi⟩

end SplitTally.Roots
