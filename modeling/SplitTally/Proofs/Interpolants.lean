import Mathlib.Data.List.GetD
import SplitTally.Proofs.SharePolynomials

/-!
# The only polynomials with given values

The polynomial of the slots is the only one of its degree with the first value, the slots and zeros
at the roots of unity, and the polynomial of the packed values the only one with these at the odd
exponents. So each is described by its values alone.
-/

namespace SplitTally.BitProof

open Polynomial

/-- Of degree below `n`, the polynomial takes the value `first` at the first node, the slots at the
nodes behind it, and zero at the nodes that are left over below the `n`-th. -/
structure TakesSlots (node : ℕ → Residue) (n : ℕ) (first : Residue) (xs : List Residue)
    (f : Residue[X]) : Prop where
  /-- The degree. -/
  degree_lt : f.degree < n
  /-- The value at the first node. -/
  first : f.eval (node 0) = first
  /-- The values at the nodes of the slots. -/
  slot : ∀ i (hi : i < xs.length), f.eval (node (i + 1)) = xs[i]
  /-- The values at the other nodes. -/
  leftOver : ∀ i, xs.length < i → i < n → f.eval (node i) = 0

/-- Of degree below `2 * n`, the polynomial takes the value `first` at the first node, zero at the
other even nodes below the `2 * n`-th, and the packed values at the odd ones. -/
structure TakesPacked (node : ℕ → Residue) (n : ℕ) (first : Residue) (packed : List Residue)
    (h : Residue[X]) : Prop where
  /-- The degree. -/
  degree_lt : h.degree < (2 * n : ℕ)
  /-- The value at the first node. -/
  first : h.eval (node 0) = first
  /-- The values at the other even nodes. -/
  even : ∀ i, 1 ≤ i → i < n → h.eval (node (2 * i)) = 0
  /-- The values at the odd nodes. -/
  odd : ∀ j (hj : j < packed.length), h.eval (node (2 * j + 1)) = packed[j]

variable {k : ℕ} {first : Residue} {xs packed : List Residue}

/-- The values of the slots at the roots of unity determine the polynomial of the slots. -/
theorem takesSlots_iff (hk : k ≤ 20) (hroom : xs.length < 2 ^ k) {f : Residue[X]} :
    TakesSlots (Roots.base k false ^ ·) (2 ^ k) first xs f ↔ f = slotPolynomial k first xs := by
  constructor
  · intro h
    refine Transform.eq_through hk (by exact_mod_cast h.degree_lt) fun i hi => ?_
    cases i with
    | zero => exact h.first
    | succ i =>
      rw [List.getD_cons_succ]
      by_cases hslot : i < xs.length
      · rw [h.slot i hslot, List.getD_eq_getElem _ _ hslot]
      · rw [h.leftOver (i + 1) (by omega) hi, List.getD_eq_default _ _ (by omega)]
  · rintro rfl
    have heval {i : ℕ} (hi : i < 2 ^ k) := eval_slotPolynomial hk first xs hi
    refine ⟨by exact_mod_cast degree_slotPolynomial_lt hk first xs, heval (by omega), ?_, ?_⟩
    · intro i hi
      rw [heval (by omega), List.getD_cons_succ, List.getD_eq_getElem _ _ hi]
    · intro i hbehind hi
      rw [heval hi, List.getD_eq_default _ _ (by simpa using hbehind)]

/-- The packed values determine the polynomial of the packed values. -/
theorem takesPacked_iff (hk : k < 20) (hpacked : packed.length = 2 ^ k) {h : Residue[X]} :
    TakesPacked (Roots.base (k + 1) false ^ ·) (2 ^ k) first packed h ↔
      h = productPolynomial k first packed := by
  have hdouble := Transform.pow_succ_eq k
  constructor
  · intro htakes
    refine Transform.eq_through (k := k + 1) hk
      (by rw [hdouble]; exact_mod_cast htakes.degree_lt) fun i hi => ?_
    obtain ⟨j, rfl | rfl⟩ := i.even_or_odd'
    · have heven : ¬ 2 * j % 2 = 1 := by omega
      rw [if_neg heven]
      cases j with
      | zero => exact htakes.first
      | succ j => exact htakes.even (j + 1) (by omega) (by omega)
    · have hj : j < packed.length := by omega
      have hodd : (2 * j + 1) % 2 = 1 := by omega
      have hhalf : (2 * j + 1) / 2 = j := by omega
      rw [if_neg (by omega), if_pos hodd, hhalf, htakes.odd j hj, List.getD_eq_getElem _ _ hj]
  · rintro rfl
    have heval {i : ℕ} (hi : i < 2 ^ (k + 1)) := eval_productPolynomial hk first packed hi
    refine ⟨by rw [← hdouble]; exact degree_productPolynomial_lt hk first packed,
      heval (Nat.two_pow_pos _), ?_, ?_⟩
    · intro i hpos hi
      have heven : ¬ 2 * i % 2 = 1 := by omega
      rw [heval (by omega), if_neg (by omega), if_neg heven]
    · intro j hj
      have hodd : (2 * j + 1) % 2 = 1 := by omega
      have hhalf : (2 * j + 1) / 2 = j := by omega
      rw [heval (by omega), if_neg (by omega), if_pos hodd, hhalf, List.getD_eq_getElem _ _ hj]

/-! ### The nodes -/

variable {d : ℕ}

/-- The nodes of the slots are powers of the generator to the order of the group divided by their
number. -/
theorem generator_pow_points (hd : d ≤ Schema.maxDimension) :
    Roots.generator ^ (Roots.groupOrder / 2 ^ Nat.clog 2 (d + 1)) =
      Roots.base (pointBits d) false := by
  have hk := pointBits_le hd
  rw [← pointBits_eq_clog, Roots.generator_pow_groupOrder_div (by omega)]

/-- The nodes of the product are powers of the generator to the order of the group divided by twice
the number of those of the slots. -/
theorem generator_pow_two_mul_points (hd : d ≤ Schema.maxDimension) :
    Roots.generator ^ (Roots.groupOrder / (2 * 2 ^ Nat.clog 2 (d + 1))) =
      Roots.base (pointBits d + 1) false := by
  have hk := pointBits_le hd
  rw [← pointBits_eq_clog, ← Transform.pow_succ_eq,
    Roots.generator_pow_groupOrder_div (by omega)]

/-- The root of unity for the points of `f` and `g` has their number as its order. -/
theorem isPrimitiveRoot_points (hd : d ≤ Schema.maxDimension) :
    IsPrimitiveRoot (Roots.generator ^ (Roots.groupOrder / 2 ^ Nat.clog 2 (d + 1)))
      (2 ^ Nat.clog 2 (d + 1)) := by
  have hk := pointBits_le hd
  rw [generator_pow_points hd, ← pointBits_eq_clog]
  exact Roots.isPrimitiveRoot_base (by omega)

/-- The root of unity for the points of `h` has twice that number as its order. -/
theorem isPrimitiveRoot_two_mul_points (hd : d ≤ Schema.maxDimension) :
    IsPrimitiveRoot (Roots.generator ^ (Roots.groupOrder / (2 * 2 ^ Nat.clog 2 (d + 1))))
      (2 * 2 ^ Nat.clog 2 (d + 1)) := by
  have hk := pointBits_le hd
  rw [generator_pow_two_mul_points hd, ← pointBits_eq_clog, ← Transform.pow_succ_eq]
  exact Roots.isPrimitiveRoot_base (by omega)

/-- At the nodes for `d` slots the values of the slots determine the polynomial of the slots. -/
theorem takesSlots_points_iff (hd : d ≤ Schema.maxDimension) (hxs : xs.length = d)
    {f : Residue[X]} :
    TakesSlots ((Roots.generator ^ (Roots.groupOrder / 2 ^ Nat.clog 2 (d + 1))) ^ ·)
      (2 ^ Nat.clog 2 (d + 1)) first xs f ↔ f = slotPolynomial (pointBits d) first xs := by
  have hk := pointBits_le hd
  rw [generator_pow_points hd, ← pointBits_eq_clog]
  exact takesSlots_iff (by omega) (hxs ▸ lt_two_pow_digits d)

/-- At the nodes for the product of `d` slots the packed values determine the polynomial of the
packed values. -/
theorem takesPacked_points_iff (hd : d ≤ Schema.maxDimension)
    (hpacked : packed.length = 2 ^ pointBits d) {h : Residue[X]} :
    TakesPacked ((Roots.generator ^ (Roots.groupOrder / (2 * 2 ^ Nat.clog 2 (d + 1)))) ^ ·)
      (2 ^ Nat.clog 2 (d + 1)) first packed h ↔
        h = productPolynomial (pointBits d) first packed := by
  have hk := pointBits_le hd
  rw [generator_pow_two_mul_points hd, ← pointBits_eq_clog]
  exact takesPacked_iff (by omega) hpacked

end SplitTally.BitProof
