import Mathlib.Algebra.BigOperators.Associated
import Mathlib.Data.ZMod.Basic
import Mathlib.FieldTheory.Finite.Basic
import Mathlib.NumberTheory.LucasPrimality
import Mathlib.Tactic.NormNum.Prime
import Mathlib.Tactic.ReduceModChar
import Mathlib.Tactic.Ring
import SplitTally.Residue

/-!
# The residues are a field

The share modulus is prime, and the operations on representatives are those of the integers modulo
it. So the residues are a field with `modulus` elements, in which powers by squaring along the bits
of the exponent are the usual ones and the power with exponent `modulus - 2` is the inverse.
-/

namespace SplitTally

/-- Lucas's test, with the primes that divide `p - 1` given as a list with product `p - 1`. -/
theorem prime_of_lucas {p : ℕ} (a : ZMod p) (factors : List ℕ)
    (hprime : ∀ q ∈ factors, q.Prime) (hprod : factors.prod = p - 1)
    (hone : a ^ (p - 1) = 1) (hne : ∀ q ∈ factors, a ^ ((p - 1) / q) ≠ 1) : p.Prime := by
  refine lucas_primality p a hone fun q hq hdvd => ?_
  rw [← hprod] at hdvd
  obtain ⟨r, hr, hqr⟩ := (Prime.dvd_prod_iff hq.prime).mp hdvd
  have heq : q = r := (Nat.prime_dvd_prime_iff_eq hq (hprime r hr)).mp hqr
  exact heq ▸ hne r hr

/-- The share modulus is prime; its predecessor is `2 ^ 20 * 3 ^ 2 * 5 * 7 * 13`. -/
theorem modulus_prime : modulus.Prime := by
  change Nat.Prime 4293918721
  refine prime_of_lucas 19 (List.replicate 20 2 ++ [3, 3, 5, 7, 13]) ?_ (by norm_num) ?_ ?_
  · norm_num
  · norm_num
    reduce_mod_char
  · simp
    refine ⟨?_, ?_, ?_, ?_, ?_⟩ <;> reduce_mod_char <;> decide

instance : Fact modulus.Prime := ⟨modulus_prime⟩

namespace Residue

/-- The residue as an integer modulo the share modulus. -/
def toZMod (a : Residue) : ZMod modulus := (a.toNat : ZMod modulus)

/-- Residues are told apart by their classes. -/
theorem toZMod_injective : Function.Injective toZMod := by
  intro a b h
  have hmod := (ZMod.natCast_eq_natCast_iff' _ _ _).mp h
  rw [Nat.mod_eq_of_lt a.toNat_lt, Nat.mod_eq_of_lt b.toNat_lt] at hmod
  exact ext_toNat hmod

/-- The class of a residue has the residue as its representative. -/
theorem val_toZMod (a : Residue) : a.toZMod.val = a.toNat := by
  rw [toZMod, ZMod.val_natCast, Nat.mod_eq_of_lt a.toNat_lt]

/-- Zero is the class of zero. -/
@[simp] theorem toZMod_zero : (0 : Residue).toZMod = 0 := by
  simp [toZMod, toNat_zero]

/-- One is the class of one. -/
@[simp] theorem toZMod_one : (1 : Residue).toZMod = 1 := by
  simp [toZMod, toNat_one]

/-- Sums are taken class by class. -/
@[simp] theorem toZMod_add (a b : Residue) : (a + b).toZMod = a.toZMod + b.toZMod := by
  simp [toZMod, toNat_add]

/-- Products are taken class by class. -/
@[simp] theorem toZMod_mul (a b : Residue) : (a * b).toZMod = a.toZMod * b.toZMod := by
  simp [toZMod, toNat_mul]

/-- Negatives are taken class by class. -/
@[simp] theorem toZMod_neg (a : Residue) : (-a).toZMod = -a.toZMod := by
  simp [toZMod, toNat_neg, Nat.cast_sub a.toNat_lt.le]

/-- Differences are taken class by class. -/
@[simp] theorem toZMod_sub (a b : Residue) : (a - b).toZMod = a.toZMod - b.toZMod := by
  simp [toZMod, toNat_sub, Nat.cast_sub b.toNat_lt.le, sub_eq_add_neg]

/-- Residues satisfy the laws of a commutative ring, since the integers modulo `modulus` do. -/
instance : CommRing Residue where
  add_assoc a b c := toZMod_injective (by simp only [toZMod_add]; ring)
  zero_add a := toZMod_injective (by simp)
  add_zero a := toZMod_injective (by simp)
  add_comm a b := toZMod_injective (by simp only [toZMod_add]; ring)
  neg_add_cancel a := toZMod_injective (by simp)
  sub_eq_add_neg a b := toZMod_injective (by simp only [toZMod_add, toZMod_sub, toZMod_neg]; ring)
  left_distrib a b c := toZMod_injective (by simp only [toZMod_add, toZMod_mul]; ring)
  right_distrib a b c := toZMod_injective (by simp only [toZMod_add, toZMod_mul]; ring)
  zero_mul a := toZMod_injective (by simp)
  mul_zero a := toZMod_injective (by simp)
  mul_assoc a b c := toZMod_injective (by simp only [toZMod_mul]; ring)
  one_mul a := toZMod_injective (by simp)
  mul_one a := toZMod_injective (by simp)
  mul_comm a b := toZMod_injective (by simp only [toZMod_mul]; ring)
  nsmul := nsmulRec
  zsmul := zsmulRec

/-- The embedding into the integers modulo `modulus` respects the ring structure. -/
def toZModHom : Residue →+* ZMod modulus where
  toFun := toZMod
  map_zero' := toZMod_zero
  map_one' := toZMod_one
  map_add' := toZMod_add
  map_mul' := toZMod_mul

/-- Powers are taken class by class. -/
@[simp] theorem toZMod_pow (a : Residue) (n : ℕ) : (a ^ n).toZMod = a.toZMod ^ n :=
  map_pow toZModHom a n

/-- Numbers have their own classes. -/
@[simp] theorem toZMod_natCast (n : ℕ) : (n : Residue).toZMod = (n : ZMod modulus) :=
  map_natCast toZModHom n

/-- The residue of a word is that of the number in it. -/
theorem ofWord_eq (w : UInt32) : ofWord w = (w.toNat : Residue) :=
  toZMod_injective (by rw [toZMod_natCast, toZMod, toNat_ofWord, ZMod.natCast_mod])

/-! ### Powers and inverses -/

/-- The power by squaring is the usual one. -/
theorem pow_eq (a : Residue) (e : UInt32) : a.pow e = a ^ e.toNat := by
  apply toZMod_injective
  rw [toZMod, toNat_pow, ZMod.natCast_mod, Nat.cast_pow, toZMod_pow]
  rfl

/-- The inverse is the power with the exponent of Fermat's little theorem. -/
theorem inverse_eq (a : Residue) : a.inverse = a ^ (modulus - 2) := by
  apply toZMod_injective
  rw [toZMod, toNat_inverse, ZMod.natCast_mod, Nat.cast_pow, toZMod_pow]
  rfl

/-- A residue other than zero has its power with exponent `modulus - 2` as inverse. -/
theorem mul_inverse {a : Residue} (ha : a ≠ 0) : a * a.inverse = 1 := by
  have hz : a.toZMod ≠ 0 := fun h => ha (toZMod_injective (h.trans toZMod_zero.symm))
  have hexponent : modulus - 2 + 1 = modulus - 1 := rfl
  apply toZMod_injective
  rw [inverse_eq, ← pow_succ', hexponent, toZMod_pow, toZMod_one]
  exact ZMod.pow_card_sub_one_eq_one hz

/-- The power for the inverse is zero at zero. -/
theorem inverse_zero : (0 : Residue).inverse = 0 := by
  rw [inverse_eq]
  exact zero_pow (by decide)

-- Kept folded, or checking the derived operations of the field runs the 32 squarings.
attribute [local irreducible] inverse

instance : Inv Residue := ⟨inverse⟩

instance : Field Residue where
  exists_pair_ne := ⟨0, 1, by decide⟩
  mul_inv_cancel _ := mul_inverse
  inv_zero := inverse_zero
  nnqsmul := _
  nnqsmul_def _ _ := rfl
  qsmul := _
  qsmul_def _ _ := rfl

/-! ### The number of residues -/

/-- Residues are the numbers below the modulus. -/
def equivFin : Residue ≃ Fin modulus where
  toFun a := ⟨a.toNat, a.toNat_lt⟩
  invFun i := ofWord i.val.toUInt32
  left_inv a := by
    have hword : a.toNat.toUInt32 = a.val := by simp [toNat]
    apply ext_toNat
    simp only [hword, toNat_ofWord]
    exact Nat.mod_eq_of_lt a.toNat_lt
  right_inv i := by
    have hword : i.val % 2 ^ 32 = i.val := Nat.mod_eq_of_lt (i.isLt.trans (by decide))
    apply Fin.ext
    simp only [toNat_ofWord, Nat.toUInt32_eq, UInt32.toNat_ofNat', hword]
    exact Nat.mod_eq_of_lt i.isLt

instance : Fintype Residue := Fintype.ofEquiv _ equivFin.symm

end Residue

end SplitTally
