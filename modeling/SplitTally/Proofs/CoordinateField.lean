import Mathlib.FieldTheory.Finite.Basic
import Mathlib.Tactic.NormNum.Prime
import Mathlib.Tactic.Ring
import SplitTally.Crypto.X25519
import SplitTally.Proofs.ResidueField

/-!
# The coordinates are a field

The prime of the key agreement is one, by Lucas's test along the factorizations of the predecessors
of its factors. So coordinates are elements of a field, and the operations of the ladder on numbers
below the prime are polynomials over it. The power with exponent `prime - 2` is the inverse.
-/

namespace SplitTally

section Primes

private theorem prime_2773320623 : Nat.Prime 2773320623 := by
  refine prime_of_lucas 5 [2, 2437, 569003] ?_ (by norm_num) ?_ ?_
  · norm_num
  · norm_num
    reduce_mod_char
  · simp
    refine ⟨?_, ?_, ?_⟩ <;> reduce_mod_char <;> decide

private theorem prime_72106336199 : Nat.Prime 72106336199 := by
  refine prime_of_lucas 7 [2, 13, 2773320623] ?_ (by norm_num) ?_ ?_
  · simp only [List.forall_mem_cons, prime_2773320623]
    norm_num
  · norm_num
    reduce_mod_char
  · simp
    refine ⟨?_, ?_, ?_⟩ <;> reduce_mod_char <;> decide

private theorem prime_1919519569386763 : Nat.Prime 1919519569386763 := by
  refine prime_of_lucas 2 [2, 3, 7, 19, 47, 47, 127, 8574133] ?_ (by norm_num) ?_ ?_
  · norm_num
  · norm_num
    reduce_mod_char
  · simp
    refine ⟨?_, ?_, ?_, ?_, ?_, ?_, ?_⟩ <;> reduce_mod_char <;> decide

private theorem prime_31757755568855353 : Nat.Prime 31757755568855353 := by
  refine prime_of_lucas 10 [2, 2, 2, 3, 31, 107, 223, 4153, 430751] ?_ (by norm_num) ?_ ?_
  · norm_num
  · norm_num
    reduce_mod_char
  · simp
    refine ⟨?_, ?_, ?_, ?_, ?_, ?_, ?_⟩ <;> reduce_mod_char <;> decide

private theorem prime_75445702479781427272750846543864801 :
    Nat.Prime 75445702479781427272750846543864801 := by
  refine prime_of_lucas 7
    [2, 2, 2, 2, 2, 3, 3, 5, 5, 75707, 72106336199, 1919519569386763] ?_ (by norm_num) ?_ ?_
  · simp only [List.forall_mem_cons, prime_72106336199, prime_1919519569386763]
    norm_num
  · norm_num
    reduce_mod_char
  · simp
    refine ⟨?_, ?_, ?_, ?_, ?_, ?_⟩ <;> reduce_mod_char <;> decide

/-- The greatest prime factor of `2 ^ 255 - 20`. -/
private theorem prime_cofactor :
    Nat.Prime 74058212732561358302231226437062788676166966415465897661863160754340907 := by
  refine prime_of_lucas 2 [2, 3, 353, 57467, 132049, 1923133, 31757755568855353,
    75445702479781427272750846543864801] ?_ (by norm_num) ?_ ?_
  · simp only [List.forall_mem_cons, prime_31757755568855353,
      prime_75445702479781427272750846543864801]
    norm_num
  · norm_num
    reduce_mod_char
  · simp
    refine ⟨?_, ?_, ?_, ?_, ?_, ?_, ?_, ?_⟩ <;> reduce_mod_char <;> decide

end Primes

namespace X25519

/-- The order of the field of coordinates is a prime. -/
theorem prime_prime : prime.Prime := by
  change Nat.Prime (2 ^ 255 - 19)
  refine prime_of_lucas 2 [2, 2, 3, 65147,
    74058212732561358302231226437062788676166966415465897661863160754340907] ?_ (by norm_num) ?_ ?_
  · simp only [List.forall_mem_cons, prime_cofactor]
    norm_num
  · norm_num
    reduce_mod_char
  · simp
    refine ⟨?_, ?_, ?_, ?_⟩ <;> reduce_mod_char <;> decide

instance : Fact prime.Prime := ⟨prime_prime⟩

/-! ### Bits -/

/-- The bits of a number, from the highest one on. -/
theorem bits_succ (n value : ℕ) : bits (n + 1) value = value.testBit n :: bits n value := by
  rw [bits, List.range_succ_eq_map, List.map_cons, List.map_map, bits]
  congr 1
  refine List.map_congr_left fun i _ => ?_
  simp only [Function.comp_apply]
  congr 1
  omega

/-- The lowest bits of a number, and the next one. -/
theorem mod_two_pow_succ (value n : ℕ) :
    value % 2 ^ (n + 1) = value % 2 ^ n + 2 ^ n * (value.testBit n).toNat := by
  rw [Nat.mod_pow_succ, Nat.toNat_testBit]

/-! ### Arithmetic modulo the prime -/

/-- The order of the field of coordinates is not zero. -/
theorem prime_pos : 0 < prime := prime_prime.pos

/-- What is left of the prime is the negative. -/
theorem cast_prime_sub {a : ℕ} (h : a ≤ prime) : ((prime - a : ℕ) : ZMod prime) = -a := by
  rw [Nat.cast_sub h, ZMod.natCast_self, zero_sub]

/-- Squaring and multiplying along the bits of the exponent is the power. -/
theorem cast_power (a : ℕ) {e : ℕ} (he : e < 2 ^ 255) :
    ((power a e : ℕ) : ZMod prime) = (a : ZMod prime) ^ e := by
  have hfold (n acc : ℕ) :
      (((bits n e).foldl (fun acc bit =>
        if bit then acc * acc * a % prime else acc * acc % prime) acc : ℕ) : ZMod prime) =
        (acc : ZMod prime) ^ 2 ^ n * (a : ZMod prime) ^ (e % 2 ^ n) := by
    induction n generalizing acc with
    | zero => simp [bits, Nat.mod_one]
    | succ n ih =>
      rw [bits_succ, List.foldl_cons, ih, mod_two_pow_succ, pow_add, pow_succ 2, pow_mul']
      cases e.testBit n with
      | true =>
        simp only [if_true, ZMod.natCast_mod, Nat.cast_mul, Bool.toNat_true]
        ring
      | false =>
        simp only [Bool.false_eq_true, if_false, ZMod.natCast_mod, Nat.cast_mul,
          Bool.toNat_false]
        ring
  rw [power, hfold, Nat.mod_eq_of_lt he, Nat.cast_one, one_pow, one_mul]

/-- The power with exponent `prime - 2` is the inverse. -/
theorem cast_power_eq_inv (a : ℕ) :
    ((power a (prime - 2) : ℕ) : ZMod prime) = (a : ZMod prime)⁻¹ := by
  have hsize : prime - 2 < 2 ^ 255 := by decide
  rw [cast_power a hsize]
  by_cases hzero : (a : ZMod prime) = 0
  · rw [hzero, inv_zero, zero_pow (by decide)]
  · have hsucc : prime - 2 + 1 = prime - 1 := by decide
    have hone : (a : ZMod prime) ^ (prime - 2) * a = 1 := by
      rw [← pow_succ, hsucc]
      exact ZMod.pow_card_sub_one_eq_one hzero
    exact eq_inv_of_mul_eq_one_left hone

end X25519

end SplitTally
