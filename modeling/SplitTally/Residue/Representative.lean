/-!
# Arithmetic on representatives

A residue is computed with as its representative, the number below the share modulus that it is the
residue of, in a 64-bit word. A sum or a product of two representatives is formed in such a word
before it is reduced. What becomes of one that does not fit is left to the arithmetic of words that
the computation is run with, and the computations below have the same result in every arithmetic
that is exact on what fits.
-/

namespace SplitTally

-- Powers of numbers are those of core, whatever other powers are in scope.
attribute [local instance (high)] instPowNat

/-- The share modulus, the prime `2 ^ 32 - 2 ^ 20 + 1`. -/
def modulus : Nat := 4293918721

/-- Sums and products of 64-bit words, as computations that may find that one does not fit. -/
structure WordArithmetic (m : Type → Type) where
  /-- The sum of two words. -/
  add : UInt64 → UInt64 → m UInt64
  /-- The product of two words. -/
  mul : UInt64 → UInt64 → m UInt64

namespace WordArithmetic

variable {m : Type → Type} [Monad m]

/-- The arithmetic that keeps the lowest 64 bits of every sum and product. -/
@[inline] def wrapping : WordArithmetic Id where
  add x y := pure (x + y)
  mul x y := pure (x * y)

/-- The arithmetic without a result where a sum or a product does not fit in a word. -/
@[inline] def checked : WordArithmetic Option where
  add x y := if x.toNat + y.toNat < UInt64.size then some (x + y) else none
  mul x y := if x.toNat * y.toNat < UInt64.size then some (x * y) else none

/-- An arithmetic is exact if it returns the sums and products that fit in a word. -/
structure Exact (arithmetic : WordArithmetic m) : Prop where
  add {x y : UInt64} (h : x.toNat + y.toNat < UInt64.size) : arithmetic.add x y = pure (x + y)
  mul {x y : UInt64} (h : x.toNat * y.toNat < UInt64.size) : arithmetic.mul x y = pure (x * y)

/-- Words that wrap around are exact on what fits. -/
theorem exact_wrapping : wrapping.Exact where
  add _ := rfl
  mul _ := rfl

/-- Checked words are exact on what fits. -/
theorem exact_checked : checked.Exact where
  add h := if_pos h
  mul h := if_pos h

/-- A checked sum is there exactly if the sum of the numbers fits in a word, and is that sum. -/
theorem checked_add_eq_some_iff {x y z : UInt64} :
    checked.add x y = some z ↔ z.toNat = x.toNat + y.toNat := by
  by_cases hfits : x.toNat + y.toNat < UInt64.size
  · have hadd : checked.add x y = some (x + y) := exact_checked.add hfits
    have hsum : (x + y).toNat = x.toNat + y.toNat := by
      rw [UInt64.toNat_add]
      exact Nat.mod_eq_of_lt hfits
    rw [hadd, ← hsum, Option.some_inj, UInt64.toNat_inj, eq_comm]
  · have hadd : checked.add x y = none := if_neg hfits
    rw [hadd]
    exact ⟨fun h => (Option.some_ne_none _ h.symm).elim, fun h => (hfits (h ▸ z.toNat_lt)).elim⟩

/-- A checked product is there exactly if the product of the numbers fits in a word, and is that
product. -/
theorem checked_mul_eq_some_iff {x y z : UInt64} :
    checked.mul x y = some z ↔ z.toNat = x.toNat * y.toNat := by
  by_cases hfits : x.toNat * y.toNat < UInt64.size
  · have hmul : checked.mul x y = some (x * y) := exact_checked.mul hfits
    have hproduct : (x * y).toNat = x.toNat * y.toNat := by
      rw [UInt64.toNat_mul]
      exact Nat.mod_eq_of_lt hfits
    rw [hmul, ← hproduct, Option.some_inj, UInt64.toNat_inj, eq_comm]
  · have hmul : checked.mul x y = none := if_neg hfits
    rw [hmul]
    exact ⟨fun h => (Option.some_ne_none _ h.symm).elim, fun h => (hfits (h ▸ z.toNat_lt)).elim⟩

end WordArithmetic

namespace Representative

/-- The share modulus as a 64-bit word. -/
def modulusWord : UInt64 := 4293918721

/-- The word holds the modulus. -/
theorem toNat_modulusWord : modulusWord.toNat = modulus := rfl

/-- The representative of a number. -/
def ofNat (n : Nat) : UInt64 := (n % modulus).toUInt64

/-- A remainder is below the modulus. -/
theorem ofNat_lt (n : Nat) : n % modulus < modulus := Nat.mod_lt n (by decide)

/-- The representative of a number is its remainder. -/
theorem toNat_ofNat (n : Nat) : (ofNat n).toNat = n % modulus := by
  have hlt := ofNat_lt n
  have hword : n % modulus < 2 ^ 64 := Nat.lt_trans hlt (by decide)
  rw [ofNat, Nat.toUInt64_eq, UInt64.toNat_ofNat', Nat.mod_eq_of_lt hword]

/-- A word is the representative of the numbers that it is the remainder of. -/
theorem eq_ofNat {w : UInt64} {n : Nat} (h : w.toNat = n % modulus) : w = ofNat n :=
  UInt64.toNat_inj.1 (h.trans (toNat_ofNat n).symm)

/-! ### Reduction and differences -/

/-- The remainder of a word by the modulus. -/
@[inline] def reduce (w : UInt64) : UInt64 := w % modulusWord

/-- Reducing a word leads to its representative. -/
theorem reduce_eq (w : UInt64) : reduce w = ofNat w.toNat :=
  eq_ofNat (UInt64.toNat_mod w modulusWord)

/-- The difference of two words, and the modulus on top of it if it borrows. Then all bits of the
mask are set, and none otherwise. -/
@[inline] def sub (x y : UInt64) : UInt64 :=
  let borrow : UInt64 := if x < y then 1 else 0
  let mask := 0 - borrow
  x - y + (mask &&& modulusWord)

/-- The difference is reduced if it is off by less than the modulus either way. -/
theorem sub_eq {x y : UInt64} (hy : y.toNat ≤ modulus) (hx : x.toNat < y.toNat + modulus) :
    sub x y = ofNat (x.toNat + (modulus - y.toNat)) := by
  apply eq_ofNat
  have hxword := x.toNat_lt
  unfold sub
  simp only [modulus] at *
  by_cases hborrow : x < y
  · have hmask : (0 - 1 : UInt64) &&& modulusWord = modulusWord := rfl
    have hlt := UInt64.lt_iff_toNat_lt.1 hborrow
    rw [if_pos hborrow, hmask, UInt64.toNat_add, UInt64.toNat_sub, toNat_modulusWord, modulus]
    omega
  · have hmask : (0 - 0 : UInt64) &&& modulusWord = 0 := rfl
    have hle := UInt64.not_lt.1 hborrow
    rw [UInt64.le_iff_toNat_le] at hle
    rw [if_neg hborrow, hmask, UInt64.add_zero, UInt64.toNat_sub]
    omega

/-- The complement of a representative in the modulus. -/
@[inline] def neg (x : UInt64) : UInt64 := sub 0 x

/-- The negative of a representative is what is missing to the modulus. -/
theorem neg_eq {x : UInt64} (hx : x.toNat < modulus) : neg x = ofNat (modulus - x.toNat) := by
  rw [neg, sub_eq (Nat.le_of_lt hx) (Nat.add_pos_right x.toNat (by decide)), UInt64.toNat_zero,
    Nat.zero_add]

section

variable {m : Type → Type} [Monad m]

/-! ### Sums and products -/

/-- The sum of two representatives, less the modulus unless that borrows. -/
@[inline] def add (arithmetic : WordArithmetic m) (x y : UInt64) : m UInt64 := do
  let sum ← arithmetic.add x y
  return sub sum modulusWord

/-- The remainder of the product of two representatives. -/
@[inline] def mul (arithmetic : WordArithmetic m) (x y : UInt64) : m UInt64 := do
  let product ← arithmetic.mul x y
  return reduce product

variable [LawfulMonad m] {arithmetic : WordArithmetic m}

/-- The sum of two representatives fits in a word. -/
theorem add_eq (h : arithmetic.Exact) {x y : UInt64} (hx : x.toNat < modulus)
    (hy : y.toNat < modulus) : add arithmetic x y = pure (ofNat (x.toNat + y.toNat)) := by
  have hfits : x.toNat + y.toNat < UInt64.size := by
    simp only [modulus, UInt64.size] at *
    omega
  have hsum : (x + y).toNat = x.toNat + y.toNat := by
    rw [UInt64.toNat_add]
    exact Nat.mod_eq_of_lt hfits
  have hsub : sub (x + y) modulusWord = ofNat (x.toNat + y.toNat) := by
    rw [sub_eq (Nat.le_of_eq toNat_modulusWord), toNat_modulusWord, Nat.sub_self, Nat.add_zero,
      hsum]
    rw [toNat_modulusWord, hsum]
    omega
  rw [add, h.add hfits, pure_bind, hsub]

/-- The product of two representatives fits in a word. -/
theorem mul_eq (h : arithmetic.Exact) {x y : UInt64} (hx : x.toNat < modulus)
    (hy : y.toNat < modulus) : mul arithmetic x y = pure (ofNat (x.toNat * y.toNat)) := by
  have hfits : x.toNat * y.toNat < UInt64.size :=
    calc x.toNat * y.toNat ≤ modulus * modulus :=
          Nat.mul_le_mul (Nat.le_of_lt hx) (Nat.le_of_lt hy)
      _ < UInt64.size := by decide
  have hproduct : (x * y).toNat = x.toNat * y.toNat := by
    rw [UInt64.toNat_mul]
    exact Nat.mod_eq_of_lt hfits
  rw [mul, h.mul hfits, pure_bind, reduce_eq, hproduct]

end

/-! ### Powers -/

/-- The binary digits of a word, from the leading one down. -/
def digits (e : UInt64) : List Bool :=
  (List.range (64 - e.toBitVec.clz.toNat)).reverse.map e.toNat.testBit

section

variable {m : Type → Type} [Monad m]

/-- Squares, and multiplies by `x` for a digit that is one. -/
@[inline] def powStep (arithmetic : WordArithmetic m) (x power : UInt64) (digit : Bool) :
    m UInt64 := do
  let square ← mul arithmetic power power
  if digit then mul arithmetic square x else return square

/-- The power `x ^ e`, by squaring along the digits of the exponent. -/
@[specialize] def pow (arithmetic : WordArithmetic m) (x e : UInt64) : m UInt64 :=
  (digits e).foldlM (powStep arithmetic x) 1

/-- The power with exponent two below the modulus. -/
@[specialize] def inv (arithmetic : WordArithmetic m) (x : UInt64) : m UInt64 :=
  pow arithmetic x (modulusWord - 2)

/-- The number that digits spell behind those of `n`. -/
def spelled (n : Nat) (digits : List Bool) : Nat :=
  digits.foldl (fun n digit => 2 * n + digit.toNat) n

/-- The lowest `k` digits of a number spell its remainder by `2 ^ k`. -/
theorem spelled_range (n e k : Nat) :
    spelled n ((List.range k).reverse.map e.testBit) = n * 2 ^ k + e % 2 ^ k := by
  induction k generalizing n with
  | zero => simp [spelled, Nat.mod_one]
  | succ k ih =>
    have hdigit : e % 2 ^ (k + 1) = e % 2 ^ k + 2 ^ k * (e.testBit k).toNat := by
      rw [Nat.pow_succ, Nat.mod_mul, Nat.toNat_testBit]
    rw [List.range_succ, List.reverse_append, List.reverse_singleton, List.singleton_append,
      List.map_cons]
    change spelled (2 * n + (e.testBit k).toNat) _ = _
    rw [ih, hdigit, Nat.pow_succ, Nat.add_mul, Nat.mul_comm (e.testBit k).toNat]
    have hdouble : 2 * n * 2 ^ k = n * (2 ^ k * 2) := by
      rw [Nat.mul_comm 2 n, Nat.mul_assoc, Nat.mul_comm 2]
    omega

/-- The digits of an exponent spell it. -/
theorem spelled_digits (e : UInt64) : spelled 0 (digits e) = e.toNat := by
  have hbound : e.toNat < 2 ^ (64 - e.toBitVec.clz.toNat) := BitVec.toNat_lt_two_pow_sub_clz
  rw [digits, spelled_range, Nat.zero_mul, Nat.zero_add, Nat.mod_eq_of_lt hbound]

variable [LawfulMonad m] {arithmetic : WordArithmetic m}

/-- A step doubles the exponent that is reached and adds the digit. -/
theorem powStep_eq (h : arithmetic.Exact) {x : UInt64} (hx : x.toNat < modulus) (n : Nat)
    (digit : Bool) :
    powStep arithmetic x (ofNat (x.toNat ^ n)) digit =
      pure (ofNat (x.toNat ^ (2 * n + digit.toNat))) := by
  have hlt (k : Nat) : (ofNat k).toNat < modulus := by
    rw [toNat_ofNat]
    exact ofNat_lt k
  have hsquare : mul arithmetic (ofNat (x.toNat ^ n)) (ofNat (x.toNat ^ n)) =
      pure (ofNat (x.toNat ^ (2 * n))) := by
    rw [mul_eq h (hlt _) (hlt _)]
    congr 1
    apply eq_ofNat
    rw [toNat_ofNat, toNat_ofNat, ← Nat.mul_mod, Nat.two_mul, Nat.pow_add]
  rw [powStep, hsquare, pure_bind]
  cases digit with
  | false => rfl
  | true =>
    rw [if_pos rfl, mul_eq h (hlt _) hx]
    congr 1
    apply eq_ofNat
    rw [toNat_ofNat, toNat_ofNat, Bool.toNat_true, Nat.pow_succ, Nat.mod_mul_mod]

/-- Squaring along digits raises the exponent to the number that they spell. -/
theorem foldlM_powStep_eq (h : arithmetic.Exact) {x : UInt64} (hx : x.toNat < modulus) (n : Nat)
    (digits : List Bool) :
    digits.foldlM (powStep arithmetic x) (ofNat (x.toNat ^ n)) =
      pure (ofNat (x.toNat ^ spelled n digits)) := by
  induction digits generalizing n with
  | nil => rfl
  | cons digit digits ih =>
    rw [List.foldlM_cons, powStep_eq h hx, pure_bind, ih]
    rfl

/-- The power is that of numbers, and one for the exponent zero. -/
theorem pow_eq (h : arithmetic.Exact) {x : UInt64} (hx : x.toNat < modulus) (e : UInt64) :
    pow arithmetic x e = pure (ofNat (x.toNat ^ e.toNat)) := by
  have hrun := foldlM_powStep_eq h hx 0 (digits e)
  rwa [spelled_digits] at hrun

/-- In every exact arithmetic the inverse is the representative of the power for it. -/
theorem inv_eq (h : arithmetic.Exact) {x : UInt64} (hx : x.toNat < modulus) :
    inv arithmetic x = pure (ofNat (x.toNat ^ (modulus - 2))) :=
  pow_eq h hx (modulusWord - 2)

end

end Representative

end SplitTally
