import SplitTally.Proofs.CoordinateField
import SplitTally.Proofs.MontgomeryCurve

/-!
# The ladder computes multiples

Along the bits of a scalar the ladder keeps fractions for two successive multiples of the point, so
its result is the coordinate of the multiple by the scalar. From the coordinate zero it gets zero,
and that is right too, since scalars are even. Hence both sides of a key agreement get the
coordinate of the same multiple of the base point.
-/

namespace SplitTally.X25519

open MontgomeryCurve (Points Represents curve)
open WeierstrassCurve.Affine (Point)

/-- The coefficient of the curve. -/
abbrev coefficient : ZMod prime := 486662

/-- The coefficient is none of those for which the curve is singular. -/
theorem coefficient_sq_ne : coefficient ^ 2 ≠ 4 := by
  decide +kernel

/-- Two can be divided by in the field of coordinates. -/
theorem two_ne_zero_mod : (2 : ZMod prime) ≠ 0 := by
  decide +kernel

/-- A reduced fraction for the coordinate of a point. -/
structure Fraction.IsFor (p : Fraction) (P : Points coefficient) : Prop where
  /-- The numerator is reduced. -/
  x_lt : p.x < prime
  /-- The denominator is reduced. -/
  z_lt : p.z < prime
  /-- The quotient is the coordinate. -/
  represents : Represents (p.x : ZMod prime) (p.z : ZMod prime) P

private theorem mod_lt_prime (a : ℕ) : a % prime < prime := Nat.mod_lt a prime_pos

/-- The fraction for the double of a point, in the field of coordinates. -/
theorem cast_twice {p : Fraction} (hz : p.z < prime) :
    ((twice p).x : ZMod prime) = ((p.x : ZMod prime) ^ 2 - (p.z : ZMod prime) ^ 2) ^ 2 ∧
      ((twice p).z : ZMod prime) = 4 * (p.x : ZMod prime) * p.z *
        ((p.x : ZMod prime) ^ 2 + coefficient * p.x * p.z + (p.z : ZMod prime) ^ 2) := by
  simp only [twice, ZMod.natCast_mod, Nat.cast_mul, Nat.cast_add, cast_prime_sub hz.le,
    cast_prime_sub (mod_lt_prime _).le]
  constructor
  · ring
  · push_cast
    ring

/-- The fraction for the sum of two points whose difference is known, in the field of coordinates.
-/
theorem cast_addWithDifference {u : ℕ} {p q : Fraction} (hp : p.z < prime) (hq : q.z < prime) :
    ((addWithDifference u p q).x : ZMod prime) =
        4 * ((p.x : ZMod prime) * q.x - p.z * q.z) ^ 2 ∧
      ((addWithDifference u p q).z : ZMod prime) =
        u * (4 * ((p.x : ZMod prime) * q.z - p.z * q.x) ^ 2) := by
  simp only [addWithDifference, ZMod.natCast_mod, Nat.cast_mul, Nat.cast_add,
    cast_prime_sub hp.le, cast_prime_sub hq.le, cast_prime_sub (mod_lt_prime _).le]
  constructor
  · ring
  · ring

/-- Doubling a fraction. -/
theorem Fraction.IsFor.twice {p : Fraction} {P : Points coefficient} (h : p.IsFor P) :
    (twice p).IsFor (P + P) := by
  obtain ⟨hx, hz⟩ := cast_twice h.z_lt
  refine ⟨mod_lt_prime _, mod_lt_prime _, ?_⟩
  rw [hx, hz]
  exact h.represents.add_self coefficient_sq_ne two_ne_zero_mod

/-- Adding two fractions for points with a known difference. -/
theorem Fraction.IsFor.add {u : ℕ} {v : ZMod prime} {p q : Fraction} {P Q : Points coefficient}
    {hD : (curve coefficient).toAffine.Nonsingular (u : ZMod prime) v} (hu : (u : ZMod prime) ≠ 0)
    (hdifference : Q = P + Point.some (u : ZMod prime) v hD) (hp : p.IsFor P) (hq : q.IsFor Q) :
    (addWithDifference u p q).IsFor (P + Q) := by
  obtain ⟨hx, hz⟩ := cast_addWithDifference (u := u) hp.z_lt hq.z_lt
  refine ⟨mod_lt_prime _, mod_lt_prime _, ?_⟩
  rw [hx, hz]
  exact Represents.add coefficient_sq_ne two_ne_zero_mod hu hdifference hp.represents hq.represents

section Run

variable {u : ℕ} {v : ZMod prime}
  {hD : (curve coefficient).toAffine.Nonsingular (u : ZMod prime) v}

/-- The fractions are for the multiple of the point by `m` and for the one after it. -/
def Holds (hD : (curve coefficient).toAffine.Nonsingular (u : ZMod prime) v) (m : ℕ)
    (pair : Fraction × Fraction) : Prop :=
  pair.1.IsFor (m • Point.some (u : ZMod prime) v hD) ∧
    pair.2.IsFor ((m + 1) • Point.some (u : ZMod prime) v hD)

/-- A bit of the scalar is appended to the multiple. -/
theorem Holds.step (hu : (u : ZMod prime) ≠ 0) {m : ℕ} {pair : Fraction × Fraction}
    (h : Holds hD m pair) (bit : Bool) : Holds hD (2 * m + bit.toNat) (step u pair bit) := by
  obtain ⟨p, q⟩ := pair
  obtain ⟨hp, hq⟩ := h
  have hsum : (addWithDifference u p q).IsFor ((2 * m + 1) • Point.some (u : ZMod prime) v hD) := by
    have hadd := Fraction.IsFor.add hu (succ_nsmul (Point.some (u : ZMod prime) v hD) m) hp hq
    rwa [← add_nsmul, ← Nat.add_assoc, ← two_mul] at hadd
  cases bit with
  | false =>
    have htwice := hp.twice
    rw [← add_nsmul, ← two_mul] at htwice
    exact ⟨htwice, hsum⟩
  | true =>
    have htwice := hq.twice
    have hcount : m + 1 + (m + 1) = 2 * m + 1 + 1 := by ring
    rw [← add_nsmul, hcount] at htwice
    exact ⟨hsum, htwice⟩

/-- The bits of a number are appended to the multiple, most significant first. -/
theorem Holds.foldl (hu : (u : ZMod prime) ≠ 0) (value n : ℕ) {m : ℕ}
    {pair : Fraction × Fraction} (h : Holds hD m pair) :
    Holds hD (m * 2 ^ n + value % 2 ^ n) ((bits n value).foldl (X25519.step u) pair) := by
  induction n generalizing m pair with
  | zero => simpa [bits, Nat.mod_one] using h
  | succ n ih =>
    rw [bits_succ, List.foldl_cons]
    have hrest := ih (h.step hu (value.testBit n))
    have hvalue : (2 * m + (value.testBit n).toNat) * 2 ^ n + value % 2 ^ n =
        m * 2 ^ (n + 1) + value % 2 ^ (n + 1) := by
      rw [mod_two_pow_succ]
      ring
    rwa [hvalue] at hrest

end Run

/-- The bytes of an element of the field. -/
def bytesOf (x : ZMod prime) : List UInt8 := toBytes size x.val

/-- The result of the ladder is the quotient of the fraction that it ends with. -/
private theorem multiply_eq_bytesOf_div {scalar u : ℕ} {pair : Fraction × Fraction}
    (h : (bits 255 scalar).foldl (X25519.step u) (⟨1, 0⟩, ⟨u, 1⟩) = pair) :
    multiply scalar u = bytesOf ((pair.1.x : ZMod prime) / (pair.1.z : ZMod prime)) := by
  obtain ⟨p, q⟩ := pair
  have hquotient : p.x * power p.z (prime - 2) % prime =
      ((p.x : ZMod prime) / (p.z : ZMod prime)).val := by
    rw [← ZMod.val_natCast, Nat.cast_mul, cast_power_eq_inv, div_eq_mul_inv]
  rw [multiply, h, bytesOf, ← hquotient]

/-- The ladder computes the coordinate of the multiple, from a coordinate other than zero. -/
theorem multiply_eq {scalar u : ℕ} (hscalar : scalar < 2 ^ 255) (hu : u < prime)
    (hne : (u : ZMod prime) ≠ 0) {v : ZMod prime}
    (hD : (curve coefficient).toAffine.Nonsingular (u : ZMod prime) v) :
    multiply scalar u =
      bytesOf (MontgomeryCurve.coordinate (scalar • Point.some (u : ZMod prime) v hD)) := by
  have hone : 1 < prime := prime_prime.one_lt
  have hstart : Holds hD 0 (⟨1, 0⟩, ⟨u, 1⟩) := by
    constructor
    · refine ⟨hone, prime_pos, ?_⟩
      rw [zero_nsmul]
      exact ⟨by simp, by simp⟩
    · refine ⟨hu, hone, ?_⟩
      rw [zero_add, one_nsmul]
      exact ⟨by simp, by simp⟩
  have hend := (hstart.foldl hne scalar 255).1
  rw [zero_mul, zero_add, Nat.mod_eq_of_lt hscalar] at hend
  rw [multiply_eq_bytesOf_div rfl, hend.represents.div_eq]

/-! ### The coordinate zero -/

/-- One part of the fraction is zero. -/
structure Fraction.Vanishes (p : Fraction) : Prop where
  /-- The denominator is reduced. -/
  z_lt : p.z < prime
  /-- The product of the parts is zero. -/
  mul_eq_zero : (p.x : ZMod prime) * p.z = 0

/-- A fraction that vanishes still does so when its point is doubled. -/
theorem Fraction.Vanishes.twice {p : Fraction} (h : p.Vanishes) : (twice p).Vanishes := by
  refine ⟨mod_lt_prime _, ?_⟩
  rw [(cast_twice h.z_lt).2]
  linear_combination 4 * ((X25519.twice p).x : ZMod prime) *
    ((p.x : ZMod prime) ^ 2 + coefficient * p.x * p.z + (p.z : ZMod prime) ^ 2) * h.mul_eq_zero

/-- Fractions that vanish still do so when their points are added. -/
theorem Fraction.Vanishes.add {p q : Fraction} (hp : p.Vanishes) (hq : q.Vanishes) :
    (addWithDifference 0 p q).Vanishes := by
  refine ⟨mod_lt_prime _, ?_⟩
  rw [(cast_addWithDifference hp.z_lt hq.z_lt).2, Nat.cast_zero, zero_mul, mul_zero]

private theorem vanishes_foldl (bits : List Bool) (pair : Fraction × Fraction)
    (h : pair.1.Vanishes ∧ pair.2.Vanishes) :
    (bits.foldl (X25519.step 0) pair).1.Vanishes ∧
      (bits.foldl (X25519.step 0) pair).2.Vanishes := by
  induction bits generalizing pair with
  | nil => exact h
  | cons bit bits ih =>
    obtain ⟨hp, hq⟩ := h
    refine ih _ ?_
    cases bit with
    | false => exact ⟨hp.twice, hp.add hq⟩
    | true => exact ⟨hp.add hq, hq.twice⟩

/-- From the coordinate zero the ladder gets zero. -/
theorem multiply_zero (scalar : ℕ) : multiply scalar 0 = bytesOf 0 := by
  have hone : Fraction.Vanishes ⟨1, 0⟩ := ⟨prime_pos, by simp⟩
  have hzero : Fraction.Vanishes ⟨0, 1⟩ := ⟨prime_prime.one_lt, by simp⟩
  rw [multiply_eq_bytesOf_div rfl]
  have hend := vanishes_foldl (bits 255 scalar) (⟨1, 0⟩, ⟨0, 1⟩) ⟨hone, hzero⟩
  generalize (bits 255 scalar).foldl (X25519.step 0) _ = pair at hend ⊢
  rcases mul_eq_zero.mp hend.1.mul_eq_zero with hx | hz
  · rw [hx, zero_div]
  · rw [hz, div_zero]

/-! ### Key agreement -/

/-- A clamped scalar has 255 bits. -/
theorem scalar_lt (secret : List UInt8) : scalar secret < 2 ^ 255 := by
  unfold scalar
  omega

/-- A clamped scalar is even. -/
theorem exists_scalar_eq (secret : List UInt8) : ∃ t, scalar secret = t * 2 :=
  ⟨ofBytes secret % 2 ^ 254 / 8 * 4 + 2 ^ 253, by unfold scalar; omega⟩

/-- A point with the coordinate zero is its own inverse, and scalars are even. -/
theorem scalar_nsmul_of_coordinate_zero (secret : List UInt8) {u v : ZMod prime}
    (hP : (curve coefficient).toAffine.Nonsingular u v) (hu : u = 0) :
    scalar secret • Point.some u v hP = 0 := by
  obtain ⟨t, ht⟩ := exists_scalar_eq secret
  rw [ht, mul_nsmul', two_nsmul, MontgomeryCurve.add_self_of_coordinate_zero hP hu, nsmul_zero]

/-- By a scalar the ladder multiplies every point. -/
theorem multiply_scalar (secret : List UInt8) (P : Points coefficient) :
    multiply (scalar secret) (MontgomeryCurve.coordinate P).val =
      bytesOf (MontgomeryCurve.coordinate (scalar secret • P)) := by
  cases P with
  | zero =>
    have hzero : scalar secret • (Point.zero : Points coefficient) = Point.zero := nsmul_zero _
    rw [hzero]
    exact multiply_zero _
  | some u v hP =>
    obtain ⟨n, hn, rfl⟩ : ∃ n < prime, u = (n : ZMod prime) :=
      ⟨u.val, ZMod.val_lt u, (ZMod.natCast_zmod_val u).symm⟩
    have hval : (MontgomeryCurve.coordinate (Point.some (n : ZMod prime) v hP)).val = n :=
      ZMod.val_cast_of_lt hn
    rw [hval]
    by_cases hne : (n : ZMod prime) = 0
    · have hzero : n = 0 := by
        rw [← hval]
        exact (ZMod.val_eq_zero _).mpr hne
      rw [scalar_nsmul_of_coordinate_zero secret hP hne, hzero]
      exact multiply_zero _
    · exact multiply_eq (scalar_lt secret) hn hne hP

/-- The base point has the coordinate nine. -/
theorem nonsingular_base : (curve coefficient).toAffine.Nonsingular ((9 : ℕ) : ZMod prime)
    14781619447589544791020593568409986887264606134616475288964881837755586237401 := by
  rw [WeierstrassCurve.Affine.nonsingular_iff, WeierstrassCurve.Affine.equation_iff]
  simp only [curve, coefficient]
  decide +kernel

/-- The base point. -/
def base : Points coefficient := Point.some _ _ nonsingular_base

/-- Bytes tell a number up to what does not fit in them. -/
theorem ofBytes_toBytes (n value : ℕ) : ofBytes (toBytes n value) = value % 256 ^ n := by
  induction n generalizing value with
  | zero => simp [toBytes, ofBytes, Nat.mod_one]
  | succ n ih =>
    have hrest : ofBytes (toBytes (n + 1) value) =
        value.toUInt8.toNat + 256 * ofBytes (toBytes n (value / 256)) := rfl
    have hbyte : value.toUInt8.toNat = value % 256 := by simp
    rw [hrest, hbyte, ih, pow_succ', Nat.mod_mul]

/-- The bytes of a reduced coordinate are read back. -/
theorem coordinate_bytesOf (x : ZMod prime) : coordinate (bytesOf x) = x.val := by
  have hx : x.val < prime := ZMod.val_lt x
  have hprime : prime < 2 ^ 255 := by decide
  have hsize : 2 ^ 255 < 256 ^ size := by decide
  rw [coordinate, bytesOf, ofBytes_toBytes, Nat.mod_eq_of_lt (hx.trans (hprime.trans hsize)),
    Nat.mod_eq_of_lt (hx.trans hprime), Nat.mod_eq_of_lt hx]

/-- A public key holds the coordinate of the multiple of the base point. -/
theorem publicKey_eq (secret : List UInt8) :
    publicKey secret = bytesOf (MontgomeryCurve.coordinate (scalar secret • base)) :=
  multiply_eq (scalar_lt secret) (by decide) (by decide +kernel) nonsingular_base

/-- The shared secret holds the coordinate of the multiple of the base point by both scalars. -/
theorem agree_publicKey (secret secret' : List UInt8) :
    agree secret (publicKey secret') =
      bytesOf (MontgomeryCurve.coordinate ((scalar secret * scalar secret') • base)) := by
  rw [agree, publicKey_eq, coordinate_bytesOf, mul_nsmul', multiply_scalar]

/-- Both sides of a key agreement get the same secret. -/
theorem agree_comm (secret secret' : List UInt8) :
    agree secret (publicKey secret') = agree secret' (publicKey secret) := by
  rw [agree_publicKey, agree_publicKey, mul_comm]

end SplitTally.X25519
