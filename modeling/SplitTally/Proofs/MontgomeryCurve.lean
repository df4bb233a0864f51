import Mathlib.AlgebraicGeometry.EllipticCurve.Affine.Point
import Mathlib.Tactic.FieldSimp
import Mathlib.Tactic.LinearCombination

/-!
# Doubling and differential addition on a Montgomery curve

On the curve `v² = u³ + A u² + u` the coordinate `u` of a sum is determined by those of the two
points and of their difference. With `u` kept as a fraction, doubling and adding two points with a
known difference are polynomials in numerators and denominators, and these are right in all cases,
those with the point at infinity included, as long as the difference has another coordinate than
zero.
-/

namespace SplitTally.MontgomeryCurve

open WeierstrassCurve.Affine (Point)

variable {F : Type*} [Field F]

/-- The curve `v² = u³ + A u² + u`. -/
def curve (A : F) : WeierstrassCurve F := ⟨0, A, 0, 1, 0⟩

/-- The points of the curve, with the one at infinity. -/
abbrev Points (A : F) : Type _ := (curve A).toAffine.Point

/-- The fraction `x / z` is the coordinate of the point; the one at infinity has the denominator
zero. -/
def Represents {A : F} (x z : F) : Points A → Prop
  | .zero => x ≠ 0 ∧ z = 0
  | .some u _ _ => z ≠ 0 ∧ x = u * z

/-- The coordinate of a point, and zero for the one at infinity. -/
def coordinate {A : F} : Points A → F
  | .zero => 0
  | .some u _ _ => u

variable {A : F}

/-- A fraction that represents a point has its coordinate as quotient. -/
theorem Represents.div_eq {x z : F} {P : Points A} (h : Represents x z P) :
    x / z = coordinate P := by
  cases P with
  | zero => rw [h.2, div_zero, coordinate]
  | some u v hP => rw [h.2, mul_div_cancel_right₀ _ h.1, coordinate]

private theorem equation_of_nonsingular {u v : F} (h : (curve A).toAffine.Nonsingular u v) :
    v ^ 2 = u ^ 3 + A * u ^ 2 + u := by
  have hequation := ((curve A).toAffine.equation_iff u v).mp h.1
  simpa [curve] using hequation

private theorem negY_curve (u v : F) : (curve A).toAffine.negY u v = -v := by
  simp [WeierstrassCurve.Affine.negY, curve]

/-- The product of the coordinates of a sum and of a difference. -/
private theorem mul_coordinates {u₁ v₁ u₂ v₂ p m : F}
    (h₁ : v₁ ^ 2 = u₁ ^ 3 + A * u₁ ^ 2 + u₁) (h₂ : v₂ ^ 2 = u₂ ^ 3 + A * u₂ ^ 2 + u₂)
    (hu : u₁ ≠ u₂) (hp : p = ((v₁ - v₂) / (u₁ - u₂)) ^ 2 - A - u₁ - u₂)
    (hm : m = ((v₂ - -v₁) / (u₂ - u₁)) ^ 2 - A - u₂ - u₁) :
    p * m * (u₁ - u₂) ^ 2 = (u₁ * u₂ - 1) ^ 2 := by
  have hgap : u₁ - u₂ ≠ 0 := sub_ne_zero.mpr hu
  have hgap' : u₂ - u₁ ≠ 0 := sub_ne_zero.mpr hu.symm
  have hp' : p * (u₁ - u₂) ^ 2 = (v₁ - v₂) ^ 2 - (A + u₁ + u₂) * (u₁ - u₂) ^ 2 := by
    rw [hp]
    field_simp
    ring
  have hm' : m * (u₁ - u₂) ^ 2 = (v₁ + v₂) ^ 2 - (A + u₁ + u₂) * (u₁ - u₂) ^ 2 := by
    have hsquare : (u₁ - u₂) ^ 2 = (u₂ - u₁) ^ 2 := by ring
    rw [hm, hsquare]
    field_simp
    ring
  have hproduct : (p * m * (u₁ - u₂) ^ 2) * (u₁ - u₂) ^ 2 =
      (u₁ * u₂ - 1) ^ 2 * (u₁ - u₂) ^ 2 := by
    have hexpand : (p * m * (u₁ - u₂) ^ 2) * (u₁ - u₂) ^ 2 =
        (p * (u₁ - u₂) ^ 2) * (m * (u₁ - u₂) ^ 2) := by ring
    rw [hexpand, hp', hm']
    linear_combination (v₁ ^ 2 - v₂ ^ 2 + (u₁ ^ 3 + A * u₁ ^ 2 + u₁) -
      (u₂ ^ 3 + A * u₂ ^ 2 + u₂)) * (h₁ - h₂) -
      2 * ((A + u₁ + u₂) * (u₁ - u₂) ^ 2) * (h₁ + h₂)
  exact mul_right_cancel₀ (pow_ne_zero 2 hgap) hproduct

variable [DecidableEq F]

/-- The coordinate of twice a point that is not its own inverse. -/
private theorem exists_add_self {u v : F} (h : (curve A).toAffine.Nonsingular u v)
    (hv : v ≠ -v) : ∃ u' v' h', Point.some u v h + Point.some u v h = Point.some u' v' h' ∧
      u' = ((3 * u ^ 2 + 2 * A * u + 1) / (2 * v)) ^ 2 - A - u - u := by
  have hne : v ≠ (curve A).toAffine.negY u v := by rwa [negY_curve]
  refine ⟨_, _, _, Point.add_self_of_Y_ne hne, ?_⟩
  rw [WeierstrassCurve.Affine.slope_of_Y_ne rfl hne, negY_curve]
  simp [WeierstrassCurve.Affine.addX, curve, two_mul]

/-- The coordinate of the sum of two points with different coordinates. -/
private theorem exists_add_of_ne {u₁ v₁ u₂ v₂ : F} (h₁ : (curve A).toAffine.Nonsingular u₁ v₁)
    (h₂ : (curve A).toAffine.Nonsingular u₂ v₂) (hu : u₁ ≠ u₂) :
    ∃ u' v' h', Point.some u₁ v₁ h₁ + Point.some u₂ v₂ h₂ = Point.some u' v' h' ∧
      u' = ((v₁ - v₂) / (u₁ - u₂)) ^ 2 - A - u₁ - u₂ := by
  refine ⟨_, _, _, Point.add_of_X_ne hu, ?_⟩
  rw [WeierstrassCurve.Affine.slope_of_X_ne hu]
  simp [WeierstrassCurve.Affine.addX, curve]

/-- A point with the coordinate zero is its own inverse. -/
theorem add_self_of_coordinate_zero {u v : F} (h : (curve A).toAffine.Nonsingular u v)
    (hu : u = 0) : Point.some u v h + Point.some u v h = 0 := by
  have hsquare : v ^ 2 = 0 := by
    rw [equation_of_nonsingular h, hu]
    ring
  have hv : v = -v := by rw [pow_eq_zero_iff two_ne_zero |>.mp hsquare, neg_zero]
  exact Point.add_self_of_Y_eq (by rwa [negY_curve])

/-- Doubling. -/
theorem Represents.add_self (hA : A ^ 2 ≠ 4) (htwo : (2 : F) ≠ 0) {x z : F} {P : Points A}
    (h : Represents x z P) :
    Represents ((x ^ 2 - z ^ 2) ^ 2) (4 * x * z * (x ^ 2 + A * x * z + z ^ 2)) (P + P) := by
  cases P with
  | zero =>
    obtain ⟨hx, rfl⟩ := h
    have hzero : (Point.zero : Points A) + Point.zero = Point.zero := rfl
    rw [hzero]
    exact ⟨by simpa using hx, by ring⟩
  | some u v hP =>
    obtain ⟨hz, rfl⟩ := h
    have hcurve := equation_of_nonsingular hP
    by_cases hv : v = -v
    · have hzero : Point.some u v hP + Point.some u v hP = 0 :=
        Point.add_self_of_Y_eq (by rwa [negY_curve])
      have hdouble : 2 * v = 0 := by linear_combination hv
      obtain rfl : v = 0 := (mul_eq_zero.mp hdouble).resolve_left htwo
      have hu : u ^ 2 ≠ 1 := fun hu => hA (by
        have hlinear : A = -2 * u := by linear_combination -hcurve - (u + A) * hu
        rw [hlinear]
        linear_combination 4 * hu)
      rw [hzero]
      refine ⟨?_, by linear_combination -4 * z ^ 4 * hcurve⟩
      have hfactor : ((u * z) ^ 2 - z ^ 2) ^ 2 = (z ^ 2 * (u ^ 2 - 1)) ^ 2 := by ring
      rw [hfactor]
      exact pow_ne_zero 2 (mul_ne_zero (pow_ne_zero 2 hz) (sub_ne_zero.mpr hu))
    · obtain ⟨u', v', h', hsum, hu'⟩ := exists_add_self hP hv
      have hv' : 2 * v ≠ 0 := fun hzero => hv (by linear_combination hzero)
      have hdenominator : 4 * (u * z) * z * ((u * z) ^ 2 + A * (u * z) * z + z ^ 2) =
          (z ^ 2 * (2 * v)) ^ 2 := by linear_combination -4 * z ^ 4 * hcurve
      rw [hsum, hdenominator]
      refine ⟨pow_ne_zero 2 (mul_ne_zero (pow_ne_zero 2 hz) hv'), ?_⟩
      have hslope : u' * (2 * v) ^ 2 =
          (3 * u ^ 2 + 2 * A * u + 1) ^ 2 - (A + 2 * u) * (2 * v) ^ 2 := by
        have hroot := div_mul_cancel₀ (3 * u ^ 2 + 2 * A * u + 1) hv'
        rw [hu']
        linear_combination ((3 * u ^ 2 + 2 * A * u + 1) / (2 * v) * (2 * v) +
          (3 * u ^ 2 + 2 * A * u + 1)) * hroot
      linear_combination z ^ 4 * (-hslope + 4 * (A + 2 * u) * hcurve)

/-- If twice a point has another coordinate than zero, the square of its own is not one. -/
private theorem sq_sub_one_ne_zero (hA : A ^ 2 ≠ 4) (htwo : (2 : F) ≠ 0) {u v u₁ v₁ : F}
    {h : (curve A).toAffine.Nonsingular u v} {h₁ : (curve A).toAffine.Nonsingular u₁ v₁}
    (hu : u ≠ 0) (hdouble : Point.some u₁ v₁ h₁ + Point.some u₁ v₁ h₁ = Point.some u v h) :
    u₁ ^ 2 - 1 ≠ 0 := by
  have hself : Represents u₁ 1 (Point.some u₁ v₁ h₁) := ⟨one_ne_zero, (mul_one u₁).symm⟩
  have hdoubled := hself.add_self hA htwo
  rw [hdouble] at hdoubled
  have hne : (u₁ ^ 2 - 1 ^ 2) ^ 2 ≠ 0 := by
    rw [hdoubled.2]
    exact mul_ne_zero hu hdoubled.1
  rw [one_pow] at hne
  exact fun hzero => hne (by rw [hzero, zero_pow two_ne_zero])

/-- Two points of one coordinate are opposite if the coordinate of their difference is not zero, and
the square of theirs is not one. -/
private theorem add_eq_zero_of_coordinate_eq (hA : A ^ 2 ≠ 4) (htwo : (2 : F) ≠ 0)
    {u v u₁ v₁ u₂ v₂ : F} {hD : (curve A).toAffine.Nonsingular u v}
    {h₁ : (curve A).toAffine.Nonsingular u₁ v₁} {h₂ : (curve A).toAffine.Nonsingular u₂ v₂}
    (hu : u ≠ 0) (hdifference : Point.some u₂ v₂ h₂ = Point.some u₁ v₁ h₁ + Point.some u v hD)
    (heq : u₁ = u₂) :
    Point.some u₁ v₁ h₁ + Point.some u₂ v₂ h₂ = 0 ∧ u₂ ^ 2 - 1 ≠ 0 := by
  rcases Point.X_eq_iff.mp heq with hsame | hopposite
  · rw [hsame] at hdifference
    exact absurd (left_eq_add.mp hdifference) (Point.some_ne_zero hD)
  · have hdouble : Point.some u₂ v₂ h₂ + Point.some u₂ v₂ h₂ = Point.some u v hD := by
      rw [hopposite] at hdifference
      exact eq_neg_add_iff_add_eq.mp hdifference
    exact ⟨by rw [hopposite, neg_add_cancel], sq_sub_one_ne_zero hA htwo hu hdouble⟩

/-- The coordinates of the sum and of the difference of two points with different coordinates. -/
private theorem exists_add_of_difference {u v u₁ v₁ u₂ v₂ : F}
    {hD : (curve A).toAffine.Nonsingular u v} {h₁ : (curve A).toAffine.Nonsingular u₁ v₁}
    {h₂ : (curve A).toAffine.Nonsingular u₂ v₂}
    (hdifference : Point.some u₂ v₂ h₂ = Point.some u₁ v₁ h₁ + Point.some u v hD)
    (hne : u₁ ≠ u₂) :
    ∃ p w h, Point.some u₁ v₁ h₁ + Point.some u₂ v₂ h₂ = Point.some p w h ∧
      p * u * (u₁ - u₂) ^ 2 = (u₁ * u₂ - 1) ^ 2 := by
  obtain ⟨p, w, h, hsum, hp⟩ := exists_add_of_ne h₁ h₂ hne
  have hneg := (WeierstrassCurve.Affine.nonsingular_neg u₁ v₁).mpr h₁
  obtain ⟨m, w', h', hminus, hm⟩ := exists_add_of_ne h₂ hneg (Ne.symm hne)
  have hgap : Point.some u₂ v₂ h₂ + -Point.some u₁ v₁ h₁ = Point.some u v hD := by
    rw [hdifference]
    abel
  rw [Point.neg_some, hminus] at hgap
  obtain ⟨rfl, -⟩ := Point.some.inj hgap
  rw [negY_curve] at hm
  exact ⟨p, w, h, hsum, mul_coordinates (equation_of_nonsingular h₁) (equation_of_nonsingular h₂)
    hne hp hm⟩

/-- Differential addition. -/
theorem Represents.add (hA : A ^ 2 ≠ 4) (htwo : (2 : F) ≠ 0) {x₁ z₁ x₂ z₂ u v : F}
    {P Q : Points A} {hD : (curve A).toAffine.Nonsingular u v} (hu : u ≠ 0)
    (hdifference : Q = P + Point.some u v hD) (hP : Represents x₁ z₁ P)
    (hQ : Represents x₂ z₂ Q) :
    Represents (4 * (x₁ * x₂ - z₁ * z₂) ^ 2) (u * (4 * (x₁ * z₂ - z₁ * x₂) ^ 2)) (P + Q) := by
  have hfour : (4 : F) ≠ 0 := by
    have hsquare : (4 : F) = 2 ^ 2 := by norm_num
    rw [hsquare]
    exact pow_ne_zero 2 htwo
  cases P with
  | zero =>
    obtain ⟨hx, rfl⟩ := hP
    have hzero : (Point.zero : Points A) + Point.some u v hD = Point.some u v hD := rfl
    rw [hzero] at hdifference
    subst hdifference
    obtain ⟨hz, rfl⟩ := hQ
    rw [hzero]
    refine ⟨?_, by ring⟩
    simp only [zero_mul, sub_zero]
    exact mul_ne_zero hu (mul_ne_zero hfour (pow_ne_zero 2 (mul_ne_zero hx hz)))
  | some u₁ v₁ h₁ =>
    obtain ⟨hz₁, rfl⟩ := hP
    cases Q with
    | zero =>
      obtain ⟨hx, rfl⟩ := hQ
      have hneg : Point.some u v hD = -Point.some u₁ v₁ h₁ :=
        eq_neg_of_add_eq_zero_right hdifference.symm
      rw [Point.neg_some] at hneg
      obtain ⟨rfl, -⟩ := Point.some.inj hneg
      have hzero : Point.some u v₁ h₁ + Point.zero = Point.some u v₁ h₁ := rfl
      rw [hzero]
      refine ⟨?_, by ring⟩
      simp only [mul_zero, zero_sub]
      exact mul_ne_zero hu (mul_ne_zero hfour (pow_ne_zero 2 (neg_ne_zero.mpr
        (mul_ne_zero hz₁ hx))))
    | some u₂ v₂ h₂ =>
      obtain ⟨hz₂, rfl⟩ := hQ
      have hz : z₁ * z₂ ≠ 0 := mul_ne_zero hz₁ hz₂
      by_cases heq : u₁ = u₂
      · obtain ⟨hsum, hne⟩ := add_eq_zero_of_coordinate_eq hA htwo hu hdifference heq
        subst heq
        rw [hsum]
        refine ⟨?_, by ring⟩
        have hfactor : u₁ * z₁ * (u₁ * z₂) - z₁ * z₂ = z₁ * z₂ * (u₁ ^ 2 - 1) := by ring
        rw [hfactor]
        exact mul_ne_zero hfour (pow_ne_zero 2 (mul_ne_zero hz hne))
      · obtain ⟨p, w, h, hsum, hproduct⟩ := exists_add_of_difference hdifference heq
        rw [hsum]
        refine ⟨?_, by linear_combination -4 * (z₁ * z₂) ^ 2 * hproduct⟩
        have hfactor : u₁ * z₁ * z₂ - z₁ * (u₂ * z₂) = z₁ * z₂ * (u₁ - u₂) := by ring
        rw [hfactor]
        exact mul_ne_zero hu (mul_ne_zero hfour
          (pow_ne_zero 2 (mul_ne_zero hz (sub_ne_zero.mpr heq))))

end SplitTally.MontgomeryCurve
