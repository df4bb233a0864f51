import SplitTally.Proofs.DiscreteTransform
import SplitTally.Proofs.ExactArithmetic
import SplitTally.Proofs.ProofContents
import SplitTally.Proofs.Slots
import SplitTally.Scribe.Setup

/-!
# How many slots can be proved

The number of points is the least power of two above the number of slots, and as long as twice that
fits in a word a scribe is set up exactly for the numbers of slots that a schema may have, and any
greater number is refused. From `2 ^ 62` slots on a count leaves its word before it is compared with
the number of roots. Nothing is refused any more then: checked counts have no result, and if they
wrap around instead there are no roots to list, or for the greatest word those for no slots at all.
-/

namespace SplitTally

open BitProof (countPoints digits pointBits)
open WordArithmetic (checked checked_add_eq_some_iff exact_checked exact_wrapping lowBits wrapping)

/-! ### Powers of two in words -/

/-- A word has as many digits as bits from its leading one on. -/
theorem BitProof.digits_toNat {w : BitVec 64} (hw : w ≠ 0) :
    digits w.toNat = 64 - w.clz.toNat := by
  have hnonzero : w.toNat ≠ 0 := fun hzero => hw (BitVec.toNat_inj.mp hzero)
  have hwidth : w.clz.toNat < 64 := BitVec.clz_lt_iff_ne_zero.mpr hw
  have hlower := BitVec.two_pow_sub_clz_le_toNat_of_ne_zero (by decide) hw
  have hupper : w.toNat < 2 ^ (64 - w.clz.toNat) := BitVec.toNat_lt_two_pow_sub_clz
  have hlog : w.toNat.log2 = 64 - 1 - w.clz.toNat := by
    refine (Nat.log2_eq_iff hnonzero).mpr ⟨hlower, hupper.trans_eq ?_⟩
    congr 1
    omega
  rw [digits, if_neg hnonzero, hlog]
  omega

private theorem toNat_allOnes_shiftRight (n : ℕ) :
    (BitVec.allOnes 64 >>> n).toNat = 2 ^ (64 - n) - 1 := by
  rw [BitVec.toNat_ushiftRight, BitVec.toNat_allOnes]
  refine Nat.eq_of_testBit_eq fun i => ?_
  rw [Nat.testBit_shiftRight, Nat.testBit_two_pow_sub_one, Nat.testBit_two_pow_sub_one]
  exact decide_eq_decide.mpr (by omega)

/-- The low bits make up the number before a power of two. -/
theorem WordArithmetic.toNat_lowBits (w : UInt64) :
    (lowBits w).toNat = 2 ^ digits (w.toNat - 1) - 1 := by
  unfold lowBits
  by_cases hsmall : w ≤ 1
  · have hzero : w.toNat - 1 = 0 := Nat.sub_eq_zero_of_le (UInt64.le_iff_toNat_le.mp hsmall)
    rw [if_pos hsmall, hzero]
    rfl
  · have hlarge : 1 < w.toNat := UInt64.lt_iff_toNat_lt.mp (UInt64.not_le.mp hsmall)
    have hbelow : (w - 1).toBitVec.toNat = w.toNat - 1 :=
      UInt64.toNat_sub_of_le w 1 (UInt64.le_iff_toNat_le.mpr hlarge.le)
    have hne : (w - 1).toBitVec ≠ 0 := by
      intro hzero
      rw [hzero, BitVec.ofNat_eq_ofNat, BitVec.toNat_ofNat, Nat.zero_mod] at hbelow
      omega
    rw [if_neg hsmall, ← hbelow, BitProof.digits_toNat hne]
    exact toNat_allOnes_shiftRight _

namespace BitProof

variable {d : UInt64}

/-- The low bits of the number of slots and one make up the number before that of the points. -/
theorem toNat_lowBits_succ (hd : d.toNat + 1 < UInt64.size) :
    (lowBits (d + 1)).toNat = 2 ^ pointBits d.toNat - 1 := by
  have hsucc : (d + 1).toNat = d.toNat + 1 := by
    rw [UInt64.toNat_add]
    exact Nat.mod_eq_of_lt hd
  rw [WordArithmetic.toNat_lowBits, hsucc, Nat.add_sub_cancel, pointBits]

/-- The number of points, as it is counted in words that wrap around. -/
theorem toNat_points (hd : d.toNat + 1 < UInt64.size) :
    (lowBits (d + 1) + 1).toNat = 2 ^ pointBits d.toNat % UInt64.size := by
  have hpos := Nat.two_pow_pos (pointBits d.toNat)
  have hone : (1 : UInt64).toNat = 1 := rfl
  rw [UInt64.toNat_add, toNat_lowBits_succ hd, hone, Nat.sub_add_cancel hpos]

/-- Twice the number of points are more than the roots of unity when the slots are more than in any
schema. -/
theorem groupOrder_lt_iff (n : ℕ) :
    Roots.groupOrder < 2 ^ (pointBits n + 1) ↔ Schema.maxDimension < n := by
  have horder : Roots.groupOrder = 2 ^ 20 := by decide
  have hmax : Schema.maxDimension = 2 ^ 19 - 1 := by decide
  have hbits : pointBits n ≤ 19 ↔ n < 2 ^ 19 := digits_le_iff
  rw [horder, hmax, Nat.pow_lt_pow_iff_right (by decide)]
  omega

/-- The points of fewer than `2 ^ 63` slots are counted in every exact arithmetic. -/
theorem countPoints_eq {m : Type → Type} [Monad m] [LawfulMonad m] {arithmetic : WordArithmetic m}
    (h : arithmetic.Exact) (hd : d.toNat < 2 ^ 63) :
    countPoints arithmetic d = pure (lowBits (d + 1) + 1) := by
  have hone : (1 : UInt64).toNat = 1 := rfl
  have hsucc : d.toNat + 1 < UInt64.size := by
    simp only [UInt64.size]
    omega
  have hpow : 2 ^ pointBits d.toNat ≤ 2 ^ 63 :=
    Nat.pow_le_pow_right (by decide) (digits_le_iff.mpr hd)
  have hnext : (lowBits (d + 1)).toNat + (1 : UInt64).toNat < UInt64.size := by
    rw [toNat_lowBits_succ hsucc, hone]
    simp only [UInt64.size]
    omega
  rw [countPoints, h.add hsucc, pure_bind, WordArithmetic.nextPowerOfTwo, h.add hnext]

/-- Checked words count the points of fewer than `2 ^ 63` slots, and no others. -/
theorem countPoints_checked_eq_some_iff {points : UInt64} :
    countPoints checked d = some points ↔
      d.toNat < 2 ^ 63 ∧ points.toNat = pointCount d.toNat := by
  have hone : (1 : UInt64).toNat = 1 := rfl
  have hcount : countPoints checked d = some points ↔
      ∃ next : UInt64, next.toNat = d.toNat + 1 ∧ points.toNat = (lowBits next).toNat + 1 := by
    simp only [countPoints, WordArithmetic.nextPowerOfTwo, Option.bind_eq_bind,
      Option.bind_eq_some_iff, checked_add_eq_some_iff, hone]
  have hlow {next : UInt64} (hnext : next.toNat = d.toNat + 1) :
      (lowBits next).toNat + 1 = pointCount d.toNat := by
    rw [WordArithmetic.toNat_lowBits, hnext, Nat.add_sub_cancel]
    exact Nat.sub_add_cancel (Nat.two_pow_pos _)
  rw [hcount]
  constructor
  · rintro ⟨next, hnext, hpoints⟩
    rw [hlow hnext] at hpoints
    have hpow : 2 ^ pointBits d.toNat < 2 ^ 64 := hpoints.symm.trans_lt points.toNat_lt
    have hbits : pointBits d.toNat < 64 := (Nat.pow_lt_pow_iff_right (by decide)).mp hpow
    exact ⟨digits_le_iff.mp (Nat.lt_succ_iff.mp hbits), hpoints⟩
  · rintro ⟨hd, hpoints⟩
    have hnext : (d + 1).toNat = d.toNat + 1 := by
      rw [UInt64.toNat_add]
      exact Nat.mod_eq_of_lt (by rw [hone]; omega)
    exact ⟨d + 1, hnext, hpoints.trans (hlow hnext).symm⟩

/-- Checked words count the residues of a proof about fewer than `2 ^ 63` slots, and of no other. -/
theorem countFlat_checked_eq_some_iff {size : UInt64} :
    countFlat checked d = some size ↔ d.toNat < 2 ^ 63 ∧ size.toNat = flatSize d.toNat := by
  have hthree : (3 : UInt64).toNat = 3 := rfl
  have hcount : countFlat checked d = some size ↔
      ∃ points, countPoints checked d = some points ∧ size.toNat = 3 + points.toNat := by
    simp only [countFlat, Option.bind_eq_bind, Option.bind_eq_some_iff, checked_add_eq_some_iff,
      hthree]
  rw [hcount]
  constructor
  · rintro ⟨points, hpoints, hsize⟩
    obtain ⟨hd, hpoints⟩ := countPoints_checked_eq_some_iff.mp hpoints
    exact ⟨hd, hsize.trans (congrArg (3 + ·) hpoints)⟩
  · rintro ⟨hd, hsize⟩
    have hpoints : pointCount d.toNat < UInt64.size := by
      have hlt := size.toNat_lt
      rw [hsize, flatSize] at hlt
      exact (Nat.le_add_left _ 3).trans_lt hlt
    have htoNat : (pointCount d.toNat).toUInt64.toNat = pointCount d.toNat := by
      rw [Nat.toUInt64_eq, UInt64.toNat_ofNat']
      exact Nat.mod_eq_of_lt hpoints
    refine ⟨_, countPoints_checked_eq_some_iff.mpr ⟨hd, htoNat⟩, ?_⟩
    rw [htoNat, hsize, flatSize]

end BitProof

/-- More slots than in any schema are too many for a prover. -/
theorem Prover.ofDimension_eq_error {n : ℕ} (hlarge : Schema.maxDimension < n) :
    ofDimension n = .error (.dimensionTooLarge n) := by
  have hmany := (BitProof.groupOrder_lt_iff n).mpr hlarge
  rw [Transform.pow_succ_eq, ← BitProof.pointCount_eq] at hmany
  exact dif_neg (Nat.not_le.mpr hmany)

/-! ### Listing roots -/

namespace Roots

/-- A buffer of `n` entries with the powers up to the `j`-th one, and zeros behind them. -/
def listed (w : Residue) (n j : ℕ) : Array Residue :=
  Array.ofFn fun i : Fin n => if i.val ≤ j then w ^ i.val else 0

private theorem size_listed (w : Residue) (n j : ℕ) : (listed w n j).size = n := Array.size_ofFn

private theorem getElem?_listed (w : Residue) {n j i : ℕ} (hi : i < n) :
    (listed w n j)[i]? = some (if i ≤ j then w ^ i else 0) := by
  simp [listed, hi]

/-- At first only the power with the exponent zero is written. -/
theorem listed_zero (w : Residue) (n : ℕ) :
    (Array.replicate n 0).setIfInBounds 0 1 = listed w n 0 := by
  refine Array.ext_getElem? fun i => ?_
  by_cases hi : i < n
  · rw [getElem?_listed w hi, Array.getElem?_setIfInBounds, Array.size_replicate,
      Array.getElem?_replicate, if_pos hi]
    by_cases hzero : i = 0
    · subst hzero
      simp [hi]
    · simp [hzero, Ne.symm hzero]
  · rw [Array.getElem?_eq_none (by simpa using hi),
      Array.getElem?_eq_none (by simpa [size_listed] using hi)]

/-- Each power is the one before times the base. -/
theorem listed_succ (w : Residue) (n j : ℕ) :
    (listed w n j).setIfInBounds (j + 1) (w * w ^ j) = listed w n (j + 1) := by
  refine Array.ext_getElem? fun i => ?_
  by_cases hi : i < n
  · rw [getElem?_listed w hi, Array.getElem?_setIfInBounds, getElem?_listed w hi]
    rcases lt_trichotomy i (j + 1) with hlt | rfl | hgt
    · rw [if_neg hlt.ne', if_pos (by omega), if_pos (by omega)]
    · simp [size_listed, hi, pow_succ']
    · rw [if_neg hgt.ne, if_neg (by omega), if_neg (by omega)]
  · rw [Array.getElem?_eq_none (by simpa [size_listed] using hi),
      Array.getElem?_eq_none (by simpa [size_listed] using hi)]

/-- Each step of the listing finds the power before and an entry for the next one. -/
theorem fold_eq_some (w : Residue) {n j : ℕ} (hj : j < n) :
    j.fold (fun i _ roots => do
      let roots ← roots
      Transform.set? roots (i + 1) (w * (← roots[i]?))) (some (listed w n 0)) =
      some (listed w n j) := by
  induction j with
  | zero => rfl
  | succ j ih =>
    have hroom : j + 1 < (listed w n j).size := by rwa [size_listed]
    rw [Nat.fold_succ, ih (by omega)]
    dsimp only [Option.bind_eq_bind, Option.bind_some]
    rw [getElem?_listed w (by omega), Option.bind_some, if_pos le_rfl,
      Transform.set?_eq_some hroom, listed_succ]

/-- In the end all roots of the table are written. -/
theorem listed_base (k : ℕ) (inverted : Bool) :
    listed (base k inverted) (2 ^ k) (2 ^ k - 1) = (table k inverted).toArray := by
  refine Array.ext (by rw [size_listed, Vector.size_toArray]) fun i hi hi' => ?_
  have hpow : i < 2 ^ k := by rwa [size_listed] at hi
  have hlisted := getElem?_listed (base k inverted) (j := 2 ^ k - 1) hpow
  rw [Array.getElem?_eq_getElem hi, if_pos (by omega)] at hlisted
  rw [Option.some.inj hlisted, Vector.getElem_toArray, getElem_table k inverted hpow]

/-- For up to as many roots as there are, a power of two has its one bit among the lowest 32, and
the order of the group is divided by it. -/
theorem step?_eq_some {k : ℕ} (hk : k ≤ 20) {count : UInt64} (hcount : count.toNat = 2 ^ k) :
    step? count = some (groupOrder / 2 ^ k).toUInt32 := by
  have hpow : 2 ^ k ≤ 2 ^ 20 := Nat.pow_le_pow_right (by decide) hk
  have hlow : count.toUInt32.toNat = 2 ^ k := by
    rw [UInt64.toNat_toUInt32, hcount]
    exact Nat.mod_eq_of_lt (by omega)
  have hne : count.toUInt32 ≠ 0 := by
    intro hzero
    rw [hzero] at hlow
    exact (Nat.two_pow_pos k).ne hlow
  rw [step?, if_neg hne]
  refine congrArg some (UInt32.toNat_inj.mp ?_)
  have horder : groupOrder < 2 ^ 32 := by decide
  have hquotient : groupOrder / 2 ^ k < 2 ^ 32 := (Nat.div_le_self _ _).trans_lt horder
  rw [UInt32.toNat_div, hlow, Nat.toUInt32_eq, Nat.toUInt32_eq, UInt32.toNat_ofNat',
    UInt32.toNat_ofNat', Nat.mod_eq_of_lt horder, Nat.mod_eq_of_lt hquotient]

/-- Up to the order of the group, a power of two of roots is listed as in the table. -/
theorem list?_eq_some {k : ℕ} (hk : k ≤ 20) {count : UInt64} (hcount : count.toNat = 2 ^ k)
    (inverted : Bool) : list? count inverted = some (table k inverted).toArray := by
  have hpos := Nat.two_pow_pos k
  have hfirst : 0 < (Array.replicate (2 ^ k) (0 : Residue)).size := by rwa [Array.size_replicate]
  rw [list?, hcount, Transform.set?_eq_some hfirst, step?_eq_some hk hcount]
  dsimp only [Option.bind_eq_bind, Option.bind_some]
  rw [listed_zero (base k inverted)]
  exact (fold_eq_some (base k inverted) (Nat.sub_lt hpos Nat.one_pos)).trans
    (congrArg some (listed_base k inverted))

end Roots

/-! ### Setting up -/

namespace Scribe

variable {d : UInt64}

/-- The roots of unity for proofs about so many slots. -/
def Setup.ofDimension (d : UInt64) : Setup where
  dimension := d
  roots := (Roots.table (pointBits d.toNat + 1) false).toArray
  inverses := (Roots.table (pointBits d.toNat) true).toArray

/-- How setting up a scribe for so many slots ends if no count is too great for its word. -/
def capacity (d : UInt64) : Except BitProofError Setup :=
  if d.toNat ≤ Schema.maxDimension then .ok (.ofDimension d)
  else .error (.dimensionTooLarge d.toNat)

/-- For fewer than `2 ^ 62` slots no count leaves its word, so setting up ends the same way in every
exact arithmetic. -/
theorem setUp_eq {m : Type → Type} [Monad m] [LawfulMonad m] {arithmetic : WordArithmetic m}
    (h : arithmetic.Exact) (hd : d.toNat < 2 ^ 62) :
    setUp arithmetic d = pure (some (capacity d)) := by
  have hsucc : d.toNat + 1 < UInt64.size := by
    simp only [UInt64.size]
    omega
  have hbits : pointBits d.toNat ≤ 62 := BitProof.digits_le_iff.mpr hd
  have hpow : 2 ^ pointBits d.toNat ≤ 2 ^ 62 := Nat.pow_le_pow_right (by decide) hbits
  have htwo : (2 : UInt64).toNat = 2 := rfl
  have hpoints : (lowBits (d + 1) + 1).toNat = 2 ^ pointBits d.toNat := by
    rw [BitProof.toNat_points hsucc]
    exact Nat.mod_eq_of_lt (hpow.trans_lt (by decide))
  have hfits : (2 : UInt64).toNat * (lowBits (d + 1) + 1).toNat < UInt64.size := by
    rw [htwo, hpoints]
    simp only [UInt64.size]
    omega
  have htwice : (2 * (lowBits (d + 1) + 1)).toNat = 2 ^ (pointBits d.toNat + 1) := by
    rw [UInt64.toNat_mul, Nat.mod_eq_of_lt hfits, htwo, hpoints, Transform.pow_succ_eq]
  rw [setUp, BitProof.countPoints_eq h (by omega), pure_bind, h.mul hfits, pure_bind]
  have hlimit : Roots.groupOrder.toUInt64 < 2 * (lowBits (d + 1) + 1) ↔
      Schema.maxDimension < d.toNat := by
    rw [UInt64.lt_iff_toNat_lt, htwice]
    exact BitProof.groupOrder_lt_iff d.toNat
  by_cases hlarge : Schema.maxDimension < d.toNat
  · rw [if_pos (hlimit.mpr hlarge), capacity, if_neg (Nat.not_le.mpr hlarge)]
  · have hle := Nat.not_lt.mp hlarge
    have hk := BitProof.pointBits_le hle
    rw [if_neg (mt hlimit.mp hlarge), capacity, if_pos hle, Setup.list?,
      Roots.list?_eq_some (by omega) htwice, Roots.list?_eq_some (by omega) hpoints]
    rfl

/-- In words that wrap around both counts are formed whatever comes of them. -/
theorem setUp_wrapping (d : UInt64) :
    setUp wrapping d =
      if Roots.groupOrder.toUInt64 < 2 * (lowBits (d + 1) + 1) then
        some (.error (.dimensionTooLarge d.toNat))
      else (Setup.list? d (lowBits (d + 1) + 1) (2 * (lowBits (d + 1) + 1))).map .ok := by
  unfold setUp
  rfl

/-- The exponent of the number of points, where that or twice that does not fit in a word. -/
theorem le_pointBits (hd : 2 ^ 62 ≤ d.toNat) : 63 ≤ pointBits d.toNat := by
  by_contra hsmall
  have hlt := BitProof.digits_le_iff.mp (Nat.lt_succ_iff.mp (Nat.not_le.mp hsmall))
  omega

/-- From `2 ^ 62` slots on the count of roots wraps around to zero and no first root can be listed,
unless the number of slots and one more wraps around before that. -/
theorem setUp_wrapping_of_le (hd : 2 ^ 62 ≤ d.toNat) :
    setUp wrapping d = if d = -1 then
      some (.ok ⟨d, (Roots.table 1 false).toArray, (Roots.table 0 true).toArray⟩) else none := by
  rw [setUp_wrapping]
  by_cases hlast : d = -1
  · subst hlast
    have hpoints : lowBits (-1 + 1) + 1 = 1 := by decide
    have hroots := @Roots.list?_eq_some 1 (by decide) (2 * 1) rfl false
    have hinverses := @Roots.list?_eq_some 0 (by decide) 1 rfl true
    rw [if_pos rfl, hpoints, if_neg (by decide), Setup.list?, hroots, hinverses]
    rfl
  · have hsucc : d.toNat + 1 < UInt64.size := by
      have hne : d.toNat ≠ 2 ^ 64 - 1 := fun heq => hlast (UInt64.toNat_inj.mp heq)
      have hlt := d.toNat_lt
      simp only [UInt64.size]
      omega
    have hdvd : UInt64.size ∣ 2 * 2 ^ pointBits d.toNat := by
      rw [← Transform.pow_succ_eq]
      exact Nat.pow_dvd_pow 2 (Nat.succ_le_succ (le_pointBits hd))
    have hzero : 2 * (lowBits (d + 1) + 1) = 0 := by
      have htwo : (2 : UInt64).toNat = 2 := rfl
      apply UInt64.toNat_inj.mp
      rw [UInt64.toNat_mul, BitProof.toNat_points hsucc, htwo]
      exact (Nat.mul_mod_mod _ _ _).trans (Nat.mod_eq_zero_of_dvd hdvd)
    rw [hzero, if_neg (by decide), if_neg hlast]
    rfl

/-- From `2 ^ 62` slots on a count leaves its word. -/
theorem setUp_checked_of_le (hd : 2 ^ 62 ≤ d.toNat) : setUp checked d = none := by
  unfold setUp
  cases hcount : countPoints checked d with
  | none => rfl
  | some points =>
    have hpoints : points.toNat = 2 ^ pointBits d.toNat :=
      (BitProof.countPoints_checked_eq_some_iff.mp hcount).2
    have hpow : 2 ^ 63 ≤ 2 ^ pointBits d.toNat :=
      Nat.pow_le_pow_right (by decide) (le_pointBits hd)
    have htwo : (2 : UInt64).toNat = 2 := rfl
    cases hmul : checked.mul 2 points with
    | none => exact congrArg (Option.bind · _) hmul
    | some twice =>
      have htwice := WordArithmetic.checked_mul_eq_some_iff.mp hmul
      have hlt := twice.toNat_lt
      rw [htwo] at htwice
      omega

/-! ### The limit -/

/-- A scribe is set up for as many slots as a schema may have, and for no more. -/
theorem capacity_eq_ok_iff : (∃ setup, capacity d = .ok setup) ↔ d.toNat ≤ Schema.maxDimension := by
  by_cases hd : d.toNat ≤ Schema.maxDimension <;> simp [capacity, hd]

/-- More slots than a schema may have are refused as too many. -/
theorem capacity_of_lt (hd : Schema.maxDimension < d.toNat) :
    capacity d = .error (.dimensionTooLarge d.toNat) :=
  if_neg (Nat.not_le.mpr hd)

/-- The outcome is that of a scribe whose slots are counted as numbers. -/
theorem capacity_eq_ofDimension (d : UInt64) :
    capacity d = (ofDimension d.toNat).map fun scribe => ⟨d, scribe.roots, scribe.inverses⟩ := by
  by_cases hle : d.toNat ≤ Schema.maxDimension
  · rw [capacity, if_pos hle, ofDimension_eq_ok hle]
    rfl
  · have hlarge := Nat.not_le.mp hle
    rw [capacity_of_lt hlarge, ofDimension, Prover.ofDimension_eq_error hlarge]
    rfl

/-- In checked words setting up a scribe ends with the roots of unity for up to as many slots as a
schema may have and refuses a greater number, exactly below `2 ^ 62`; from there on it has no
result. If words wrap around it ends that way below `2 ^ 62` only, too. So the slots of metrics can
be proved exactly if they are not too many for a schema. -/
theorem setUp_eq_capacity_iff (d : UInt64) :
    setUp checked d = (if d.toNat < 2 ^ 62 then some (some (capacity d)) else none) ∧
    (setUp wrapping d = some (capacity d) ↔ d.toNat < 2 ^ 62) ∧
    ∀ metrics, metrics ≠ [] → (metrics.map Metric.name).Nodup →
      (∀ m ∈ metrics, m.kind.isSupported = true) → Schema.totalWidth metrics = d.toNat →
        (Schema.fault? metrics = none ↔ ∃ setup, setUp checked d = some (some (.ok setup))) := by
  have hchecked :
      setUp checked d = if d.toNat < 2 ^ 62 then some (some (capacity d)) else none := by
    split
    · exact setUp_eq exact_checked ‹_›
    · exact setUp_checked_of_le (Nat.not_lt.mp ‹_›)
  refine ⟨hchecked, ⟨fun h => ?_, setUp_eq exact_wrapping⟩,
    fun metrics hne hnames hkinds hwidth => ?_⟩
  · by_contra hlarge
    have hmax : Schema.maxDimension < d.toNat := lt_of_lt_of_le (by decide) (Nat.not_lt.mp hlarge)
    rw [setUp_wrapping_of_le (Nat.not_lt.mp hlarge), capacity_of_lt hmax] at h
    split at h <;> cases h
  · have hok : (∃ setup, setUp checked d = some (some (.ok setup))) ↔
        d.toNat ≤ Schema.maxDimension := by
      rw [hchecked, ← capacity_eq_ok_iff]
      by_cases hd : d.toNat < 2 ^ 62
      · simp only [if_pos hd, Option.some_inj]
      · have hmax : Schema.maxDimension < d.toNat :=
          lt_of_lt_of_le (by decide) (Nat.not_lt.mp hd)
        simp [capacity_of_lt hmax]
    rw [hok, Schema.fault?_eq_none_iff, hwidth]
    exact ⟨fun h => h.2.2.2, fun h => ⟨hne, hnames, hkinds, h⟩⟩

/-- For the greatest number that fits in a word, and for `2 ^ 62` slots, checked counts have no
result where the number should be refused. If counts wrap around, the greatest number gets the roots
for no slots, and no roots can be listed for `2 ^ 62` slots. -/
theorem setUp_greatest_word :
    setUp checked 18446744073709551615 = none ∧
    capacity 18446744073709551615 = .error (.dimensionTooLarge 18446744073709551615) ∧
    setUp checked 4611686018427387904 = none ∧
    capacity 4611686018427387904 = .error (.dimensionTooLarge 4611686018427387904) ∧
    setUp wrapping 18446744073709551615 = some (.ok ⟨18446744073709551615,
      (Roots.table 1 false).toArray, (Roots.table 0 true).toArray⟩) ∧
    setUp wrapping 4611686018427387904 = none := by
  have hlast : 2 ^ 62 ≤ (18446744073709551615 : UInt64).toNat := by decide
  have hfirst : 2 ^ 62 ≤ (4611686018427387904 : UInt64).toNat := by decide
  exact ⟨setUp_checked_of_le hlast, capacity_of_lt (by decide), setUp_checked_of_le hfirst,
    capacity_of_lt (by decide), setUp_wrapping_of_le hlast, setUp_wrapping_of_le hfirst⟩

end Scribe

end SplitTally
