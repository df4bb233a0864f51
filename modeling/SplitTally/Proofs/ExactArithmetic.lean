import Mathlib.Data.Int.ModEq
import SplitTally.Proofs.Draws
import SplitTally.Proofs.ResidueField
import SplitTally.Proofs.Sharing

/-!
# Residues compute as the integers do

Every operation on residues returns the representative of what the integers give, and two residues
are equal exactly when the numbers that they were built from are congruent. On the way no sum and no
product leaves its word: run with an arithmetic that has no result when one does, the computations
on representatives still return what the residues hold. Differences are not asked about: they wrap
around by design, and the mask undoes it.
-/

namespace SplitTally

namespace WordArithmetic

/-- A number that fits in a word is the one that the word holds. -/
theorem toNat_toUInt64_of_lt {n : ℕ} (h : n < UInt64.size) : n.toUInt64.toNat = n := by
  rw [Nat.toUInt64_eq, UInt64.toNat_ofNat']
  exact Nat.mod_eq_of_lt h

end WordArithmetic

namespace Residue

open WordArithmetic (checked exact_checked)

/-! ### Integers and their representatives -/

/-- A residue represents an integer that is congruent to it, by a number below the modulus. -/
def Represents (r : Residue) (n : ℤ) : Prop :=
  r.toNat < modulus ∧ (r.toNat : ℤ) ≡ n [ZMOD modulus]

variable {a b r s : Residue} {m n : ℕ} {k l : ℤ}

/-- A residue represents the numbers that leave it as their remainder. -/
theorem represents_of_toNat_eq (h : r.toNat = n % modulus) : r.Represents n := by
  refine ⟨r.toNat_lt, ?_⟩
  rw [h, Int.natCast_mod]
  exact Int.mod_modEq _ _

/-- Only one residue represents an integer. -/
theorem Represents.eq_iff (hr : r.Represents k) (hs : s.Represents l) :
    r = s ↔ k ≡ l [ZMOD modulus] := by
  constructor
  · rintro rfl
    exact hr.2.symm.trans hs.2
  · intro hmod
    have hcast : (r.toNat : ℤ) ≡ s.toNat [ZMOD modulus] := hr.2.trans (hmod.trans hs.2.symm)
    have hnat : r.toNat ≡ s.toNat [MOD modulus] := Int.natCast_modEq_iff.mp hcast
    exact ext_toNat (hnat.eq_of_lt_of_lt r.toNat_lt s.toNat_lt)

/-- A sum represents the sum of the numbers. -/
theorem represents_add (a b : Residue) : (a + b).Represents (a.toNat + b.toNat) := by
  exact_mod_cast represents_of_toNat_eq (toNat_add a b)

/-- A product represents the product of the numbers. -/
theorem represents_mul (a b : Residue) : (a * b).Represents (a.toNat * b.toNat) := by
  exact_mod_cast represents_of_toNat_eq (toNat_mul a b)

/-- A power represents the power of the number. -/
theorem represents_pow (a : Residue) (e : UInt32) :
    (a.pow e).Represents ((a.toNat : ℤ) ^ e.toNat) := by
  exact_mod_cast represents_of_toNat_eq (toNat_pow a e)

/-- The complement in the modulus stands for the difference. -/
theorem represents_sub (a b : Residue) : (a - b).Represents (a.toNat - b.toNat) := by
  obtain ⟨hlt, hmod⟩ := represents_of_toNat_eq (toNat_sub a b)
  refine ⟨hlt, hmod.trans ?_⟩
  rw [Nat.cast_add, Nat.cast_sub b.toNat_lt.le]
  have hmodulus : (a.toNat : ℤ) + (modulus - b.toNat) = a.toNat - b.toNat + modulus := by ring
  rw [hmodulus]
  exact Int.add_modEq_right

/-- The negative represents the negative of the number. -/
theorem represents_neg (a : Residue) : (-a).Represents (-a.toNat) := by
  have h := represents_sub 0 a
  rwa [zero_sub, toNat_zero, Nat.cast_zero, zero_sub] at h

/-! ### Where residues come from -/

/-- How a residue is built, and the number that it is built from: from a 32-bit word, by a draw
whose last four bytes are those of the number, or by reading the bytes of the number. -/
inductive BuiltFrom : ℕ → Residue → Prop
  | word (w : UInt32) : BuiltFrom w.toNat (ofWord w)
  | drawn {taken rest : List UInt8} {w : UInt32} {r : Residue}
      (h : draw ⟨taken ++ Words.toLE32 w ++ rest⟩ = .ok r ⟨rest⟩) : BuiltFrom w.toNat r
  | decoded {w : UInt32} {rest : List UInt8} {r : Residue}
      (h : Wire.residue (Words.toLE32 w ++ rest) = .ok (r, rest)) : BuiltFrom w.toNat r

/-- A draw leaves what follows the bytes of the residue that is drawn. -/
theorem exists_eq_of_draw {bytes rest : List UInt8} (h : draw ⟨bytes⟩ = .ok r ⟨rest⟩) :
    ∃ taken, bytes = taken ++ Wire.encodeResidue r ++ rest := by
  obtain ⟨passed, hbytes, -⟩ := draw_eq_ok_iff.mp h
  rw [List.flatMap_append, List.flatMap_singleton] at hbytes
  exact ⟨_, hbytes⟩

/-- A residue whose bytes are those of a word holds the word. -/
theorem represents_of_encodeResidue_eq {w : UInt32}
    (h : Wire.encodeResidue r = Words.toLE32 w) : r.Represents w.toNat := by
  simp only [Wire.encodeResidue, Words.toLE32, List.cons.injEq, and_true] at h
  have hval : r.val = w := by
    rw [← Words.ofLE32_bytes r.val, ← Words.ofLE32_bytes w, h.1, h.2.1, h.2.2.1, h.2.2.2]
  apply represents_of_toNat_eq
  rw [← hval, Nat.mod_eq_of_lt r.val_lt, toNat]

/-- A residue represents the number that it was built from. -/
theorem BuiltFrom.represents (h : BuiltFrom n r) : r.Represents n := by
  cases h with
  | word w => exact represents_of_toNat_eq (toNat_ofWord w)
  | drawn h =>
    obtain ⟨taken, hbytes⟩ := exists_eq_of_draw h
    have hblock := List.append_cancel_right hbytes
    exact represents_of_encodeResidue_eq (List.append_inj_right' hblock rfl).symm
  | decoded h =>
    obtain ⟨s, rfl, hbytes⟩ := (Wire.exact_residue _ _ _).mp h
    exact represents_of_encodeResidue_eq (List.append_cancel_right hbytes).symm

/-! ### The operations together -/

/-- What the operations on two residues return, told by the integers that the residues hold. -/
structure ComputesExactly (a b : Residue) (e : UInt32) : Prop where
  add : (a + b).Represents (a.toNat + b.toNat)
  sub : (a - b).Represents (a.toNat - b.toNat)
  mul : (a * b).Represents (a.toNat * b.toNat)
  neg : (-a).Represents (-a.toNat)
  pow : (a.pow e).Represents ((a.toNat : ℤ) ^ e.toNat)
  pow_zero : a.pow 0 = 1
  addAssign : ((addAssign b).run a).run = ((), a + b)
  subAssign : ((subAssign b).run a).run = ((), a - b)
  mulAssign : ((mulAssign b).run a).run = ((), a * b)
  inv_fails : (∃ cause, a.inv? = .error cause) ↔ a = 0
  inv : a ≠ 0 → ∃ c, a.inv? = .ok c ∧ c.toNat < modulus ∧ a.toNat * c.toNat ≡ 1 [MOD modulus] ∧
    a * c = 1

/-- The operations on residues are those on integers up to multiples of the modulus. -/
theorem computesExactly (a b : Residue) (e : UInt32) : ComputesExactly a b e where
  add := represents_add a b
  sub := represents_sub a b
  mul := represents_mul a b
  neg := represents_neg a
  pow := represents_pow a e
  pow_zero := by
    rw [pow_eq]
    exact pow_zero a
  addAssign := rfl
  subAssign := rfl
  mulAssign := rfl
  inv_fails := by
    unfold inv?
    by_cases ha : a = 0 <;> simp [ha]
  inv ha := by
    have hone := mul_inverse ha
    refine ⟨a.inverse, if_neg ha, a.inverse.toNat_lt, ?_, hone⟩
    have hproduct := toNat_mul a a.inverse
    rw [hone] at hproduct
    exact hproduct.symm

/-- The computations on the representatives of two residues never leave a word: with the checked
arithmetic they have a result, which is the word of the residue that the operation returns. -/
structure StaysInWords (a b : Residue) (e : UInt32) : Prop where
  add : Representative.add checked a.word b.word = some (a + b).word
  mul : Representative.mul checked a.word b.word = some (a * b).word
  pow : Representative.pow checked a.word e.toUInt64 = some (a.pow e).word
  inv : Representative.inv checked a.word = some a.inverse.word

/-- The word of a residue is the representative of every number with this remainder. -/
theorem word_eq_ofNat (h : r.toNat = n % modulus) : r.word = Representative.ofNat n :=
  Representative.eq_ofNat ((toNat_word r).trans h)

/-- In words every operation has the same result as on residues, and no sum or product leaves its
word. -/
theorem staysInWords (a b : Residue) (e : UInt32) : StaysInWords a b e where
  add := by
    rw [Representative.add_eq exact_checked a.word_lt b.word_lt, toNat_word, toNat_word,
      word_eq_ofNat (toNat_add a b)]
    rfl
  mul := by
    rw [Representative.mul_eq exact_checked a.word_lt b.word_lt, toNat_word, toNat_word,
      word_eq_ofNat (toNat_mul a b)]
    rfl
  pow := by
    rw [Representative.pow_eq exact_checked a.word_lt, toNat_word, UInt32.toNat_toUInt64,
      word_eq_ofNat (toNat_pow a e)]
    rfl
  inv := by
    rw [Representative.inv_eq exact_checked a.word_lt, toNat_word,
      word_eq_ofNat (toNat_inverse a)]
    rfl

/-- Residues are the integers modulo the share modulus, however they were built: they compute as the
integers do and stay in their words, and are equal when what they were built from is congruent. -/
theorem exact_of_builtFrom (ha : BuiltFrom m a) (hb : BuiltFrom n b) (e : UInt32) :
    a.Represents m ∧ b.Represents n ∧ (a == b ↔ m ≡ n [MOD modulus]) ∧ ComputesExactly a b e ∧
      StaysInWords a b e := by
  refine ⟨ha.represents, hb.represents, ?_, computesExactly a b e, staysInWords a b e⟩
  rw [beq_iff_eq, ha.represents.eq_iff hb.represents, Int.natCast_modEq_iff]

/-- Five, drawn behind a word that is thrown away, and the greatest residue, read from its bytes. -/
theorem exact_of_drawn_of_decoded :
    BuiltFrom 5 (ofWord 5) ∧ BuiltFrom 4293918720 (ofWord 4293918720) ∧
      (ofWord 5).Represents 5 ∧ (ofWord 4293918720).Represents 4293918720 ∧
      (ofWord 5 == ofWord 4293918720 ↔ 5 ≡ 4293918720 [MOD modulus]) ∧
      ComputesExactly (ofWord 5) (ofWord 4293918720) 0 ∧
      StaysInWords (ofWord 5) (ofWord 4293918720) 0 := by
  have hdrawn : draw ⟨[0xff, 0xff, 0xff, 0xff] ++ Words.toLE32 5 ++ [1]⟩ = .ok (ofWord 5) ⟨[1]⟩ :=
    rfl
  have hread : Wire.residue (Words.toLE32 4293918720 ++ []) = .ok (ofWord 4293918720, []) := rfl
  exact ⟨.drawn hdrawn, .decoded hread, exact_of_builtFrom (.drawn hdrawn) (.decoded hread) 0⟩

end Residue

end SplitTally
