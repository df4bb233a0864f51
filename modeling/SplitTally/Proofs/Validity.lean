import SplitTally.Proofs.Sharing

/-!
# What the validity check accepts

A proof is right about its slots when they are bits and the proof holds the values of the product of
the two polynomials of the slots. This is the case exactly when the polynomial of the proof is that
product. The servers compare the two at one point, so they accept a right proof at every point, and
a wrong one at no more points than the difference, of degree below twice the number of points, has
roots.
-/

namespace SplitTally

open Finset Polynomial

namespace BitProof

/-- The slots are bits, and the proof holds the values of the product of the polynomials of the
slots: at the first root, and at the roots of twice the order with odd exponent. -/
structure Proves (proof : BitProof) (xs : List Residue) : Prop where
  /-- Every slot is a bit. -/
  bits : ∀ x ∈ xs, x = 0 ∨ x = 1
  /-- The value at the first root. -/
  first : proof.h0 = proof.f0 * proof.g0
  /-- The values at the roots with odd exponent. -/
  odd : ∀ j < 2 ^ pointBits xs.length, proof.packed.getD j 0 =
    (slotPolynomial (pointBits xs.length) proof.f0 xs *
      slotPolynomial (pointBits xs.length) proof.g0 (xs.map (· - 1))).eval
        (Roots.base (pointBits xs.length + 1) false ^ (2 * j + 1))

private theorem degree_mul_lt {k : ℕ} {f g : Residue[X]} (hf : f.degree < (2 ^ k : ℕ))
    (hg : g.degree < (2 ^ k : ℕ)) : (f * g).degree < (2 ^ (k + 1) : ℕ) := by
  by_cases hzero : f = 0 ∨ g = 0
  · rw [mul_eq_zero.mpr hzero, degree_zero]
    exact WithBot.bot_lt_coe _
  · obtain ⟨hf0, hg0⟩ := not_or.mp hzero
    have hf' := (natDegree_lt_iff_degree_lt hf0).mpr hf
    have hg' := (natDegree_lt_iff_degree_lt hg0).mpr hg
    rw [← natDegree_lt_iff_degree_lt (mul_ne_zero hf0 hg0), natDegree_mul hf0 hg0, pow_succ]
    omega

/-- At a root with even exponent other than zero the product of the polynomials of the slots is
`x * (x - 1)` for the slot `x` of the root, and zero if no slot is left for it. -/
theorem eval_mul_slotPolynomial_even {k i : ℕ} (hk : k < 20) (f0 g0 : Residue) (xs : List Residue)
    (hi : i + 1 < 2 ^ k) :
    (slotPolynomial k f0 xs * slotPolynomial k g0 (xs.map (· - 1))).eval
      (Roots.base (k + 1) false ^ (2 * (i + 1))) =
        (xs[i]?.map fun x => x * (x - 1)).getD 0 := by
  rw [pow_mul, Roots.base_succ_sq hk, eval_mul, eval_slotPolynomial hk.le _ _ hi,
    eval_slotPolynomial hk.le _ _ hi, List.getD_cons_succ, List.getD_cons_succ,
    List.getD_eq_getElem?_getD, List.getD_eq_getElem?_getD, List.getElem?_map]
  cases xs[i]? <;> simp

/-- At the first root the product takes the product of the first values. -/
theorem eval_mul_slotPolynomial_zero {k : ℕ} (hk : k < 20) (f0 g0 : Residue) (xs : List Residue) :
    (slotPolynomial k f0 xs * slotPolynomial k g0 (xs.map (· - 1))).eval 1 = f0 * g0 := by
  have hpos : 0 < 2 ^ k := by positivity
  have hf := eval_slotPolynomial hk.le f0 xs hpos
  have hg := eval_slotPolynomial hk.le g0 (xs.map (· - 1)) hpos
  rw [pow_zero, List.getD_cons_zero] at hf hg
  rw [eval_mul, hf, hg]

/-- The polynomial of a right proof is the product of those of the slots. -/
theorem Proves.mul_eq {proof : BitProof} {xs : List Residue} (h : proof.Proves xs)
    (hsize : xs.length ≤ Schema.maxDimension) :
    slotPolynomial (pointBits xs.length) proof.f0 xs *
        slotPolynomial (pointBits xs.length) proof.g0 (xs.map (· - 1)) =
      productPolynomial (pointBits xs.length) proof.h0 proof.packed := by
  have hk : pointBits xs.length < 20 := Nat.lt_succ_of_le (pointBits_le hsize)
  have hdegree := degree_mul_lt (degree_slotPolynomial_lt hk.le proof.f0 xs)
    (degree_slotPolynomial_lt hk.le proof.g0 (xs.map (· - 1)))
  refine Transform.eq_through (k := pointBits xs.length + 1) hk hdegree fun i hi => ?_
  have hdouble : 2 ^ (pointBits xs.length + 1) = 2 * 2 ^ pointBits xs.length := pow_succ' 2 _
  rcases Nat.even_or_odd' i with ⟨j, rfl | rfl⟩
  · cases j with
    | zero => simpa [h.first] using eval_mul_slotPolynomial_zero hk proof.f0 proof.g0 xs
    | succ j =>
      have hodd : ¬ 2 * (j + 1) % 2 = 1 := by omega
      rw [eval_mul_slotPolynomial_even hk _ _ _ (by omega), if_neg (by omega), if_neg hodd]
      cases hx : xs[j]? with
      | none => rfl
      | some x =>
        rcases h.bits x (List.mem_of_getElem? hx) with rfl | rfl <;> simp
  · have hodd : (2 * j + 1) % 2 = 1 := by omega
    have hhalf : (2 * j + 1) / 2 = j := by omega
    rw [if_neg (by omega), if_pos hodd, hhalf, h.odd j (by omega)]

/-- A proof whose polynomial is the product of those of the slots is right. -/
theorem proves_of_mul_eq {proof : BitProof} {xs : List Residue}
    (hsize : xs.length ≤ Schema.maxDimension)
    (h : slotPolynomial (pointBits xs.length) proof.f0 xs *
        slotPolynomial (pointBits xs.length) proof.g0 (xs.map (· - 1)) =
      productPolynomial (pointBits xs.length) proof.h0 proof.packed) : proof.Proves xs := by
  have hk : pointBits xs.length < 20 := Nat.lt_succ_of_le (pointBits_le hsize)
  have hlength : xs.length < 2 ^ pointBits xs.length := lt_two_pow_digits _
  have hdouble : 2 ^ (pointBits xs.length + 1) = 2 * 2 ^ pointBits xs.length := pow_succ' 2 _
  refine ⟨fun x hx => ?_, ?_, fun j hj => ?_⟩
  · obtain ⟨i, hi, rfl⟩ := List.getElem_of_mem hx
    have heven : ¬ 2 * (i + 1) % 2 = 1 := by omega
    have heval := eval_mul_slotPolynomial_even hk proof.f0 proof.g0 xs (i := i) (by omega)
    rw [h, eval_productPolynomial hk _ _ (by omega), if_neg (by omega), if_neg heven,
      List.getElem?_eq_getElem hi] at heval
    exact (mul_eq_zero.mp heval.symm).imp_right sub_eq_zero.mp
  · have heval := eval_mul_slotPolynomial_zero hk proof.f0 proof.g0 xs
    have hfirst := eval_productPolynomial hk proof.h0 proof.packed (i := 0) (by positivity)
    rw [pow_zero, if_pos rfl] at hfirst
    rw [← heval, h, hfirst]
  · have hodd : (2 * j + 1) % 2 = 1 := by omega
    have hhalf : (2 * j + 1) / 2 = j := by omega
    rw [h, eval_productPolynomial hk _ _ (by omega), if_neg (by omega), if_pos hodd, hhalf]

/-- The proof that is built about bits is right. -/
theorem build_proves {xs : List Residue} (hsize : xs.length ≤ Schema.maxDimension)
    (hbits : ∀ x ∈ xs, x = 0 ∨ x = 1) (f0 g0 : Residue) : (build xs f0 g0).Proves xs :=
  ⟨hbits, rfl, fun _ hj => getD_packed_build hsize f0 g0 hj⟩

end BitProof

namespace Verifier

/-- Whether both servers form a message about their bundle at the point `x`, and the two messages
accept the proof. -/
def accepts (a b : Verifier) (bundleA bundleB : Bundle) (x : Residue) : Bool :=
  match a.message x bundleA, b.message x bundleB with
  | .ok v, .ok w => v.agrees w
  | _, _ => false

variable {d : ℕ} {va vb : Verifier} {ba bb : Bundle} {xs : List Residue} {proof : BitProof}

/-- Both messages are formed, and they accept the proof exactly at the points where its polynomial
takes the value of the product of the polynomials of the slots. -/
theorem exists_messages_agrees_iff (hd : d ≤ Schema.maxDimension) (hva : va.Serves .a d)
    (hvb : vb.Serves .b d) (hxs : xs.length = d)
    (hdata : Share.reconstruct? ba.data bb.data = some xs)
    (hpacked : proof.packed.length = 2 ^ BitProof.pointBits d)
    (hproof : Share.reconstruct? ba.proof bb.proof = some proof.flatten) (x : Residue) :
    ∃ v w, va.message x ba = .ok v ∧ vb.message x bb = .ok w ∧
      (v.agrees w = true ↔
        (BitProof.slotPolynomial (BitProof.pointBits d) proof.f0 xs *
            BitProof.slotPolynomial (BitProof.pointBits d) proof.g0 (xs.map (· - 1))).eval x =
          (BitProof.productPolynomial (BitProof.pointBits d) proof.h0 proof.packed).eval x) := by
  obtain ⟨v, w, hv, hw, hf, hg, hh⟩ :=
    exists_messages_add hd hva hvb hxs hdata hpacked hproof x
  refine ⟨v, w, hv, hw, ?_⟩
  rw [Message.agrees, decide_eq_true_iff, hf, hg, hh, eval_mul]

/-- A nonzero polynomial has fewer roots than its degree bound. -/
private theorem card_roots_lt {n : ℕ} {q : Residue[X]} (hq : q ≠ 0) (hdegree : q.degree < (n : ℕ)) :
    (univ.filter fun x => q.eval x = 0).card < n := by
  have hsubset : (univ.filter fun x => q.eval x = 0) ⊆ q.roots.toFinset := by
    intro x hx
    simpa [hq, IsRoot.def] using hx
  calc (univ.filter fun x => q.eval x = 0).card ≤ q.roots.toFinset.card := card_le_card hsubset
    _ ≤ q.natDegree := (Multiset.toFinset_card_le _).trans (card_roots' q)
    _ < n := (natDegree_lt_iff_degree_lt hq).mpr hdegree

/-- The servers accept a wrong proof at fewer points than there are roots of unity of twice the
order. -/
theorem card_accepts_le (hd : d ≤ Schema.maxDimension) (hva : va.Serves .a d)
    (hvb : vb.Serves .b d) (hxs : xs.length = d)
    (hdata : Share.reconstruct? ba.data bb.data = some xs)
    (hpacked : proof.packed.length = 2 ^ Nat.clog 2 (d + 1))
    (hproof : Share.reconstruct? ba.proof bb.proof = some proof.flatten)
    (hwrong : ¬ proof.Proves xs) :
    (∀ x, ∃ v w, va.message x ba = .ok v ∧ vb.message x bb = .ok w) ∧
      (univ.filter fun x => accepts va vb ba bb x).card ≤ 2 * 2 ^ Nat.clog 2 (d + 1) - 1 := by
  rw [← BitProof.pointBits_eq_clog] at hpacked ⊢
  have hmessages := exists_messages_agrees_iff hd hva hvb hxs hdata hpacked hproof
  subst hxs
  constructor
  · intro x
    obtain ⟨v, w, hv, hw, -⟩ := hmessages x
    exact ⟨v, w, hv, hw⟩
  have hk : BitProof.pointBits xs.length < 20 := Nat.lt_succ_of_le (BitProof.pointBits_le hd)
  set q := BitProof.slotPolynomial (BitProof.pointBits xs.length) proof.f0 xs *
      BitProof.slotPolynomial (BitProof.pointBits xs.length) proof.g0 (xs.map (· - 1)) -
    BitProof.productPolynomial (BitProof.pointBits xs.length) proof.h0 proof.packed with hq
  have hne : q ≠ 0 := fun hzero => hwrong (BitProof.proves_of_mul_eq hd (sub_eq_zero.mp hzero))
  have hdegree : q.degree < (2 ^ (BitProof.pointBits xs.length + 1) : ℕ) :=
    (degree_sub_le _ _).trans_lt (max_lt
      (BitProof.degree_mul_lt (BitProof.degree_slotPolynomial_lt hk.le _ _)
        (BitProof.degree_slotPolynomial_lt hk.le _ _))
      (BitProof.degree_productPolynomial_lt hk _ _))
  have haccepts : (univ.filter fun x => accepts va vb ba bb x) =
      univ.filter fun x => q.eval x = 0 := by
    apply filter_congr
    intro x _
    obtain ⟨v, w, hv, hw, hagrees⟩ := hmessages x
    simp only [accepts, hv, hw, hagrees, hq, eval_sub, sub_eq_zero]
  have hlt := card_roots_lt hne hdegree
  rw [haccepts]
  rw [pow_succ'] at hlt
  omega

/-- The servers accept the proof that is built about bits at every point, however the slots and the
proof are shared out. -/
theorem exists_messages_agree_of_build (hsize : xs.length ≤ Schema.maxDimension)
    (hbits : ∀ x ∈ xs, x = 0 ∨ x = 1) (f0 g0 : Residue) (hva : va.Serves .a xs.length)
    (hvb : vb.Serves .b xs.length) (hdata : Share.reconstruct? ba.data bb.data = some xs)
    (hproof : Share.reconstruct? ba.proof bb.proof = some (BitProof.build xs f0 g0).flatten)
    (x : Residue) :
    ∃ v w, va.message x ba = .ok v ∧ vb.message x bb = .ok w ∧ v.agrees w = true := by
  obtain ⟨v, w, hv, hw, hagrees⟩ := exists_messages_agrees_iff hsize hva hvb rfl hdata
    (BitProof.length_packed_build xs f0 g0) hproof x
  refine ⟨v, w, hv, hw, hagrees.mpr ?_⟩
  rw [(BitProof.build_proves hsize hbits f0 g0).mul_eq hsize]

end Verifier

end SplitTally
