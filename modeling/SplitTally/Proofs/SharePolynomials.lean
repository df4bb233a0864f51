import SplitTally.Proofs.FourierTransform
import SplitTally.Schema
import SplitTally.Share
import SplitTally.Verifier

/-!
# The polynomials that servers and provers evaluate

The slots with a chosen first value determine a polynomial through the `2 ^ k`-th roots of unity,
the packed part of a proof one through the `2 ^ (k + 1)`-th roots. Both depend linearly on their
values. A server's message consists of the values of these polynomials for its shares, and a proof
of the values of a product of two of them, as long as there are enough roots for the dimension.
-/

namespace SplitTally

open Finset Polynomial

/-- Vectors are added slot by slot, with zeros behind both. -/
theorem Residue.getD_zipWith_add (xs ys : List Residue) (h : xs.length = ys.length) (i : ℕ) :
    (List.zipWith (· + ·) xs ys).getD i 0 = xs.getD i 0 + ys.getD i 0 := by
  by_cases hi : i < xs.length
  · have hi' : i < ys.length := h ▸ hi
    simp [List.getD_eq_getElem?_getD, hi, hi']
  · have hi' : ¬ i < ys.length := h ▸ hi
    simp [List.getD_eq_getElem?_getD, hi, hi']

namespace BitProof

/-! ### The number of points -/

/-- A number has so many digits at most if it is below the power of two. -/
theorem digits_le_iff {n m : ℕ} : digits n ≤ m ↔ n < 2 ^ m := by
  unfold digits
  by_cases hn : n = 0
  · simp [hn]
  · rw [if_neg hn, Nat.succ_le_iff, Nat.log2_lt hn]

/-- A number is below the power of two of its digits. -/
theorem lt_two_pow_digits (n : ℕ) : n < 2 ^ digits n := digits_le_iff.mp le_rfl

/-- Up to the greatest dimension, twice the number of points are roots of unity. -/
theorem pointBits_le {d : ℕ} (hd : d ≤ Schema.maxDimension) : pointBits d ≤ 19 := by
  apply digits_le_iff.mpr
  have : Schema.maxDimension = 2 ^ 19 - 1 := by decide
  omega

/-- The points are as many as a power of two. -/
theorem pointCount_eq (d : ℕ) : pointCount d = 2 ^ pointBits d := rfl

/-- The number of points is the least power of two above the dimension. -/
theorem pointBits_eq_clog (d : ℕ) : pointBits d = Nat.clog 2 (d + 1) := by
  apply eq_of_forall_ge_iff
  intro m
  rw [pointBits, digits_le_iff, Nat.clog_le_iff_le_pow (by decide), Nat.succ_le_iff]

/-! ### Polynomials of slots -/

/-- The polynomial of degree below `2 ^ k` with the value `first` at the first of the `2 ^ k`-th
roots of unity, the entries of `xs` at the next ones, and zero at the roots left over. -/
noncomputable def slotPolynomial (k : ℕ) (first : Residue) (xs : List Residue) : Residue[X] :=
  Transform.through k fun i => (first :: xs).getD i 0

/-- The polynomial of degree below `2 ^ (k + 1)` with the value `first` at the first of the
`2 ^ (k + 1)`-th roots of unity, zero at the other even exponents, and the entries of `packed` at
the odd ones. -/
noncomputable def productPolynomial (k : ℕ) (first : Residue) (packed : List Residue) :
    Residue[X] :=
  Transform.through (k + 1) fun i =>
    if i = 0 then first else if i % 2 = 1 then packed.getD (i / 2) 0 else 0

/-- The points are the first value, the slots and zeros behind them. -/
theorem entry_points {k i : ℕ} (first : Residue) (xs : List Residue) (hi : i < 2 ^ k) :
    Transform.entry (points k first xs) i = (first :: xs).getD i 0 := by
  rw [points, Transform.entry_ofFn _ hi]
  cases i with
  | zero => rfl
  | succ i => simp

/-- Interpolating through the points gives the values of the polynomial of the slots. -/
theorem interpolateAt_points {k : ℕ} (hk : k ≤ 20) (first : Residue) (xs : List Residue)
    (x : Residue) :
    Transform.interpolateAt k (points k first xs) x = (slotPolynomial k first xs).eval x := by
  rw [Transform.interpolateAt_eq hk, slotPolynomial,
    Transform.through_congr fun i hi => entry_points first xs hi]

/-- The points of the product: the first value, the packed ones at odd places, zeros elsewhere. -/
theorem entry_productPoints {k i : ℕ} (first : Residue) (packed : List Residue)
    (hi : i < 2 ^ (k + 1)) :
    Transform.entry (Verifier.productPoints k first packed) i =
      if i = 0 then first else if i % 2 = 1 then packed.getD (i / 2) 0 else 0 := by
  rw [Verifier.productPoints, Transform.entry_ofFn _ hi]
  simp

/-- Interpolating through these points gives the values of the polynomial of the packed values. -/
theorem interpolateAt_productPoints {k : ℕ} (hk : k < 20) (first : Residue)
    (packed : List Residue) (x : Residue) :
    Transform.interpolateAt (k + 1) (Verifier.productPoints k first packed) x =
      (productPolynomial k first packed).eval x := by
  rw [Transform.interpolateAt_eq hk, productPolynomial,
    Transform.through_congr fun i hi => entry_productPoints first packed hi]

/-- The value of the polynomial of the slots at the root of a slot. -/
theorem eval_slotPolynomial {k i : ℕ} (hk : k ≤ 20) (first : Residue) (xs : List Residue)
    (hi : i < 2 ^ k) :
    (slotPolynomial k first xs).eval (Roots.base k false ^ i) = (first :: xs).getD i 0 :=
  Transform.eval_through hk _ hi

/-- The polynomial of the slots has a degree below the number of points. -/
theorem degree_slotPolynomial_lt {k : ℕ} (hk : k ≤ 20) (first : Residue) (xs : List Residue) :
    (slotPolynomial k first xs).degree < (2 ^ k : ℕ) :=
  Transform.degree_through_lt hk _

/-- The polynomial of the packed values takes them as its values at the roots with odd exponent. -/
theorem eval_productPolynomial {k i : ℕ} (hk : k < 20) (first : Residue) (packed : List Residue)
    (hi : i < 2 ^ (k + 1)) :
    (productPolynomial k first packed).eval (Roots.base (k + 1) false ^ i) =
      if i = 0 then first else if i % 2 = 1 then packed.getD (i / 2) 0 else 0 :=
  Transform.eval_through hk _ hi

/-- The polynomial of the packed values has a degree below twice the number of points. -/
theorem degree_productPolynomial_lt {k : ℕ} (hk : k < 20) (first : Residue)
    (packed : List Residue) : (productPolynomial k first packed).degree < (2 ^ (k + 1) : ℕ) :=
  Transform.degree_through_lt hk _

/-- The polynomial of the slots depends additively on them. -/
theorem slotPolynomial_add {k : ℕ} (a b : Residue) {xs ys : List Residue}
    (h : xs.length = ys.length) :
    slotPolynomial k (a + b) (List.zipWith (· + ·) xs ys) =
      slotPolynomial k a xs + slotPolynomial k b ys := by
  unfold slotPolynomial
  rw [← map_add]
  congr 1
  funext i
  exact Residue.getD_zipWith_add (a :: xs) (b :: ys) (by simpa using h) i

/-- The polynomial of the packed values depends additively on them. -/
theorem productPolynomial_add {k : ℕ} (a b : Residue) {xs ys : List Residue}
    (h : xs.length = ys.length) :
    productPolynomial k (a + b) (List.zipWith (· + ·) xs ys) =
      productPolynomial k a xs + productPolynomial k b ys := by
  unfold productPolynomial
  rw [← map_add]
  congr 1
  funext i
  simp only [Pi.add_apply, Residue.getD_zipWith_add xs ys h]
  split_ifs <;> simp

/-! ### Proofs -/

/-- Zeros behind the coefficients change no value. -/
theorem sumAt_zeroExtend {k : ℕ} (v : Vector Residue (2 ^ k)) (x : Residue) :
    Transform.sumAt (Transform.zeroExtend v) x = Transform.sumAt v x := by
  have hrange : range (2 ^ (k + 1)) = range (2 ^ k + 2 ^ k) := by
    rw [Transform.pow_succ_eq, two_mul]
  have hsize := Transform.pow_succ_eq k
  rw [Transform.sumAt, hrange, sum_range_add, Transform.sumAt]
  have hlow : ∀ j ∈ range (2 ^ k), Transform.entry (Transform.zeroExtend v) j * x ^ j =
      Transform.entry v j * x ^ j := by
    intro j hj
    have hj' := mem_range.mp hj
    rw [Transform.zeroExtend, Transform.entry_ofFn _ (by omega), Transform.entry_of_lt v hj']
    simp [hj', Vector.get]
  have hhigh : ∀ j ∈ range (2 ^ k),
      Transform.entry (Transform.zeroExtend v) (2 ^ k + j) * x ^ (2 ^ k + j) = 0 := by
    intro j hj
    have hj' := mem_range.mp hj
    rw [Transform.zeroExtend, Transform.entry_ofFn _ (by omega)]
    simp
  rw [sum_congr rfl hlow, sum_eq_zero hhigh, add_zero]

/-- Interpolation, extension with zeros and evaluation give the values of the polynomial of the
slots at the roots of twice the order with odd exponent. -/
theorem entry_oddValues_points {k j : ℕ} (hk : k < 20) (first : Residue) (xs : List Residue)
    (hj : j < 2 ^ k) :
    Transform.entry (oddValues k (points k first xs)) j =
      (slotPolynomial k first xs).eval (Roots.base (k + 1) false ^ (2 * j + 1)) := by
  have hsize := Transform.pow_succ_eq k
  rw [oddValues, Transform.entry_odds _ hj, Transform.entry_values hk _ (by omega),
    sumAt_zeroExtend, ← Transform.eval_toPolynomial, Transform.toPolynomial_interpolate hk.le,
    slotPolynomial, Transform.through_congr fun i hi => entry_points first xs hi]

/-- A proof has a packed value for each point. -/
theorem length_packed_build (xs : List Residue) (f0 g0 : Residue) :
    (build xs f0 g0).packed.length = 2 ^ pointBits xs.length := by
  simp [build]

/-- A proof has as many residues as the number of slots demands. -/
theorem length_flatten_build (xs : List Residue) (f0 g0 : Residue) :
    (build xs f0 g0).flatten.length = flatSize xs.length := by
  simp only [flatten, List.length_cons, length_packed_build, flatSize, pointCount_eq]
  omega

/-- The packed part of a proof holds the values of the product of the two polynomials of the slots
at the roots with odd exponent. -/
theorem getD_packed_build {xs : List Residue} (hsize : xs.length ≤ Schema.maxDimension)
    (f0 g0 : Residue) {j : ℕ} (hj : j < 2 ^ pointBits xs.length) :
    (build xs f0 g0).packed.getD j 0 =
      (slotPolynomial (pointBits xs.length) f0 xs *
        slotPolynomial (pointBits xs.length) g0 (xs.map (· - 1))).eval
          (Roots.base (pointBits xs.length + 1) false ^ (2 * j + 1)) := by
  have hk : pointBits xs.length < 20 := Nat.lt_succ_of_le (pointBits_le hsize)
  rw [eval_mul, ← entry_oddValues_points hk f0 xs hj, ← entry_oddValues_points hk g0 _ hj,
    ← Transform.entry_zipWith (· * ·) _ _ hj]
  simp only [build, Transform.entry, List.getD_eq_getElem?_getD, Vector.getElem?_toList]

/-- A proof is read back from its residues. -/
theorem ofFlat_flatten {d : ℕ} {proof : BitProof} (h : proof.packed.length = pointCount d) :
    ofFlat d proof.flatten = .ok proof := by
  simp [ofFlat, flatten, flatSize, h, Nat.add_comm 3]

end BitProof

namespace Share

/-- Two vectors are shares of their sum if they are of the same length. -/
theorem reconstruct?_eq_some_iff {a b xs : List Residue} :
    reconstruct? a b = some xs ↔ a.length = b.length ∧ List.zipWith (· + ·) a b = xs := by
  unfold reconstruct?
  split_ifs with h <;> simp [h]

/-- Two shares of the residues of a proof are the residues of two proofs that add up to it. -/
theorem exists_of_reconstruct?_flatten {a b : List Residue} {proof : BitProof}
    (h : reconstruct? a b = some proof.flatten) :
    ∃ pa pb : BitProof, a = pa.flatten ∧ b = pb.flatten ∧ pa.f0 + pb.f0 = proof.f0 ∧
      pa.g0 + pb.g0 = proof.g0 ∧ pa.h0 + pb.h0 = proof.h0 ∧
      reconstruct? pa.packed pb.packed = some proof.packed := by
  obtain ⟨hlength, hsum⟩ := reconstruct?_eq_some_iff.mp h
  obtain ⟨fa, a, fb, b, rfl, rfl, hf, hsum⟩ := List.zipWith_eq_cons_iff.mp hsum
  obtain ⟨ga, a, gb, b, rfl, rfl, hg, hsum⟩ := List.zipWith_eq_cons_iff.mp hsum.symm
  obtain ⟨ha, a, hb, b, rfl, rfl, hh, hsum⟩ := List.zipWith_eq_cons_iff.mp hsum.symm
  have hpacked : a.length = b.length := by simpa using hlength
  exact ⟨⟨fa, ga, ha, a⟩, ⟨fb, gb, hb, b⟩, rfl, rfl, hf.symm, hg.symm, hh.symm,
    reconstruct?_eq_some_iff.mpr ⟨hpacked, hsum.symm⟩⟩

end Share

namespace Verifier

/-- The verifier is the given server and takes bundles of `d` slots, whatever it has accepted so
far. -/
structure Serves (verifier : Verifier) (server : Server) (d : ℕ) : Prop where
  /-- The server. -/
  server_eq : verifier.server = server
  /-- The number of slots. -/
  dimension_eq : verifier.dimension = d

/-- A message holds the values of the polynomials of the server's shares. -/
theorem message_eq_ok {d : ℕ} (hd : d ≤ Schema.maxDimension) {verifier : Verifier}
    {server : Server} (hv : verifier.Serves server d) {bundle : Bundle} {proof : BitProof}
    (hdata : bundle.data.length = d) (hproof : bundle.proof = proof.flatten)
    (hpacked : proof.packed.length = 2 ^ BitProof.pointBits d) (x : Residue) :
    verifier.message x bundle = .ok {
      f := (BitProof.slotPolynomial (BitProof.pointBits d) proof.f0 bundle.data).eval x
      g := (BitProof.slotPolynomial (BitProof.pointBits d) proof.g0
        (shiftedData server bundle.data)).eval x
      h := (BitProof.productPolynomial (BitProof.pointBits d) proof.h0 proof.packed).eval x } := by
  obtain ⟨rfl, rfl⟩ := hv
  have hk := BitProof.pointBits_le hd
  have hflat : BitProof.ofFlat verifier.dimension bundle.proof = .ok proof := by
    rw [hproof]
    exact BitProof.ofFlat_flatten (hpacked.trans (BitProof.pointCount_eq _).symm)
  have hdimension : ¬ bundle.dimension ≠ verifier.dimension := not_not.mpr hdata
  rw [message, if_neg hdimension, hflat]
  rw [← BitProof.interpolateAt_points (by omega), ← BitProof.interpolateAt_points (by omega),
    ← BitProof.interpolateAt_productPoints (by omega)]
  rfl

/-- Only the first server shifts its data, so the shifted shares add up to the shifted slots. -/
theorem zipWith_shiftedData (xs ys : List Residue) :
    List.zipWith (· + ·) (shiftedData .a xs) (shiftedData .b ys) =
      (List.zipWith (· + ·) xs ys).map (· - 1) := by
  have ha : shiftedData .a xs = xs.map (· - 1) := rfl
  have hb : shiftedData .b ys = ys := rfl
  rw [ha, hb, List.zipWith_map_left, List.map_zipWith]
  simp only [sub_add_eq_add_sub]

/-- On shares of slots and of a proof of the right lengths both messages exist, and they add up to
the values of the polynomials of the slots and of the proof. -/
theorem exists_messages_add {d : ℕ} (hd : d ≤ Schema.maxDimension) {va vb : Verifier}
    (hva : va.Serves .a d) (hvb : vb.Serves .b d) {ba bb : Bundle} {xs : List Residue}
    {proof : BitProof} (hxs : xs.length = d)
    (hdata : Share.reconstruct? ba.data bb.data = some xs)
    (hpacked : proof.packed.length = 2 ^ BitProof.pointBits d)
    (hproof : Share.reconstruct? ba.proof bb.proof = some proof.flatten) (x : Residue) :
    ∃ v w, va.message x ba = .ok v ∧ vb.message x bb = .ok w ∧
      v.f + w.f = (BitProof.slotPolynomial (BitProof.pointBits d) proof.f0 xs).eval x ∧
      v.g + w.g =
        (BitProof.slotPolynomial (BitProof.pointBits d) proof.g0 (xs.map (· - 1))).eval x ∧
      v.h + w.h =
        (BitProof.productPolynomial (BitProof.pointBits d) proof.h0 proof.packed).eval x := by
  obtain ⟨hlength, rfl⟩ := Share.reconstruct?_eq_some_iff.mp hdata
  obtain ⟨pa, pb, hpa, hpb, hf, hg, hh, hsum⟩ := Share.exists_of_reconstruct?_flatten hproof
  obtain ⟨hplength, hp⟩ := Share.reconstruct?_eq_some_iff.mp hsum
  have hda : ba.data.length = d := by simpa [hlength] using hxs
  have hdb : bb.data.length = d := hlength ▸ hda
  have hla : pa.packed.length = 2 ^ BitProof.pointBits d := by
    simpa [← hp, hplength] using hpacked
  have hlb : pb.packed.length = 2 ^ BitProof.pointBits d := hplength ▸ hla
  have hshifted : (shiftedData .a ba.data).length = (shiftedData .b bb.data).length := by
    simpa [shiftedData, Server.isFirst] using hlength
  refine ⟨_, _, message_eq_ok hd hva hda hpa hla x, message_eq_ok hd hvb hdb hpb hlb x, ?_, ?_, ?_⟩
  · rw [← eval_add, ← BitProof.slotPolynomial_add _ _ hlength, hf]
  · rw [← eval_add, ← BitProof.slotPolynomial_add _ _ hshifted, zipWith_shiftedData, hg]
  · rw [← eval_add, ← BitProof.productPolynomial_add _ _ hplength, hh, hp]

end Verifier

end SplitTally
