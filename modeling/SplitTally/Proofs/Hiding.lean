import SplitTally.Proofs.Validity

/-!
# What one server sees

A client's bundles are determined by the residues it draws: a mask for each slot, the two first
values of the proof, and a mask for each residue of the proof. Shifting the first values and the
masks takes the residues drawn for one vector of bits to residues for another one, in such a way
that a server gets the same bundle and both servers form the same messages at one point. The shift
of the first values divides by the value at the point of the polynomial that is one at the first
root and zero at the others, so the point must not be one of the roots of unity.
-/

namespace SplitTally

open Finset Polynomial

/-- The residues that a client draws for `d` slots. -/
structure Randomness (d : ℕ) where
  /-- The masks of the slots. -/
  dataMasks : Fin d → Residue
  /-- The value of `f` at the first root. -/
  f0 : Residue
  /-- The value of `g` at the first root. -/
  g0 : Residue
  /-- The masks of the residues of the proof. -/
  proofMasks : Fin (BitProof.flatSize d) → Residue

namespace Randomness

variable {d : ℕ}

/-- The residues are drawn from the stream `e` in the order in which a client draws them, and leave
the stream `rest`. -/
def DrawnFrom (r : Randomness d) (e rest : Entropy) : Prop :=
  ∃ e₁ e₂ e₃, Residue.drawMany d e = .ok (List.ofFn r.dataMasks) e₁ ∧
    Residue.draw e₁ = .ok r.f0 e₂ ∧ Residue.draw e₂ = .ok r.g0 e₃ ∧
    Residue.drawMany (BitProof.flatSize d) e₃ = .ok (List.ofFn r.proofMasks) rest

/-- The stream of the bytes of the residues. -/
def stream (r : Randomness d) (rest : List UInt8) : Entropy :=
  ⟨(List.ofFn r.dataMasks).flatMap Wire.encodeResidue ++ (Wire.encodeResidue r.f0 ++
    (Wire.encodeResidue r.g0 ++ ((List.ofFn r.proofMasks).flatMap Wire.encodeResidue ++ rest)))⟩

/-- Every choice of the residues is drawn from some stream. -/
theorem drawnFrom_stream (r : Randomness d) (rest : List UInt8) :
    r.DrawnFrom (r.stream rest) ⟨rest⟩ := by
  have hdata := Residue.drawMany_encodeResidue (List.ofFn r.dataMasks)
    (Wire.encodeResidue r.f0 ++ (Wire.encodeResidue r.g0 ++
      ((List.ofFn r.proofMasks).flatMap Wire.encodeResidue ++ rest)))
  have hproof := Residue.drawMany_encodeResidue (List.ofFn r.proofMasks) rest
  rw [List.length_ofFn] at hdata hproof
  exact ⟨_, _, _, hdata, Residue.draw_encodeResidue _ _, Residue.draw_encodeResidue _ _, hproof⟩

/-- The bundles of the slots `xs` with the residues drawn. -/
def bundles (r : Randomness d) (batch : List UInt8) (xs : List Residue) : Bundle × Bundle :=
  let proof := (BitProof.build xs r.f0 r.g0).flatten
  ({ batch, server := .a, data := List.ofFn r.dataMasks, proof := List.ofFn r.proofMasks },
    { batch, server := .b, data := List.zipWith (· - ·) xs (List.ofFn r.dataMasks),
      proof := List.zipWith (· - ·) proof (List.ofFn r.proofMasks) })

/-- On a stream the client forms the bundles of the residues that are drawn from it. -/
theorem bundles_eq_ok {r : Randomness d} {e rest : Entropy} (hdraw : r.DrawnFrom e rest)
    {xs : List Residue} (hxs : xs.length = d) {prover : Prover}
    (hprover : prover.dimension = d) (batch : List UInt8) :
    prover.bundles batch xs e = .ok (r.bundles batch xs) rest := by
  obtain ⟨e₁, e₂, e₃, hdata, hf, hg, hproof⟩ := hdraw
  subst hxs
  have hprove := Prover.prove_eq_ok_iff.mpr ⟨hprover.symm, r.f0, r.g0, e₂, hf, hg, rfl⟩
  refine Prover.bundles_eq_ok_iff.mpr ⟨_, e₁, _, e₃, List.ofFn r.proofMasks, hdata, hprove, ?_,
    rfl, rfl⟩
  rw [BitProof.length_flatten_build]
  exact hproof

private theorem ofFn_getD {masks : List Residue} {n : ℕ} (h : masks.length = n) :
    (List.ofFn fun i : Fin n => masks.getD i 0) = masks := by
  apply List.ext_getElem (by simp [h])
  intro i hi hi'
  simp [hi']

/-- A client that forms bundles has drawn residues, and the bundles are theirs. -/
theorem exists_drawnFrom {xs : List Residue} {prover : Prover} {batch : List UInt8}
    {sent : Bundle × Bundle} {e rest : Entropy} (h : prover.bundles batch xs e = .ok sent rest) :
    ∃ r : Randomness xs.length, r.DrawnFrom e rest ∧ sent = r.bundles batch xs := by
  obtain ⟨masks, e₁, proof, e₂, proofMasks, hmasks, hprove, hproofMasks, ha, hb⟩ :=
    Prover.bundles_eq_ok_iff.mp h
  obtain ⟨-, f0, g0, e₃, hf, hg, rfl⟩ := Prover.prove_eq_ok_iff.mp hprove
  rw [BitProof.length_flatten_build] at hproofMasks
  have hdata := ofFn_getD (Residue.length_of_drawMany hmasks)
  have hproof := ofFn_getD (Residue.length_of_drawMany hproofMasks)
  refine ⟨⟨fun i => masks.getD i 0, f0, g0, fun i => proofMasks.getD i 0⟩, ?_, ?_⟩
  · exact ⟨e₁, e₃, e₂, hmasks.trans (by rw [hdata]), hf, hg, hproofMasks.trans (by rw [hproof])⟩
  · refine Prod.ext (ha.trans ?_) (hb.trans ?_) <;> simp only [bundles, hdata, hproof]

/-- The masks of the slots and the first values are shifted by fixed residues, and the masks of the
proof by residues that depend on the first values. -/
def shift (m : Fin d → Residue) (δ : Residue)
    (q : Residue → Residue → Fin (BitProof.flatSize d) → Residue) :
    Randomness d ≃ Randomness d where
  toFun r := ⟨r.dataMasks + m, r.f0 + δ, r.g0 + δ, r.proofMasks + q r.f0 r.g0⟩
  invFun r := ⟨r.dataMasks - m, r.f0 - δ, r.g0 - δ, r.proofMasks - q (r.f0 - δ) (r.g0 - δ)⟩
  left_inv r := by simp
  right_inv r := by simp

end Randomness

namespace BitProof

/-- The value of the polynomial of the slots depends on the first value through the polynomial that
is one at the first root. -/
theorem slotPolynomial_eq_add (k : ℕ) (first : Residue) (xs : List Residue) :
    slotPolynomial k first xs = C first * slotPolynomial k 1 [] + slotPolynomial k 0 xs := by
  unfold slotPolynomial
  rw [← smul_eq_C_mul, ← map_smul, ← map_add]
  congr 1
  funext i
  cases i <;> simp

/-- Outside the roots of unity the polynomial that is one at the first root does not vanish. -/
theorem eval_slotPolynomial_one_ne_zero {k : ℕ} (hk : k ≤ 20) {x : Residue} (hx : x ^ 2 ^ k ≠ 1) :
    (slotPolynomial k 1 []).eval x ≠ 0 := by
  have hfirst : 0 ∈ range (2 ^ k) := mem_range.mpr (by positivity)
  have hnode : ∀ i ∈ range (2 ^ k), x ≠ Roots.base k false ^ i := by
    rintro i - rfl
    rw [pow_right_comm, (Roots.isPrimitiveRoot_base hk).pow_eq_one, one_pow] at hx
    exact hx rfl
  have hbasis : slotPolynomial k 1 [] =
      Lagrange.basis (range (2 ^ k)) (fun i => Roots.base k false ^ i) 0 := by
    rw [slotPolynomial, Transform.through, Lagrange.interpolate_apply,
      sum_eq_single_of_mem 0 hfirst]
    · simp
    · intro i _ hi
      obtain ⟨j, rfl⟩ := Nat.exists_eq_succ_of_ne_zero hi
      simp
  rw [hbasis, Lagrange.eval_basis_not_at_node hfirst (hnode 0 hfirst)]
  refine mul_ne_zero (Lagrange.eval_nodal_not_at_node hnode) (mul_ne_zero ?_ ?_)
  · exact Lagrange.nodalWeight_ne_zero (Transform.injOn_roots hk) hfirst
  · exact inv_ne_zero (sub_ne_zero.mpr (hnode 0 hfirst))

/-- What is to be added to the first value so that the polynomials of two vectors of slots take the
same value at `x`. -/
noncomputable def firstShift (k : ℕ) (xs ys : List Residue) (x : Residue) : Residue :=
  ((slotPolynomial k 0 xs).eval x - (slotPolynomial k 0 ys).eval x) /
    (slotPolynomial k 1 []).eval x

/-- The shift of the first value makes up for other slots at the point `x`. -/
theorem eval_slotPolynomial_firstShift {k : ℕ} (hk : k ≤ 20) {x : Residue} (hx : x ^ 2 ^ k ≠ 1)
    (first : Residue) (xs ys : List Residue) :
    (slotPolynomial k (first + firstShift k xs ys x) ys).eval x =
      (slotPolynomial k first xs).eval x := by
  have hone := eval_slotPolynomial_one_ne_zero hk hx
  rw [slotPolynomial_eq_add k _ ys, slotPolynomial_eq_add k first xs, eval_add, eval_add,
    eval_C_mul,
    eval_C_mul, add_mul, firstShift, div_mul_cancel₀ _ hone]
  ring

/-- The shift is the same for the slots and for the slots less one. -/
theorem firstShift_map_sub_one (k : ℕ) {xs ys : List Residue} (h : xs.length = ys.length)
    (x : Residue) :
    firstShift k (xs.map (· - 1)) (ys.map (· - 1)) x = firstShift k xs ys x := by
  have hadd (zs : List Residue) : slotPolynomial k 0 zs =
      slotPolynomial k 0 (zs.map (· - 1)) + slotPolynomial k 0 (List.replicate zs.length 1) := by
    rw [← slotPolynomial_add 0 0 (by simp), add_zero, ← List.map_const', List.zipWith_map]
    simp
  rw [firstShift, firstShift, hadd xs, hadd ys, h, eval_add, eval_add, add_sub_add_right_eq_sub]

end BitProof

attribute [ext] Message

namespace Verifier

variable {d : ℕ} {va vb : Verifier} {r r' : Randomness d} {xs ys : List Residue}

/-- On the bundles of bits the messages add up to the values of the polynomials of the slots and of
their product. -/
theorem exists_messages_bundles (hd : d ≤ Schema.maxDimension) (hva : va.Serves .a d)
    (hvb : vb.Serves .b d) (r : Randomness d) (hxs : xs.length = d)
    (hbits : ∀ x ∈ xs, x = 0 ∨ x = 1) (batch : List UInt8) (x : Residue) :
    ∃ v w, va.message x (r.bundles batch xs).1 = .ok v ∧
      vb.message x (r.bundles batch xs).2 = .ok w ∧
      v.f + w.f = (BitProof.slotPolynomial (BitProof.pointBits d) r.f0 xs).eval x ∧
      v.g + w.g = (BitProof.slotPolynomial (BitProof.pointBits d) r.g0 (xs.map (· - 1))).eval x ∧
      v.h + w.h = (v.f + w.f) * (v.g + w.g) := by
  subst hxs
  have hmasks : (List.ofFn r.dataMasks).length = xs.length := List.length_ofFn
  have hproofMasks : (List.ofFn r.proofMasks).length =
      (BitProof.build xs r.f0 r.g0).flatten.length := by
    rw [List.length_ofFn, BitProof.length_flatten_build]
  have hdata : Share.reconstruct? (r.bundles batch xs).1.data (r.bundles batch xs).2.data =
      some xs := Share.reconstruct?_zipWith_sub hmasks
  have hproof : Share.reconstruct? (r.bundles batch xs).1.proof (r.bundles batch xs).2.proof =
      some (BitProof.build xs r.f0 r.g0).flatten :=
    Share.reconstruct?_zipWith_sub hproofMasks
  obtain ⟨v, w, hv, hw, hf, hg, hh⟩ := exists_messages_add hd hva hvb rfl hdata
    (BitProof.length_packed_build xs r.f0 r.g0) hproof x
  refine ⟨v, w, hv, hw, hf, hg, ?_⟩
  rw [hh, hf, hg, ← (BitProof.build_proves hd hbits r.f0 r.g0).mul_eq hd, eval_mul]

/-- If the first values are shifted so that the polynomials keep their values at the point and one
of the servers gets the same bundle, both servers form the same messages. -/
theorem messages_eq_of_bundle_eq (hd : d ≤ Schema.maxDimension) (hva : va.Serves .a d)
    (hvb : vb.Serves .b d) (hxs : xs.length = d) (hys : ys.length = d)
    (hxbits : ∀ x ∈ xs, x = 0 ∨ x = 1) (hybits : ∀ y ∈ ys, y = 0 ∨ y = 1) (batch : List UInt8)
    {x : Residue} (hx : x ^ 2 ^ BitProof.pointBits d ≠ 1)
    (hf : r'.f0 = r.f0 + BitProof.firstShift (BitProof.pointBits d) xs ys x)
    (hg : r'.g0 = r.g0 + BitProof.firstShift (BitProof.pointBits d) xs ys x)
    (hsame : (r'.bundles batch ys).1 = (r.bundles batch xs).1 ∨
      (r'.bundles batch ys).2 = (r.bundles batch xs).2) :
    ∃ v w, va.message x (r.bundles batch xs).1 = .ok v ∧
      vb.message x (r.bundles batch xs).2 = .ok w ∧
      va.message x (r'.bundles batch ys).1 = .ok v ∧
      vb.message x (r'.bundles batch ys).2 = .ok w := by
  have hk : BitProof.pointBits d ≤ 20 := (BitProof.pointBits_le hd).trans (by decide)
  obtain ⟨v, w, hv, hw, hvf, hvg, hvh⟩ :=
    exists_messages_bundles hd hva hvb r hxs hxbits batch x
  obtain ⟨v', w', hv', hw', hvf', hvg', hvh'⟩ :=
    exists_messages_bundles hd hva hvb r' hys hybits batch x
  have hsumf : v'.f + w'.f = v.f + w.f := by
    rw [hvf', hvf, hf, BitProof.eval_slotPolynomial_firstShift hk hx]
  have hsumg : v'.g + w'.g = v.g + w.g := by
    rw [hvg', hvg, hg, ← BitProof.firstShift_map_sub_one _ (hxs.trans hys.symm),
      BitProof.eval_slotPolynomial_firstShift hk hx]
  have hsumh : v'.h + w'.h = v.h + w.h := by rw [hvh', hvh, hsumf, hsumg]
  refine ⟨v, w, hv, hw, ?_⟩
  rcases hsame with hsame | hsame
  · rw [hsame, hv] at hv'
    obtain rfl := Except.ok.inj hv'
    have hww : w' = w :=
      Message.ext (add_left_cancel hsumf) (add_left_cancel hsumg) (add_left_cancel hsumh)
    exact ⟨hsame ▸ hv, hww ▸ hw'⟩
  · rw [hsame, hw] at hw'
    obtain rfl := Except.ok.inj hw'
    have hvv : v' = v :=
      Message.ext (add_right_cancel hsumf) (add_right_cancel hsumg) (add_right_cancel hsumh)
    exact ⟨hvv ▸ hv', hsame ▸ hw⟩

end Verifier

/-- The one of the two bundles that is for the server. -/
def Server.bundleOf : Server → Bundle × Bundle → Bundle
  | .a, bundles => bundles.1
  | .b, bundles => bundles.2

namespace Randomness

variable {d : ℕ}

private theorem zipWith_sub_shift (masks : Fin d → Residue) {us vs : List Residue}
    (hu : us.length = d) (hv : vs.length = d) :
    List.zipWith (· - ·) vs (List.ofFn (masks + fun i : Fin d => vs.getD i 0 - us.getD i 0)) =
      List.zipWith (· - ·) us (List.ofFn masks) := by
  apply List.ext_getElem (by simp [hu, hv])
  intro i hi hi'
  have hiu : i < us.length := (List.lt_length_left_of_zipWith hi')
  have hiv : i < vs.length := (List.lt_length_left_of_zipWith hi)
  simp only [List.getElem_zipWith, List.getElem_ofFn, Pi.add_apply, List.getD_eq_getElem?_getD,
    List.getElem?_eq_getElem hiu, List.getElem?_eq_getElem hiv, Option.getD_some]
  ring

/-- The randomness that hides from one server which of the two vectors is sent: the first server
keeps its masks, and for the second one the masks are shifted by the differences. -/
noncomputable def hide (server : Server) (xs ys : List Residue) (x : Residue) :
    Randomness d ≃ Randomness d :=
  let δ := BitProof.firstShift (BitProof.pointBits d) xs ys x
  match server with
  | .a => shift 0 δ fun _ _ => 0
  | .b => shift (fun i => ys.getD i 0 - xs.getD i 0) δ fun f0 g0 i =>
      (BitProof.build ys (f0 + δ) (g0 + δ)).flatten.getD i 0 -
        (BitProof.build xs f0 g0).flatten.getD i 0

/-- With the masks and values changed, the server gets the same bundle for the other slots. -/
theorem bundleOf_hide (server : Server) {xs ys : List Residue} (hxs : xs.length = d)
    (hys : ys.length = d) (x : Residue) (r : Randomness d) (batch : List UInt8) :
    server.bundleOf ((hide server xs ys x r).bundles batch ys) =
      server.bundleOf (r.bundles batch xs) := by
  subst hxs
  cases server with
  | a => simp [Server.bundleOf, bundles, hide, shift]
  | b =>
    have hflat := zipWith_sub_shift r.proofMasks (BitProof.length_flatten_build _ r.f0 r.g0)
      (hys ▸ BitProof.length_flatten_build ys
        (r.f0 + BitProof.firstShift (BitProof.pointBits xs.length) xs ys x)
        (r.g0 + BitProof.firstShift (BitProof.pointBits xs.length) xs ys x))
    have hdata := zipWith_sub_shift r.dataMasks rfl hys
    simp only [Server.bundleOf, bundles, hide, shift, Equiv.coe_fn_mk, hflat, hdata]

/-- What one server sees, its bundle and both messages at a point outside the roots of unity, does
not tell two vectors of bits apart: a bijection of the randomness takes each run on the one vector
to a run on the other that looks the same to the server. -/
theorem exists_equiv_same_view (hd : d ≤ Schema.maxDimension) (server : Server)
    {xs ys : List Residue} (hxs : xs.length = d) (hys : ys.length = d)
    (hxbits : ∀ x ∈ xs, x = 0 ∨ x = 1) (hybits : ∀ y ∈ ys, y = 0 ∨ y = 1) {x : Residue}
    (hx : x ^ (2 * 2 ^ Nat.clog 2 (d + 1)) ≠ 1) :
    ∃ φ : Randomness d ≃ Randomness d, ∀ (r : Randomness d) (e rest e' rest' : Entropy),
      r.DrawnFrom e rest → (φ r).DrawnFrom e' rest' →
      ∀ (prover : Prover) (batch : List UInt8), prover.dimension = d →
        ∃ sent sent', prover.bundles batch xs e = .ok sent rest ∧
          prover.bundles batch ys e' = .ok sent' rest' ∧
          server.bundleOf sent' = server.bundleOf sent ∧
          ∀ va vb : Verifier, va.Serves .a d → vb.Serves .b d →
            ∃ v w, va.message x sent.1 = .ok v ∧ vb.message x sent.2 = .ok w ∧
              va.message x sent'.1 = .ok v ∧ vb.message x sent'.2 = .ok w := by
  have hroot : x ^ 2 ^ BitProof.pointBits d ≠ 1 := by
    intro hone
    apply hx
    rw [← BitProof.pointBits_eq_clog, mul_comm, pow_mul, hone, one_pow]
  refine ⟨hide server xs ys x, fun r e rest e' rest' hdraw hdraw' prover batch hprover => ?_⟩
  have hsame := bundleOf_hide server hxs hys x r batch
  refine ⟨_, _, bundles_eq_ok hdraw hxs hprover batch,
    bundles_eq_ok hdraw' hys hprover batch, hsame, fun va vb hva hvb => ?_⟩
  refine Verifier.messages_eq_of_bundle_eq hd hva hvb hxs hys hxbits hybits batch hroot ?_ ?_ ?_
  · cases server <;> rfl
  · cases server <;> rfl
  · cases server with
    | a => exact .inl hsame
    | b => exact .inr hsame

/-- One slot, the point three, and the streams of the bytes of the residues that are drawn. -/
theorem exists_equiv_same_view_of_one :
    ∃ φ : Randomness 1 ≃ Randomness 1, ∀ r : Randomness 1, ∃ prover sent sent',
      Prover.ofDimension 1 = .ok prover ∧
      prover.bundles [] [0] (r.stream []) = .ok sent ⟨[]⟩ ∧
      prover.bundles [] [1] ((φ r).stream []) = .ok sent' ⟨[]⟩ ∧
      Server.b.bundleOf sent' = Server.b.bundleOf sent ∧
      ∃ v w, (Verifier.start 1 .a ⟨List.replicate 32 1, rfl⟩ []).message 3 sent.1 = .ok v ∧
        (Verifier.start 1 .b ⟨List.replicate 32 2, rfl⟩ []).message 3 sent.2 = .ok w ∧
        (Verifier.start 1 .a ⟨List.replicate 32 1, rfl⟩ []).message 3 sent'.1 = .ok v ∧
        (Verifier.start 1 .b ⟨List.replicate 32 2, rfl⟩ []).message 3 sent'.2 = .ok w := by
  have hclog : Nat.clog 2 (1 + 1) = 1 := by decide +kernel
  have hx : (3 : Residue) ^ (2 * 2 ^ Nat.clog 2 (1 + 1)) ≠ 1 := by
    rw [hclog]
    decide +kernel
  have hxs : ([0] : List Residue).length = 1 := rfl
  have hys : ([1] : List Residue).length = 1 := rfl
  have hd : 1 ≤ Schema.maxDimension := by decide
  obtain ⟨φ, hφ⟩ := exists_equiv_same_view hd .b hxs hys (by simp) (by simp) hx
  refine ⟨φ, fun r => ?_⟩
  obtain ⟨sent, sent', hsent, hsent', hsame, hview⟩ :=
    hφ r _ _ _ _ (r.drawnFrom_stream []) ((φ r).drawnFrom_stream []) ⟨1, Prover.fits_of_le hd⟩ []
      rfl
  exact ⟨_, sent, sent', Prover.ofDimension_eq_ok hd, hsent, hsent', hsame,
    hview _ _ ⟨rfl, rfl⟩ ⟨rfl, rfl⟩⟩

end Randomness

end SplitTally
