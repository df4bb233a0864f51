import SplitTally.Client
import SplitTally.Proofs.Draws
import SplitTally.Proofs.SharePolynomials
import SplitTally.Proofs.Slots

/-!
# What is drawn and shared out

A stream that starts with the bytes of residues yields these residues, and a vector is split into
the residues drawn and the differences to them, so the two shares add up to it. The bundles of a
client hold such shares of the slots and of a proof about them.
-/

namespace SplitTally

namespace Residue

/-- The residue whose bytes start a stream is the first one drawn. -/
theorem draw_encodeResidue (r : Residue) (rest : List UInt8) :
    draw ⟨Wire.encodeResidue r ++ rest⟩ = .ok r ⟨rest⟩ :=
  draw_eq_ok_iff.mpr ⟨[], by rw [List.nil_append, List.flatMap_singleton]; rfl, rfl⟩

private theorem drawOnto_encodeResidue (drawn rs : List Residue) (rest : List UInt8) :
    drawOnto drawn rs.length ⟨rs.flatMap Wire.encodeResidue ++ rest⟩ =
      .ok (drawn.reverse ++ rs) ⟨rest⟩ := by
  induction rs generalizing drawn with
  | nil => simp [drawOnto, Draw.pure_eq_ok_iff]
  | cons r rs ih =>
    rw [List.length_cons, drawOnto, Draw.bind_eq_ok_iff, List.flatMap_cons, List.append_assoc]
    exact ⟨r, _, draw_encodeResidue r _, by simpa using ih (r :: drawn)⟩

/-- The residues whose bytes start a stream are the first ones drawn. -/
theorem drawMany_encodeResidue (rs : List Residue) (rest : List UInt8) :
    drawMany rs.length ⟨rs.flatMap Wire.encodeResidue ++ rest⟩ = .ok rs ⟨rest⟩ :=
  drawOnto_encodeResidue [] rs rest

/-- As many residues are drawn as were asked for. -/
theorem length_of_drawMany {rs : List Residue} {n : ℕ} {e e' : Entropy}
    (h : drawMany n e = .ok rs e') : rs.length = n := by
  obtain ⟨-, hlength, -⟩ := drawMany_eq_ok_iff.mp h
  exact hlength

end Residue

namespace Share

/-- A vector is split into the residues drawn and the differences to them. -/
theorem splitVector_eq_ok_iff {xs : List Residue} {shares : List Residue × List Residue}
    {e e' : Entropy} :
    splitVector xs e = .ok shares e' ↔
      ∃ masks, Residue.drawMany xs.length e = .ok masks e' ∧
        shares = (masks, List.zipWith (· - ·) xs masks) := by
  rw [splitVector, Draw.bind_eq_ok_iff]
  simp only [Draw.pure_eq_ok_iff]
  constructor
  · rintro ⟨masks, e₁, hdraw, rfl, rfl⟩
    exact ⟨masks, hdraw, rfl⟩
  · rintro ⟨masks, hdraw, rfl⟩
    exact ⟨masks, e', hdraw, rfl, rfl⟩

/-- A mask and the differences to it add up to the vector. -/
theorem reconstruct?_zipWith_sub {xs masks : List Residue} (h : masks.length = xs.length) :
    reconstruct? masks (List.zipWith (· - ·) xs masks) = some xs := by
  rw [reconstruct?_eq_some_iff]
  refine ⟨by simp [h], List.ext_getElem (by simp [h]) fun i _ _ => ?_⟩
  simp

end Share

namespace Prover

/-- Up to the greatest dimension of a schema there are enough roots of unity for a prover. -/
theorem fits_of_le {d : ℕ} (hd : d ≤ Schema.maxDimension) :
    2 * BitProof.pointCount d ≤ Roots.groupOrder := by
  have hpow : 2 ^ BitProof.pointBits d ≤ 2 ^ 19 :=
    Nat.pow_le_pow_right (by decide) (BitProof.pointBits_le hd)
  have horder : Roots.groupOrder = 2 * 2 ^ 19 := by decide
  rw [BitProof.pointCount_eq, horder]
  exact Nat.mul_le_mul_left 2 hpow

/-- A prover is there for as many slots as a schema may have. -/
theorem ofDimension_eq_ok {d : ℕ} (hd : d ≤ Schema.maxDimension) :
    ofDimension d = .ok ⟨d, fits_of_le hd⟩ :=
  dif_pos (fits_of_le hd)

/-- A proof is built from the two residues drawn. -/
theorem prove_eq_ok_iff {prover : Prover} {xs : List Residue} {proof : BitProof} {e e' : Entropy} :
    prover.prove xs e = .ok proof e' ↔ xs.length = prover.dimension ∧
      ∃ f0 g0 e₁, Residue.draw e = .ok f0 e₁ ∧ Residue.draw e₁ = .ok g0 e' ∧
        proof = BitProof.build xs f0 g0 := by
  unfold prove
  by_cases hlength : xs.length = prover.dimension
  · simp only [hlength, ne_eq, not_true_eq_false, if_false, Draw.bind_eq_ok_iff,
      Draw.mapError_eq_ok_iff, Draw.pure_eq_ok_iff, true_and]
    constructor
    · rintro ⟨f0, e₁, hf, g0, e₂, hg, rfl, rfl⟩
      exact ⟨f0, g0, e₁, hf, hg, rfl⟩
    · rintro ⟨f0, g0, e₁, hf, hg, rfl⟩
      exact ⟨f0, e₁, hf, g0, e', hg, rfl, rfl⟩
  · simp only [hlength, false_and, ne_eq, not_false_eq_true, if_true,
      Draw.bind_eq_ok_iff, Draw.throw_ne_ok, exists_false]

/-- The bundles hold shares of the slots and of the proof drawn about them, and the first server
gets the masks. -/
theorem bundles_eq_ok_iff {prover : Prover} {batch : List UInt8} {xs : List Residue}
    {ba bb : Bundle} {e e' : Entropy} :
    prover.bundles batch xs e = .ok (ba, bb) e' ↔
      ∃ masks e₁ proof e₂ proofMasks, Residue.drawMany xs.length e = .ok masks e₁ ∧
        prover.prove xs e₁ = .ok proof e₂ ∧
        Residue.drawMany proof.flatten.length e₂ = .ok proofMasks e' ∧
        ba = { batch, server := .a, data := masks, proof := proofMasks } ∧
        bb = { batch, server := .b, data := List.zipWith (· - ·) xs masks,
               proof := List.zipWith (· - ·) proof.flatten proofMasks } := by
  rw [bundles, Draw.bind_eq_ok_iff]
  simp only [Draw.bind_eq_ok_iff, Draw.mapError_eq_ok_iff, Draw.pure_eq_ok_iff,
    Share.splitVector_eq_ok_iff]
  constructor
  · rintro ⟨_, e₁, ⟨masks, hmasks, rfl⟩, proof, e₂, hproof, _, _, ⟨proofMasks, hproofMasks, rfl⟩,
      hpair, rfl⟩
    obtain ⟨rfl, rfl⟩ := Prod.mk.inj hpair
    exact ⟨masks, e₁, proof, e₂, proofMasks, hmasks, hproof, hproofMasks, rfl, rfl⟩
  · rintro ⟨masks, e₁, proof, e₂, proofMasks, hmasks, hproof, hproofMasks, rfl, rfl⟩
    exact ⟨_, e₁, ⟨masks, hmasks, rfl⟩, proof, e₂, hproof, _, e', ⟨proofMasks, hproofMasks, rfl⟩,
      rfl, rfl⟩

end Prover

namespace Client

/-- The client for a schema and two keys. -/
def ofSchema (schema : Schema) (keyA keyB : PublicKey) : Client where
  schema := schema
  keyA := keyA
  keyB := keyB
  prover := ⟨schema.dimension, Prover.fits_of_le schema.dimension_le⟩

/-- A client is made for every schema and every two keys. -/
theorem new_eq_ok (schema : Schema) (keyA keyB : PublicKey) :
    new schema keyA keyB = .ok (ofSchema schema keyA keyB) := by
  unfold new
  rw [Prover.ofDimension_eq_ok schema.dimension_le]
  rfl

end Client

end SplitTally
