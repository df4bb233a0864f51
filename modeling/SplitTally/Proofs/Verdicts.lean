import SplitTally.Proofs.ProofContents
import SplitTally.Proofs.Reuse
import SplitTally.Proofs.Validity

/-!
# Verdicts of servers at work

A server that has seen other bundles gives the message that a new one would give. So two servers at
work, each with a past of its own, judge a proof as two new ones do: they accept a right proof at
every point, and a wrong one at few of them.
-/

namespace SplitTally.Teller

open BitProof (TakesSlots pointBits)
open Finset Polynomial

/-- Whether both tellers form a message about their bundle at the point `x`, and the two messages
accept the proof. -/
def accepts (a b : Teller) (bundleA bundleB : Bundle) (x : Residue) : Bool :=
  match (a.message x bundleA).1, (b.message x bundleB).1 with
  | .ok v, .ok w => v.agrees w
  | _, _ => false

variable {d : ℕ} {a b : Teller} {ba bb : Bundle}

/-- Two reachable tellers judge a proof as their verifiers do. -/
theorem accepts_eq (hd : d ≤ Schema.maxDimension) (ha : a.Reachable .a d) (hb : b.Reachable .b d)
    (ba bb : Bundle) (x : Residue) :
    accepts a b ba bb x = Verifier.accepts a.verifier b.verifier ba bb x := by
  rw [accepts, ha.message_eq hd, hb.message_eq hd]
  rfl

/-! ### Wrong proofs -/

/-- A proof that is wrong about a slot, about the value at the first node, or about one of the
packed values is not right. -/
private theorem not_proves_of_wrong {xs : List Residue} (hxs : xs.length = d)
    {f0 g0 h0 : Residue} {packed : List Residue} (hpacked : packed.length = 2 ^ pointBits d)
    (hwrong : (∃ x ∈ xs, x ≠ 0 ∧ x ≠ 1) ∨ h0 ≠ f0 * g0 ∨ ∃ j, ∃ hj : j < packed.length,
      packed[j] ≠ (BitProof.slotPolynomial (pointBits d) f0 xs).eval
          (Roots.base (pointBits d + 1) false ^ (2 * j + 1)) *
        (BitProof.slotPolynomial (pointBits d) g0 (xs.map (· - 1))).eval
          (Roots.base (pointBits d + 1) false ^ (2 * j + 1))) :
    ¬ BitProof.Proves ⟨f0, g0, h0, packed⟩ xs := by
  subst hxs
  rintro ⟨hbits, hfirst, hodd⟩
  rcases hwrong with ⟨x, hx, hzero, hone⟩ | hne | ⟨j, hj, hne⟩
  · exact (hbits x hx).elim hzero hone
  · exact hne hfirst
  · refine hne ?_
    rw [← eval_mul, ← hodd j (hpacked ▸ hj), List.getD_eq_getElem _ _ hj]

/-- Two bundles of the right lengths, any residues, are shares of slots and of a proof about them.
If a slot is no bit, or the proof misses the product of the only two polynomials through the slots
at the first node or at a node between theirs, two tellers at work accept it at fewer points than
there are nodes of both kinds. -/
theorem exists_polynomials_card_accepts_le (hd : d ≤ Schema.maxDimension) (ha : a.Reachable .a d)
    (hb : b.Reachable .b d) (hdataA : ba.data.length = d) (hdataB : bb.data.length = d)
    (hproofA : ba.proof.length = 3 + 2 ^ Nat.clog 2 (d + 1))
    (hproofB : bb.proof.length = 3 + 2 ^ Nat.clog 2 (d + 1)) {f0 g0 h0 : Residue}
    {packed : List Residue}
    (hproof : List.zipWith (· + ·) ba.proof bb.proof = f0 :: g0 :: h0 :: packed) :
    let n := 2 ^ Nat.clog 2 (d + 1)
    let w := Roots.generator ^ (Roots.groupOrder / n)
    let u := Roots.generator ^ (Roots.groupOrder / (2 * n))
    let xs := List.zipWith (· + ·) ba.data bb.data
    IsPrimitiveRoot w n ∧ IsPrimitiveRoot u (2 * n) ∧ ∃ F G : Residue[X],
      (∀ q, TakesSlots (w ^ ·) n f0 xs q ↔ q = F) ∧
      (∀ q, TakesSlots (w ^ ·) n g0 (xs.map (· - 1)) q ↔ q = G) ∧
      (∀ x, ∃ v v', (a.message x ba).1 = .ok v ∧ (b.message x bb).1 = .ok v') ∧
      ((∃ x ∈ xs, x ≠ 0 ∧ x ≠ 1) ∨ h0 ≠ f0 * g0 ∨
          (∃ j, ∃ hj : j < packed.length,
            packed[j] ≠ F.eval (u ^ (2 * j + 1)) * G.eval (u ^ (2 * j + 1))) →
        (univ.filter fun x => accepts a b ba bb x).card ≤ 2 * n - 1) := by
  intro n w u xs
  have hu : u = Roots.base (pointBits d + 1) false := BitProof.generator_pow_two_mul_points hd
  have hxs : xs.length = d := by simp [xs, hdataA, hdataB]
  have hshifted : (xs.map (· - 1)).length = d := by rwa [List.length_map]
  have hpacked : packed.length = n := by
    have hlength := congrArg List.length hproof
    simp only [List.length_zipWith, List.length_cons, hproofA, hproofB] at hlength
    omega
  have hpoints : packed.length = 2 ^ pointBits d := by
    rw [hpacked, BitProof.pointBits_eq_clog]
  have hdata : Share.reconstruct? ba.data bb.data = some xs :=
    Share.reconstruct?_eq_some_iff.mpr ⟨hdataA.trans hdataB.symm, rfl⟩
  have hflat : Share.reconstruct? ba.proof bb.proof =
      some (BitProof.flatten ⟨f0, g0, h0, packed⟩) :=
    Share.reconstruct?_eq_some_iff.mpr ⟨hproofA.trans hproofB.symm, hproof⟩
  refine ⟨BitProof.isPrimitiveRoot_points hd, BitProof.isPrimitiveRoot_two_mul_points hd, _, _,
    fun q => BitProof.takesSlots_points_iff hd hxs,
    fun q => BitProof.takesSlots_points_iff hd hshifted, fun x => ?_, fun hwrong => ?_⟩
  · rw [ha.message_eq hd, hb.message_eq hd]
    obtain ⟨v, v', hv, hv', -⟩ :=
      Verifier.exists_messages_agrees_iff hd ha.serves hb.serves hxs hdata hpoints hflat x
    exact ⟨v, v', hv, hv'⟩
  · rw [hu] at hwrong
    simp only [accepts_eq hd ha hb]
    exact (Verifier.card_accepts_le hd ha.serves hb.serves hxs hdata hpacked hflat
      (not_proves_of_wrong hxs hpoints hwrong)).2

/-- A slot that is no bit is caught at all but three points, by a teller that has read another
bundle before and one that has refused a shorter one. -/
theorem exists_polynomials_card_accepts_le_of_one :
    (univ.filter fun x => accepts
      ((start 1 .a ⟨List.replicate 32 1, by decide⟩ []).afterAll
        [.message 5 ⟨[], .a, [1], [2, 3, 4, 5, 6]⟩, .merge [7]])
      ((start 1 .b ⟨List.replicate 32 2, by decide⟩ []).afterAll [.message 5 ⟨[], .b, [], []⟩])
      ⟨[], .a, [9], [1, 2, 3, 4, 5]⟩ ⟨[], .b, [2 - 9], [6, 7, 8, 9, 10]⟩ x).card ≤ 3 := by
  have hd : 1 ≤ Schema.maxDimension := by decide
  have hnodes : 2 ^ Nat.clog 2 (1 + 1) = 2 := by decide +kernel
  have hslot : ∃ x ∈ List.zipWith (· + ·) [(9 : Residue)] [2 - 9], x ≠ 0 ∧ x ≠ 1 := by
    decide +kernel
  let ba : Bundle := ⟨[], .a, [9], [1, 2, 3, 4, 5]⟩
  let bb : Bundle := ⟨[], .b, [2 - 9], [6, 7, 8, 9, 10]⟩
  have hproofA : ba.proof.length = 3 + 2 ^ Nat.clog 2 (1 + 1) := by rw [hnodes]; rfl
  have hproofB : bb.proof.length = 3 + 2 ^ Nat.clog 2 (1 + 1) := by rw [hnodes]; rfl
  obtain ⟨-, -, _, _, -, -, -, hfew⟩ := exists_polynomials_card_accepts_le hd ⟨_, _, _, rfl⟩
    ⟨_, _, _, rfl⟩ (show ba.data.length = 1 from rfl) (show bb.data.length = 1 from rfl) hproofA
    hproofB rfl
  rw [hnodes] at hfew
  exact hfew (.inl hslot)

/-! ### Right proofs -/

/-- Whatever the scribe has proved before, and whatever the two tellers were asked before: the proof
about bits is accepted at every point, however the slots and the proof are shared out. -/
theorem exists_proof_messages_agree {xs : List Residue} (hsize : xs.length ≤ Schema.maxDimension)
    (hbits : ∀ x ∈ xs, x = 0 ∨ x = 1) (f0 g0 : Residue) :
    ∃ scribe proof, Scribe.ofDimension xs.length = .ok scribe ∧
      (∀ earlier e rest, Scribe.DrawsPair (scribe.proveEach earlier e).2 f0 g0 rest →
        scribe.prove xs (scribe.proveEach earlier e).2 = .ok proof rest) ∧
      proof.f0 = f0 ∧ proof.g0 = g0 ∧
      proof.flatten.length = 3 + 2 ^ Nat.clog 2 (xs.length + 1) ∧
      ∀ a b : Teller, a.Reachable .a xs.length → b.Reachable .b xs.length →
        ∀ ba bb : Bundle, Share.reconstruct? ba.data bb.data = some xs →
          Share.reconstruct? ba.proof bb.proof = some proof.flatten →
            ∀ x, ∃ v w, (a.message x ba).1 = .ok v ∧ (b.message x bb).1 = .ok w ∧
              v.agrees w = true := by
  refine ⟨_, BitProof.build xs f0 g0, Scribe.ofDimension_eq_ok hsize, ?_, rfl, rfl, ?_, ?_⟩
  · rintro earlier e rest ⟨e₁, hf, hg⟩
    rw [Scribe.prove_ofProver]
    exact Prover.prove_eq_ok_iff.mpr ⟨rfl, f0, g0, e₁, hf, hg, rfl⟩
  · rw [BitProof.length_flatten_build, BitProof.flatSize, BitProof.pointCount_eq,
      BitProof.pointBits_eq_clog]
  · intro a b ha hb ba bb hdata hproof x
    rw [ha.message_eq hsize, hb.message_eq hsize]
    exact Verifier.exists_messages_agree_of_build hsize hbits f0 g0 ha.serves hb.serves hdata
      hproof x

/-- Two slots, judged at a root of unity. The scribe was given a vector that is too short, the first
server has answered on another bundle and refused one, and the second one has added shares to its
total. -/
theorem exists_proof_messages_agree_of_two :
    ∃ scribe proof, Scribe.ofDimension 2 = .ok scribe ∧
      scribe.prove [1, 0] (scribe.proveEach [[0]] ⟨[5, 7].flatMap Wire.encodeResidue⟩).2 =
        .ok proof ⟨[]⟩ ∧
      ∃ v w, (((start 2 .a ⟨List.replicate 32 1, by decide⟩ []).afterAll
          [.message 5 ⟨[], .a, [1, 2], [3, 4, 5, 6, 7, 8, 9]⟩, .message 6 ⟨[], .a, [], []⟩]).message
            1 ⟨[], .a, [3, 4], List.replicate 7 1⟩).1 = .ok v ∧
        (((start 2 .b ⟨List.replicate 32 2, by decide⟩ []).afterAll [.merge [8, 9]]).message
            1 ⟨[], .b, [1 - 3, 0 - 4],
              List.zipWith (· - ·) proof.flatten (List.replicate 7 1)⟩).1 = .ok w ∧
        v.agrees w = true := by
  have hsize : [(1 : Residue), 0].length ≤ Schema.maxDimension := by decide
  have hnodes : 2 ^ Nat.clog 2 ([(1 : Residue), 0].length + 1) = 4 := by decide +kernel
  obtain ⟨scribe, proof, hscribe, hprove, -, -, hlength, hagree⟩ :=
    exists_proof_messages_agree hsize (by simp) 5 7
  have hdraws : Scribe.DrawsPair ⟨[5, 7].flatMap Wire.encodeResidue⟩ 5 7 ⟨[]⟩ :=
    ⟨_, Residue.draw_encodeResidue 5 _, Residue.draw_encodeResidue 7 []⟩
  have hleft : ∀ h, ((Scribe.ofProver ⟨2, h⟩).proveEach [[0]]
      ⟨[5, 7].flatMap Wire.encodeResidue⟩).2 = ⟨[5, 7].flatMap Wire.encodeResidue⟩ := by
    decide +kernel
  have hdata : Share.reconstruct? [3, 4] [1 - 3, 0 - 4] = some [(1 : Residue), 0] := by
    decide +kernel
  have hshares : (List.replicate 7 (1 : Residue)).length = proof.flatten.length := by
    rw [hlength, hnodes]
    rfl
  obtain rfl := Except.ok.inj (hscribe.symm.trans (Scribe.ofDimension_eq_ok hsize))
  exact ⟨_, proof, hscribe, hprove _ _ _ ((hleft _).symm ▸ hdraws),
    hagree _ _ ⟨_, _, _, rfl⟩ ⟨_, _, _, rfl⟩ ⟨[], .a, [3, 4], List.replicate 7 1⟩
      ⟨[], .b, [1 - 3, 0 - 4], List.zipWith (· - ·) proof.flatten (List.replicate 7 1)⟩ hdata
      (Share.reconstruct?_zipWith_sub hshares) 1⟩

end SplitTally.Teller
