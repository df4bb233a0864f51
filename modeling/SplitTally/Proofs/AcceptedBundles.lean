import SplitTally.Proofs.Delivery
import SplitTally.Proofs.DiscreteTransform
import SplitTally.Proofs.RunningTotal
import SplitTally.Teller.Checked

/-!
# Accepted bundles

A teller that opens an envelope takes the bundle only with as many slots as it counts, and then the
decoder has made sure of the length of the proof. So the teller finds every entry that it reads and
writes on the way to a message, and a bundle that it takes is one that it can also add to its total.
None of this depends on who made the envelope, or on what the teller was asked before.
-/

namespace SplitTally

open BitProof (pointBits)

/-! ### Taking proofs apart -/

/-- A proof of the right length can be cut behind the third residue. -/
theorem BitProof.ofFlat?_eq_some (d : ℕ) (flat : List Residue) :
    ofFlat? d flat = some (ofFlat d flat) := by
  unfold ofFlat? ofFlat
  by_cases hlength : flat.length = flatSize d
  · rw [if_neg (not_not_intro hlength), if_pos hlength]
    have henough : 3 ≤ flat.length := by
      rw [hlength, flatSize]
      omega
    rw [Cut.atPosition?_eq_some henough]
    rcases flat with _ | ⟨f0, _ | ⟨g0, _ | ⟨h0, packed⟩⟩⟩
    · cases henough
    · simp at henough
    · simp at henough
    · rfl
  · rw [if_pos hlength, if_neg hlength]

/-! ### Workspaces -/

namespace Workspace.Ready

variable {workspace : Workspace} {d : ℕ}

/-- In the buffers of a teller that is ready a value is computed without leaving one of them. -/
theorem valueAt?_eq_some (h : workspace.Ready d) {k : ℕ} (hk : k ≤ pointBits d + 1)
    {inverses points : Array Residue} (hinverses : inverses = (Roots.table k true).toArray)
    (hpoints : points.size = 2 ^ k) (x : Residue) :
    workspace.valueAt? k inverses points x = some (workspace.valueAt k inverses points x) := by
  have hpow : 2 ^ k ≤ 2 ^ (pointBits d + 1) := Nat.pow_le_pow_right (by decide) hk
  have hout : 2 ^ k ≤ workspace.coefficients.size := hpow.trans h.coefficients
  have hroots : 2 ^ k ≤ inverses.size := by rw [hinverses, Vector.size_toArray]
  obtain ⟨hsize, -, -⟩ := Transform.interpolateInto_spec points hout hpow h.scratch
    (hinverses ▸ Transform.front_toArray _)
  rw [Workspace.valueAt?, if_neg (not_not_intro hpoints),
    Transform.interpolateInto?_eq_some hout hroots hpoints.ge hpow h.scratch, Workspace.valueAt]
  generalize Transform.interpolateInto k workspace.coefficients inverses points
    workspace.scratch = result at hsize ⊢
  have hfront : 2 ^ k ≤ result.1.size := hout.trans_eq hsize.symm
  dsimp only [Option.bind_eq_bind, Option.bind_some]
  rw [hpoints, Transform.front?, if_pos hfront, Option.bind_some,
    Transform.valueAt?_extract x hfront]
  rfl

/-- The slots and the packed values of a bundle have entries in the buffers. -/
theorem load?_eq_some (h : workspace.Ready d) (server : Server) {data : List Residue}
    {proof : BitProof} (hdata : data.length = d) (hpacked : proof.packed.length = 2 ^ pointBits d) :
    workspace.load? server data proof = some (workspace.load server data proof) := by
  have hshifted : (Verifier.shiftedData server data).toArray.size = d := by
    rw [List.size_toArray, Verifier.length_shiftedData, hdata]
  have hslots : data.toArray.size = d := by rw [List.size_toArray, hdata]
  have hcount : proof.packed.toArray.size = 2 ^ pointBits d := by rw [List.size_toArray, hpacked]
  have hroom : d < 2 ^ pointBits d := BitProof.lt_two_pow_digits d
  have hdouble := Transform.pow_succ_eq (pointBits d)
  have hf (x : Residue) : (workspace.f.setIfInBounds 0 x).size = 2 ^ pointBits d := by
    rw [Array.size_setIfInBounds, h.f.size_eq]
  have hg (x : Residue) : (workspace.g.setIfInBounds 0 x).size = 2 ^ pointBits d := by
    rw [Array.size_setIfInBounds, h.g.size_eq]
  have hh (x : Residue) : (workspace.h.setIfInBounds 0 x).size = 2 ^ (pointBits d + 1) := by
    rw [Array.size_setIfInBounds, h.h.size_eq]
  have hhalf : min (2 ^ (pointBits d + 1) / 2) (2 ^ pointBits d) = 2 ^ pointBits d := by omega
  simp only [Workspace.load?, Workspace.load, hslots, hcount]
  rw [Transform.set?_eq_some (h.f.size_eq ▸ Nat.two_pow_pos _),
    Transform.set?_eq_some (h.g.size_eq ▸ Nat.two_pow_pos _),
    Transform.set?_eq_some (h.h.size_eq ▸ Nat.two_pow_pos _)]
  simp only [Option.bind_eq_bind, Option.bind_some, hh, hhalf]
  rw [Transform.write?_entries (fun i hi => by rw [hf]; omega) hslots.ge, Option.bind_some,
    Transform.write?_entries (fun i hi => by rw [hg]; omega) hshifted.ge, Option.bind_some,
    Transform.write?_entries (fun i hi => by rw [hh]; omega) hcount.ge, Option.bind_some]
  rfl

end Workspace.Ready

/-! ### Envelopes -/

/-- A bundle that a verifier takes out of an envelope has as many slots as the verifier counts, and
a proof of the right length about them. -/
theorem Verifier.lengths_of_decrypt {verifier : Verifier} {envelope : List UInt8} {bundle : Bundle}
    (h : verifier.decrypt envelope = .ok bundle) :
    bundle.data.length = verifier.dimension ∧
      bundle.proof.length = BitProof.flatSize verifier.dimension := by
  cases hopen : Envelope.openWith verifier.key envelope with
  | error cause =>
    rw [decrypt, hopen] at h
    cases h
  | ok text =>
    cases hdecode : Wire.whole Bundle.decode text with
    | error cause =>
      unfold decrypt at h
      simp only [hopen, hdecode, Except.mapError, ok_bind, error_bind] at h
      cases h
    | ok opened =>
      obtain ⟨htext, hproof⟩ := Bundle.exact_decode.whole_eq_ok_iff.mp hdecode
      rw [decrypt_eq hopen htext hproof] at h
      split_ifs at h with hserver hbatch hdimension
      cases h
      have hdata : bundle.data.length = verifier.dimension := not_not.mp hdimension
      exact ⟨hdata, hproof.trans (congrArg BitProof.flatSize hdata)⟩

/-- Residues that are as many as in a proof are those of a proof. -/
theorem BitProof.exists_eq_flatten {d : ℕ} {flat : List Residue} (h : flat.length = flatSize d) :
    ∃ proof : BitProof, flat = proof.flatten ∧ proof.packed.length = pointCount d := by
  rw [flatSize] at h
  rcases flat with _ | ⟨f0, _ | ⟨g0, _ | ⟨h0, packed⟩⟩⟩ <;>
    simp only [List.length_nil, List.length_cons] at h
  · omega
  · omega
  · omega
  · exact ⟨⟨f0, g0, h0, packed⟩, rfl, show packed.length = pointCount d by omega⟩

/-! ### Messages -/

namespace Teller

variable {teller : Teller} {d : ℕ}

/-- Whatever bundle a teller is asked about, it accesses nothing that is not there. -/
theorem Ready.message?_eq_some (h : teller.Ready d) (hd : d ≤ Schema.maxDimension) (x : Residue)
    (bundle : Bundle) : teller.message? x bundle = some (teller.message x bundle) := by
  obtain ⟨rfl, hworkspace⟩ := h
  unfold Teller.message? Teller.message
  by_cases hdimension : bundle.dimension = teller.verifier.dimension
  · simp only [hdimension, ne_eq, not_true_eq_false, if_false, BitProof.ofFlat?_eq_some]
    cases hproof : BitProof.ofFlat teller.verifier.dimension bundle.proof with
    | error cause => rfl
    | ok proof =>
      have hpacked := BitProof.length_packed_of_ofFlat hproof
      obtain ⟨hready, -⟩ := hworkspace.load teller.verifier.server hdimension hpacked
      dsimp only [Option.bind_eq_bind, Option.bind_some]
      rw [hworkspace.load?_eq_some teller.verifier.server hdimension hpacked, Option.bind_some]
      generalize teller.workspace.load teller.verifier.server bundle.data proof = loaded
        at hready ⊢
      -- Each evaluation leaves a workspace that is ready for the next one.
      obtain ⟨-, hready₁⟩ := hready.valueAt (by omega) hready.halfInverses loaded.f x
      rw [hready.valueAt?_eq_some (by omega) hready.halfInverses hready.f.size_eq, Option.bind_some]
      generalize loaded.valueAt _ loaded.halfInverses loaded.f x = first at hready₁ ⊢
      obtain ⟨-, hready₂⟩ := hready₁.valueAt (by omega) hready₁.halfInverses first.2.g x
      rw [hready₁.valueAt?_eq_some (by omega) hready₁.halfInverses hready₁.g.size_eq,
        Option.bind_some]
      generalize first.2.valueAt _ first.2.halfInverses first.2.g x = second at hready₂ ⊢
      rw [hready₂.valueAt?_eq_some le_rfl hready₂.inverses hready₂.h.size_eq, Option.bind_some]
      rfl
  · simp only [hdimension, ne_eq, not_false_eq_true, if_true]

/-- A bundle that was taken out of an envelope, whoever made it, gets a message at every point and
is counted if the messages agree, whatever the teller is asked before and after it opens the
envelope. -/
theorem exists_message_of_decrypt {d : ℕ} (hd : d ≤ Schema.maxDimension) (server : Server)
    (key : PrivateKey) (batch : List UInt8) (calls : List Call) {envelope : List UInt8}
    {bundle : Bundle}
    (h : ((start d server key batch).afterAll calls).verifier.decrypt envelope = .ok bundle)
    (later : List Call) :
    (∀ x, ∃ message after,
      ((start d server key batch).afterAll (calls ++ later)).message? x bundle =
        some (.ok message, after) ∧
      ((start d server key batch).afterAll (calls ++ later)).message x bundle =
        (.ok message, after)) ∧
    ∀ v w, (((start d server key batch).afterAll (calls ++ later)).aggregate bundle v w).1 =
      .ok (v.agrees w) := by
  have hopened := (ready_start d server key batch).afterAll hd calls
  have hready := (ready_start d server key batch).afterAll hd (calls ++ later)
  obtain ⟨hdata, hproof⟩ := Verifier.lengths_of_decrypt h
  rw [hopened.dimension] at hdata hproof
  constructor
  · intro x
    obtain ⟨proof, hflat, hpacked⟩ := BitProof.exists_eq_flatten hproof
    rw [BitProof.pointCount_eq] at hpacked
    have hmessage := Verifier.message_eq_ok hd ⟨rfl, hready.dimension⟩ hdata hflat hpacked x
    rw [← (hready.message hd x bundle).1] at hmessage
    refine ⟨_, _, ?_, Prod.ext hmessage rfl⟩
    rw [hready.message?_eq_some hd, ← hmessage]
  · intro v w
    have hlength := (accounted_start d server key batch (calls ++ later)).length
    rw [aggregate_answer hlength, if_pos hdata]
    cases v.agrees w <;> rfl

/-- A bundle whose one slot is no bit and whose proof is made up, in an envelope for the first
server. It gets a message, also after it was refused once, and is counted if the other server's
message is made up to agree. -/
theorem exists_message_of_decrypt_made_up :
    1 ≤ Schema.maxDimension ∧ ∃ (key : PrivateKey) (envelope : List UInt8) (bundle : Bundle),
      (start 1 .a key [7]).verifier.decrypt envelope = .ok bundle ∧
      (∃ message after, ((start 1 .a key [7]).afterAll
          [.aggregate bundle ⟨1, 1, 1⟩ ⟨0, 0, 0⟩, .aggregate bundle ⟨2, 3, 4⟩ ⟨0, 0, 1⟩]).message?
        9 bundle = some (.ok message, after)) ∧
      ((start 1 .a key [7]).aggregate bundle ⟨1, 1, 1⟩ ⟨0, 0, 0⟩).1 = .ok true ∧
      ((start 1 .a key [7]).aggregate bundle ⟨2, 3, 4⟩ ⟨0, 0, 1⟩).1 = .ok false := by
  let key : PrivateKey := ⟨List.replicate 32 1, List.length_replicate⟩
  let fresh : PrivateKey := ⟨List.replicate 32 3, List.length_replicate⟩
  let bundle : Bundle := ⟨[7], .a, [5], [1, 2, 3, 4, 5]⟩
  let text : List UInt8 := [0, 1, 7, 0, 0, 0, 0, 1, 0, 0, 0, 1, 5, 0, 0, 0, 0, 0, 0, 5,
    1, 0, 0, 0, 2, 0, 0, 0, 3, 0, 0, 0, 4, 0, 0, 0, 5, 0, 0, 0]
  have hd : 1 ≤ Schema.maxDimension := by decide
  have htext : bundle.encode = .ok text := by decide +kernel
  have hshort : text.length ≤ Gcm.maxPlaintext := by decide
  have hnonzero : ¬ (X25519.agree key.secret fresh.toPublic.bytes).all (· = 0) := by
    decide +kernel
  have hopen : Envelope.openWith key (Envelope.assemble fresh
      (X25519.agree key.secret fresh.toPublic.bytes) (List.replicate 12 0) text) = .ok text :=
    Envelope.openWith_assemble List.length_replicate hshort
      (PrivateKey.agree_eq_ok_iff.mpr ⟨hnonzero, rfl⟩)
  have hdecrypt := @Verifier.decrypt_eq (start 1 .a key [7]).verifier _ _ _ hopen htext rfl
  obtain ⟨-, haggregate⟩ := exists_message_of_decrypt hd .a key [7] [] hdecrypt []
  obtain ⟨hmessage, -⟩ := exists_message_of_decrypt hd .a key [7] [] hdecrypt
    [.aggregate bundle ⟨1, 1, 1⟩ ⟨0, 0, 0⟩, .aggregate bundle ⟨2, 3, 4⟩ ⟨0, 0, 1⟩]
  obtain ⟨message, after, hchecked, -⟩ := hmessage 9
  exact ⟨hd, key, _, bundle, hdecrypt, ⟨message, after, hchecked⟩, haggregate _ _, haggregate _ _⟩

end Teller

end SplitTally
