import SplitTally.Proofs.Hiding
import SplitTally.Proofs.Indistinguishable

/-!
# What becomes of an encoding

A client fails for the first of a fixed list of reasons that applies: an unknown name, a value that
is too great, a stream that gives out among the residues, a batch that is too long, and for either
server a stream that gives out or a key that agrees on zero. Nothing else can go wrong, since every
schema has few enough slots for a prover, for the counts of a bundle and for the cipher.
-/

namespace SplitTally

/-- Drawing a residue only fails because the stream ends. -/
theorem Residue.eq_entropy_of_draw {cause : ResidueError} {e e' : Entropy}
    (h : draw e = .error cause e') : cause = .entropy :=
  (draw_eq_error_iff.mp h).1

/-- Drawing residues only fails because the stream ends. -/
theorem Residue.eq_entropy_of_drawMany {n : ℕ} {cause : ResidueError} {e e' : Entropy}
    (h : drawMany n e = .error cause e') : cause = .entropy :=
  (drawOnto_eq_error_iff.mp h).1

/-- Splitting a vector only fails because the stream ends. -/
theorem Share.eq_entropy_of_splitVector {xs : List Residue} {cause : ResidueError}
    {e e' : Entropy} (h : splitVector xs e = .error cause e') : cause = .entropy := by
  rcases Draw.bind_eq_error_iff.mp h with hdraw | ⟨masks, e₁, -, hpure⟩
  · exact Residue.eq_entropy_of_drawMany hdraw
  · exact absurd hpure Draw.pure_ne_error

namespace Prover

variable {prover : Prover} {batch : List UInt8} {xs : List Residue} {e e' : Entropy}

/-- Proving a vector of the right length only fails because the stream ends. -/
theorem eq_entropy_of_prove {cause : BitProofError} (hxs : xs.length = prover.dimension)
    (h : prover.prove xs e = .error cause e') : cause = .residue .entropy := by
  unfold prove at h
  simp only [hxs, ne_eq, not_true_eq_false, if_false, Draw.bind_eq_error_iff,
    Draw.mapError_eq_error_iff, Draw.pure_ne_error, and_false, exists_false, or_false] at h
  rcases h with ⟨below, hdraw, rfl⟩ | ⟨f0, e₁, -, below, hdraw, rfl⟩
  · rw [Residue.eq_entropy_of_draw hdraw]
  · rw [Residue.eq_entropy_of_draw hdraw]

/-- Bundles of a vector of the right length fail only when the stream gives out. -/
theorem eq_entropy_of_bundles {cause : ClientError} (hxs : xs.length = prover.dimension)
    (h : prover.bundles batch xs e = .error cause e') : cause = .entropy := by
  unfold bundles at h
  simp only [Draw.bind_eq_error_iff, Draw.mapError_eq_error_iff, Draw.pure_ne_error, and_false,
    exists_false, or_false] at h
  rcases h with ⟨below, hsplit, rfl⟩ |
    ⟨_, e₁, -, ⟨below, hprove, rfl⟩ | ⟨_, e₂, -, below, hsplit, rfl⟩⟩
  · rw [Share.eq_entropy_of_splitVector hsplit]
    rfl
  · rw [eq_entropy_of_prove hxs hprove]
    rfl
  · rw [Share.eq_entropy_of_splitVector hsplit]
    rfl

end Prover

namespace Bundle

variable {b : Bundle}

/-- A bundle is not written if its batch does not fit in the prefix for its length. -/
theorem encode_of_long (h : 65535 < b.batch.length) :
    b.encode = .error (.lengthOverflow b.batch.length) := by
  have hlong : ¬ b.batch.length < 0x10000 := by omega
  unfold encode Wire.encodeOpaque
  rw [if_neg hlong]
  rfl

/-- A bundle of a schema with a batch that is not too long is written, and is short enough for the
cipher. -/
theorem exists_encode_le (hbatch : b.batch.length ≤ 65535)
    (hdata : b.data.length ≤ Schema.maxDimension)
    (hproof : b.proof.length = BitProof.flatSize b.data.length) :
    ∃ s, b.encode = .ok s ∧ s.length ≤ Gcm.maxPlaintext := by
  have hmax : Schema.maxDimension < 2 ^ 19 := by decide
  have hpoints : 2 ^ BitProof.pointBits b.data.length ≤ 2 ^ 19 :=
    Nat.pow_le_pow_right (by decide) (BitProof.pointBits_le hdata)
  rw [BitProof.flatSize, BitProof.pointCount_eq] at hproof
  obtain ⟨s, hs⟩ : ∃ s, b.encode = .ok s :=
    exists_encode_eq_ok (by omega) (by omega) (by omega)
  refine ⟨s, hs, ?_⟩
  rw [length_of_encode hs, Gcm.maxPlaintext]
  omega

end Bundle

namespace Envelope

/-- What the sealing of a text comes to under a key and on a stream, when the text is not too long:
the bytes that it leaves, or the reason why it fails. -/
inductive Sealing (key : PublicKey) (e : Entropy) : Except ClientError Entropy → Prop
  /-- There are too few bytes for a fresh private key. -/
  | noKey (h : e.size < X25519.size) : Sealing key e (.error .entropy)
  /-- The fresh private key and the public key agree on zero. -/
  | lowOrder (fresh : PrivateKey) (rest : Entropy) (hfresh : e.bytes = fresh.secret ++ rest.bytes)
      (hzero : (X25519.agree fresh.secret key.bytes).all (· = 0)) :
      Sealing key e (.error (.invalidKey (.invalidKey .lowOrder)))
  /-- There are too few bytes for a nonce after those of the fresh private key. -/
  | noNonce (fresh : PrivateKey) (rest : Entropy) (hfresh : e.bytes = fresh.secret ++ rest.bytes)
      (hshared : ¬ (X25519.agree fresh.secret key.bytes).all (· = 0))
      (h : rest.size < nonceSize) : Sealing key e (.error .entropy)
  /-- The fresh private key and the nonce are drawn. -/
  | sealed (fresh : PrivateKey) (nonce : List UInt8) (rest : Entropy)
      (hfresh : e.bytes = fresh.secret ++ (nonce ++ rest.bytes))
      (hshared : ¬ (X25519.agree fresh.secret key.bytes).all (· = 0))
      (hnonce : nonce.length = nonceSize) : Sealing key e (.ok rest)

variable {key : PublicKey} {e : Entropy}

/-- A text that is not too long is sealed when the relation says so. -/
theorem Sealing.exists_eq_ok {text : List UInt8} (hshort : text.length ≤ Gcm.maxPlaintext)
    {rest : Entropy} (h : Sealing key e (.ok rest)) :
    ∃ envelope, (sealFor key text).mapError ClientError.ofEnvelope e = .ok envelope rest := by
  cases h with
  | sealed fresh nonce _ hfresh hshared hnonce =>
    have hagree := PrivateKey.agree_eq_ok_iff.mpr ⟨hshared, rfl⟩
    exact ⟨_, Draw.mapError_eq_ok_iff.mpr
      (sealFor_eq_ok_iff.mpr ⟨fresh, _, nonce, hfresh, hnonce, hagree, hshort, rfl⟩)⟩

/-- A text is not sealed for the reason that the relation gives. -/
theorem Sealing.exists_eq_error {text : List UInt8} {cause : ClientError}
    (h : Sealing key e (.error cause)) :
    ∃ rest, (sealFor key text).mapError ClientError.ofEnvelope e = .error cause rest := by
  simp only [Draw.mapError_eq_error_iff, sealFor, Draw.bind_eq_error_iff]
  cases h with
  | noKey h =>
    exact ⟨e, .entropy, .inl (PrivateKey.generate_eq_error_iff.mpr ⟨h, rfl, rfl⟩), rfl⟩
  | lowOrder fresh rest hfresh hzero =>
    have hgenerate := PrivateKey.generate_eq_ok_iff.mpr hfresh
    have hagree := PrivateKey.agree_eq_error_iff.mpr ⟨hzero, rfl⟩
    have hshared : Draw.ofExcept (fresh.agree key) rest = .error _ rest :=
      Draw.ofExcept_eq_error_iff.mpr ⟨hagree, rfl⟩
    exact ⟨rest, _, .inr ⟨fresh, rest, hgenerate, .inl hshared⟩, rfl⟩
  | noNonce fresh rest hfresh hshared h =>
    have hgenerate := PrivateKey.generate_eq_ok_iff.mpr hfresh
    have hagree := PrivateKey.agree_eq_ok_iff.mpr ⟨hshared, rfl⟩
    have hdrawn : Draw.ofExcept (fresh.agree key) rest = .ok _ rest :=
      Draw.ofExcept_eq_ok_iff.mpr ⟨hagree, rfl⟩
    have hnonce : Draw.bytes EnvelopeError.entropy nonceSize rest = .error .entropy rest :=
      Draw.bytes_eq_error_iff.mpr ⟨h, rfl, rfl⟩
    exact ⟨rest, .entropy, .inr ⟨fresh, rest, hgenerate, .inr ⟨_, rest, hdrawn, .inl hnonce⟩⟩, rfl⟩

/-- The relation covers every stream. -/
theorem exists_sealing (key : PublicKey) (e : Entropy) : ∃ result, Sealing key e result := by
  cases hgenerate : PrivateKey.generate e with
  | error cause rest => exact ⟨_, .noKey (PrivateKey.generate_eq_error_iff.mp hgenerate).1⟩
  | ok fresh rest =>
    have hfresh := PrivateKey.generate_eq_ok_iff.mp hgenerate
    by_cases hzero : (X25519.agree fresh.secret key.bytes).all (· = 0)
    · exact ⟨_, .lowOrder fresh rest hfresh hzero⟩
    · cases hnonce : Draw.bytes EnvelopeError.entropy nonceSize rest with
      | error cause last =>
        exact ⟨_, .noNonce fresh rest hfresh hzero (Draw.bytes_eq_error_iff.mp hnonce).1⟩
      | ok nonce last =>
        obtain ⟨hlength, hrest⟩ := Draw.bytes_eq_ok_iff.mp hnonce
        exact ⟨_, .sealed fresh nonce last (by rw [hfresh, hrest]) hzero hlength⟩

end Envelope

namespace Client

variable {schema : Schema} {keyA keyB : PublicKey} {batch : List UInt8} {m : Measurements}
  {e : Entropy}

/-- The reason why a client fails, or that it does not fail: the first of the cases that applies. -/
inductive Outcome (schema : Schema) (keyA keyB : PublicKey) (batch : List UInt8)
    (m : Measurements) (e : Entropy) : Option ClientError → Prop
  /-- There is a name that the schema does not know; the smallest one is reported. -/
  | unknown (entry : String × UInt64) (h : m.First (fun entry => ¬ schema.Knows entry.1) entry) :
      Outcome schema keyA keyB batch m e (some (.measurement (.unknownMetric entry.1)))
  /-- A value exceeds what its metric allows; the one with the smallest name is reported. -/
  | outOfRange (entry : String × UInt64) (hknown : ∀ entry ∈ m.entries, schema.Knows entry.1)
      (h : m.First schema.Exceeded entry) :
      Outcome schema keyA keyB batch m e (some (.measurement (.outOfRange entry.1 entry.2)))
  /-- The stream gives out among the residues. -/
  | residues (hfits : schema.Fits m)
      (h : ∀ (r : Randomness schema.dimension) (rest : Entropy), ¬ r.DrawnFrom e rest) :
      Outcome schema keyA keyB batch m e (some .entropy)
  /-- The batch is longer than its length field can tell. -/
  | batch (hfits : schema.Fits m) (r : Randomness schema.dimension) (rest : Entropy)
      (hdrawn : r.DrawnFrom e rest) (h : 65535 < batch.length) :
      Outcome schema keyA keyB batch m e (some (.wire (.lengthOverflow batch.length)))
  /-- The bundle of the first server is not sealed. -/
  | first (hfits : schema.Fits m) (r : Randomness schema.dimension) (rest : Entropy)
      (hdrawn : r.DrawnFrom e rest) (hbatch : batch.length ≤ 65535) (cause : ClientError)
      (h : Envelope.Sealing keyA rest (.error cause)) :
      Outcome schema keyA keyB batch m e (some cause)
  /-- The bundle of the second server is not sealed. -/
  | second (hfits : schema.Fits m) (r : Randomness schema.dimension) (rest : Entropy)
      (hdrawn : r.DrawnFrom e rest) (hbatch : batch.length ≤ 65535) (rest' : Entropy)
      (hfirst : Envelope.Sealing keyA rest (.ok rest')) (cause : ClientError)
      (h : Envelope.Sealing keyB rest' (.error cause)) :
      Outcome schema keyA keyB batch m e (some cause)
  /-- Both bundles are sealed. -/
  | sent (hfits : schema.Fits m) (r : Randomness schema.dimension) (rest : Entropy)
      (hdrawn : r.DrawnFrom e rest) (hbatch : batch.length ≤ 65535) (rest' : Entropy)
      (hfirst : Envelope.Sealing keyA rest (.ok rest')) (rest'' : Entropy)
      (hsecond : Envelope.Sealing keyB rest' (.ok rest'')) :
      Outcome schema keyA keyB batch m e none

/-- One of the cases applies. -/
theorem exists_outcome (schema : Schema) (keyA keyB : PublicKey) (batch : List UInt8)
    (m : Measurements) (e : Entropy) : ∃ stop, Outcome schema keyA keyB batch m e stop := by
  rcases Schema.unknown_or_exceeded_or_fits schema m with
    ⟨entry, hunknown⟩ | ⟨hknown, entry, hexceeded⟩ | hfits
  · exact ⟨_, .unknown entry hunknown⟩
  · exact ⟨_, .outOfRange entry hknown hexceeded⟩
  by_cases hdrawn : ∃ (r : Randomness schema.dimension) (rest : Entropy), r.DrawnFrom e rest
  · obtain ⟨r, rest, hdrawn⟩ := hdrawn
    by_cases hbatch : 65535 < batch.length
    · exact ⟨_, .batch hfits r rest hdrawn hbatch⟩
    have hbatch := Nat.not_lt.mp hbatch
    obtain ⟨first, hfirst⟩ := Envelope.exists_sealing keyA rest
    cases first with
    | error cause => exact ⟨_, .first hfits r rest hdrawn hbatch cause hfirst⟩
    | ok rest' =>
      obtain ⟨second, hsecond⟩ := Envelope.exists_sealing keyB rest'
      cases second with
      | error cause => exact ⟨_, .second hfits r rest hdrawn hbatch rest' hfirst cause hsecond⟩
      | ok rest'' => exact ⟨_, .sent hfits r rest hdrawn hbatch rest' hfirst rest'' hsecond⟩
  · exact ⟨_, .residues hfits fun r rest h => hdrawn ⟨r, rest, h⟩⟩

/-- Measurements that do not fit the schema are refused before anything is drawn. -/
theorem encode_of_refused {cause : MeasurementError} (h : schema.encode m = .error cause) :
    (ofSchema schema keyA keyB).encode batch m e = .error (.measurement cause) e := by
  unfold encode
  rw [Draw.bind_eq_error_iff, Draw.ofExcept_eq_error_iff]
  left
  change (schema.encode m).mapError _ = _ ∧ _
  rw [h]
  exact ⟨rfl, rfl⟩

/-- Both bundles are written, and then both are sealed. -/
def sealBundles (client : Client) (batch : List UInt8) (bundles : Bundle × Bundle) :
    Draw ClientError Packet := do
  let bytesA ← Draw.ofExcept (bundles.1.encode.mapError .wire)
  let bytesB ← Draw.ofExcept (bundles.2.encode.mapError .wire)
  let a ← (Envelope.sealFor client.keyA bytesA).mapError .ofEnvelope
  let b ← (Envelope.sealFor client.keyB bytesB).mapError .ofEnvelope
  return { batch, a, b }

/-- For measurements that fit the schema the bundles are made and sealed. -/
theorem encode_of_accepted {xs : List Residue} (h : schema.encode m = .ok xs) :
    (ofSchema schema keyA keyB).encode batch m =
      ((ofSchema schema keyA keyB).prover.bundles batch xs >>= fun bundles =>
        (ofSchema schema keyA keyB).sealBundles batch bundles) := by
  have hdata : Draw.ofExcept ((schema.encode m).mapError ClientError.measurement) = pure xs := by
    rw [h]
    rfl
  unfold encode
  change (Draw.ofExcept ((schema.encode m).mapError ClientError.measurement) >>= _) = _
  rw [hdata, pure_bind]
  rfl

section SealBundles

variable {client : Client} {bundles : Bundle × Bundle} {s t : List UInt8}

/-- A batch that is too long is found when the first bundle is written. -/
theorem sealBundles_of_long (h : 65535 < bundles.1.batch.length) :
    client.sealBundles batch bundles e =
      .error (.wire (.lengthOverflow bundles.1.batch.length)) e := by
  have hwrite : Draw.ofExcept (bundles.1.encode.mapError ClientError.wire) e =
      .error (.wire (.lengthOverflow bundles.1.batch.length)) e := by
    rw [Bundle.encode_of_long h]
    rfl
  exact Draw.bind_eq_error_iff.mpr (.inl hwrite)

/-- Once both bundles are written only the sealing is left. -/
theorem sealBundles_of_written (hs : bundles.1.encode = .ok s) (ht : bundles.2.encode = .ok t) :
    client.sealBundles batch bundles = (do
      let a ← (Envelope.sealFor client.keyA s).mapError .ofEnvelope
      let b ← (Envelope.sealFor client.keyB t).mapError .ofEnvelope
      return { batch, a, b }) := by
  have hfirst : Draw.ofExcept (bundles.1.encode.mapError ClientError.wire) = pure s := by
    rw [hs]
    rfl
  have hsecond : Draw.ofExcept (bundles.2.encode.mapError ClientError.wire) = pure t := by
    rw [ht]
    rfl
  rw [sealBundles, hfirst, hsecond, pure_bind, pure_bind]

end SealBundles

/-- The bundles of residues that are drawn have the batch of the client and are written when it is
not too long. -/
theorem exists_encode_bundles {r : Randomness schema.dimension} {xs : List Residue}
    (hxs : xs.length = schema.dimension) (hbatch : batch.length ≤ 65535) :
    ∃ s t, (r.bundles batch xs).1.encode = .ok s ∧ s.length ≤ Gcm.maxPlaintext ∧
      (r.bundles batch xs).2.encode = .ok t ∧ t.length ≤ Gcm.maxPlaintext := by
  have hmax : xs.length ≤ Schema.maxDimension := hxs ▸ schema.dimension_le
  have hflat := BitProof.length_flatten_build xs r.f0 r.g0
  obtain ⟨s, hs, hshort⟩ := Bundle.exists_encode_le (b := (r.bundles batch xs).1) hbatch
    (by simpa [Randomness.bundles] using schema.dimension_le)
    (by simp [Randomness.bundles])
  obtain ⟨t, ht, hshort'⟩ := Bundle.exists_encode_le (b := (r.bundles batch xs).2) hbatch
    (by simpa [Randomness.bundles, hxs] using schema.dimension_le)
    (by simp [Randomness.bundles, hxs, hflat])
  exact ⟨s, t, hs, hshort, ht, hshort'⟩

/-- When the residues are drawn the client goes on to write and seal their bundles. -/
theorem exists_encode_eq_sealBundles (hfits : schema.Fits m) {r : Randomness schema.dimension}
    {rest : Entropy} (hdrawn : r.DrawnFrom e rest) :
    ∃ xs : List Residue, xs.length = schema.dimension ∧
      (ofSchema schema keyA keyB).encode batch m e =
        (ofSchema schema keyA keyB).sealBundles batch (r.bundles batch xs) rest := by
  have hencode := Schema.encode_of_fits hfits
  have hlength := Schema.length_encode hencode
  refine ⟨_, hlength, ?_⟩
  rw [encode_of_accepted hencode]
  have hbundles : (ofSchema schema keyA keyB).prover.bundles batch _ e = .ok _ rest :=
    Randomness.bundles_eq_ok hdrawn hlength rfl batch
  change EStateM.bind _ _ e = _
  unfold EStateM.bind
  rw [hbundles]

/-- The client fails for the reason that applies first. -/
theorem Outcome.exists_eq_error {cause : ClientError}
    (h : Outcome schema keyA keyB batch m e (some cause)) :
    ∃ rest, (ofSchema schema keyA keyB).encode batch m e = .error cause rest := by
  cases h with
  | unknown entry h => exact ⟨e, encode_of_refused (Schema.encode_of_unknown h)⟩
  | outOfRange entry hknown h => exact ⟨e, encode_of_refused (Schema.encode_of_exceeded hknown h)⟩
  | residues hfits h =>
    have hencode := Schema.encode_of_fits hfits
    have hlength := Schema.length_encode hencode
    rw [encode_of_accepted hencode]
    cases hbundles : (ofSchema schema keyA keyB).prover.bundles batch _ e with
    | ok bundles rest =>
      rw [← hlength] at h
      obtain ⟨r, hr, -⟩ := Randomness.exists_drawnFrom hbundles
      exact absurd hr (h r rest)
    | error cause rest =>
      obtain rfl := Prover.eq_entropy_of_bundles hlength hbundles
      exact ⟨rest, Draw.bind_eq_error_iff.mpr (.inl hbundles)⟩
  | batch hfits r rest hdrawn h =>
    obtain ⟨xs, hxs, hencode⟩ := exists_encode_eq_sealBundles hfits hdrawn
    rw [hencode]
    exact ⟨rest, sealBundles_of_long h⟩
  | first hfits r rest hdrawn hbatch _ h =>
    obtain ⟨xs, hxs, hencode⟩ := exists_encode_eq_sealBundles hfits hdrawn
    obtain ⟨s, t, hs, hshort, ht, hshort'⟩ := exists_encode_bundles hxs hbatch
    obtain ⟨rest', hseal⟩ := h.exists_eq_error
    rw [hencode, sealBundles_of_written hs ht]
    exact ⟨rest', Draw.bind_eq_error_iff.mpr (.inl hseal)⟩
  | second hfits r rest hdrawn hbatch rest' hfirst _ h =>
    obtain ⟨xs, hxs, hencode⟩ := exists_encode_eq_sealBundles hfits hdrawn
    obtain ⟨s, t, hs, hshort, ht, hshort'⟩ := exists_encode_bundles hxs hbatch
    obtain ⟨a, hsealA⟩ := hfirst.exists_eq_ok hshort
    obtain ⟨rest'', hsealB⟩ := h.exists_eq_error
    rw [hencode, sealBundles_of_written hs ht]
    exact ⟨rest'', Draw.bind_eq_error_iff.mpr
      (.inr ⟨a, rest', hsealA, Draw.bind_eq_error_iff.mpr (.inl hsealB)⟩)⟩

/-- The client sends a packet when no reason against it applies. -/
theorem Outcome.exists_eq_ok (h : Outcome schema keyA keyB batch m e none) :
    ∃ packet rest, (ofSchema schema keyA keyB).encode batch m e = .ok packet rest := by
  cases h with
  | sent hfits r rest hdrawn hbatch rest' hfirst rest'' hsecond =>
    obtain ⟨xs, hxs, hencode⟩ := exists_encode_eq_sealBundles hfits hdrawn
    obtain ⟨s, t, hs, hshort, ht, hshort'⟩ := exists_encode_bundles hxs hbatch
    obtain ⟨a, hsealA⟩ := hfirst.exists_eq_ok hshort
    obtain ⟨b, hsealB⟩ := hsecond.exists_eq_ok hshort'
    rw [hencode, sealBundles_of_written hs ht]
    exact ⟨_, rest'', Draw.bind_eq_ok_iff.mpr ⟨a, rest', hsealA,
      Draw.bind_eq_ok_iff.mpr ⟨b, rest'', hsealB, Draw.pure_eq_ok_iff.mpr ⟨rfl, rfl⟩⟩⟩⟩

/-- None of the reasons is an operation on residues that failed. -/
theorem Outcome.ne_arithmetic {text : String} :
    ¬ Outcome schema keyA keyB batch m e (some (.arithmetic text)) := by
  have hsealing (key : PublicKey) (e : Entropy) :
      ¬ Envelope.Sealing key e (.error (.arithmetic text)) := by
    rintro ⟨⟩
  rintro (_ | _ | _ | _ | ⟨_, _, _, _, _, _, h⟩ | ⟨_, _, _, _, _, _, _, _, h⟩ | _)
  · exact hsealing _ _ h
  · exact hsealing _ _ h

/-- A client is made for every schema and every two keys. It never fails with an operation on
residues, fails with an error exactly when this is the first of the reasons that apply, and sends a
packet exactly when none applies. -/
theorem encode_outcome (schema : Schema) (keyA keyB : PublicKey) :
    ∃ client, new schema keyA keyB = .ok client ∧
      ∀ (batch : List UInt8) (m : Measurements) (e : Entropy),
        (∀ text, ((client.encode batch m).runOn e).1 ≠ .error (.arithmetic text)) ∧
        (∀ cause, ((client.encode batch m).runOn e).1 = .error cause ↔
          Outcome schema keyA keyB batch m e (some cause)) ∧
        ((∃ packet, ((client.encode batch m).runOn e).1 = .ok packet) ↔
          Outcome schema keyA keyB batch m e none) := by
  refine ⟨_, new_eq_ok schema keyA keyB, fun batch m e => ?_⟩
  have herror (cause : ClientError) :
      (((ofSchema schema keyA keyB).encode batch m).runOn e).1 = .error cause ↔
        Outcome schema keyA keyB batch m e (some cause) := by
    constructor
    · intro h
      obtain ⟨stop, hstop⟩ := exists_outcome schema keyA keyB batch m e
      cases stop with
      | none =>
        obtain ⟨packet, rest, hok⟩ := hstop.exists_eq_ok
        rw [Draw.runOn, hok] at h
        cases h
      | some cause' =>
        obtain ⟨rest, hfail⟩ := hstop.exists_eq_error
        rw [Draw.runOn, hfail] at h
        cases h
        exact hstop
    · intro h
      obtain ⟨rest, hfail⟩ := h.exists_eq_error
      rw [Draw.runOn, hfail]
  refine ⟨fun text h => Outcome.ne_arithmetic ((herror _).mp h), herror, ?_⟩
  constructor
  · rintro ⟨packet, h⟩
    obtain ⟨stop, hstop⟩ := exists_outcome schema keyA keyB batch m e
    cases stop with
    | none => exact hstop
    | some cause =>
      rw [(herror cause).mpr hstop] at h
      cases h
  · intro h
    obtain ⟨packet, rest, hok⟩ := h.exists_eq_ok
    exact ⟨packet, by rw [Draw.runOn, hok]⟩

end Client

end SplitTally
