import SplitTally.Proofs.ClientOutcome
import SplitTally.Proofs.Ladder
import SplitTally.Proofs.Reuse

/-!
# What reaches the servers

A text that is sealed under a public key is opened with the private key it belongs to, since both
sides of the key agreement get the same secret. So each server gets out of a packet the bundle that
the client made for it, and the two bundles hold shares of the slots and of a right proof about
them, which the servers' messages accept at every point.
-/

namespace SplitTally

/-- Both holders of a private key share the same secret with the other one's public key. -/
theorem PrivateKey.agree_comm (key key' : PrivateKey) :
    key.agree key'.toPublic = key'.agree key.toPublic := by
  unfold agree toPublic
  rw [X25519.agree_comm]

/-- A text that is sealed under a public key is opened with its private key. -/
theorem Envelope.openWith_of_sealFor {key : PrivateKey} {text envelope : List UInt8}
    {e rest : Entropy} (h : sealFor key.toPublic text e = .ok envelope rest) :
    openWith key envelope = .ok text := by
  obtain ⟨fresh, shared, nonce, -, hnonce, hshared, hshort, rfl⟩ := sealFor_eq_ok_iff.mp h
  rw [PrivateKey.agree_comm] at hshared
  exact openWith_assemble hnonce hshort hshared

namespace Client

variable {schema : Schema} {keyA keyB : PublicKey} {batch : List UInt8} {m : Measurements}
  {packet : Packet} {e rest : Entropy}

/-- A packet holds the sealed bundles of the slots of the measurements. -/
theorem exists_of_encode_eq_ok
    (h : (ofSchema schema keyA keyB).encode batch m e = .ok packet rest) :
    ∃ xs bundles e₁ s t e₂, schema.encode m = .ok xs ∧
      (ofSchema schema keyA keyB).prover.bundles batch xs e = .ok bundles e₁ ∧
      bundles.1.encode = .ok s ∧ bundles.2.encode = .ok t ∧
      Envelope.sealFor keyA s e₁ = .ok packet.a e₂ ∧
      Envelope.sealFor keyB t e₂ = .ok packet.b rest := by
  cases hencode : schema.encode m with
  | error cause =>
    rw [encode_of_refused hencode] at h
    cases h
  | ok xs =>
    rw [encode_of_accepted hencode] at h
    obtain ⟨bundles, e₁, hbundles, h⟩ := Draw.bind_eq_ok_iff.mp h
    simp only [sealBundles, Draw.bind_eq_ok_iff, Draw.ofExcept_eq_ok_iff,
      Draw.mapError_eq_ok_iff] at h
    obtain ⟨s, _, ⟨hs, rfl⟩, t, _, ⟨ht, rfl⟩, a, e₂, hsealA, b, e₃, hsealB, hpacket⟩ := h
    obtain ⟨rfl, rfl⟩ := Draw.pure_eq_ok_iff.mp hpacket
    exact ⟨xs, bundles, e₁, s, t, e₂, rfl, hbundles, mapError_eq_ok_iff.mp hs,
      mapError_eq_ok_iff.mp ht, hsealA, hsealB⟩

end Client

/-! ### Shared out bundles -/

/-- The bundles are addressed to the two servers, and hold shares of the slots and of a proof that
is built about them. -/
structure SharedOut (batch : List UInt8) (xs : List Residue) (bundle : Server → Bundle) : Prop where
  /-- The batch. -/
  batch_eq : ∀ server, (bundle server).batch = batch
  /-- The servers. -/
  server_eq : ∀ server, (bundle server).server = server
  /-- The shares of the slots. -/
  data : Share.reconstruct? (bundle .a).data (bundle .b).data = some xs
  /-- The shares of the proof. -/
  proof : ∃ f0 g0, Share.reconstruct? (bundle .a).proof (bundle .b).proof =
    some (BitProof.build xs f0 g0).flatten

/-- Both shares of a vector are as long as the vector. -/
theorem Share.length_of_reconstruct? {a b xs : List Residue} (h : reconstruct? a b = some xs) :
    a.length = xs.length ∧ b.length = xs.length := by
  obtain ⟨hlength, rfl⟩ := reconstruct?_eq_some_iff.mp h
  simp [hlength]

/-- The bundles of residues that are drawn are shared out. -/
theorem Randomness.sharedOut {xs : List Residue} (r : Randomness xs.length) (batch : List UInt8) :
    SharedOut batch xs (Server.pick (r.bundles batch xs)) where
  batch_eq server := by cases server <;> rfl
  server_eq server := by cases server <;> rfl
  data := Share.reconstruct?_zipWith_sub List.length_ofFn
  proof := ⟨r.f0, r.g0, Share.reconstruct?_zipWith_sub
    (List.length_ofFn.trans (BitProof.length_flatten_build _ r.f0 r.g0).symm)⟩

namespace SharedOut

variable {batch : List UInt8} {xs : List Residue} {bundle : Server → Bundle}

/-- Each bundle has a share of every slot. -/
theorem length_data (h : SharedOut batch xs bundle) (server : Server) :
    (bundle server).data.length = xs.length := by
  obtain ⟨ha, hb⟩ := Share.length_of_reconstruct? h.data
  cases server with
  | a => exact ha
  | b => exact hb

/-- Each bundle has a share of every residue of the proof. -/
theorem length_proof (h : SharedOut batch xs bundle) (server : Server) :
    (bundle server).proof.length = BitProof.flatSize xs.length := by
  obtain ⟨f0, g0, hproof⟩ := h.proof
  obtain ⟨ha, hb⟩ := Share.length_of_reconstruct? hproof
  rw [← BitProof.length_flatten_build xs f0 g0]
  cases server with
  | a => exact ha
  | b => exact hb

/-- Bits that are shared out are accepted at every point, and the messages depend on nothing but the
bundles and the point. -/
theorem exists_messages (h : SharedOut batch xs bundle) (hd : xs.length ≤ Schema.maxDimension)
    (hbits : ∀ x ∈ xs, x = 0 ∨ x = 1) (x : Residue) :
    ∃ message : Server → Message, (message .a).agrees (message .b) = true ∧
      ∀ (server : Server) (verifier : Verifier), verifier.Serves server xs.length →
        verifier.message x (bundle server) = .ok (message server) := by
  obtain ⟨f0, g0, hproof⟩ := h.proof
  let verifier (server : Server) : Verifier :=
    .start xs.length server ⟨List.replicate 32 0, rfl⟩ []
  have hserves (server : Server) : (verifier server).Serves server xs.length := ⟨rfl, rfl⟩
  obtain ⟨v, w, hv, hw, hagrees⟩ := Verifier.exists_messages_agrees_iff hd (hserves .a)
    (hserves .b) rfl h.data (BitProof.length_packed_build xs f0 g0) hproof x
  refine ⟨Server.pick (v, w), hagrees.mpr ?_, fun server other hother => ?_⟩
  · rw [(BitProof.build_proves hd hbits f0 g0).mul_eq hd]
  · have hsame : other.message x (bundle server) = (verifier server).message x (bundle server) :=
      Verifier.message_congr hother.dimension_eq hother.server_eq x _
    rw [hsame]
    cases server with
    | a => exact hv
    | b => exact hw

end SharedOut

/-! ### Opening envelopes -/

/-- A verifier that opens an envelope of the bytes of a bundle asks for the server first, then for
the batch, and for the number of slots last. -/
theorem Verifier.decrypt_eq {verifier : Verifier} {envelope text : List UInt8} {bundle : Bundle}
    (hopen : Envelope.openWith verifier.key envelope = .ok text) (htext : bundle.encode = .ok text)
    (hproof : bundle.proof.length = BitProof.flatSize bundle.data.length) :
    verifier.decrypt envelope =
      if bundle.server ≠ verifier.server then .error (.wrongServer bundle.server)
      else if bundle.batch ≠ verifier.batch then .error .wrongBatch
      else if bundle.dimension ≠ verifier.dimension then
        .error (.dimensionMismatch verifier.dimension bundle.dimension)
      else .ok bundle := by
  have hdecode : Wire.whole Bundle.decode text = .ok bundle :=
    Bundle.exact_decode.whole_eq_ok_iff.mpr ⟨htext, hproof⟩
  unfold decrypt
  simp only [hopen, hdecode, Except.mapError, ok_bind]
  by_cases hserver : bundle.server = verifier.server
  · by_cases hbatch : bundle.batch = verifier.batch
    · by_cases hdimension : bundle.dimension = verifier.dimension <;>
        simp only [hserver, hbatch, hdimension, ne_eq, not_true_eq_false, not_false_eq_true,
          if_true, if_false] <;> rfl
    · simp only [hserver, hbatch, ne_eq, not_true_eq_false, not_false_eq_true, if_true, if_false]
      rfl
  · simp only [hserver, ne_eq, not_false_eq_true, if_true]
    rfl

/-- The servers open the envelopes of a packet and find the bytes of bundles that are shared out. -/
theorem Client.exists_opened {schema : Schema} {key : Server → PrivateKey} {batch : List UInt8}
    {client : Client} {m : Measurements} {packet : Packet} {e rest : Entropy}
    (hclient : Client.new schema (key .a).toPublic (key .b).toPublic = .ok client)
    (hencode : client.encode batch m e = .ok packet rest) :
    ∃ xs bundle, schema.encode m = .ok xs ∧ SharedOut batch xs bundle ∧
      ∀ server, ∃ text, Envelope.openWith (key server) (packet.envelope server) = .ok text ∧
        (bundle server).encode = .ok text := by
  rw [Client.new_eq_ok] at hclient
  cases hclient
  obtain ⟨xs, bundles, e₁, s, t, e₂, hxs, hbundles, hs, ht, hsealA, hsealB⟩ :=
    Client.exists_of_encode_eq_ok hencode
  have hd : xs.length ≤ Schema.maxDimension := Schema.length_encode hxs ▸ schema.dimension_le
  obtain ⟨r, -, rfl⟩ := Randomness.exists_drawnFrom hbundles
  refine ⟨xs, _, hxs, r.sharedOut batch, fun server => ?_⟩
  cases server with
  | a => exact ⟨s, Envelope.openWith_of_sealFor hsealA, hs⟩
  | b => exact ⟨t, Envelope.openWith_of_sealFor hsealB, ht⟩

/-- A packet that was sent, with the measurements in it. -/
structure Sent (schema : Schema) (key : Server → PrivateKey) (batch : List UInt8) where
  /-- The measurements. -/
  measurements : Measurements
  /-- The packet. -/
  packet : Packet
  /-- A client made the packet of the measurements, from some stream. -/
  encoded : ∃ client e rest, Client.new schema (key .a).toPublic (key .b).toPublic = .ok client ∧
    client.encode batch measurements e = .ok packet rest

/-- Measurements that fit the schema are sent from some stream, if there is a private key that
agrees with both public keys on another secret than zero. -/
theorem Sent.exists_of_fits {schema : Schema} {key : Server → PrivateKey} {batch : List UInt8}
    {m : Measurements} (hfits : schema.Fits m) (hbatch : batch.length ≤ 65535) (fresh : PrivateKey)
    (hfresh : ∀ server,
      ¬ (X25519.agree fresh.secret (key server).toPublic.bytes).all (· = 0)) :
    ∃ sent : Sent schema key batch, sent.measurements = m := by
  let nonce : List UInt8 := List.replicate Envelope.nonceSize 0
  let before (rest : Entropy) : Entropy := ⟨fresh.secret ++ (nonce ++ rest.bytes)⟩
  have hsealing (server : Server) (rest : Entropy) :
      Envelope.Sealing (key server).toPublic (before rest) (.ok rest) :=
    .sealed fresh nonce rest rfl (hfresh server) List.length_replicate
  let r : Randomness schema.dimension := ⟨0, 0, 0, 0⟩
  have houtcome : Client.Outcome schema (key .a).toPublic (key .b).toPublic batch m
      (r.stream (before (before ⟨[]⟩)).bytes) none :=
    .sent hfits r _ (r.drawnFrom_stream _) hbatch _ (hsealing .a _) ⟨[]⟩ (hsealing .b _)
  obtain ⟨packet, rest, hencode⟩ := houtcome.exists_eq_ok
  exact ⟨⟨m, packet, _, _, rest, Client.new_eq_ok _ _ _, hencode⟩, rfl⟩

/-- Out of a packet that was sent every verifier for the schema, the batch and one of the keys gets
a bundle, and the bundles are shares of the slots of the measurements. -/
theorem Sent.exists_bundles {schema : Schema} {key : Server → PrivateKey} {batch : List UInt8}
    (sent : Sent schema key batch) :
    ∃ xs bundle, schema.encode sent.measurements = .ok xs ∧ SharedOut batch xs bundle ∧
      ∀ (server : Server) (verifier : Verifier), verifier.Serves server schema.dimension →
        verifier.key = key server → verifier.batch = batch →
          verifier.decrypt (sent.packet.envelope server) = .ok (bundle server) := by
  obtain ⟨client, e, rest, hclient, hencode⟩ := sent.encoded
  obtain ⟨xs, bundle, hxs, hshared, hopened⟩ := Client.exists_opened hclient hencode
  have hlength := Schema.length_encode hxs
  have hd : xs.length ≤ Schema.maxDimension := hlength ▸ schema.dimension_le
  refine ⟨xs, bundle, hxs, hshared, fun server verifier hserves hkey hbatch => ?_⟩
  have hdata := hshared.length_data server
  obtain ⟨text, hopen, htext⟩ := hopened server
  rw [← hkey] at hopen
  rw [Verifier.decrypt_eq hopen htext (by rw [hshared.length_proof, hdata]),
    hshared.server_eq, hserves.server_eq, if_neg (not_not_intro rfl), hshared.batch_eq, hbatch,
    if_neg (not_not_intro rfl), Bundle.dimension, hdata, hlength, hserves.dimension_eq,
    if_neg (not_not_intro rfl)]

end SplitTally
