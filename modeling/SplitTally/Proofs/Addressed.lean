import SplitTally.Proofs.Delivery

/-!
# Addressed bundles

The bundles of a packet are meant for one server, one batch and one number of slots. A verifier that
holds the key of an envelope opens it whatever it was set up for, also with the key of the other
server when both have the same one, and then takes the bundle only if all three are its own.
-/

namespace SplitTally

/-- The bundles of measurements are addressed to the servers, and their shares add up to the slots
and to a flat proof in which the value of `h` at the first root is the product of those of `f` and
`g`. -/
structure Addressed (schema : Schema) (batch : List UInt8) (measurements : Measurements)
    (bundle : Server → Bundle) : Prop where
  /-- The batch. -/
  batch_eq : ∀ server, (bundle server).batch = batch
  /-- The servers. -/
  server_eq : ∀ server, (bundle server).server = server
  /-- There is a share for each slot. -/
  length_data : ∀ server, (bundle server).data.length = schema.dimension
  /-- There is a share for each residue of the flat proof. -/
  length_proof : ∀ server, (bundle server).proof.length = BitProof.flatSize schema.dimension
  /-- The shares of the slots. -/
  data : ∃ xs, schema.encode measurements = .ok xs ∧
    Share.reconstruct? (bundle .a).data (bundle .b).data = some xs
  /-- The shares of the proof. -/
  proof : ∃ proof : BitProof, Share.reconstruct? (bundle .a).proof (bundle .b).proof =
    some proof.flatten ∧ proof.h0 = proof.f0 * proof.g0

/-- Bundles of a schema that are shared out are addressed. -/
theorem SharedOut.addressed {schema : Schema} {batch : List UInt8} {m : Measurements}
    {xs : List Residue} {bundle : Server → Bundle} (h : SharedOut batch xs bundle)
    (hxs : schema.encode m = .ok xs) : Addressed schema batch m bundle := by
  have hlength := Schema.length_encode hxs
  have hd : xs.length ≤ Schema.maxDimension := hlength ▸ schema.dimension_le
  obtain ⟨f0, g0, hproof⟩ := h.proof
  refine ⟨h.batch_eq, h.server_eq, fun server => ?_, fun server => ?_, ⟨xs, hxs, h.data⟩,
    ⟨_, hproof, rfl⟩⟩
  · rw [h.length_data, hlength]
  · rw [h.length_proof, hlength]

/-- A verifier with the key of a server opens the envelope for that server and asks for the server,
for the batch and for the number of slots, in this order. If all are right it gets the bundle, and
the two bundles of the packet are addressed. -/
theorem Client.exists_addressed {schema : Schema} {key : Server → PrivateKey} {batch : List UInt8}
    {client : Client} {m : Measurements} {packet : Packet} {e rest : Entropy}
    (hclient : Client.new schema (key .a).toPublic (key .b).toPublic = .ok client)
    (hencode : client.encode batch m e = .ok packet rest) :
    ∃ bundle, Addressed schema batch m bundle ∧
      ∀ (server : Server) (verifier : Verifier), verifier.key = key server →
        verifier.decrypt (packet.envelope server) =
          if server ≠ verifier.server then .error (.wrongServer server)
          else if batch ≠ verifier.batch then .error .wrongBatch
          else if schema.dimension ≠ verifier.dimension then
            .error (.dimensionMismatch verifier.dimension schema.dimension)
          else .ok (bundle server) := by
  obtain ⟨xs, bundle, hxs, hshared, hopened⟩ := exists_opened hclient hencode
  have haddressed := hshared.addressed hxs
  refine ⟨bundle, haddressed, fun server verifier hkey => ?_⟩
  obtain ⟨text, hopen, htext⟩ := hopened server
  rw [← hkey] at hopen
  have hproof : (bundle server).proof.length = BitProof.flatSize (bundle server).data.length := by
    rw [haddressed.length_proof, haddressed.length_data]
  rw [Verifier.decrypt_eq hopen htext hproof, haddressed.server_eq, haddressed.batch_eq,
    Bundle.dimension, haddressed.length_data]

/-- One key for both servers: the envelope for the first one is opened by four verifiers, of which
one is the other server, one collects another batch and one counts four slots. -/
theorem Client.exists_addressed_of_one_key :
    ∃ (key : PrivateKey) (client : Client) (packet : Packet) (e rest : Entropy),
      Client.new Schema.browser key.toPublic key.toPublic = .ok client ∧
      client.encode [7] (.ofList [("browserIsUserDefault", 1)]) e = .ok packet rest ∧
      ∃ bundle, Addressed Schema.browser [7] (.ofList [("browserIsUserDefault", 1)]) bundle ∧
        (Verifier.start 4 .b key [8]).decrypt packet.a = .error (.wrongServer .a) ∧
        (Verifier.start 4 .a key [8]).decrypt packet.a = .error .wrongBatch ∧
        (Verifier.start 4 .a key [7]).decrypt packet.a = .error (.dimensionMismatch 4 3) ∧
        (Verifier.start 3 .a key [7]).decrypt packet.a = .ok (bundle .a) := by
  let key : PrivateKey := ⟨List.replicate 32 1, List.length_replicate⟩
  let keys (_ : Server) : PrivateKey := key
  have hagree : ¬ (X25519.agree (List.replicate 32 3) key.toPublic.bytes).all (· = 0) := by
    decide +kernel
  have hfresh (server : Server) :
      ¬ (X25519.agree (List.replicate 32 3) (keys server).toPublic.bytes).all (· = 0) := hagree
  have hencode : Schema.browser.encode (.ofList [("browserIsUserDefault", 1)]) = .ok [1, 0, 0] := by
    decide +kernel
  obtain ⟨⟨m, packet, client, e, rest, hclient, hpacket⟩, hm⟩ :=
    Sent.exists_of_fits (Schema.fits_of_encode hencode) (show [7].length ≤ 65535 by decide)
      ⟨List.replicate 32 3, rfl⟩ hfresh
  subst hm
  obtain ⟨bundle, haddressed, hdecrypt⟩ := exists_addressed hclient hpacket
  exact ⟨key, client, packet, e, rest, hclient, hpacket, bundle, haddressed,
    hdecrypt .a (.start 4 .b key [8]) rfl, hdecrypt .a (.start 4 .a key [8]) rfl,
    hdecrypt .a (.start 4 .a key [7]) rfl, hdecrypt .a (.start 3 .a key [7]) rfl⟩

end SplitTally
