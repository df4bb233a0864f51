import SplitTally.Envelope.Checked
import SplitTally.Proofs.Delivery

/-!
# Sealing and opening

An envelope is the fresh public key, the nonce and the sealed text, of which the first two come from
44 bytes of the stream. Its private key opens it and gives the text back. What is opened may be any
bytes: those that are too few for a key, a nonce and a tag are told apart, and of all others the
pieces can be cut off.
-/

namespace SplitTally

/-- A hash has 32 bytes. -/
theorem Sha256.length_hash (message : List UInt8) : (hash message).length = 32 := rfl

namespace Envelope

open Cut (atPosition?_eq_some)
open WordArithmetic (checked checked_add_eq_some_iff)

variable {key : PrivateKey} {envelope : List UInt8}

/-! ### The size of an envelope -/

/-- Checked words count the size of every envelope that fits in a word. -/
theorem countSealed_checked_eq_some_iff {size counted : UInt64} :
    countSealed checked size = some counted ↔ counted.toNat = sealedSize size.toNat := by
  have hheader : (X25519.size + nonceSize).toUInt64.toNat = X25519.size + nonceSize := rfl
  have htag : Gcm.tagSize.toUInt64.toNat = Gcm.tagSize := rfl
  have hcount : countSealed checked size = some counted ↔
      ∃ headed : UInt64, headed.toNat = X25519.size + nonceSize + size.toNat ∧
        counted.toNat = headed.toNat + Gcm.tagSize := by
    simp only [countSealed, Option.bind_eq_bind, Option.bind_eq_some_iff, checked_add_eq_some_iff,
      hheader, htag]
  rw [hcount, sealedSize]
  constructor
  · rintro ⟨headed, hheaded, hcounted⟩
    rw [hcounted, hheaded]
  · intro hcounted
    have hlt := counted.toNat_lt
    refine ⟨.ofNat (X25519.size + nonceSize + size.toNat), ?_, ?_⟩
    all_goals rw [UInt64.toNat_ofNat', Nat.mod_eq_of_lt (by omega)]
    exact hcounted

/-! ### The pieces of an envelope -/

/-- A key of the cipher has 16 bytes. -/
theorem length_cipherKey (shared : List UInt8) : (cipherKey shared).length = cipherKeySize := by
  rw [cipherKey, List.length_take, Sha256.length_hash]
  rfl

/-- A hash is long enough for a key of the cipher. -/
theorem cipherKey?_eq_some (shared : List UInt8) : cipherKey? shared = some (cipherKey shared) := by
  have henough : cipherKeySize ≤ (Sha256.hash (shared ++ [0, 0, 0, 1])).length := by
    rw [Sha256.length_hash]
    decide
  rw [cipherKey?, atPosition?_eq_some henough, cipherKey]
  generalize Sha256.hash (shared ++ [0, 0, 0, 1]) = digest
  rfl

/-- The bytes of the nonce in an envelope that is long enough. -/
theorem length_nonce (h : sealedSize 0 ≤ envelope.length) :
    ((envelope.drop X25519.size).take nonceSize).length = nonceSize := by
  rw [List.length_take, List.length_drop]
  simp only [sealedSize] at h
  omega

/-- An envelope that is not too short can be cut into its pieces. -/
theorem pieces?_eq_some (h : sealedSize 0 ≤ envelope.length) :
    pieces? envelope = some (envelope.take X25519.size,
      (envelope.drop X25519.size).take nonceSize, (envelope.drop X25519.size).drop nonceSize) := by
  simp only [sealedSize] at h
  have hsender : X25519.size ≤ envelope.length := by omega
  have hnonce : nonceSize ≤ (envelope.drop X25519.size).length := by
    rw [List.length_drop]
    omega
  simp [pieces?, atPosition?_eq_some hsender, atPosition?_eq_some hnonce]

/-! ### Opening -/

/-- Opening cuts the pieces off, agrees on the secret with the sender and opens the sealed text with
the key of the cipher. -/
theorem openWith_eq (key : PrivateKey) (envelope : List UInt8) :
    openWith key envelope =
      if envelope.length < sealedSize 0 then .error .tooShort
      else agreed key (envelope.take X25519.size) >>= fun (sender, shared) =>
        unsealed (cipherKey shared) sender ((envelope.drop X25519.size).take nonceSize)
          ((envelope.drop X25519.size).drop nonceSize) := by
  unfold openWith agreed
  by_cases hshort : envelope.length < sealedSize 0
  · rw [if_pos hshort, if_pos hshort]
    rfl
  · rw [if_neg hshort, if_neg hshort]
    cases PublicKey.ofBytes (envelope.take X25519.size) with
    | error cause => rfl
    | ok sender =>
      rw [ok_bind, ok_bind]
      cases key.agree sender with
      | error cause => rfl
      | ok shared => rfl

/-- Opening never cuts off more bytes than there are, and the nonce has the right size. -/
theorem openWith?_eq_some (key : PrivateKey) (envelope : List UInt8) :
    openWith? key envelope = some (openWith key envelope) := by
  rw [openWith_eq, openWith?]
  by_cases hshort : envelope.length < sealedSize 0
  · rw [if_pos hshort, if_pos hshort]
  · have henough := Nat.not_lt.mp hshort
    rw [if_neg hshort, if_neg hshort, pieces?_eq_some henough, Option.bind_some]
    dsimp only
    cases agreed key (envelope.take X25519.size) with
    | error cause => rfl
    | ok agreement =>
      obtain ⟨sender, shared⟩ := agreement
      rw [ok_bind]
      dsimp only
      rw [cipherKey?_eq_some, Option.bind_some, unsealed?,
        if_neg (not_not_intro (length_cipherKey shared)),
        if_neg (not_not_intro (length_nonce henough))]

/-- An agreement on the secret fails because of the sender's key, not because of its length. -/
theorem ne_tooShort_of_agreed (h : sealedSize 0 ≤ envelope.length) {cause : EnvelopeError}
    (hagreed : agreed key (envelope.take X25519.size) = .error cause) : cause ≠ .tooShort := by
  have hsize : (envelope.take X25519.size).length = X25519.size := by
    rw [List.length_take]
    simp only [sealedSize] at h
    omega
  rw [agreed, PublicKey.ofBytes, dif_pos hsize, ok_bind] at hagreed
  cases hagree : key.agree ⟨envelope.take X25519.size, hsize⟩ with
  | error cause' =>
    rw [hagree, error_bind] at hagreed
    cases hagreed
    obtain ⟨-, rfl⟩ := PrivateKey.agree_eq_error_iff.mp hagree
    simp
  | ok shared =>
    rw [hagree, ok_bind] at hagreed
    cases hagreed

/-- A sealed text is never refused as too short an envelope. -/
theorem unsealed_ne_tooShort (cipher : List UInt8) (sender : PublicKey)
    (nonce sealed : List UInt8) : unsealed cipher sender nonce sealed ≠ .error .tooShort := by
  unfold unsealed
  generalize Gcm.decrypt? cipher nonce (associated sender.bytes nonce) sealed = opened
  cases opened with
  | none => simp
  | some plaintext => simp

/-- Bytes are too short for an envelope when they are fewer than the envelope of no text has. -/
theorem openWith_eq_tooShort_iff :
    openWith key envelope = .error .tooShort ↔ envelope.length < sealedSize 0 := by
  rw [openWith_eq]
  by_cases hshort : envelope.length < sealedSize 0
  · rw [if_pos hshort, eq_self, true_iff]
    exact hshort
  · rw [if_neg hshort, iff_false_right hshort]
    cases hagreed : agreed key (envelope.take X25519.size) with
    | error cause =>
      rw [error_bind, Except.error.injEq]
      exact ne_tooShort_of_agreed (Nat.not_lt.mp hshort) hagreed
    | ok agreement => exact unsealed_ne_tooShort _ _ _ _

/-! ### Sealing first -/

/-- The pieces of an envelope, from the bytes of the stream that were used up for it. -/
theorem exists_pieces_of_sealFor {peer : PublicKey} {text : List UInt8} {e rest : Entropy}
    (h : sealFor peer text e = .ok envelope rest) :
    ∃ (fresh : PrivateKey) (nonce sealed : List UInt8), nonce.length = nonceSize ∧
      e.bytes = fresh.secret ++ (nonce ++ rest.bytes) ∧
      envelope = fresh.toPublic.bytes ++ (nonce ++ sealed) := by
  obtain ⟨fresh, shared, nonce, hstream, hnonce, -, -, rfl⟩ := sealFor_eq_ok_iff.mp h
  exact ⟨fresh, nonce, _, hnonce, hstream, rfl⟩

/-- A private key opens what is sealed under its public key, after 44 bytes were drawn for the fresh
private key and the nonce that stand in front of the envelope. Of any other bytes it only refuses
those as too short that are fewer than in the envelope of no text, and it cuts off no piece that is
not there. -/
theorem openWith_undoes_sealFor (key : PrivateKey) :
    (∀ text e envelope rest, sealFor key.toPublic text e = .ok envelope rest →
      e.size = rest.size + 44 ∧ envelope.length = sealedSize text.length ∧
      (∃ (fresh : PrivateKey) (nonce sealed : List UInt8), nonce.length = nonceSize ∧
        e.bytes = fresh.secret ++ (nonce ++ rest.bytes) ∧
        envelope = fresh.toPublic.bytes ++ (nonce ++ sealed)) ∧
      openWith key envelope = .ok text) ∧
    ∀ envelope, (openWith key envelope = .error .tooShort ↔ envelope.length < sealedSize 0) ∧
      openWith? key envelope = some (openWith key envelope) := by
  refine ⟨fun text e envelope rest h => ?_, fun envelope =>
    ⟨openWith_eq_tooShort_iff, openWith?_eq_some key envelope⟩⟩
  obtain ⟨fresh, nonce, sealed, hnonce, hstream, henvelope⟩ := exists_pieces_of_sealFor h
  have hsize : e.size = rest.size + 44 := by
    rw [Entropy.size, hstream, List.length_append, List.length_append, fresh.size_eq, hnonce,
      Entropy.size]
    simp only [X25519.size, nonceSize]
    omega
  exact ⟨hsize, length_of_sealFor h, ⟨fresh, nonce, sealed, hnonce, hstream, henvelope⟩,
    openWith_of_sealFor h⟩

/-- The empty text, sealed with 44 bytes of a stream of 45. -/
theorem openWith_undoes_sealFor_empty :
    ∃ (key : PrivateKey) (envelope : List UInt8),
      sealFor key.toPublic [] ⟨List.replicate 32 3 ++ (List.replicate 12 0 ++ [9])⟩ =
        .ok envelope ⟨[9]⟩ ∧
      envelope.length = 60 ∧ openWith key envelope = .ok [] ∧
      openWith? key (envelope.take 59) = some (.error .tooShort) := by
  let key : PrivateKey := ⟨List.replicate 32 1, List.length_replicate⟩
  let fresh : PrivateKey := ⟨List.replicate 32 3, List.length_replicate⟩
  have hnonzero : ¬ (X25519.agree fresh.secret key.toPublic.bytes).all (· = 0) := by
    decide +kernel
  have hsealed : sealFor key.toPublic [] ⟨List.replicate 32 3 ++ (List.replicate 12 0 ++ [9])⟩ =
      .ok (assemble fresh (X25519.agree fresh.secret key.toPublic.bytes)
        (List.replicate 12 0) []) ⟨[9]⟩ :=
    sealFor_eq_ok_iff.mpr ⟨fresh, _, List.replicate 12 0, rfl, List.length_replicate,
      PrivateKey.agree_eq_ok_iff.mpr ⟨hnonzero, rfl⟩, Nat.zero_le _, rfl⟩
  obtain ⟨hsealing, hopening⟩ := openWith_undoes_sealFor key
  obtain ⟨-, hlength, -, hopen⟩ := hsealing _ _ _ _ hsealed
  have hshort : (List.take 59 (assemble fresh (X25519.agree fresh.secret key.toPublic.bytes)
      (List.replicate 12 0) [])).length < sealedSize 0 := by
    rw [List.length_take]
    exact Nat.lt_of_le_of_lt (Nat.min_le_left _ _) (by decide)
  refine ⟨key, _, hsealed, hlength, hopen, ?_⟩
  rw [(hopening _).2, (hopening _).1.mpr hshort]

end Envelope

end SplitTally
