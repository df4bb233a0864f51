import SplitTally.Envelope
import SplitTally.Proofs.Sharing

/-!
# Sealed texts

The mask of a text is as long as its whole blocks, and adding it twice gives the text back, so a
ciphertext is as long as the text and the tag together and is opened under the key, the nonce and
the associated data it was sealed with. An envelope takes 32 bytes for the fresh private key and
twelve for the nonce from the stream, and its length is that of the text and a constant.
-/

namespace SplitTally

/-- A result that is there is gone on with. -/
theorem ok_bind {ε α β : Type} (a : α) (f : α → Except ε β) : (Except.ok a >>= f) = f a := by
  simp only [bind, Except.bind]

/-- A failure is not gone on with. -/
theorem error_bind {ε α β : Type} (cause : ε) (f : α → Except ε β) :
    (Except.error cause >>= f) = .error cause := by
  simp only [bind, Except.bind]

/-- Another name for the errors changes no result. -/
theorem mapError_eq_ok_iff {ε ε' α : Type} {x : Except ε α} {f : ε → ε'} {a : α} :
    x.mapError f = .ok a ↔ x = .ok a := by
  cases x <;> simp [Except.mapError]

namespace Gcm

private theorem length_counterBlock (schedule : Aes128.Schedule) (nonce : List UInt8)
    (counter : UInt32) : (counterBlock schedule nonce counter).length = 16 := rfl

/-- A mask consists of whole blocks. -/
theorem length_mask (schedule : Aes128.Schedule) (nonce : List UInt8) (size : ℕ) :
    (mask schedule nonce size).length = 16 * blockCount size := by
  simp [mask, List.length_flatMap, length_counterBlock, Nat.mul_comm]

/-- A mask is long enough for the text. -/
theorem le_length_mask (schedule : Aes128.Schedule) (nonce : List UInt8) (size : ℕ) :
    size ≤ (mask schedule nonce size).length := by
  rw [length_mask, blockCount]
  omega

/-- A masked text is as long as the text. -/
@[simp]
theorem length_applyMask (schedule : Aes128.Schedule) (nonce text : List UInt8) :
    (applyMask schedule nonce text).length = text.length := by
  rw [applyMask, List.length_zipWith]
  exact Nat.min_eq_left (le_length_mask schedule nonce text.length)

/-- Adding the mask twice gives the text back. -/
theorem applyMask_applyMask (schedule : Aes128.Schedule) (nonce text : List UInt8) :
    applyMask schedule nonce (applyMask schedule nonce text) = text := by
  refine List.ext_getElem (by simp) fun i _ _ => ?_
  have hmask : (mask schedule nonce (applyMask schedule nonce text).length) =
      mask schedule nonce text.length := by rw [length_applyMask]
  simp only [applyMask.eq_1 schedule nonce (applyMask schedule nonce text), hmask,
    List.getElem_zipWith]
  simp only [applyMask, List.getElem_zipWith, UInt8.xor_assoc, UInt8.xor_self, UInt8.xor_zero]

/-- A tag has 16 bytes. -/
theorem length_tag (schedule : Aes128.Schedule) (nonce associated ciphertext : List UInt8) :
    (tag schedule nonce associated ciphertext).length = tagSize := rfl

/-- What is sealed is longer than the text by the tag. -/
theorem length_encrypt (key nonce associated plaintext : List UInt8) :
    (encrypt key nonce associated plaintext).length = plaintext.length + tagSize := by
  simp [encrypt, length_tag]

/-- A text is sealed unless it is too long for the cipher. -/
theorem encrypt?_eq_some_iff {key nonce associated plaintext sealed : List UInt8} :
    encrypt? key nonce associated plaintext = some sealed ↔
      plaintext.length ≤ maxPlaintext ∧ sealed = encrypt key nonce associated plaintext := by
  unfold encrypt?
  by_cases h : maxPlaintext < plaintext.length
  · simp [h]
  · simp [h, Nat.not_lt.mp h, eq_comm]

/-- A sealed text is opened under the key, the nonce and the associated data it was sealed with. -/
theorem decrypt?_encrypt {key nonce associated plaintext : List UInt8}
    (h : plaintext.length ≤ maxPlaintext) :
    decrypt? key nonce associated (encrypt key nonce associated plaintext) = some plaintext := by
  have hlength := length_encrypt key nonce associated plaintext
  have hshort : ¬ maxCiphertext < plaintext.length :=
    Nat.not_lt.mpr (h.trans (by decide))
  have htake (schedule : Aes128.Schedule) :
      (applyMask schedule nonce plaintext).length = plaintext.length := by simp
  simp only [decrypt?, hlength, Nat.add_sub_cancel, if_neg hshort]
  simp only [encrypt, ← htake (Aes128.Schedule.ofKey key), List.take_left', List.drop_left',
    if_true, applyMask_applyMask]

end Gcm

namespace Draw

variable {ε : Type} {gone : ε} {n : ℕ} {e e' : Entropy}

/-- The bytes drawn are those at the front of the stream. -/
theorem bytes_eq_ok_iff {block : List UInt8} :
    bytes gone n e = .ok block e' ↔ block.length = n ∧ e.bytes = block ++ e'.bytes := by
  obtain ⟨stream⟩ := e
  obtain ⟨left⟩ := e'
  simp only [bytes, Entropy.take?]
  constructor
  · intro h
    split at h
    · next block' rest htake =>
      cases h
      simp only [Option.ite_none_right_eq_some, Option.some.injEq, Prod.mk.injEq,
        Entropy.mk.injEq] at htake
      obtain ⟨hlength, rfl, rfl⟩ := htake
      exact ⟨hlength, (List.take_append_drop n stream).symm⟩
    · cases h
  · rintro ⟨rfl, hstream⟩
    simp [hstream]

/-- No bytes are drawn when too few are left, and those stay. -/
theorem bytes_eq_error_iff {cause : ε} :
    bytes gone n e = .error cause e' ↔ e.size < n ∧ cause = gone ∧ e' = e := by
  rw [← Entropy.take?_eq_none_iff, bytes]
  cases e.take? n with
  | none => simp [eq_comm]
  | some p => simp

end Draw

/-- A public key is read back from its bytes. -/
theorem PublicKey.ofBytes_bytes (key : PublicKey) : ofBytes key.bytes = .ok key :=
  dif_pos key.size_eq

namespace PrivateKey

variable {e e' : Entropy} {key : PrivateKey}

/-- A fresh private key is the next 32 bytes of the stream. -/
theorem generate_eq_ok_iff : generate e = .ok key e' ↔ e.bytes = key.secret ++ e'.bytes := by
  unfold generate
  simp only [Draw.bind_eq_ok_iff, Draw.bytes_eq_ok_iff, Draw.ofExcept_eq_ok_iff]
  constructor
  · rintro ⟨secret, e₁, ⟨hlength, hstream⟩, hkey, rfl⟩
    rw [ofBytes, dif_pos hlength] at hkey
    cases hkey
    exact hstream
  · intro hstream
    exact ⟨key.secret, e', ⟨key.size_eq, hstream⟩, dif_pos key.size_eq, rfl⟩

/-- A private key is missing exactly if the stream has too few bytes for it. -/
theorem generate_eq_error_iff {cause : EnvelopeError} :
    generate e = .error cause e' ↔ e.size < X25519.size ∧ cause = .entropy ∧ e' = e := by
  unfold generate
  simp only [Draw.bind_eq_error_iff, Draw.bytes_eq_error_iff, Draw.bytes_eq_ok_iff,
    Draw.ofExcept_eq_error_iff]
  constructor
  · rintro (hshort | ⟨secret, e₁, ⟨hlength, -⟩, hkey, -⟩)
    · exact hshort
    · rw [ofBytes, dif_pos hlength] at hkey
      cases hkey
  · exact Or.inl

/-- A secret is agreed on if it is not all zero. -/
theorem agree_eq_ok_iff {peer : PublicKey} {shared : List UInt8} :
    key.agree peer = .ok shared ↔
      ¬ (X25519.agree key.secret peer.bytes).all (· = 0) ∧
        X25519.agree key.secret peer.bytes = shared := by
  simp only [agree]
  generalize X25519.agree key.secret peer.bytes = result
  by_cases hzero : result.all (· = 0)
  · simp [hzero]
  · simp [hzero]

/-- No secret is agreed on if it is all zero, for which the key of the peer is blamed. -/
theorem agree_eq_error_iff {peer : PublicKey} {cause : EnvelopeError} :
    key.agree peer = .error cause ↔
      (X25519.agree key.secret peer.bytes).all (· = 0) ∧ cause = .invalidKey .lowOrder := by
  simp only [agree]
  generalize X25519.agree key.secret peer.bytes = result
  by_cases hzero : result.all (· = 0)
  · simp [hzero, eq_comm]
  · simp [hzero]

end PrivateKey

namespace Envelope

variable {key : PublicKey} {text envelope : List UInt8} {e e' : Entropy}

/-- The envelope of a text, from the fresh private key, the shared secret and the nonce. -/
def assemble (fresh : PrivateKey) (shared nonce text : List UInt8) : List UInt8 :=
  let sender := fresh.toPublic.bytes
  sender ++ (nonce ++ Gcm.encrypt (cipherKey shared) nonce (associated sender nonce) text)

/-- A text is sealed when the bytes for the fresh private key and the nonce are there, the secret
agreed on is not zero and the text is not too long. -/
theorem sealFor_eq_ok_iff :
    sealFor key text e = .ok envelope e' ↔ ∃ fresh shared nonce,
      e.bytes = fresh.secret ++ (nonce ++ e'.bytes) ∧ nonce.length = nonceSize ∧
      fresh.agree key = .ok shared ∧ text.length ≤ Gcm.maxPlaintext ∧
      assemble fresh shared nonce text = envelope := by
  unfold sealFor
  simp only [Draw.bind_eq_ok_iff, PrivateKey.generate_eq_ok_iff, Draw.ofExcept_eq_ok_iff,
    Draw.bytes_eq_ok_iff]
  constructor
  · rintro ⟨fresh, e₁, hfresh, shared, _, ⟨hshared, rfl⟩, nonce, e₂, ⟨hnonce, hrest⟩, hsealed⟩
    cases hgcm : Gcm.encrypt? (cipherKey shared) nonce (associated fresh.toPublic.bytes nonce)
        text with
    | none =>
      rw [hgcm] at hsealed
      exact absurd hsealed Draw.throw_ne_ok
    | some sealed =>
      rw [hgcm] at hsealed
      obtain ⟨henvelope, rfl⟩ := Draw.pure_eq_ok_iff.mp hsealed
      obtain ⟨hshort, rfl⟩ := Gcm.encrypt?_eq_some_iff.mp hgcm
      exact ⟨fresh, shared, nonce, by rw [hfresh, hrest], hnonce, hshared, hshort, henvelope⟩
  · rintro ⟨fresh, shared, nonce, hstream, hnonce, hshared, hshort, henvelope⟩
    refine ⟨fresh, ⟨nonce ++ e'.bytes⟩, hstream, shared, _, ⟨hshared, rfl⟩, nonce, e',
      ⟨hnonce, rfl⟩, ?_⟩
    rw [Gcm.encrypt?_eq_some_iff.mpr ⟨hshort, rfl⟩]
    exact Draw.pure_eq_ok_iff.mpr ⟨henvelope, rfl⟩

/-- The size of an envelope depends on the length of the text only. -/
theorem length_assemble (fresh : PrivateKey) (shared : List UInt8) {nonce : List UInt8}
    (hnonce : nonce.length = nonceSize) :
    (assemble fresh shared nonce text).length = sealedSize text.length := by
  simp only [assemble, List.length_append, fresh.toPublic.size_eq, hnonce, Gcm.length_encrypt,
    sealedSize]
  omega

/-- The length of an envelope is that of its text and a constant. -/
theorem length_of_sealFor (h : sealFor key text e = .ok envelope e') :
    envelope.length = sealedSize text.length := by
  obtain ⟨fresh, shared, nonce, -, hnonce, -, -, rfl⟩ := sealFor_eq_ok_iff.mp h
  exact length_assemble fresh shared hnonce

/-- An envelope is opened with a private key that agrees with the fresh public key on the secret
under which it was sealed. -/
theorem openWith_assemble {key fresh : PrivateKey} {shared nonce : List UInt8}
    (hnonce : nonce.length = nonceSize) (hshort : text.length ≤ Gcm.maxPlaintext)
    (hshared : key.agree fresh.toPublic = .ok shared) :
    openWith key (assemble fresh shared nonce text) = .ok text := by
  have hlength : (assemble fresh shared nonce text).length = sealedSize text.length :=
    length_assemble fresh shared hnonce
  have henough : ¬ (assemble fresh shared nonce text).length < sealedSize 0 := by
    rw [hlength]
    simp only [sealedSize]
    omega
  have hsender : (assemble fresh shared nonce text).take X25519.size = fresh.toPublic.bytes := by
    rw [assemble, List.take_left' fresh.toPublic.size_eq]
  have hrest : (assemble fresh shared nonce text).drop X25519.size = nonce ++ Gcm.encrypt
      (cipherKey shared) nonce (associated fresh.toPublic.bytes nonce) text := by
    rw [assemble, List.drop_left' fresh.toPublic.size_eq]
  unfold openWith
  rw [if_neg henough, hsender, hrest, PublicKey.ofBytes_bytes]
  simp only [ok_bind, List.take_left' hnonce, List.drop_left' hnonce]
  rw [hshared, ok_bind]
  simp only [Gcm.decrypt?_encrypt hshort]
  rfl

end Envelope

end SplitTally
