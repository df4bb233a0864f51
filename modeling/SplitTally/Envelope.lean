import SplitTally.Crypto.Gcm
import SplitTally.Crypto.Sha256
import SplitTally.Key

/-!
# Envelopes

A text is sealed for the holder of a private key under the corresponding public key: a fresh
private key agrees with it on a secret, from which the key of the cipher is derived. An envelope
holds the fresh public key, the nonce, the ciphertext and the tag; the first two are authenticated
with the text.
-/

namespace SplitTally.Envelope

/-- The number of bytes of a nonce. -/
def nonceSize : Nat := 12

/-- The number of bytes of a key of the cipher. -/
def cipherKeySize : Nat := 16

/-- The number of bytes of the envelope of a text of `size` bytes. -/
def sealedSize (size : Nat) : Nat := X25519.size + nonceSize + size + Gcm.tagSize

/-- The bytes that start the authenticated data. -/
def domain : List UInt8 := "PrioPacket".toUTF8.toList

/-- The key of the cipher that belongs to a shared secret. -/
def cipherKey (shared : List UInt8) : List UInt8 :=
  (Sha256.hash (shared ++ [0, 0, 0, 1])).take cipherKeySize

/-- The authenticated data of an envelope. -/
def associated (fresh nonce : List UInt8) : List UInt8 := domain ++ (fresh ++ nonce)

/-- Seals a text under a public key. The nonce is drawn once the key is agreed on. -/
def sealFor (key : PublicKey) (plaintext : List UInt8) : Draw EnvelopeError (List UInt8) := do
  let fresh ← PrivateKey.generate
  let shared ← Draw.ofExcept (fresh.agree key)
  let nonce ← Draw.bytes .entropy nonceSize
  let sender := fresh.toPublic.bytes
  match Gcm.encrypt? (cipherKey shared) nonce (associated sender nonce) plaintext with
  | some sealed => return sender ++ (nonce ++ sealed)
  | none => throw .notSealed

/-- Opens an envelope with a private key. -/
def openWith (key : PrivateKey) (envelope : List UInt8) : Except EnvelopeError (List UInt8) := do
  if envelope.length < sealedSize 0 then throw .tooShort
  let sender ← PublicKey.ofBytes (envelope.take X25519.size)
  let rest := envelope.drop X25519.size
  let nonce := rest.take nonceSize
  let shared ← key.agree sender
  match Gcm.decrypt? (cipherKey shared) nonce (associated sender.bytes nonce)
      (rest.drop nonceSize) with
  | some plaintext => return plaintext
  | none => throw .notOpened

end SplitTally.Envelope
