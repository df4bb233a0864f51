import SplitTally.Envelope
import SplitTally.Residue.Representative
import SplitTally.Text.Cut

/-!
# Opening with checked cuts

An envelope is cut into the fresh public key, the nonce and the sealed text, and the hash of the
shared secret is cut down to a key of the cipher. A piece can only be cut off if there are bytes
enough, and the cipher takes keys and nonces of one size only. The opening below looks at this each
time. It has no result as soon as a cut or a nonce is wrong, and an error if it is the key.
-/

namespace SplitTally.Envelope

open Cut (atPosition?)

/-- The size of the envelope of a text of so many bytes, in words. -/
def countSealed {m : Type → Type} [Monad m] (arithmetic : WordArithmetic m) (size : UInt64) :
    m UInt64 := do
  let headed ← arithmetic.add (X25519.size + nonceSize).toUInt64 size
  arithmetic.add headed Gcm.tagSize.toUInt64

/-- The fresh public key, the nonce and the sealed text of an envelope, as bytes. -/
def pieces? (envelope : List UInt8) : Option (List UInt8 × List UInt8 × List UInt8) := do
  let (sender, rest) ← atPosition? X25519.size envelope
  let (nonce, sealed) ← atPosition? nonceSize rest
  return (sender, nonce, sealed)

/-- The key of the cipher that belongs to a shared secret, if its hash is long enough. -/
def cipherKey? (shared : List UInt8) : Option (List UInt8) := do
  let (key, _) ← atPosition? cipherKeySize (Sha256.hash (shared ++ [0, 0, 0, 1]))
  return key

/-- The sender of an envelope and the secret that is shared with it. -/
def agreed (key : PrivateKey) (sender : List UInt8) :
    Except EnvelopeError (PublicKey × List UInt8) := do
  let sender ← PublicKey.ofBytes sender
  return (sender, ← key.agree sender)

/-- The text that was sealed under a key of the cipher. -/
def unsealed (cipher : List UInt8) (sender : PublicKey) (nonce sealed : List UInt8) :
    Except EnvelopeError (List UInt8) :=
  match Gcm.decrypt? cipher nonce (associated sender.bytes nonce) sealed with
  | some plaintext => .ok plaintext
  | none => .error .notOpened

/-- The text that was sealed, if the key and the nonce have the sizes that the cipher takes. -/
def unsealed? (cipher : List UInt8) (sender : PublicKey) (nonce sealed : List UInt8) :
    Option (Except EnvelopeError (List UInt8)) :=
  if cipher.length ≠ cipherKeySize then some (.error .notOpened)
  else if nonce.length ≠ nonceSize then none
  else some (unsealed cipher sender nonce sealed)

/-- Opens an envelope with a private key. -/
def openWith? (key : PrivateKey) (envelope : List UInt8) :
    Option (Except EnvelopeError (List UInt8)) :=
  if envelope.length < sealedSize 0 then some (.error .tooShort)
  else
    (pieces? envelope).bind fun (sender, nonce, sealed) =>
      match agreed key sender with
      | .error cause => some (.error cause)
      | .ok (sender, shared) =>
        (cipherKey? shared).bind fun cipher => unsealed? cipher sender nonce sealed

end SplitTally.Envelope
