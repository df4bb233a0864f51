import SplitTally.Crypto.X25519
import SplitTally.Entropy
import SplitTally.Text.Base64
import SplitTally.Text.Hex

/-!
# Keys

Each server has a private key, a secret of 32 bytes, and the public key that belongs to it. Keys
are imported from bytes and from their hexadecimal or base 64 text.
-/

namespace SplitTally

/-- What is wrong with a key. -/
inductive KeyFault where
  /-- A public key has another number of bytes. -/
  | publicSize
  /-- A private key has another number of bytes. -/
  | privateSize
  /-- A public key shares the same secret with every private key. -/
  | lowOrder
  deriving DecidableEq, Repr

/-- The text of the fault. -/
def KeyFault.message : KeyFault → String
  | .publicSize => "public key must be 32 bytes"
  | .privateSize => "private key must be 32 bytes"
  | .lowOrder => "public key is a low-order point"

/-- Why a key is refused, or a text cannot be sealed or opened. -/
inductive EnvelopeError where
  /-- The key cannot be used. -/
  | invalidKey (fault : KeyFault)
  /-- The hexadecimal text of a key is malformed. -/
  | hex (fault : Hex.Fault)
  /-- The base 64 text of a key is malformed. -/
  | base64 (fault : Base64.Fault)
  /-- The ciphertext is shorter than the sealing of an empty text. -/
  | tooShort
  /-- The text could not be sealed. -/
  | notSealed
  /-- The tag of the ciphertext is wrong. -/
  | notOpened
  /-- The source of random bytes gave out. -/
  | entropy
  deriving DecidableEq, Repr

namespace EnvelopeError

/-- The text of the error. -/
def message : EnvelopeError → String
  | .invalidKey fault => "invalid key: " ++ fault.message
  | .hex _ => "hex decoding error"
  | .base64 _ => "base64 decoding error"
  | .tooShort => "ciphertext too short"
  | .notSealed => "encryption failed"
  | .notOpened => "decryption failed"
  | .entropy => "system entropy source failed: " ++ Entropy.failure

/-- The text of the error below, if there is one. -/
def cause? : EnvelopeError → Option String
  | .hex fault => some fault.message
  | .base64 fault => some fault.message
  | _ => none

/-- Whether the key is to blame, and not the text or the source of random bytes. -/
def isKeyError : EnvelopeError → Bool
  | .invalidKey _ | .hex _ | .base64 _ => true
  | _ => false

end EnvelopeError

/-- The bytes that a hexadecimal text of a key spells. -/
def keyBytesOfHex (text : String) : Except EnvelopeError (List UInt8) :=
  (Hex.decode text).mapError .hex

/-- The bytes that a base 64 text of a key spells. -/
def keyBytesOfBase64 (text : String) : Except EnvelopeError (List UInt8) :=
  (Base64.decode text).mapError .base64

/-- A public key, with its bytes as they were given. -/
structure PublicKey where
  /-- The bytes. -/
  bytes : List UInt8
  /-- There are 32 bytes. -/
  size_eq : bytes.length = X25519.size
  deriving DecidableEq

namespace PublicKey

/-- The public key with the given bytes. -/
def ofBytes (bytes : List UInt8) : Except EnvelopeError PublicKey :=
  if h : bytes.length = X25519.size then .ok ⟨bytes, h⟩ else .error (.invalidKey .publicSize)

/-- The public key with the given hexadecimal text. -/
def ofHex (text : String) : Except EnvelopeError PublicKey := do
  ofBytes (← keyBytesOfHex text)

/-- The public key with the given base 64 text. -/
def ofBase64 (text : String) : Except EnvelopeError PublicKey := do
  ofBytes (← keyBytesOfBase64 text)

/-- The hexadecimal text of a public key, in capitals. -/
def toHex (key : PublicKey) : String := Hex.encode .upper key.bytes

/-- The text that shows a public key. -/
def describe (key : PublicKey) : String := "PublicKey(" ++ Quoted.text key.toHex ++ ")"

end PublicKey

/-- A private key, with its bytes as they were given. -/
structure PrivateKey where
  /-- The bytes. -/
  secret : List UInt8
  /-- There are 32 bytes. -/
  size_eq : secret.length = X25519.size
  deriving DecidableEq

namespace PrivateKey

/-- The private key with the given bytes. -/
def ofBytes (bytes : List UInt8) : Except EnvelopeError PrivateKey :=
  if h : bytes.length = X25519.size then .ok ⟨bytes, h⟩ else .error (.invalidKey .privateSize)

/-- The private key with the given hexadecimal text. -/
def ofHex (text : String) : Except EnvelopeError PrivateKey := do
  ofBytes (← keyBytesOfHex text)

/-- The private key with the given base 64 text. -/
def ofBase64 (text : String) : Except EnvelopeError PrivateKey := do
  ofBytes (← keyBytesOfBase64 text)

/-- Draws a fresh private key. -/
def generate : Draw EnvelopeError PrivateKey := do
  Draw.ofExcept (ofBytes (← Draw.bytes .entropy X25519.size))

/-- The hexadecimal text of a private key, in capitals. -/
def toHex (key : PrivateKey) : String := Hex.encode .upper key.secret

/-- The base 64 text of a private key. -/
def toBase64 (key : PrivateKey) : String := Base64.encode key.secret

/-- The text that shows a private key, whatever its secret. -/
def describe (_ : PrivateKey) : String := "PrivateKey(" ++ Quoted.text "<redacted>" ++ ")"

/-- The public key that belongs to a private key. -/
def toPublic (key : PrivateKey) : PublicKey where
  bytes := X25519.publicKey key.secret
  size_eq := X25519.length_publicKey key.secret

/-- The secret shared between the holder of a private key and the holder of a public key. It is
refused when it is zero, since then it does not depend on the private key. -/
def agree (key : PrivateKey) (peer : PublicKey) : Except EnvelopeError (List UInt8) :=
  let shared := X25519.agree key.secret peer.bytes
  if shared.all (· = 0) then .error (.invalidKey .lowOrder) else .ok shared

end PrivateKey

end SplitTally
