import Mathlib.Data.List.Forall2
import SplitTally.Proofs.Base64Text
import SplitTally.Proofs.Envelopes

/-!
# The texts of keys

A key is read from the text that is written for it. From base 64 nothing else is read. From
hexadecimal digits texts with small letters are read too, which are written again in capitals. A
text that is refused is refused as a fault of the key.
-/

namespace SplitTally

/-- The text is another one in which some letters, or none, were made small. -/
def SmallLetters (written text : String) : Prop :=
  List.Forall₂ (fun c d => d = c ∨ d = c.toLower) written.toList text.toList

/-- Digits are made capitals again. -/
theorem SmallLetters.toUpper_eq {bytes : List UInt8} {text : String}
    (h : SmallLetters (Hex.encode .upper bytes) text) : text.toUpper = Hex.encode .upper bytes := by
  rw [Hex.toUpper_eq_encode_iff, Hex.Spells]
  rw [SmallLetters, Hex.encode, String.toList_ofList] at h
  have hdigits : ∀ c ∈ bytes.flatMap (Hex.digits .upper), ∃ n < 16, c = Hex.digit .upper n :=
    fun c hc => Hex.exists_of_mem_digits hc
  generalize bytes.flatMap (Hex.digits .upper) = ds at h hdigits ⊢
  generalize text.toList = cs at h ⊢
  induction h with
  | nil => rfl
  | @cons c d ds cs hletter _ ih =>
    rw [List.forall_mem_cons] at hdigits
    obtain ⟨⟨n, hn, rfl⟩, hrest⟩ := hdigits
    have hcapital : d.toUpper = Hex.digit .upper n := by
      rcases hletter with rfl | rfl
      · exact Hex.toUpper_digit .upper hn
      · rw [Hex.toLower_digit .upper hn, Hex.toUpper_digit .lower hn]
    rw [List.map_cons, hcapital, ih hrest]

/-! ### Bytes of texts -/

/-- The bytes of a key are read from their hexadecimal digits, in capitals or small letters. -/
theorem keyBytesOfHex_eq_ok_iff {text : String} {bytes : List UInt8} :
    keyBytesOfHex text = .ok bytes ↔ text.toUpper = Hex.encode .upper bytes := by
  rw [keyBytesOfHex, mapError_eq_ok_iff, Hex.decode_eq_ok_iff]

/-- The bytes of a key are read from the text that is written for them only. -/
theorem keyBytesOfBase64_eq_ok_iff {text : String} {bytes : List UInt8} :
    keyBytesOfBase64 text = .ok bytes ↔ text = Base64.encode bytes := by
  rw [keyBytesOfBase64, mapError_eq_ok_iff, Base64.decode_eq_ok_iff]

/-! ### Whose fault it is -/

/-- Whatever fails, fails as a fault of the key. -/
def BlamesKey {α : Type} (x : Except EnvelopeError α) : Prop :=
  ∀ cause, x = .error cause → cause.isKeyError = true

namespace BlamesKey

variable {ε α β : Type}

/-- If every step blames the key, so does going from one to the other. -/
theorem bind {x : Except EnvelopeError α} {f : α → Except EnvelopeError β} (hx : BlamesKey x)
    (hf : ∀ a, BlamesKey (f a)) : BlamesKey (x >>= f) := by
  cases x with
  | error below =>
    rw [error_bind]
    intro cause h
    cases h
    exact hx below rfl
  | ok a =>
    rw [ok_bind]
    exact hf a

/-- A failure that is restated as one of the key blames the key. -/
theorem mapError (x : Except ε α) {f : ε → EnvelopeError} (hf : ∀ below, (f below).isKeyError) :
    BlamesKey (x.mapError f) := by
  cases x with
  | error below =>
    intro cause h
    cases h
    exact hf below
  | ok a => exact nofun

/-- A condition on a key blames the key. -/
theorem dite {p : Prop} [Decidable p] (make : p → α) {cause : EnvelopeError}
    (hcause : cause.isKeyError) : BlamesKey (if h : p then .ok (make h) else .error cause) := by
  intro told h
  split at h <;> cases h
  exact hcause

end BlamesKey

/-- A text that is not hexadecimal is the fault of the key. -/
theorem blamesKey_keyBytesOfHex (text : String) : BlamesKey (keyBytesOfHex text) :=
  .mapError _ fun _ => rfl

/-- A text that is not base64 is the fault of the key. -/
theorem blamesKey_keyBytesOfBase64 (text : String) : BlamesKey (keyBytesOfBase64 text) :=
  .mapError _ fun _ => rfl

/-! ### Keys of texts -/

/-- A key that is made from some bytes only is read exactly if they are. -/
theorem bind_eq_ok_iff_of_forall {α : Type} {x : Except EnvelopeError (List UInt8)}
    {make : List UInt8 → Except EnvelopeError α} {key : α} {bytes : List UInt8}
    (hmake : ∀ s, make s = .ok key ↔ s = bytes) : (x >>= make) = .ok key ↔ x = .ok bytes := by
  cases x with
  | error cause => simp [error_bind]
  | ok s => rw [ok_bind, hmake, Except.ok.injEq]

namespace PublicKey

/-- A public key is made of its own bytes only. -/
theorem ofBytes_eq_ok_iff {key : PublicKey} (bytes : List UInt8) :
    ofBytes bytes = .ok key ↔ bytes = key.bytes := by
  constructor
  · intro h
    unfold ofBytes at h
    split at h <;> cases h
    rfl
  · rintro rfl
    exact ofBytes_bytes key

/-- Bytes that make no public key are the fault of the key. -/
theorem blamesKey_ofBytes (bytes : List UInt8) : BlamesKey (ofBytes bytes) := .dite _ rfl

variable {text : String} {key : PublicKey}

/-- A public key is read from its own hexadecimal text only, in capitals or small letters. -/
theorem ofHex_eq_ok_iff : ofHex text = .ok key ↔ text.toUpper = key.toHex := by
  rw [toHex, ← keyBytesOfHex_eq_ok_iff]
  exact bind_eq_ok_iff_of_forall ofBytes_eq_ok_iff

/-- A public key is read from the one text for its bytes only. -/
theorem ofBase64_eq_ok_iff : ofBase64 text = .ok key ↔ text = Base64.encode key.bytes := by
  rw [← keyBytesOfBase64_eq_ok_iff]
  exact bind_eq_ok_iff_of_forall ofBytes_eq_ok_iff

end PublicKey

namespace PrivateKey

/-- A private key is made of its own secret only. -/
theorem ofBytes_eq_ok_iff {key : PrivateKey} (bytes : List UInt8) :
    ofBytes bytes = .ok key ↔ bytes = key.secret := by
  constructor
  · intro h
    unfold ofBytes at h
    split at h <;> cases h
    rfl
  · rintro rfl
    exact dif_pos key.size_eq

/-- Bytes that make no private key are the fault of the key. -/
theorem blamesKey_ofBytes (bytes : List UInt8) : BlamesKey (ofBytes bytes) := .dite _ rfl

variable {text : String} {key : PrivateKey}

/-- A private key is read from its own hexadecimal text only, in capitals or small letters. -/
theorem ofHex_eq_ok_iff : ofHex text = .ok key ↔ text.toUpper = key.toHex := by
  rw [toHex, ← keyBytesOfHex_eq_ok_iff]
  exact bind_eq_ok_iff_of_forall ofBytes_eq_ok_iff

/-- A private key is read from its own text only. -/
theorem ofBase64_eq_ok_iff : ofBase64 text = .ok key ↔ text = key.toBase64 := by
  rw [toBase64, ← keyBytesOfBase64_eq_ok_iff]
  exact bind_eq_ok_iff_of_forall ofBytes_eq_ok_iff

/-- The base 64 text of a private key has 43 symbols and a pad. -/
theorem exists_toBase64_eq (key : PrivateKey) : ∃ symbols : List Char,
    key.toBase64.toList = symbols ++ ['='] ∧ symbols.length = 43 ∧ '=' ∉ symbols := by
  have hsize : key.secret.length = 32 := key.size_eq
  have hlength := Base64.length_symbols key.secret
  obtain ⟨ns, pads, hns, hsymbols, hpads⟩ := Base64.exists_symbols_eq key.secret
  rw [hsize] at hlength hpads
  rw [hpads] at hsymbols
  refine ⟨ns.map Base64.symbol, ?_, ?_, fun hmem => ?_⟩
  · rw [toBase64, Base64.encode, String.toList_ofList, hsymbols]
    rfl
  · rw [hsymbols, List.length_append, List.length_replicate] at hlength
    omega
  · obtain ⟨n, hn, hpad⟩ := List.mem_map.mp hmem
    exact Base64.symbol_ne_pad (hns n hn) hpad

end PrivateKey

/-- A key is read from the base 64 text that is written for it, which has 44 characters with one
pad, and from no other. It is read from a hexadecimal text exactly if this is what is written for it
once its letters are made capitals, so also after some of the letters that were written are made
small. A text that is refused blames the key. -/
theorem texts_of_keys_exact :
    (∀ key : PrivateKey, PrivateKey.ofBase64 key.toBase64 = .ok key ∧
      (∃ symbols : List Char,
        key.toBase64.toList = symbols ++ ['='] ∧ symbols.length = 43 ∧ '=' ∉ symbols) ∧
      ∀ text, SmallLetters key.toHex text → PrivateKey.ofHex text = .ok key) ∧
    (∀ (key : PublicKey) (text : String),
      SmallLetters key.toHex text → PublicKey.ofHex text = .ok key) ∧
    (∀ (text : String) (key : PrivateKey),
      (PrivateKey.ofBase64 text = .ok key ↔ text = key.toBase64) ∧
      (PrivateKey.ofHex text = .ok key ↔ text.toUpper = key.toHex)) ∧
    (∀ (text : String) (key : PublicKey),
      (PublicKey.ofBase64 text = .ok key ↔ text = Base64.encode key.bytes) ∧
      (PublicKey.ofHex text = .ok key ↔ text.toUpper = key.toHex)) ∧
    ∀ text : String, BlamesKey (PrivateKey.ofBase64 text) ∧ BlamesKey (PrivateKey.ofHex text) ∧
      BlamesKey (PublicKey.ofBase64 text) ∧ BlamesKey (PublicKey.ofHex text) := by
  refine ⟨fun key => ⟨?_, key.exists_toBase64_eq, fun text hsmall => ?_⟩, fun key text hsmall => ?_,
    fun text key => ⟨PrivateKey.ofBase64_eq_ok_iff, PrivateKey.ofHex_eq_ok_iff⟩,
    fun text key => ⟨PublicKey.ofBase64_eq_ok_iff, PublicKey.ofHex_eq_ok_iff⟩, fun text => ?_⟩
  · exact PrivateKey.ofBase64_eq_ok_iff.mpr rfl
  · exact PrivateKey.ofHex_eq_ok_iff.mpr hsmall.toUpper_eq
  · exact PublicKey.ofHex_eq_ok_iff.mpr hsmall.toUpper_eq
  · have hhex := blamesKey_keyBytesOfHex text
    have hbase64 := blamesKey_keyBytesOfBase64 text
    exact ⟨hbase64.bind PrivateKey.blamesKey_ofBytes, hhex.bind PrivateKey.blamesKey_ofBytes,
      hbase64.bind PublicKey.blamesKey_ofBytes, hhex.bind PublicKey.blamesKey_ofBytes⟩

/-- A key is read from its hexadecimal text with every other letter made small. A text of the right
length whose last symbol has a bit that stands for no byte is refused, and the key is to blame. -/
theorem texts_of_keys_exact_of_mixed :
    let key : PrivateKey := ⟨List.replicate 32 0xab, List.length_replicate⟩
    let mixed := String.ofList (List.replicate 32 ['a', 'B']).flatten
    let stray := String.ofList (List.replicate 42 'A' ++ ['B', '='])
    (SmallLetters key.toHex mixed ∧ PrivateKey.ofHex mixed = .ok key) ∧
    ∃ cause, PrivateKey.ofBase64 stray = .error cause ∧ cause.isKeyError = true := by
  intro key mixed stray
  obtain ⟨hwritten, -, -, -, hrefused⟩ := texts_of_keys_exact
  have hsmall : SmallLetters key.toHex mixed := by
    rw [SmallLetters, PrivateKey.toHex, Hex.encode, String.toList_ofList, String.toList_ofList]
    decide
  have hascii : ∀ c ∈ List.replicate 42 'A' ++ ['B', '='], c.utf8Size = 1 := by
    intro c hc
    rw [List.mem_append, List.mem_replicate, List.mem_pair] at hc
    rcases hc with ⟨-, rfl⟩ | rfl | rfl <;> rfl
  have hbytes : stray.toUTF8.toList = _ := toList_toUTF8_of_ascii hascii
  have herror : PrivateKey.ofBase64 stray = .error (.base64 (.invalidLastSymbol 66 42)) := by
    rw [PrivateKey.ofBase64, keyBytesOfBase64, Base64.decode, hbytes]
    rfl
  exact ⟨⟨hsmall, (hwritten key).2.2 mixed hsmall⟩, _, herror, (hrefused stray).1 _ herror⟩

end SplitTally
