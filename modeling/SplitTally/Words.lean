/-!
# Words as bytes

The byte forms of fixed-width words: least significant byte first for residues, most significant
byte first for lengths, counts and the words of the hash and the cipher.
-/

namespace SplitTally.Words

/-- The 32-bit word of four bytes, least significant first. -/
def ofLE32 (a b c d : UInt8) : UInt32 :=
  a.toUInt32 + b.toUInt32 * 0x100 + c.toUInt32 * 0x10000 + d.toUInt32 * 0x1000000

/-- The four bytes of a 32-bit word, least significant first. -/
def toLE32 (w : UInt32) : List UInt8 :=
  [w.toUInt8, (w >>> 8).toUInt8, (w >>> 16).toUInt8, (w >>> 24).toUInt8]

/-- The 32-bit word of four bytes, most significant first. -/
def ofBE32 (a b c d : UInt8) : UInt32 := ofLE32 d c b a

/-- The four bytes of a 32-bit word, most significant first. -/
def toBE32 (w : UInt32) : List UInt8 :=
  [(w >>> 24).toUInt8, (w >>> 16).toUInt8, (w >>> 8).toUInt8, w.toUInt8]

/-- The 16-bit word of two bytes, most significant first. -/
def ofBE16 (a b : UInt8) : UInt16 := a.toUInt16 * 0x100 + b.toUInt16

/-- The two bytes of a 16-bit word, most significant first. -/
def toBE16 (w : UInt16) : List UInt8 := [(w >>> 8).toUInt8, w.toUInt8]

/-- The number of a word from its bytes, the lowest one first. -/
theorem toNat_ofLE32 (a b c d : UInt8) :
    (ofLE32 a b c d).toNat =
      a.toNat + b.toNat * 0x100 + c.toNat * 0x10000 + d.toNat * 0x1000000 := by
  have := a.toNat_lt
  have := b.toNat_lt
  have := c.toNat_lt
  have := d.toNat_lt
  simp [ofLE32]
  omega

/-- The number of a word from its bytes, the highest one first. -/
theorem toNat_ofBE16 (a b : UInt8) : (ofBE16 a b).toNat = a.toNat * 0x100 + b.toNat := by
  have := a.toNat_lt
  have := b.toNat_lt
  simp [ofBE16]
  omega

/-- A word is read back from its four bytes. -/
theorem ofLE32_bytes (w : UInt32) :
    ofLE32 w.toUInt8 (w >>> 8).toUInt8 (w >>> 16).toUInt8 (w >>> 24).toUInt8 = w := by
  have := w.toNat_lt
  apply UInt32.toNat_inj.1
  simp [toNat_ofLE32, Nat.shiftRight_eq_div_pow]
  omega

/-- A word of 32 bits is read back from its bytes. -/
theorem ofBE32_bytes (w : UInt32) :
    ofBE32 (w >>> 24).toUInt8 (w >>> 16).toUInt8 (w >>> 8).toUInt8 w.toUInt8 = w :=
  ofLE32_bytes w

/-- A word of 16 bits is read back from its bytes. -/
theorem ofBE16_bytes (w : UInt16) : ofBE16 (w >>> 8).toUInt8 w.toUInt8 = w := by
  have := w.toNat_lt
  apply UInt16.toNat_inj.1
  simp [toNat_ofBE16, Nat.shiftRight_eq_div_pow]
  omega

end SplitTally.Words
