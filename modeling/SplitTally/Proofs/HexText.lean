import Mathlib.Algebra.Group.Nat.Defs
import Mathlib.Tactic.IntervalCases
import SplitTally.Text.Hex

/-!
# Hexadecimal text is read back

The bytes of a text of one-byte characters are those characters, and a text is told by its bytes. A
text is read as a byte string exactly if it is the digits of the byte string once its small letters
are made capitals. There are two digits for each byte.
-/

namespace SplitTally

/-! ### The bytes of a text -/

private theorem toList_loop_eq (bs : ByteArray) (i : ℕ) (done : List UInt8) :
    ByteArray.toList.loop bs i done = done.reverse ++ bs.data.toList.drop i := by
  fun_induction ByteArray.toList.loop bs i done with
  | case1 i done h ih =>
    have hi : i < bs.data.toList.length := by simpa using h
    rw [ih, List.drop_eq_getElem_cons hi]
    simp [ByteArray.get!, h]
  | case2 i done h =>
    rw [List.drop_eq_nil_of_le (by simpa using h), List.append_nil]

private theorem toList_eq_data (bs : ByteArray) : bs.toList = bs.data.toList := by
  rw [ByteArray.toList, toList_loop_eq]
  rfl

/-- A text is told by its bytes. -/
theorem toList_toUTF8_inj {s t : String} : s.toUTF8.toList = t.toUTF8.toList ↔ s = t := by
  rw [toList_eq_data, toList_eq_data, Array.toList_inj, ← ByteArray.ext_iff]
  exact String.toByteArray_inj

/-- The bytes of a text are those of its characters, one after the other. -/
theorem toList_toUTF8_ofList (cs : List Char) :
    (String.ofList cs).toUTF8.toList = cs.flatMap String.utf8EncodeChar := by
  rw [String.toUTF8_eq_toByteArray, String.toByteArray_ofList, List.utf8Encode, toList_eq_data,
    List.data_toByteArray]

/-- A text of one-byte characters has a byte for each of them. -/
theorem toList_toUTF8_of_ascii {cs : List Char} (h : ∀ c ∈ cs, c.utf8Size = 1) :
    (String.ofList cs).toUTF8.toList = cs.map fun c => c.val.toUInt8 := by
  rw [toList_toUTF8_ofList]
  induction cs with
  | nil => rfl
  | cons c cs ih =>
    rw [List.forall_mem_cons] at h
    rw [List.flatMap_cons, String.utf8EncodeChar_eq_singleton h.1, ih h.2]
    rfl

namespace Hex

/-! ### Digits -/

/-- Every digit is one byte of the text. -/
theorem utf8Size_digit (letters : Case) {n : ℕ} (h : n < 16) : (digit letters n).utf8Size = 1 := by
  interval_cases n <;> cases letters <;> rfl

/-- A digit is read as the number that it is written for. -/
theorem value?_digit (letters : Case) {n : ℕ} (h : n < 16) :
    value? (digit letters n).val.toUInt8 = some n := by
  interval_cases n <;> cases letters <;> rfl

/-! ### Capitals -/

/-- The capital of a digit is the digit in capitals. -/
theorem toUpper_digit (letters : Case) {n : ℕ} (h : n < 16) :
    (digit letters n).toUpper = digit .upper n := by
  interval_cases n <;> cases letters <;> rfl

/-- The small letter of a digit is the digit in small letters. -/
theorem toLower_digit (letters : Case) {n : ℕ} (h : n < 16) :
    (digit letters n).toLower = digit .lower n := by
  interval_cases n <;> cases letters <;> rfl

/-- Small letters are made capitals, and all other characters are kept. -/
theorem toNat_toUpper (c : Char) :
    c.toUpper.toNat = if 97 ≤ c.toNat ∧ c.toNat ≤ 122 then c.toNat - 32 else c.toNat := by
  have hsmall : ('a'.val ≤ c.val ∧ c.val ≤ 'z'.val) ↔ 97 ≤ c.toNat ∧ c.toNat ≤ 122 := by
    rw [UInt32.le_iff_toNat_le, UInt32.le_iff_toNat_le]
    rfl
  unfold Char.toUpper
  by_cases h : 'a'.val ≤ c.val ∧ c.val ≤ 'z'.val
  · obtain ⟨hge, hle⟩ := hsmall.mp h
    have hshift : ('A'.val - 'a'.val).toNat = 2 ^ 32 - 32 := rfl
    have hsum : (c.val + ('A'.val - 'a'.val)).toNat = c.toNat - 32 := by
      change 97 ≤ c.val.toNat at hge
      change c.val.toNat ≤ 122 at hle
      change _ = c.val.toNat - 32
      rw [UInt32.toNat_add, hshift]
      omega
    rw [dif_pos h, if_pos ⟨hge, hle⟩]
    exact hsum
  · rw [dif_neg h, if_neg (mt hsmall.mpr h)]

private theorem toNat_digit (letters : Case) {n : ℕ} (h : n < 16) : (digit letters n).toNat =
    if n < 10 then 48 + n else match letters with
      | .lower => 87 + n
      | .upper => 55 + n := by
  interval_cases n <;> cases letters <;> rfl

/-- A character whose capital is a digit is this digit in one of the cases. -/
theorem exists_digit_of_toUpper {c : Char} {n : ℕ} (hn : n < 16) (h : c.toUpper = digit .upper n) :
    ∃ letters, c = digit letters n := by
  have hupper := congrArg Char.toNat h
  rw [toNat_toUpper, toNat_digit .upper hn] at hupper
  have hcases : c.toNat = (digit .upper n).toNat ∨ c.toNat = (digit .lower n).toNat := by
    rw [toNat_digit .upper hn, toNat_digit .lower hn]
    dsimp only at hupper ⊢
    split_ifs at hupper ⊢ <;> omega
  rcases hcases with hnat | hnat
  · exact ⟨.upper, Char.toNat_inj.mp hnat⟩
  · exact ⟨.lower, Char.toNat_inj.mp hnat⟩

/-- A byte that is read as a number is its digit in one of the cases. -/
theorem exists_digit_of_value? {b : UInt8} {n : ℕ} (h : value? b = some n) :
    n < 16 ∧ ∃ letters, b = (digit letters n).val.toUInt8 := by
  have hall : ∀ i : Fin 256, ∀ n ∈ value? (UInt8.ofNat i), n < 16 ∧
      (UInt8.ofNat i = (digit .lower n).val.toUInt8 ∨
        UInt8.ofNat i = (digit .upper n).val.toUInt8) := by
    decide +kernel
  have hb := hall ⟨b.toNat, b.toNat_lt⟩ n
  rw [UInt8.ofNat_toNat] at hb
  obtain ⟨hn, hlower | hupper⟩ := hb h
  · exact ⟨hn, .lower, hlower⟩
  · exact ⟨hn, .upper, hupper⟩

/-! ### Digits of a byte string -/

/-- Every character of a byte string is the digit of a number below sixteen. -/
theorem exists_of_mem_digits {letters : Case} {bytes : List UInt8} {c : Char}
    (h : c ∈ bytes.flatMap (digits letters)) : ∃ n < 16, c = digit letters n := by
  obtain ⟨b, -, hc⟩ := List.mem_flatMap.mp h
  have hb := b.toNat_lt
  rcases List.mem_cons.mp hc with rfl | hc
  · exact ⟨_, by omega, rfl⟩
  · exact ⟨_, by omega, List.mem_singleton.mp hc⟩

/-- A byte has two digits. -/
theorem length_flatMap_digits (letters : Case) (bytes : List UInt8) :
    (bytes.flatMap (digits letters)).length = 2 * bytes.length := by
  induction bytes with
  | nil => rfl
  | cons b bytes ih =>
    rw [List.flatMap_cons, List.length_append, ih]
    simp only [digits, List.length_cons, List.length_nil]
    omega

/-- The characters are the digits of the bytes, each letter among them in one of the cases. -/
def Spells (cs : List Char) (bytes : List UInt8) : Prop :=
  cs.map Char.toUpper = bytes.flatMap (digits .upper)

/-- A spelling begins with two digits of the first byte, each in letters of its own. -/
theorem spells_cons_iff {cs : List Char} {b : UInt8} {bytes : List UInt8} :
    Spells cs (b :: bytes) ↔ ∃ high low rest, cs = digit high (b.toNat / 16) ::
      digit low (b.toNat % 16) :: rest ∧ Spells rest bytes := by
  have hb := b.toNat_lt
  constructor
  · intro h
    obtain ⟨c, cs, rfl, hc, htail⟩ := List.map_eq_cons_iff.mp h
    obtain ⟨d, rest, rfl, hd, hrest⟩ := List.map_eq_cons_iff.mp htail
    obtain ⟨high, rfl⟩ := exists_digit_of_toUpper (by omega) hc
    obtain ⟨low, rfl⟩ := exists_digit_of_toUpper (by omega) hd
    exact ⟨high, low, rest, rfl, hrest⟩
  · rintro ⟨high, low, rest, rfl, h⟩
    rw [Spells, List.map_cons, List.map_cons, toUpper_digit high (by omega),
      toUpper_digit low (by omega), h]
    rfl

/-- The digits of bytes spell them. -/
theorem spells_digits (letters : Case) (bytes : List UInt8) :
    Spells (bytes.flatMap (digits letters)) bytes := by
  induction bytes with
  | nil => rfl
  | cons b bytes ih => exact spells_cons_iff.mpr ⟨letters, letters, _, rfl, ih⟩

namespace Spells

variable {cs : List Char} {bytes : List UInt8}

/-- Every character of a spelling is one byte of the text. -/
theorem utf8Size_eq_one (h : Spells cs bytes) : ∀ c ∈ cs, c.utf8Size = 1 := by
  induction bytes generalizing cs with
  | nil =>
    rw [List.map_eq_nil_iff.mp h]
    simp
  | cons b bytes ih =>
    obtain ⟨high, low, rest, rfl, hrest⟩ := spells_cons_iff.mp h
    have hb := b.toNat_lt
    rw [List.forall_mem_cons, List.forall_mem_cons]
    exact ⟨utf8Size_digit high (by omega), utf8Size_digit low (by omega), ih hrest⟩

/-- A spelling has two characters for each byte. -/
theorem length_eq (h : Spells cs bytes) : cs.length = 2 * bytes.length := by
  rw [← length_flatMap_digits .upper, ← h, List.length_map]

/-- Digits of bytes are read behind what was read before. -/
theorem decodeFrom_eq (h : Spells cs bytes) (done : List UInt8) (position : ℕ) :
    decodeFrom done position (cs.map fun c => c.val.toUInt8) = .ok (done.reverse ++ bytes) := by
  induction bytes generalizing cs done position with
  | nil =>
    rw [List.map_eq_nil_iff.mp h]
    simp [decodeFrom]
  | cons b bytes ih =>
    obtain ⟨high, low, rest, rfl, hrest⟩ := spells_cons_iff.mp h
    have hb := b.toNat_lt
    have hbyte : (16 * (b.toNat / 16) + b.toNat % 16).toUInt8 = b := by
      rw [Nat.div_add_mod]
      exact UInt8.ofNat_toNat
    rw [List.map_cons, List.map_cons, decodeFrom, value?_digit high (by omega),
      value?_digit low (by omega)]
    simp only [hbyte, ih hrest, List.reverse_cons, List.append_assoc, List.singleton_append]

end Spells

/-- Only digits of bytes are read. -/
theorem exists_spells_of_decodeFrom {done result text : List UInt8} {position : ℕ}
    (heven : text.length % 2 = 0) (h : decodeFrom done position text = .ok result) :
    ∃ cs bytes, text = cs.map (fun c => c.val.toUInt8) ∧ result = done.reverse ++ bytes ∧
      Spells cs bytes := by
  fun_induction decodeFrom done position text with
  | case1 done position _ _ rest m n hlow hhigh ih =>
    have hrest : rest.length % 2 = 0 := by
      simp only [List.length_cons] at heven
      omega
    obtain ⟨cs, bytes, rfl, rfl, hspells⟩ := ih hrest h
    obtain ⟨hm, high, rfl⟩ := exists_digit_of_value? hhigh
    obtain ⟨hn, low, rfl⟩ := exists_digit_of_value? hlow
    have hbyte : (16 * m + n).toUInt8.toNat = 16 * m + n := by
      rw [Nat.toUInt8_eq, UInt8.toNat_ofNat']
      omega
    have hfirst : (16 * m + n).toUInt8.toNat / 16 = m := by omega
    have hsecond : (16 * m + n).toUInt8.toNat % 16 = n := by omega
    refine ⟨digit high m :: digit low n :: cs, (16 * m + n).toUInt8 :: bytes, rfl, by simp, ?_⟩
    exact spells_cons_iff.mpr ⟨high, low, cs, by rw [hfirst, hsecond], hspells⟩
  | case2 => cases h
  | case3 => cases h
  | case4 text done position hshort =>
    have hnil : text = [] := by
      match text with
      | [] => rfl
      | [_] => simp at heven
      | a :: b :: rest => exact absurd rfl (hshort a b rest)
    cases h
    exact ⟨[], [], by rw [hnil, List.map_nil], by simp, rfl⟩

/-- A text spells bytes if its capitals are the digits of these in capitals. -/
theorem toUpper_eq_encode_iff {text : String} {bytes : List UInt8} :
    text.toUpper = encode .upper bytes ↔ Spells text.toList bytes := by
  rw [← String.toList_inj, encode, String.toList_ofList, String.toUpper, String.toList_map, Spells]

/-- A text is read as the bytes whose digits it is made up of, in capitals or small letters. -/
theorem decode_eq_ok_iff {text : String} {bytes : List UInt8} :
    decode text = .ok bytes ↔ text.toUpper = encode .upper bytes := by
  rw [toUpper_eq_encode_iff, decode, decodeBytes]
  constructor
  · intro h
    by_cases heven : text.toUTF8.toList.length % 2 = 0
    · rw [if_pos heven] at h
      obtain ⟨cs, bytes', htext, rfl, hspells⟩ := exists_spells_of_decodeFrom heven h
      rw [← toList_toUTF8_of_ascii hspells.utf8Size_eq_one, toList_toUTF8_inj] at htext
      rw [htext, String.toList_ofList]
      exact hspells
    · rw [if_neg heven] at h
      cases h
  · intro h
    have hbytes := toList_toUTF8_of_ascii h.utf8Size_eq_one
    have heven : text.toList.length % 2 = 0 := by
      rw [h.length_eq, Nat.mul_mod_right]
    rw [String.ofList_toList] at hbytes
    rw [hbytes, List.length_map, if_pos heven, h.decodeFrom_eq]
    rfl

/-- A byte string is read back from its digits. -/
theorem decode_encode (letters : Case) (bytes : List UInt8) :
    decode (encode letters bytes) = .ok bytes := by
  rw [decode_eq_ok_iff, toUpper_eq_encode_iff, encode, String.toList_ofList]
  exact spells_digits letters bytes

end Hex

end SplitTally
