import Mathlib.Algebra.Group.Nat.Defs
import Mathlib.Tactic.Common
import SplitTally.Bundle

/-!
# What decoders accept

A decoder is exact for a written form when it accepts precisely the written forms of values, in
front of any further bytes, which it leaves. Words, byte strings, sequences of items and servers
have exact decoders for what their encoders write, so the decoder of bundles is exact too, up to the
one thing that the encoder of bundles does not look at: that the proof has the length which the
slots demand.
-/

namespace SplitTally

namespace Words

/-- The bytes of a word are those that it was made of. -/
theorem toLE32_ofLE32 (a b c d : UInt8) : toLE32 (ofLE32 a b c d) = [a, b, c, d] := by
  have := a.toNat_lt
  have := b.toNat_lt
  have := c.toNat_lt
  have := d.toNat_lt
  simp only [toLE32, List.cons.injEq, and_true, ← UInt8.toNat_inj, UInt32.toNat_toUInt8,
    UInt32.toNat_shiftRight, toNat_ofLE32, Nat.shiftRight_eq_div_pow]
  simp
  omega

/-- A word of 32 bits is written back to its bytes. -/
theorem toBE32_ofBE32 (a b c d : UInt8) : toBE32 (ofBE32 a b c d) = [a, b, c, d] := by
  have h := toLE32_ofLE32 d c b a
  simp only [toLE32, List.cons.injEq] at h
  obtain ⟨hd, hc, hb, ha, -⟩ := h
  simp only [toBE32, ofBE32, hd, hc, hb, ha]

/-- A word of 16 bits is written back to its bytes. -/
theorem toBE16_ofBE16 (a b : UInt8) : toBE16 (ofBE16 a b) = [a, b] := by
  have := a.toNat_lt
  have := b.toNat_lt
  simp only [toBE16, List.cons.injEq, and_true, ← UInt8.toNat_inj, UInt16.toNat_toUInt8,
    UInt16.toNat_shiftRight, toNat_ofBE16, Nat.shiftRight_eq_div_pow]
  simp
  omega

end Words

namespace Wire

variable {α β : Type} {input rest : List UInt8}

/-- A decoder that goes on succeeds if both do, one behind the other. -/
theorem bind_eq_ok_iff {decoder : Decoder α} {f : α → Decoder β} {y : β} :
    (decoder >>= f) input = .ok (y, rest) ↔
      ∃ x mid, decoder input = .ok (x, mid) ∧ f x mid = .ok (y, rest) := by
  change (decoder input >>= fun p => f p.1 p.2) = .ok (y, rest) ↔ _
  cases h : decoder input with
  | error cause =>
    constructor
    · intro hbind
      cases hbind
    · rintro ⟨x, mid, hx, -⟩
      cases hx
  | ok p =>
    constructor
    · intro hbind
      exact ⟨p.1, p.2, rfl, hbind⟩
    · rintro ⟨x, mid, hx, hy⟩
      cases hx
      exact hy

/-- A value that is there takes no bytes. -/
theorem pure_eq_ok_iff {x y : α} :
    (pure x : Decoder α) input = .ok (y, rest) ↔ x = y ∧ input = rest := by
  change Except.ok (x, input) = .ok (y, rest) ↔ _
  simp

/-- A failure reads nothing. -/
theorem throw_ne_ok {cause : WireError} {p : α × List UInt8} :
    (throw cause : Decoder α) input ≠ .ok p := by
  change Except.error cause ≠ .ok p
  simp

/-- Looking at the input takes no bytes. -/
theorem get_eq_ok_iff {seen : List UInt8} :
    (get : Decoder (List UInt8)) input = .ok (seen, rest) ↔ input = seen ∧ input = rest := by
  change Except.ok (input, input) = .ok (seen, rest) ↔ _
  simp

/-- A decoder goes on only if the condition for refusing its input is not met. -/
theorem guard_eq_ok_iff {p : Prop} [Decidable p] {cause : WireError} {f : β → Decoder α}
    {decoder : Decoder α} {x : α} :
    (if p then throw cause >>= f else decoder) input = .ok (x, rest) ↔
      ¬ p ∧ decoder input = .ok (x, rest) := by
  by_cases hp : p
  · simp [hp, bind_eq_ok_iff, throw_ne_ok]
  · simp [hp]

/-- A text is read as a whole if nothing is left of it. -/
theorem whole_eq_ok_iff {decoder : Decoder α} {x : α} :
    whole decoder input = .ok x ↔ decoder input = .ok (x, []) := by
  unfold whole
  cases h : decoder input with
  | error cause =>
    constructor <;> intro hread <;> cases hread
  | ok p =>
    obtain ⟨y, left⟩ := p
    cases left with
    | nil =>
      change Except.ok y = .ok x ↔ _
      simp
    | cons byte left =>
      constructor <;> intro hread <;> cases hread

/-- A decoder accepts just the written forms of values, whatever follows them. -/
def Exact (decoder : Decoder α) (written : α → List UInt8 → Prop) : Prop :=
  ∀ input x rest, decoder input = .ok (x, rest) ↔ ∃ s, written x s ∧ input = s ++ rest

/-- The whole input is read as a value exactly when it is the written form of the value. -/
theorem Exact.whole_eq_ok_iff {decoder : Decoder α} {written : α → List UInt8 → Prop}
    (h : Exact decoder written) {x : α} : whole decoder input = .ok x ↔ written x input := by
  rw [Wire.whole_eq_ok_iff, h]
  simp

/-! ### Words and byte strings -/

/-- A byte is read as itself. -/
theorem exact_byte : Exact byte fun b s => s = [b] := by
  intro input b rest
  cases input with
  | nil => simp [byte]
  | cons a input => simp [byte, eq_comm]

/-- A word of 16 bits is read from its two bytes only. -/
theorem exact_word16 : Exact word16 fun w s => s = Words.toBE16 w := by
  intro input w rest
  constructor
  · intro hread
    match input with
    | a :: b :: input =>
      cases hread
      exact ⟨_, rfl, by rw [Words.toBE16_ofBE16]; rfl⟩
  · rintro ⟨s, rfl, rfl⟩
    change Except.ok (Words.ofBE16 _ _, rest) = _
    rw [Words.ofBE16_bytes]

/-- A word of 32 bits is read from its four bytes only. -/
theorem exact_word32 : Exact word32 fun w s => s = Words.toBE32 w := by
  intro input w rest
  constructor
  · intro hread
    match input with
    | a :: b :: c :: d :: input =>
      cases hread
      exact ⟨_, rfl, by rw [Words.toBE32_ofBE32]; rfl⟩
  · rintro ⟨s, rfl, rfl⟩
    change Except.ok (Words.ofBE32 _ _ _ _, rest) = _
    rw [Words.ofBE32_bytes]

/-- The next `n` bytes are any byte string of this length. -/
theorem exact_bytes (n : ℕ) : Exact (bytes n) fun t s => s.length = n ∧ s = t := by
  intro input t rest
  simp only [bytes]
  constructor
  · intro hread
    split at hread
    · next hlength =>
      cases hread
      exact ⟨_, ⟨hlength, rfl⟩, (List.take_append_drop n input).symm⟩
    · cases hread
  · rintro ⟨s, ⟨rfl, rfl⟩, rfl⟩
    simp

/-- A number below the range of a word is kept by it. -/
theorem toNat_toUInt16_of_lt {n : ℕ} (h : n < 0x10000) : n.toUInt16.toNat = n := by
  simp only [Nat.toUInt16_eq, UInt16.toNat_ofNat']
  exact Nat.mod_eq_of_lt h

/-- An opaque string is written behind its length, which must fit in 16 bits. -/
theorem encodeOpaque_eq_ok_iff {t s : List UInt8} :
    encodeOpaque t = .ok s ↔ t.length < 0x10000 ∧ s = Words.toBE16 t.length.toUInt16 ++ t := by
  simp only [encodeOpaque]
  split <;> simp [*, eq_comm]

/-- A byte string is read behind its length. -/
theorem exact_opaqueBytes : Exact opaqueBytes fun t s => encodeOpaque t = .ok s := by
  intro input t rest
  unfold opaqueBytes
  rw [bind_eq_ok_iff]
  constructor
  · rintro ⟨length, mid, hlength, hbytes⟩
    obtain ⟨-, rfl, rfl⟩ := (exact_word16 _ _ _).mp hlength
    obtain ⟨_, ⟨hsize, rfl⟩, rfl⟩ := (exact_bytes _ _ _ _).mp hbytes
    refine ⟨_, encodeOpaque_eq_ok_iff.mpr ⟨?_, rfl⟩, ?_⟩
    · rw [hsize]
      exact length.toNat_lt
    · simp [hsize]
  · rintro ⟨s, hs, rfl⟩
    obtain ⟨hshort, rfl⟩ := encodeOpaque_eq_ok_iff.mp hs
    have hlength := toNat_toUInt16_of_lt hshort
    refine ⟨t.length.toUInt16, t ++ rest, ?_, ?_⟩
    · exact (exact_word16 _ _ _).mpr ⟨_, rfl, List.append_assoc _ _ _⟩
    · exact (exact_bytes _ _ _ _).mpr ⟨t, ⟨hlength.symm, rfl⟩, rfl⟩

/-! ### Residues and items -/

/-- A residue is read from the bytes it is written to, and from no others. -/
theorem readResidue_eq_ok_iff {a : Residue} :
    readResidue input = .ok (a, rest) ↔ input = encodeResidue a ++ rest := by
  constructor
  · intro hread
    match input with
    | b₀ :: b₁ :: b₂ :: b₃ :: input =>
      simp only [readResidue] at hread
      by_cases hlt : (Words.ofLE32 b₀ b₁ b₂ b₃).toNat < modulus
      · rw [dif_pos hlt] at hread
        cases hread
        rw [encodeResidue, Words.toLE32_ofLE32]
        rfl
      · rw [dif_neg hlt] at hread
        cases hread
  · rintro rfl
    have hword := Words.ofLE32_bytes a.val
    rw [encodeResidue, Words.toLE32, List.cons_append, List.cons_append, List.cons_append,
      List.cons_append, List.nil_append, readResidue]
    simp only [hword, a.val_lt, dif_pos]

private theorem residue_eq_ok_iff {p : Residue × List UInt8} :
    residue input = .ok p ↔ readResidue input = .ok p := by
  unfold residue
  cases readResidue input with
  | ok r => simp
  | error cause => cases cause <;> simp

/-- A residue is decoded from the bytes it is written to, and from no others. -/
theorem exact_residue : Exact residue fun a s => s = encodeResidue a := by
  intro input a rest
  rw [residue_eq_ok_iff, readResidue_eq_ok_iff]
  simp

section Items

variable {item : Decoder α} {encode : α → List UInt8}

/-- The first of some items is read in front of the others. -/
theorem itemsOnto_succ (item : Decoder α) (n : ℕ) (done : List α) :
    itemsOnto item (n + 1) done = item >>= fun x => itemsOnto item n (x :: done) := by
  funext input
  rw [itemsOnto]
  change _ = (item input >>= _)
  beta_reduce
  cases item input <;> rfl

/-- So many items are read one after the other, behind those already read. -/
private theorem itemsOnto_eq_ok_iff (hitem : Exact item fun x s => s = encode x) {n : ℕ}
    {done ys : List α} :
    itemsOnto item n done input = .ok (ys, rest) ↔
      ∃ xs, xs.length = n ∧ ys = done.reverse ++ xs ∧ input = xs.flatMap encode ++ rest := by
  induction n generalizing done input with
  | zero =>
    change Except.ok (done.reverse, input) = .ok (ys, rest) ↔ _
    constructor
    · intro hread
      cases hread
      exact ⟨[], rfl, by simp, rfl⟩
    · rintro ⟨xs, hxs, rfl, rfl⟩
      obtain rfl := List.length_eq_zero_iff.mp hxs
      simp
  | succ n ih =>
    constructor
    · intro hread
      simp only [itemsOnto] at hread
      cases hfirst : item input with
      | error cause =>
        rw [hfirst] at hread
        cases hread
      | ok p =>
        obtain ⟨x, mid⟩ := p
        rw [hfirst] at hread
        obtain ⟨-, rfl, rfl⟩ := (hitem _ _ _).mp hfirst
        obtain ⟨xs, hxs, rfl, rfl⟩ := ih.mp hread
        exact ⟨x :: xs, by simp [hxs], by simp, by simp⟩
    · rintro ⟨xs, hxs, rfl, rfl⟩
      obtain ⟨x, xs, rfl⟩ := List.exists_cons_of_length_eq_add_one hxs
      have hfirst : item ((x :: xs).flatMap encode ++ rest) =
          .ok (x, xs.flatMap encode ++ rest) :=
        (hitem _ _ _).mpr ⟨_, rfl, by simp⟩
      simp only [itemsOnto, hfirst]
      exact ih.mpr ⟨xs, by simpa using hxs, by simp, rfl⟩

/-- A count is written if it fits in 32 bits. -/
theorem encodeCount_eq_ok_iff {count : ℕ} {s : List UInt8} :
    encodeCount count = .ok s ↔ count < 0x100000000 ∧ s = Words.toBE32 count.toUInt32 := by
  simp only [encodeCount]
  split <;> simp [*, eq_comm]

/-- Items are written behind their count, which must fit in 32 bits. -/
theorem encodeItems_eq_ok_iff {xs : List α} {s : List UInt8} :
    encodeItems encode xs = .ok s ↔
      xs.length < 0x100000000 ∧ s = Words.toBE32 xs.length.toUInt32 ++ xs.flatMap encode := by
  unfold encodeItems
  cases h : encodeCount xs.length with
  | error cause =>
    have hlong : ¬ xs.length < 0x100000000 := by
      intro hshort
      have hok := encodeCount_eq_ok_iff.mpr ⟨hshort, rfl⟩
      rw [h] at hok
      cases hok
    constructor
    · intro hs
      cases hs
    · rintro ⟨hshort, -⟩
      exact absurd hshort hlong
  | ok count =>
    obtain ⟨hshort, rfl⟩ := encodeCount_eq_ok_iff.mp h
    change Except.ok _ = Except.ok s ↔ _
    simp [hshort, eq_comm]

/-- A number below the range of a word is kept by it. -/
theorem toNat_toUInt32_of_lt {n : ℕ} (h : n < 0x100000000) : n.toUInt32.toNat = n := by
  simp only [Nat.toUInt32_eq, UInt32.toNat_ofNat']
  exact Nat.mod_eq_of_lt h

/-- Items are read behind their count, if none of them is shorter than the announced minimum. -/
theorem exact_items (hitem : Exact item fun x s => s = encode x) {least : ℕ}
    (hleast : ∀ x, least ≤ (encode x).length) :
    Exact (items least item) fun xs s => encodeItems encode xs = .ok s := by
  intro input xs rest
  have hsize (ys : List α) : ys.length * least ≤ (ys.flatMap encode).length := by
    induction ys with
    | nil => simp
    | cons y ys ih =>
      have := hleast y
      rw [List.length_cons, List.flatMap_cons, List.length_append, Nat.succ_mul]
      omega
  unfold items
  simp only [bind_eq_ok_iff, get_eq_ok_iff, guard_eq_ok_iff]
  constructor
  · rintro ⟨count, mid, hcount, _, _, ⟨rfl, rfl⟩, -, hitems⟩
    obtain ⟨-, rfl, rfl⟩ := (exact_word32 _ _ _).mp hcount
    obtain ⟨ys, hys, hxs, rfl⟩ := (itemsOnto_eq_ok_iff hitem).mp hitems
    obtain rfl : xs = ys := hxs
    refine ⟨_, encodeItems_eq_ok_iff.mpr ⟨?_, rfl⟩, ?_⟩
    · rw [hys]
      exact count.toNat_lt
    · simp [hys]
  · rintro ⟨s, hs, rfl⟩
    obtain ⟨hshort, rfl⟩ := encodeItems_eq_ok_iff.mp hs
    refine ⟨xs.length.toUInt32, xs.flatMap encode ++ rest, ?_, _, _, ⟨rfl, rfl⟩, ?_, ?_⟩
    · exact (exact_word32 _ _ _).mpr ⟨_, rfl, List.append_assoc _ _ _⟩
    · rw [toNat_toUInt32_of_lt hshort, List.length_append]
      have := hsize xs
      omega
    · rw [toNat_toUInt32_of_lt hshort]
      exact (itemsOnto_eq_ok_iff hitem).mpr ⟨xs, rfl, by simp, rfl⟩

end Items

/-- A residue is written to four bytes. -/
theorem length_encodeResidue (a : Residue) : (encodeResidue a).length = 4 := rfl

/-- A sequence of residues is read behind its count. -/
theorem exact_residues :
    Exact (items Bundle.residueSize residue) fun xs s => encodeItems encodeResidue xs = .ok s :=
  exact_items exact_residue fun a => Nat.le_of_eq (length_encodeResidue a).symm

end Wire

/-- A server is read from its own byte only. -/
theorem Server.exact_decode : Wire.Exact Server.decode fun server s => s = server.encode := by
  intro input server rest
  unfold Server.decode
  rw [Wire.bind_eq_ok_iff]
  constructor
  · rintro ⟨b, mid, hb, hserver⟩
    obtain ⟨-, rfl, rfl⟩ := (Wire.exact_byte _ _ _).mp hb
    split at hserver
    · obtain ⟨rfl, rfl⟩ := Wire.pure_eq_ok_iff.mp hserver
      exact ⟨_, rfl, rfl⟩
    · obtain ⟨rfl, rfl⟩ := Wire.pure_eq_ok_iff.mp hserver
      exact ⟨_, rfl, rfl⟩
    · exact absurd hserver Wire.throw_ne_ok
  · rintro ⟨s, rfl, rfl⟩
    cases server with
    | a => exact ⟨0, rest, rfl, rfl⟩
    | b => exact ⟨1, rest, rfl, rfl⟩

namespace Bundle

/-- The bytes of a bundle are written field by field, and each field that has a length can hold
it. -/
theorem encode_eq_ok_iff {bundle : Bundle} {s : List UInt8} :
    bundle.encode = .ok s ↔ ∃ batch dimension data proof,
      Wire.encodeOpaque bundle.batch = .ok batch ∧
      Wire.encodeCount bundle.data.length = .ok dimension ∧
      Wire.encodeItems Wire.encodeResidue bundle.data = .ok data ∧
      Wire.encodeItems Wire.encodeResidue bundle.proof = .ok proof ∧
      s = batch ++ (bundle.server.encode ++ (dimension ++ (data ++ proof))) := by
  unfold encode
  cases Wire.encodeOpaque bundle.batch <;> cases Wire.encodeCount bundle.data.length <;>
    cases Wire.encodeItems Wire.encodeResidue bundle.data <;>
    cases Wire.encodeItems Wire.encodeResidue bundle.proof <;>
    simp [bind, Except.bind, pure, Except.pure, eq_comm]

/-- The decoder of bundles accepts what the encoder writes for bundles whose proof has the length
that the slots demand. -/
theorem exact_decode : Wire.Exact decode fun bundle s =>
    bundle.encode = .ok s ∧ bundle.proof.length = BitProof.flatSize bundle.data.length := by
  intro input bundle rest
  unfold decode
  simp only [Wire.bind_eq_ok_iff, Wire.guard_eq_ok_iff, Wire.pure_eq_ok_iff]
  constructor
  · rintro ⟨batch, _, hbatch, server, _, hserver, dimension, _, hdimension, data, _, hdata,
      hlength, proof, _, hproof, hflat, rfl, rfl⟩
    obtain ⟨_, hbatch', rfl⟩ := (Wire.exact_opaqueBytes _ _ _).mp hbatch
    obtain ⟨_, rfl, rfl⟩ := (Server.exact_decode _ _ _).mp hserver
    obtain ⟨_, rfl, rfl⟩ := (Wire.exact_word32 _ _ _).mp hdimension
    obtain ⟨_, hdata', rfl⟩ := (Wire.exact_residues _ _ _).mp hdata
    obtain ⟨_, hproof', rfl⟩ := (Wire.exact_residues _ _ _).mp hproof
    have hcounted : data.length = dimension.toNat := not_not.mp hlength
    have hcount : Wire.encodeCount data.length = .ok (Words.toBE32 dimension) := by
      refine Wire.encodeCount_eq_ok_iff.mpr ⟨?_, ?_⟩
      · rw [hcounted]
        exact dimension.toNat_lt
      · simp [hcounted]
    refine ⟨_, ⟨encode_eq_ok_iff.mpr ⟨_, _, _, _, hbatch', hcount, hdata', hproof', rfl⟩, ?_⟩, ?_⟩
    · rw [hcounted]
      exact not_not.mp hflat
    · simp only [List.append_assoc]
  · rintro ⟨s, ⟨hs, hflat⟩, rfl⟩
    obtain ⟨batch, dimension, data, proof, hbatch, hcount, hdata, hproof, rfl⟩ :=
      encode_eq_ok_iff.mp hs
    obtain ⟨hshort, rfl⟩ := Wire.encodeCount_eq_ok_iff.mp hcount
    have hdimension := Wire.toNat_toUInt32_of_lt hshort
    simp only [List.append_assoc]
    refine ⟨bundle.batch, _, (Wire.exact_opaqueBytes _ _ _).mpr ⟨_, hbatch, rfl⟩,
      bundle.server, _, (Server.exact_decode _ _ _).mpr ⟨_, rfl, rfl⟩,
      bundle.data.length.toUInt32, _, (Wire.exact_word32 _ _ _).mpr ⟨_, rfl, rfl⟩,
      bundle.data, _, (Wire.exact_residues _ _ _).mpr ⟨_, hdata, rfl⟩, ?_,
      bundle.proof, _, (Wire.exact_residues _ _ _).mpr ⟨_, hproof, rfl⟩, ?_, rfl, rfl⟩
    · exact not_not.mpr hdimension.symm
    · rw [hdimension]
      exact not_not.mpr hflat

/-- A bundle with a batch that fits its length, and slots and a proof that fit their counts, can be
written. -/
theorem exists_encode_eq_ok {bundle : Bundle} (hbatch : bundle.batch.length < 0x10000)
    (hdata : bundle.data.length < 0x100000000) (hproof : bundle.proof.length < 0x100000000) :
    ∃ s, bundle.encode = .ok s := by
  have hbatch' : Wire.encodeOpaque bundle.batch = .ok _ :=
    Wire.encodeOpaque_eq_ok_iff.mpr ⟨hbatch, rfl⟩
  have hcount : Wire.encodeCount bundle.data.length = .ok _ :=
    Wire.encodeCount_eq_ok_iff.mpr ⟨hdata, rfl⟩
  have hdata' : Wire.encodeItems Wire.encodeResidue bundle.data = .ok _ :=
    Wire.encodeItems_eq_ok_iff.mpr ⟨hdata, rfl⟩
  have hproof' : Wire.encodeItems Wire.encodeResidue bundle.proof = .ok _ :=
    Wire.encodeItems_eq_ok_iff.mpr ⟨hproof, rfl⟩
  exact ⟨_, encode_eq_ok_iff.mpr ⟨_, _, _, _, hbatch', hcount, hdata', hproof', rfl⟩⟩

/-- A byte string is read as a bundle exactly when it is what the encoder writes for the bundle and
the proof has the length that the slots demand. So no bundle is read from two byte strings, and
every bundle whose parts fit their lengths is read back. -/
theorem whole_decode_eq_ok_iff :
    (∀ (s : List UInt8) (bundle : Bundle), Wire.whole decode s = .ok bundle ↔
      bundle.encode = .ok s ∧ bundle.proof.length = BitProof.flatSize bundle.data.length) ∧
    (∀ (s t : List UInt8) (bundle : Bundle), Wire.whole decode s = .ok bundle →
      Wire.whole decode t = .ok bundle → s = t) ∧
    (∀ bundle : Bundle, bundle.batch.length ≤ 65535 → bundle.data.length < 2 ^ 32 →
      bundle.proof.length < 2 ^ 32 →
      bundle.proof.length = BitProof.flatSize bundle.data.length →
      ∃ s, bundle.encode = .ok s ∧ Wire.whole decode s = .ok bundle) := by
  have hiff (s : List UInt8) (bundle : Bundle) : Wire.whole decode s = .ok bundle ↔
      bundle.encode = .ok s ∧ bundle.proof.length = BitProof.flatSize bundle.data.length :=
    exact_decode.whole_eq_ok_iff
  refine ⟨hiff, ?_, ?_⟩
  · intro s t bundle hs ht
    have hsame := ((hiff s bundle).mp hs).1.symm.trans ((hiff t bundle).mp ht).1
    exact Except.ok.inj hsame
  · intro bundle hbatch hdata hproof hflat
    obtain ⟨s, hs⟩ := exists_encode_eq_ok (by omega) hdata hproof
    exact ⟨s, hs, (hiff s bundle).mpr ⟨hs, hflat⟩⟩

/-- A bundle of one slot and a proof of five residues is read from one byte string only. -/
theorem whole_decode_eq_ok_iff_of_one :
    ∃ s, Wire.whole decode s = .ok ⟨[105, 100], .b, [1], (List.replicate 5 0)⟩ ∧
      ∀ t, Wire.whole decode t = .ok ⟨[105, 100], .b, [1], (List.replicate 5 0)⟩ → s = t := by
  obtain ⟨-, hunique, hback⟩ := whole_decode_eq_ok_iff
  obtain ⟨s, -, hs⟩ := hback ⟨[105, 100], .b, [1], (List.replicate 5 0)⟩ (by decide) (by decide)
    (by decide) (by decide)
  exact ⟨s, hs, fun t ht => hunique s t _ hs ht⟩

end Bundle

end SplitTally
