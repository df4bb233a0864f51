import SplitTally.Client
import SplitTally.Proofs.Envelopes
import SplitTally.Proofs.Slots
import SplitTally.Proofs.WireFormat

/-!
# What packets show of the measurements

Two drawing computations are alike when, on every stream, they take the same bytes and either fail
for the same reason or give related results. Each step of a client is alike for any two vectors of
one length: the masks are drawn whatever the vector, the first server's bundle consists of masks
only, and the lengths of everything else are those of the masks. So clients with different
measurements are alike, with the same envelope for the first server and one of the same length for
the second.
-/

namespace SplitTally

namespace Draw

variable {ε ε' α α' β β' : Type}

/-- On every stream both computations fail for one reason or give related results, and they leave
the same bytes. -/
def Alike (R : α → α' → Prop) (x : Draw ε α) (y : Draw ε α') : Prop :=
  ∀ e, (∃ cause rest, x e = .error cause rest ∧ y e = .error cause rest) ∨
    ∃ a b rest, x e = .ok a rest ∧ y e = .ok b rest ∧ R a b

/-- Results that are related are alike without a draw. -/
theorem Alike.pure {R : α → α' → Prop} {a : α} {b : α'} (h : R a b) :
    Alike R (pure a : Draw ε α) (pure b) := fun e =>
  .inr ⟨a, b, e, pure_eq_ok_iff.mpr ⟨rfl, rfl⟩, pure_eq_ok_iff.mpr ⟨rfl, rfl⟩, h⟩

/-- A computation is alike to itself, with equal results. -/
theorem Alike.refl {P : α → Prop} {x : Draw ε α} (h : ∀ e a rest, x e = .ok a rest → P a) :
    Alike (fun a b => a = b ∧ P a) x x := by
  intro e
  cases hx : x e with
  | ok a rest => exact .inr ⟨a, a, rest, rfl, rfl, rfl, h e a rest hx⟩
  | error cause rest => exact .inl ⟨cause, rest, rfl, rfl⟩

/-- Draws that are alike and go on alike with related results are alike. -/
theorem Alike.bind {R : α → α' → Prop} {S : β → β' → Prop} {x : Draw ε α} {y : Draw ε α'}
    {f : α → Draw ε β} {g : α' → Draw ε β'} (h : Alike R x y)
    (hnext : ∀ a b, R a b → Alike S (f a) (g b)) : Alike S (x >>= f) (y >>= g) := by
  intro e
  rcases h e with ⟨cause, rest, hx, hy⟩ | ⟨a, b, rest, hx, hy, hab⟩
  · exact .inl ⟨cause, rest, bind_eq_error_iff.mpr (.inl hx), bind_eq_error_iff.mpr (.inl hy)⟩
  · rcases hnext a b hab rest with ⟨cause, last, hf, hg⟩ | ⟨c, d, last, hf, hg, hcd⟩
    · exact .inl ⟨cause, last, bind_eq_error_iff.mpr (.inr ⟨a, rest, hx, hf⟩),
        bind_eq_error_iff.mpr (.inr ⟨b, rest, hy, hg⟩)⟩
    · exact .inr ⟨c, d, last, bind_eq_ok_iff.mpr ⟨a, rest, hx, hf⟩,
        bind_eq_ok_iff.mpr ⟨b, rest, hy, hg⟩, hcd⟩

/-- Draws that are alike stay so under another name for the errors. -/
theorem Alike.mapError {R : α → α' → Prop} {x : Draw ε α} {y : Draw ε α'} (f : ε → ε')
    (h : Alike R x y) : Alike R (x.mapError f) (y.mapError f) := by
  intro e
  rcases h e with ⟨cause, rest, hx, hy⟩ | ⟨a, b, rest, hx, hy, hab⟩
  · exact .inl ⟨f cause, rest, mapError_eq_error_iff.mpr ⟨cause, hx, rfl⟩,
      mapError_eq_error_iff.mpr ⟨cause, hy, rfl⟩⟩
  · exact .inr ⟨a, b, rest, mapError_eq_ok_iff.mpr hx, mapError_eq_ok_iff.mpr hy, hab⟩

/-- Outcomes that need no random bytes are alike when they are errors together. -/
theorem Alike.ofExcept {r : Except ε α} {s : Except ε α'} (f : ε → ε')
    (h : ∀ cause, r = .error cause ↔ s = .error cause) :
    Alike (fun a b => r = .ok a ∧ s = .ok b) (ofExcept (r.mapError f))
      (ofExcept (s.mapError f)) := by
  intro e
  cases r with
  | error cause =>
    obtain rfl := (h cause).mp rfl
    exact .inl ⟨f cause, e, rfl, rfl⟩
  | ok a =>
    cases s with
    | error cause => cases (h cause).mpr rfl
    | ok b => exact .inr ⟨a, b, e, rfl, rfl, rfl, rfl⟩

end Draw

open Draw (Alike)

/-- Vectors of one length are split with the same masks, and into differences as many as masks. -/
theorem Share.alike_splitVector {xs ys : List Residue} (h : xs.length = ys.length) :
    Alike (fun s t => s.1 = t.1 ∧ s.1.length = xs.length ∧ s.2.length = s.1.length ∧
      t.2.length = s.1.length) (splitVector xs) (splitVector ys) := by
  unfold splitVector
  rw [← h]
  have hmasks (e : Entropy) (masks : List Residue) (rest : Entropy)
      (hdraw : Residue.drawMany xs.length e = .ok masks rest) : masks.length = xs.length :=
    Residue.length_of_drawMany hdraw
  refine (Alike.refl hmasks).bind ?_
  rintro masks _ ⟨rfl, hlength⟩
  refine Alike.pure ⟨rfl, hlength, ?_, ?_⟩
  · simp [hlength]
  · simp [hlength, h]

/-- Proofs about vectors of one length are drawn alike and have one length. -/
theorem Prover.alike_prove {prover : Prover} {xs ys : List Residue} (h : xs.length = ys.length) :
    Alike (fun p q => p.flatten.length = q.flatten.length) (prover.prove xs)
      (prover.prove ys) := by
  unfold prove
  rw [← h]
  by_cases hdimension : xs.length = prover.dimension
  · simp only [hdimension, ne_eq, not_true_eq_false, if_false]
    have hdraw : Alike (fun a b => a = b ∧ True) (Residue.draw.mapError BitProofError.residue)
        (Residue.draw.mapError .residue) := Alike.refl fun _ _ _ _ => trivial
    refine hdraw.bind ?_
    rintro f0 _ ⟨rfl, -⟩
    refine hdraw.bind ?_
    rintro g0 _ ⟨rfl, -⟩
    exact Alike.pure (by simp [BitProof.build, BitProof.flatten, h])
  · simp only [hdimension, ne_eq, not_false_eq_true, if_true]
    intro e
    exact .inl ⟨.sizeMismatch, e, rfl, rfl⟩

/-- Whether two bundles belong to one batch and have parts of the same lengths. -/
structure Bundle.SameShape (b c : Bundle) : Prop where
  /-- The batches are the same. -/
  batch : b.batch = c.batch
  /-- There are as many slots. -/
  data : b.data.length = c.data.length
  /-- The proofs have one length. -/
  proof : b.proof.length = c.proof.length

/-- A bundle has its own shape. -/
theorem Bundle.SameShape.refl (b : Bundle) : b.SameShape b := ⟨rfl, rfl, rfl⟩

/-- Being of the same shape goes both ways. -/
theorem Bundle.SameShape.symm {b c : Bundle} (h : b.SameShape c) : c.SameShape b :=
  ⟨h.batch.symm, h.data.symm, h.proof.symm⟩

/-- The shape is passed on from bundle to bundle. -/
theorem Bundle.SameShape.trans {b c d : Bundle} (h : b.SameShape c) (h' : c.SameShape d) :
    b.SameShape d :=
  ⟨h.batch.trans h'.batch, h.data.trans h'.data, h.proof.trans h'.proof⟩

/-- For vectors of one length the first server gets the same bundle, and the second server one of
the same shape. -/
theorem Prover.alike_bundles {prover : Prover} {batch : List UInt8} {xs ys : List Residue}
    (h : xs.length = ys.length) :
    Alike (fun s t => s.1 = t.1 ∧ s.2.SameShape s.1 ∧ t.2.SameShape s.1)
      (prover.bundles batch xs) (prover.bundles batch ys) := by
  unfold bundles
  refine ((Share.alike_splitVector h).mapError _).bind ?_
  rintro ⟨data, dataB⟩ ⟨_, dataB'⟩ ⟨rfl, -, hdata, hdata'⟩
  refine ((alike_prove h).mapError _).bind ?_
  intro proof proof' hproof
  refine ((Share.alike_splitVector hproof).mapError _).bind ?_
  rintro ⟨masks, proofB⟩ ⟨_, proofB'⟩ ⟨rfl, -, hproof, hproof'⟩
  exact Alike.pure ⟨rfl, ⟨rfl, hdata, hproof⟩, ⟨rfl, hdata', hproof'⟩⟩

/-- Every residue is written to four bytes. -/
theorem Wire.length_flatMap_encodeResidue (xs : List Residue) :
    (xs.flatMap encodeResidue).length = 4 * xs.length := by
  simp [List.length_flatMap, length_encodeResidue, Nat.mul_comm]

/-- The number of bytes of a bundle. -/
theorem Bundle.length_of_encode {b : Bundle} {s : List UInt8} (h : b.encode = .ok s) :
    s.length = b.batch.length + 4 * b.data.length + 4 * b.proof.length + 15 := by
  obtain ⟨batch, dimension, data, proof, hbatch, hcount, hdata, hproof, rfl⟩ :=
    encode_eq_ok_iff.mp h
  obtain ⟨-, rfl⟩ := Wire.encodeOpaque_eq_ok_iff.mp hbatch
  obtain ⟨-, rfl⟩ := Wire.encodeCount_eq_ok_iff.mp hcount
  obtain ⟨-, rfl⟩ := Wire.encodeItems_eq_ok_iff.mp hdata
  obtain ⟨-, rfl⟩ := Wire.encodeItems_eq_ok_iff.mp hproof
  have hserver : b.server.encode.length = 1 := by cases b.server <;> rfl
  simp only [List.length_append, Wire.length_flatMap_encodeResidue, hserver, Words.toBE16,
    Words.toBE32, List.length_cons, List.length_nil]
  omega

/-- Bundles of one shape are written with one length. -/
theorem Bundle.SameShape.length_eq {b c : Bundle} {s t : List UInt8} (h : b.SameShape c)
    (hs : b.encode = .ok s) (ht : c.encode = .ok t) : s.length = t.length := by
  rw [length_of_encode hs, length_of_encode ht, h.batch, h.data, h.proof]

/-- Bundles of one shape cannot be written for one reason. -/
theorem Bundle.SameShape.encode_eq_error_iff {b c : Bundle} (h : b.SameShape c)
    (cause : WireError) : b.encode = .error cause ↔ c.encode = .error cause := by
  simp only [Bundle.encode, Wire.encodeItems, h.batch, h.data, h.proof]
  cases Wire.encodeOpaque c.batch <;> cases Wire.encodeCount c.data.length <;>
    cases Wire.encodeCount c.proof.length <;>
    simp [bind, Except.bind, pure, Except.pure]

/-- Texts of one length are sealed alike, in envelopes of one length. -/
theorem Envelope.alike_sealFor {key : PublicKey} {text text' : List UInt8}
    (h : text.length = text'.length) :
    Alike (fun s t => s.length = sealedSize text.length ∧ t.length = sealedSize text.length)
      (sealFor key text) (sealFor key text') := by
  unfold sealFor
  have hfresh : Alike (fun k k' => k = k' ∧ True) PrivateKey.generate PrivateKey.generate :=
    Alike.refl fun _ _ _ _ => trivial
  refine hfresh.bind ?_
  rintro fresh _ ⟨rfl, -⟩
  have hshared : Alike (fun s s' => s = s' ∧ True) (Draw.ofExcept (fresh.agree key))
      (Draw.ofExcept (fresh.agree key)) := Alike.refl fun _ _ _ _ => trivial
  refine hshared.bind ?_
  rintro shared _ ⟨rfl, -⟩
  have hnonce : Alike (fun s s' => s = s' ∧ s.length = nonceSize)
      (Draw.bytes EnvelopeError.entropy nonceSize) (Draw.bytes .entropy nonceSize) :=
    Alike.refl fun _ _ _ hdraw => (Draw.bytes_eq_ok_iff.mp hdraw).1
  refine hnonce.bind ?_
  rintro nonce _ ⟨rfl, hnonce⟩
  simp only [Gcm.encrypt?, ← h]
  by_cases hshort : Gcm.maxPlaintext < text.length
  · rw [if_pos hshort, if_pos hshort]
    exact fun e => .inl ⟨.notSealed, e, rfl, rfl⟩
  · rw [if_neg hshort, if_neg hshort]
    refine Alike.pure ⟨length_assemble fresh shared hnonce, ?_⟩
    rw [h]
    exact length_assemble fresh shared hnonce

/-- For measurements that fit the schema a client draws the same bytes, fails for the same reason if
it fails, sends the first server the same envelope, and sends the second server an envelope of the
same length. -/
theorem Client.alike_encode (schema : Schema) (keyA keyB : PublicKey) :
    ∃ client, Client.new schema keyA keyB = .ok client ∧
      ∀ (batch : List UInt8) (m m' : Measurements) (xs xs' : List Residue),
        schema.encode m = .ok xs → schema.encode m' = .ok xs' →
        Alike (fun p q => p.batch = q.batch ∧ p.a = q.a ∧ q.b.length = p.b.length ∧
          p.b.length = p.a.length) (client.encode batch m) (client.encode batch m') := by
  refine ⟨_, new_eq_ok schema keyA keyB, fun batch m m' xs xs' hm hm' => ?_⟩
  unfold encode
  have hnever (cause : MeasurementError) :
      schema.encode m = .error cause ↔ schema.encode m' = .error cause := by simp [hm, hm']
  refine (Alike.ofExcept _ hnever).bind ?_
  rintro ys ys' ⟨hys, hys'⟩
  have hlength : ys.length = ys'.length := by
    rw [Schema.length_encode hys, Schema.length_encode hys']
  refine (Prover.alike_bundles hlength).bind ?_
  rintro ⟨ba, bb⟩ ⟨_, bb'⟩ ⟨rfl, hshape, hshape'⟩
  refine (Alike.ofExcept _ (Bundle.SameShape.refl ba).encode_eq_error_iff).bind ?_
  rintro bytesA _ ⟨hbytesA, hbytesA'⟩
  obtain rfl := Except.ok.inj (hbytesA.symm.trans hbytesA')
  refine (Alike.ofExcept _ (hshape.trans hshape'.symm).encode_eq_error_iff).bind ?_
  rintro bytesB bytesB' ⟨hbytesB, hbytesB'⟩
  have hlengthB := hshape.length_eq hbytesB hbytesA
  have hlengthB' := hshape'.length_eq hbytesB' hbytesA
  have hsealA : Alike (fun a a' => a = a' ∧ a.length = Envelope.sealedSize bytesA.length)
      (Envelope.sealFor keyA bytesA) (Envelope.sealFor keyA bytesA) :=
    Alike.refl fun _ _ _ hseal => Envelope.length_of_sealFor hseal
  refine (hsealA.mapError _).bind ?_
  rintro a _ ⟨rfl, ha⟩
  refine ((Envelope.alike_sealFor (hlengthB.trans hlengthB'.symm)).mapError _).bind ?_
  rintro b b' ⟨hb, hb'⟩
  exact Alike.pure ⟨rfl, rfl, by rw [hb, hb'], by rw [hb, ha, hlengthB]⟩

/-- A browser that measured nothing and one with a new tab page are alike. -/
theorem Client.alike_encode_browser :
    ∃ client,
      Client.new .browser ⟨List.replicate 32 9, by decide⟩ ⟨List.replicate 32 8, by decide⟩ =
        .ok client ∧
      Alike (fun p q => p.batch = q.batch ∧ p.a = q.a ∧ q.b.length = p.b.length ∧
        p.b.length = p.a.length) (client.encode [105, 100] .empty)
        (client.encode [105, 100] (Measurements.empty.set "newTabPageEnabled" 1)) := by
  obtain ⟨client, hclient, halike⟩ :=
    alike_encode .browser ⟨List.replicate 32 9, by decide⟩ ⟨List.replicate 32 8, by decide⟩
  exact ⟨client, hclient, halike [105, 100] .empty (Measurements.empty.set "newTabPageEnabled" 1)
    [0, 0, 0] [0, 1, 0] (by decide +kernel) (by decide +kernel)⟩

end SplitTally
