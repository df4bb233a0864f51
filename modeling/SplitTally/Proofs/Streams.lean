import SplitTally.Proofs.WireFormat
import SplitTally.Wire.Stream

/-!
# Values that share a buffer

A writer appends what the encoder of its value returns and changes nothing that the buffer held
before, and a decoder takes just these bytes and does not look at what follows them. So values that
are appended one after the other are read again from where the buffer ended before them, whatever
their formats are and whatever stands behind them.
-/

namespace SplitTally.Wire

/-! ### Writers and encoders -/

/-- A writer appends what an encoder returns, and fails as the encoder does. Whether it fails or
not, the bytes of the buffer stay. -/
def Appends (writer : Writer) : Except WireError (List UInt8) → Prop
  | .ok s => ∀ buffer, writer buffer = .ok () (buffer ++ s)
  | .error cause => ∀ buffer, ∃ s, writer buffer = .error cause (buffer ++ s)

variable {writer next : Writer} {encoded : Except WireError (List UInt8)} {s t : List UInt8}

/-- Bytes are appended as they are. -/
theorem appends_bytes (s : List UInt8) : Appends (.bytes s) (.ok s) := fun _ => rfl

/-- What is written next is appended behind what was written. -/
theorem Appends.append (h : Appends writer (.ok s)) (hnext : Appends next (.ok t)) :
    Appends (do writer; next) (.ok (s ++ t)) := by
  intro buffer
  change EStateM.bind writer (fun _ => next) buffer = _
  rw [EStateM.bind, h buffer]
  dsimp only
  rw [hnext (buffer ++ s), List.append_assoc]

/-- After a failure nothing more is written. -/
theorem Appends.of_error {cause : WireError} (h : Appends writer (.error cause)) :
    Appends (do writer; next) (.error cause) := by
  intro buffer
  obtain ⟨s, hs⟩ := h buffer
  refine ⟨s, ?_⟩
  change EStateM.bind writer (fun _ => next) buffer = _
  rw [EStateM.bind, hs]

/-- A failure keeps what was written before it. -/
theorem Appends.append_error {cause : WireError} (h : Appends writer (.ok s))
    (hnext : Appends next (.error cause)) : Appends (do writer; next) (.error cause) := by
  intro buffer
  obtain ⟨t, ht⟩ := hnext (buffer ++ s)
  refine ⟨s ++ t, ?_⟩
  change EStateM.bind writer (fun _ => next) buffer = _
  rw [EStateM.bind, h buffer]
  dsimp only
  rw [ht, List.append_assoc]

/-- Two writers one after the other append what their encoders return together. -/
theorem Appends.bind {encodedNext : Except WireError (List UInt8)} (h : Appends writer encoded)
    (hnext : Appends next encodedNext) :
    Appends (do writer; next) (do return (← encoded) ++ (← encodedNext)) := by
  cases encoded with
  | error cause => exact h.of_error
  | ok s =>
    cases encodedNext with
    | error cause => exact h.append_error hnext
    | ok t => exact h.append hnext

/-- An opaque string is appended behind its length, or refused if that does not fit. -/
theorem appends_opaqueBytes (s : List UInt8) : Appends (.opaqueBytes s) (encodeOpaque s) := by
  unfold Writer.opaqueBytes encodeOpaque
  by_cases hshort : s.length < 0x10000
  · simp only [if_pos hshort]
    exact (appends_bytes _).append (appends_bytes s)
  · simp only [if_neg hshort]
    exact fun buffer => ⟨[], by rw [List.append_nil]; rfl⟩

/-- A count is appended, or refused if it does not fit. -/
theorem appends_count (n : ℕ) : Appends (.count n) (encodeCount n) := by
  unfold Writer.count encodeCount
  by_cases hshort : n < 0x100000000
  · simp only [if_pos hshort]
    exact appends_bytes _
  · simp only [if_neg hshort]
    exact fun buffer => ⟨[], by rw [List.append_nil]; rfl⟩

section Items

variable {α : Type} {item : α → Writer} {encode : α → List UInt8}

/-- Items are appended one behind the other. -/
theorem appends_forM (hitem : ∀ x, Appends (item x) (.ok (encode x))) (xs : List α) :
    Appends (xs.forM item) (.ok (xs.flatMap encode)) := by
  induction xs with
  | nil => exact fun buffer => by rw [List.flatMap_nil, List.append_nil]; rfl
  | cons x xs ih =>
    rw [List.flatMap_cons]
    exact (hitem x).append ih

/-- Items are appended behind their count, or refused if there are too many. -/
theorem appends_items (hitem : ∀ x, Appends (item x) (.ok (encode x))) (xs : List α) :
    Appends (.items item xs) (encodeItems encode xs) :=
  (appends_count xs.length).bind (appends_forM hitem xs)

end Items

/-- The fields of a bundle are appended up to the first one that its length or count cannot hold. -/
theorem appends_bundle (b : Bundle) : Appends (.bundle b) b.encode := by
  have hresidues (xs : List Residue) := appends_items (fun a => appends_bytes (encodeResidue a)) xs
  have hfields := (appends_opaqueBytes b.batch).bind <| (appends_bytes b.server.encode).bind <|
    (appends_count b.data.length).bind <| (hresidues b.data).bind (hresidues b.proof)
  refine (congrArg (Appends (.bundle b)) ?_).mpr hfields
  unfold Bundle.encode
  cases encodeOpaque b.batch <;> cases encodeCount b.data.length <;>
    cases encodeItems encodeResidue b.data <;> cases encodeItems encodeResidue b.proof <;> rfl

/-! ### Values of a format -/

/-- Each kind of scalar is read from the bytes it is written to, and from no others. -/
theorem Scalar.exact_decode (kind : Scalar) : Exact kind.decode fun x s => s = kind.encode x := by
  cases kind with
  | byte => exact exact_byte
  | word16 => exact exact_word16
  | word32 => exact exact_word32
  | residue => exact exact_residue

/-- Each kind of scalar is written to as many bytes as its size tells. -/
theorem Scalar.length_encode (kind : Scalar) (x : kind.Carrier) :
    (kind.encode x).length = kind.size := by
  cases kind <;> rfl

namespace Format

/-- The lengths and counts of a value fit in their fields, items are not taken to be longer than
they are, and the proof of a bundle has the length that the slots demand. -/
def Fits : (format : Format) → format.Carrier → Prop
  | .scalar _, _ => True
  | .server, _ => True
  | .byteString, (s : List UInt8) => s.length ≤ 65535
  | .items kind least, (xs : List kind.Carrier) => xs.length < 2 ^ 32 ∧ least ≤ kind.size
  | .bundle, (b : Bundle) => b.batch.length ≤ 65535 ∧ b.data.length < 2 ^ 32 ∧
      b.proof.length < 2 ^ 32 ∧ b.proof.length = BitProof.flatSize b.data.length

/-- A value that fits is written as bytes from which it is read back, whatever follows them. -/
theorem Fits.exists_bytes {format : Format} {x : format.Carrier} (h : format.Fits x) :
    ∃ s, Appends (format.write x) (.ok s) ∧
      ∀ rest, format.decode (s ++ rest) = .ok (x, rest) := by
  cases format with
  | scalar kind =>
    exact ⟨_, appends_bytes _, fun rest => (kind.exact_decode _ _ _).mpr ⟨_, rfl, rfl⟩⟩
  | server =>
    exact ⟨_, appends_bytes _, fun rest => (Server.exact_decode _ _ _).mpr ⟨_, rfl, rfl⟩⟩
  | byteString =>
    have hshort : List.length x < 0x10000 := Nat.lt_succ_of_le h
    have hs := encodeOpaque_eq_ok_iff.mpr ⟨hshort, rfl⟩
    have happends := appends_opaqueBytes x
    rw [hs] at happends
    exact ⟨_, happends, fun rest => (exact_opaqueBytes _ _ _).mpr ⟨_, hs, rfl⟩⟩
  | items kind least =>
    obtain ⟨hshort, hleast⟩ := h
    have hs : encodeItems kind.encode x = .ok _ := encodeItems_eq_ok_iff.mpr ⟨hshort, rfl⟩
    have happends := appends_items (fun x => appends_bytes (kind.encode x)) x
    rw [hs] at happends
    have hexact := exact_items kind.exact_decode fun y => (kind.length_encode y).symm ▸ hleast
    exact ⟨_, happends, fun rest => (hexact _ _ _).mpr ⟨_, hs, rfl⟩⟩
  | bundle =>
    obtain ⟨hbatch, hdata, hproof, hflat⟩ := h
    have hshort : List.length (Bundle.batch x) < 0x10000 := Nat.lt_succ_of_le hbatch
    obtain ⟨s, hs⟩ := Bundle.exists_encode_eq_ok hshort hdata hproof
    have happends := appends_bundle x
    rw [hs] at happends
    exact ⟨s, happends, fun rest => (Bundle.exact_decode _ _ _).mpr ⟨s, ⟨hs, hflat⟩, rfl⟩⟩

end Format

/-! ### One value after the other -/

/-- A value is read where its bytes start, and the cursor moves to where they end. -/
theorem Cursor.read_append {α : Type} {decoder : Decoder α} {x : α} {s : List UInt8}
    (h : ∀ rest, decoder (s ++ rest) = .ok (x, rest)) (start rest : List UInt8) :
    Cursor.read ⟨start ++ s ++ rest, start.length⟩ decoder =
      .ok (x, ⟨start ++ s ++ rest, (start ++ s).length⟩) := by
  have hposition : (start ++ s ++ rest).length - rest.length = (start ++ s).length := by
    rw [List.length_append, Nat.add_sub_cancel]
  have hread : decoder ((start ++ s ++ rest).drop start.length) = .ok (x, rest) := by
    rw [List.append_assoc, List.drop_left, h]
  rw [Cursor.read, hread]
  dsimp only
  rw [hposition]

section Step

variable {format : Format} {x : format.Carrier} {values : List Value} {start mid last : List UInt8}
  {buffers : List (List UInt8)}

/-- Values are written if the first one is and then the others behind it. -/
theorem writeEach_cons (hfirst : format.write x start = .ok () mid)
    (hrest : writeEach values mid = .ok buffers last) :
    writeEach (⟨format, x⟩ :: values) start = .ok (mid :: buffers) last := by
  rw [writeEach]
  change EStateM.bind (format.write x) _ start = _
  rw [EStateM.bind, hfirst]
  change EStateM.bind (writeEach values) _ mid = _
  rw [EStateM.bind, hrest]
  rfl

/-- Values are read if the first one is and then the others behind it. -/
theorem readEach_cons {formats : List Format} {cursor next : Cursor} {read : List (Value × ℕ)}
    (hfirst : cursor.read format.decode = .ok (x, next))
    (hrest : readEach next formats = .ok read) :
    readEach cursor (format :: formats) = .ok ((⟨format, x⟩, next.position) :: read) := by
  rw [readEach, hfirst]
  change (readEach next formats >>= _) = _
  rw [hrest]
  rfl

/-- A buffer that only grows starts with what it held at any time before. -/
theorem isPrefix_getLastD (hgrow : (start :: buffers).Pairwise (· <+: ·)) :
    start <+: buffers.getLastD start := by
  rw [List.getLastD_eq_getLast?]
  cases hlast : buffers.getLast? with
  | none => exact List.prefix_rfl
  | some last => exact (List.pairwise_cons.mp hgrow).1 last (List.mem_of_getLast? hlast)

end Step

/-- Values that fit are appended to a buffer one after the other. What the buffer holds after each
of them goes on from what it held before, and in front of any bytes the same formats are read from
the old end of the buffer as the same values, each up to where the buffer ended after it. -/
theorem readEach_of_writeEach (start : List UInt8) (values : List Value)
    (hfits : ∀ value ∈ values, value.1.Fits value.2) :
    ∃ buffers, writeEach values start = .ok buffers (buffers.getLastD start) ∧
      buffers.length = values.length ∧ (start :: buffers).Pairwise (· <+: ·) ∧
      ∀ rest, readEach ⟨buffers.getLastD start ++ rest, start.length⟩ (values.map Sigma.fst) =
        .ok (values.zip (buffers.map List.length)) := by
  induction values generalizing start with
  | nil => exact ⟨[], rfl, rfl, by simp, fun rest => rfl⟩
  | cons value values ih =>
    obtain ⟨format, x⟩ := value
    obtain ⟨hx, hvalues⟩ := List.forall_mem_cons.mp hfits
    obtain ⟨s, hwrite, hread⟩ := hx.exists_bytes
    obtain ⟨buffers, hbuffers, hlength, hgrow, hback⟩ := ih (start ++ s) hvalues
    have hlast : ((start ++ s) :: buffers).getLastD start = buffers.getLastD (start ++ s) :=
      List.getLastD_cons ..
    refine ⟨(start ++ s) :: buffers, ?_, by simp [hlength], ?_, fun rest => ?_⟩
    · rw [hlast]
      exact writeEach_cons (hwrite start) hbuffers
    · refine List.pairwise_cons.mpr ⟨fun buffer hbuffer => ?_, hgrow⟩
      rcases List.mem_cons.mp hbuffer with rfl | hlater
      · exact List.prefix_append start s
      · exact (List.prefix_append start s).trans ((List.pairwise_cons.mp hgrow).1 buffer hlater)
    · obtain ⟨t, ht⟩ := isPrefix_getLastD hgrow
      have hcursor := Cursor.read_append hread start (t ++ rest)
      have hbytes : start ++ s ++ (t ++ rest) = buffers.getLastD (start ++ s) ++ rest := by
        rw [← ht, List.append_assoc (start ++ s)]
      rw [hbytes] at hcursor
      rw [hlast]
      exact readEach_cons hcursor (hback rest)

/-- Items that are taken to be shorter than they are, a byte string and a residue, behind a byte
that is there already and in front of another. -/
theorem readEach_of_writeEach_three :
    writeEach [⟨.items .word16 1, [(1 : UInt16), (2 : UInt16)]⟩, ⟨.byteString, [105, 100]⟩,
        ⟨.scalar .residue, (1 : Residue)⟩] [9] =
      .ok [[9, 0, 0, 0, 2, 0, 1, 0, 2], [9, 0, 0, 0, 2, 0, 1, 0, 2, 0, 2, 105, 100],
          [9, 0, 0, 0, 2, 0, 1, 0, 2, 0, 2, 105, 100, 1, 0, 0, 0]]
        [9, 0, 0, 0, 2, 0, 1, 0, 2, 0, 2, 105, 100, 1, 0, 0, 0] ∧
    readEach ⟨[9, 0, 0, 0, 2, 0, 1, 0, 2, 0, 2, 105, 100, 1, 0, 0, 0, 255], 1⟩
        [.items .word16 1, .byteString, .scalar .residue] =
      .ok [(⟨.items .word16 1, [(1 : UInt16), (2 : UInt16)]⟩, 9),
        (⟨.byteString, [105, 100]⟩, 13), (⟨.scalar .residue, (1 : Residue)⟩, 17)] := by
  have hwrite : writeEach [⟨.items .word16 1, [(1 : UInt16), (2 : UInt16)]⟩,
        ⟨.byteString, [105, 100]⟩, ⟨.scalar .residue, (1 : Residue)⟩] [9] =
      .ok [[9, 0, 0, 0, 2, 0, 1, 0, 2], [9, 0, 0, 0, 2, 0, 1, 0, 2, 0, 2, 105, 100],
          [9, 0, 0, 0, 2, 0, 1, 0, 2, 0, 2, 105, 100, 1, 0, 0, 0]]
        [9, 0, 0, 0, 2, 0, 1, 0, 2, 0, 2, 105, 100, 1, 0, 0, 0] := rfl
  have hfits : ∀ value ∈ ([⟨.items .word16 1, [(1 : UInt16), (2 : UInt16)]⟩,
      ⟨.byteString, [105, 100]⟩, ⟨.scalar .residue, (1 : Residue)⟩] : List Value),
      value.1.Fits value.2 :=
    List.forall_mem_cons.mpr ⟨⟨by decide, by decide⟩, List.forall_mem_cons.mpr
      ⟨show 2 ≤ 65535 by decide, List.forall_mem_cons.mpr ⟨trivial, List.forall_mem_nil _⟩⟩⟩
  obtain ⟨buffers, hbuffers, -, -, hback⟩ := readEach_of_writeEach [9] _ hfits
  rw [hwrite] at hbuffers
  cases hbuffers
  exact ⟨hwrite, hback [255]⟩

end SplitTally.Wire
