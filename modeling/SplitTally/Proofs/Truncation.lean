import SplitTally.Proofs.WireFormat

/-!
# Bundles cut short and bundles with bytes behind them

A decoder that reads parts one after the other runs out of input on every proper prefix of their
bytes: within the first part if the prefix ends there, and else within one of the later parts, once
the first has been read. The number of items is checked against the input before any of them is
read, which can only tell earlier that the input ends. So no bundle that is cut short is taken for
something else, and what follows a bundle is counted.
-/

namespace SplitTally

/-- The input ended before the value did. The two errors have the same text and differ only in the
one below it. -/
def WireError.EndOfInput (cause : WireError) : Prop :=
  cause = .shortBlock ∨ cause = .unexpectedEnd

namespace Wire

/-- On every proper prefix of the bytes the decoder finds that the input ends. -/
def RunsOut {α : Type} (decoder : Decoder α) (s : List UInt8) : Prop :=
  ∀ t, t <+: s → t ≠ s → ∃ cause, decoder t = .error cause ∧ cause.EndOfInput

variable {α β : Type} {decoder : Decoder α} {f : α → Decoder β} {x : α} {s u : List UInt8}

/-! ### Parts one after the other -/

/-- From nothing nothing can be cut. -/
theorem RunsOut.nil : RunsOut decoder [] :=
  fun _ ht hne => absurd (List.prefix_nil.mp ht) hne

/-- What would come next is not reached. -/
theorem RunsOut.before (h : RunsOut decoder s) : RunsOut (decoder >>= f) s := by
  intro t ht hne
  obtain ⟨cause, hcause, hend⟩ := h t ht hne
  refine ⟨cause, ?_, hend⟩
  change (decoder t >>= fun p => f p.1 p.2) = .error cause
  rw [hcause]
  rfl

/-- A proper prefix of two byte strings ends within the first of them or within the second. -/
private theorem proper_prefix_append {t : List UInt8} (ht : t <+: s ++ u) (hne : t ≠ s ++ u) :
    (t <+: s ∧ t ≠ s) ∨ ∃ v, t = s ++ v ∧ v <+: u ∧ v ≠ u := by
  rcases List.prefix_or_prefix_of_prefix ht (List.prefix_append s u) with hfirst | ⟨v, rfl⟩
  · by_cases hall : t = s
    · refine .inr ⟨[], by rw [hall, List.append_nil], List.nil_prefix, ?_⟩
      rintro rfl
      exact hne (by rw [hall, List.append_nil])
    · exact .inl ⟨hfirst, hall⟩
  · exact .inr ⟨v, rfl, (List.prefix_append_right_inj s).mp ht, fun hall => hne (by rw [hall])⟩

/-- A part that is read whole is followed by one that is not. -/
theorem RunsOut.bind (h : RunsOut decoder s) (hread : ∀ rest, decoder (s ++ rest) = .ok (x, rest))
    (hnext : RunsOut (f x) u) : RunsOut (decoder >>= f) (s ++ u) := by
  intro t ht hne
  rcases proper_prefix_append ht hne with ⟨hfirst, hcut⟩ | ⟨v, rfl, hlater, hcut⟩
  · exact h.before t hfirst hcut
  · obtain ⟨cause, hcause, hend⟩ := hnext v hlater hcut
    refine ⟨cause, ?_, hend⟩
    change (decoder (s ++ v) >>= fun p => f p.1 p.2) = .error cause
    rw [hread]
    exact hcause

/-- A condition for refusing the value that is not met. -/
theorem RunsOut.of_guard {p : Prop} [Decidable p] {cause : WireError} {g : β → Decoder α}
    (hp : ¬ p) (h : RunsOut decoder s) : RunsOut (if p then throw cause >>= g else decoder) s := by
  rwa [if_neg hp]

/-- A look at the input that can only tell earlier that it ends. -/
theorem RunsOut.of_check {p : List UInt8 → Prop} [DecidablePred p] {g : β → Decoder α}
    (h : RunsOut decoder s) :
    RunsOut (get >>= fun input => if p input then throw .unexpectedEnd >>= g else decoder) s := by
  intro t ht hne
  change ∃ cause, (if p t then throw .unexpectedEnd >>= g else decoder) t = _ ∧ _
  by_cases hp : p t
  · rw [if_pos hp]
    exact ⟨.unexpectedEnd, rfl, .inr rfl⟩
  · rw [if_neg hp]
    exact h t ht hne

/-! ### Parts of a known size -/

/-- A decoder that needs so many bytes runs out of input when there are fewer. -/
theorem RunsOut.of_length
    (h : ∀ t, t.length < s.length → ∃ cause, decoder t = .error cause ∧ cause.EndOfInput) :
    RunsOut decoder s := by
  intro t ht hne
  refine h t (Nat.lt_of_le_of_ne ht.length_le fun hlength => hne ?_)
  exact ht.eq_of_length hlength

/-- A byte that is missing is missed. -/
theorem runsOut_byte (b : UInt8) : RunsOut byte [b] := by
  refine .of_length fun t ht => ?_
  obtain rfl := List.length_eq_zero_iff.mp (Nat.lt_one_iff.mp ht)
  exact ⟨.shortBlock, rfl, .inl rfl⟩

/-- A word of 16 bits is missed when one of its bytes is cut off. -/
theorem runsOut_word16 (w : UInt16) : RunsOut word16 (Words.toBE16 w) := by
  refine .of_length fun t ht => ⟨.shortBlock, ?_, .inl rfl⟩
  match t, ht with
  | [], _ | [_], _ => rfl

/-- A word of 32 bits is missed when one of its bytes is cut off. -/
theorem runsOut_word32 (w : UInt32) : RunsOut word32 (Words.toBE32 w) := by
  refine .of_length fun t ht => ⟨.shortBlock, ?_, .inl rfl⟩
  match t, ht with
  | [], _ | [_], _ | [_, _], _ | [_, _, _], _ => rfl

/-- A residue is missed when one of its bytes is cut off. -/
theorem runsOut_residue (a : Residue) : RunsOut residue (encodeResidue a) := by
  refine .of_length fun t ht => ⟨.unexpectedEnd, ?_, .inr rfl⟩
  match t, ht with
  | [], _ | [_], _ | [_, _], _ | [_, _, _], _ => rfl

/-- Bytes are missed when one of them is cut off. -/
theorem runsOut_bytes (s : List UInt8) : RunsOut (bytes s.length) s := by
  refine .of_length fun t ht => ⟨.shortBlock, ?_, .inl rfl⟩
  have hshort : (t.take s.length).length ≠ s.length := by
    rw [List.take_of_length_le (Nat.le_of_lt ht)]
    exact Nat.ne_of_lt ht
  exact if_neg hshort

/-! ### Byte strings and items -/

/-- An opaque string is missed when its length or one of its bytes is cut off. -/
theorem runsOut_opaqueBytes {t : List UInt8} (hs : encodeOpaque t = .ok s) :
    RunsOut opaqueBytes s := by
  obtain ⟨hshort, rfl⟩ := encodeOpaque_eq_ok_iff.mp hs
  refine (runsOut_word16 _).bind (fun rest => (exact_word16 _ _ _).mpr ⟨_, rfl, rfl⟩) ?_
  rw [toNat_toUInt16_of_lt hshort]
  exact runsOut_bytes t

section Items

variable {item : Decoder α} {encode : α → List UInt8}

/-- Items are missed when one of them is. -/
theorem runsOut_itemsOnto (hitem : Exact item fun x s => s = encode x)
    (hcut : ∀ x, RunsOut item (encode x)) (xs done : List α) :
    RunsOut (itemsOnto item xs.length done) (xs.flatMap encode) := by
  induction xs generalizing done with
  | nil => exact .nil
  | cons x xs ih =>
    rw [List.length_cons, itemsOnto_succ, List.flatMap_cons]
    exact (hcut x).bind (fun rest => (hitem _ _ _).mpr ⟨_, rfl, rfl⟩) (ih (x :: done))

/-- Items run out of input with their count or with one of them, unless there are too few bytes for
so many. -/
theorem runsOut_items (hitem : Exact item fun x s => s = encode x)
    (hcut : ∀ x, RunsOut item (encode x)) (least : ℕ) {xs : List α}
    (hs : encodeItems encode xs = .ok s) : RunsOut (items least item) s := by
  obtain ⟨hshort, rfl⟩ := encodeItems_eq_ok_iff.mp hs
  refine (runsOut_word32 _).bind (fun rest => (exact_word32 _ _ _).mpr ⟨_, rfl, rfl⟩) ?_
  rw [toNat_toUInt32_of_lt hshort]
  exact (runsOut_itemsOnto hitem hcut xs []).of_check

end Items

end Wire

/-- A server is missed when its byte is cut off. -/
theorem Server.runsOut_decode (server : Server) : Wire.RunsOut Server.decode server.encode := by
  cases server with
  | a => exact (Wire.runsOut_byte 0).before
  | b => exact (Wire.runsOut_byte 1).before

namespace Bundle

/-- The decoder of bundles finds the end of the input wherever a bundle is cut, also one that it
would refuse for the length of its proof. -/
theorem runsOut_decode {bundle : Bundle} {s : List UInt8} (hs : bundle.encode = .ok s) :
    Wire.RunsOut decode s := by
  obtain ⟨batch, dimension, data, proof, hbatch, hcount, hdata, hproof, rfl⟩ :=
    encode_eq_ok_iff.mp hs
  obtain ⟨hshort, rfl⟩ := Wire.encodeCount_eq_ok_iff.mp hcount
  have hdimension := Wire.toNat_toUInt32_of_lt hshort
  have hresidues {xs : List Residue} {s : List UInt8}
      (hs : Wire.encodeItems Wire.encodeResidue xs = .ok s) :
      Wire.RunsOut (Wire.items residueSize Wire.residue) s :=
    Wire.runsOut_items Wire.exact_residue Wire.runsOut_residue residueSize hs
  -- The number of slots is compared once they have all been read, so it is the announced one. The
  -- length of the proof is not compared at all, since the proof is not read to its end.
  refine (Wire.runsOut_opaqueBytes hbatch).bind
    (fun rest => (Wire.exact_opaqueBytes _ _ _).mpr ⟨_, hbatch, rfl⟩) ?_
  refine bundle.server.runsOut_decode.bind
    (fun rest => (Server.exact_decode _ _ _).mpr ⟨_, rfl, rfl⟩) ?_
  refine (Wire.runsOut_word32 _).bind
    (fun rest => (Wire.exact_word32 _ _ _).mpr ⟨_, rfl, rfl⟩) ?_
  refine (hresidues hdata).bind
    (fun rest => (Wire.exact_residues _ _ _).mpr ⟨_, hdata, rfl⟩) ?_
  exact .of_guard (not_not.mpr hdimension.symm) (hresidues hproof).before

/-- A bundle that is cut short anywhere is refused because the input ends, and one that is followed
by bytes is refused with their number. -/
theorem whole_decode_of_cut_or_extended {bundle : Bundle} {s : List UInt8}
    (hflat : bundle.proof.length = BitProof.flatSize bundle.data.length)
    (hs : bundle.encode = .ok s) :
    (∀ t, t <+: s → t ≠ s → ∃ cause, Wire.whole decode t = .error cause ∧ cause.EndOfInput) ∧
      ∀ more, more ≠ [] →
        Wire.whole decode (s ++ more) = .error (.bytesLeftOver more.length) := by
  constructor
  · intro t ht hne
    obtain ⟨cause, hcause, hend⟩ := runsOut_decode hs t ht hne
    refine ⟨cause, ?_, hend⟩
    rw [Wire.whole, hcause]
    rfl
  · intro more hmore
    have hread : decode (s ++ more) = .ok (bundle, more) :=
      (exact_decode _ _ _).mpr ⟨s, ⟨hs, hflat⟩, rfl⟩
    rw [Wire.whole, hread]
    change (if more.isEmpty then _ else _) = _
    rw [if_neg (by simpa using hmore)]
    rfl

/-- A bundle of one slot, cut behind the count of its proof or followed by one byte. -/
theorem whole_decode_of_cut_or_extended_of_one :
    let s : List UInt8 := [0, 2, 105, 100, 1, 0, 0, 0, 1, 0, 0, 0, 1, 1, 0, 0, 0, 0, 0, 0, 5] ++
      List.replicate 20 0
    (⟨[105, 100], .b, [1], List.replicate 5 0⟩ : Bundle).encode = .ok s ∧
      (∃ cause, Wire.whole decode (s.take 21) = .error cause ∧ cause.EndOfInput) ∧
      Wire.whole decode (s ++ [7]) = .error (.bytesLeftOver 1) := by
  intro s
  have hs : (⟨[105, 100], .b, [1], List.replicate 5 0⟩ : Bundle).encode = .ok s := by decide
  obtain ⟨hcut, hmore⟩ := whole_decode_of_cut_or_extended (by decide) hs
  exact ⟨hs, hcut _ (s.take_prefix 21) (by decide), hmore [7] (by decide)⟩

end Bundle

end SplitTally
