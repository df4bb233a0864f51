import SplitTally.Proofs.Draws
import SplitTally.Proofs.Sharing

/-!
# Shares from a stream of words

A vector is split with the first words of a stream that are below the modulus, and nothing behind
the last of them is touched. Without words to refuse every vector of masks comes from exactly one
byte string.
-/

namespace SplitTally

open Entropy (accepted)

namespace Residue

variable {r : Residue} {e e' : Entropy}

/-- Drawing onto residues puts the new ones behind them. -/
theorem drawOnto_eq_map (drawn : List Residue) (n : ℕ) :
    drawOnto drawn n = (drawn.reverse ++ ·) <$> drawMany n := by
  induction n generalizing drawn with
  | zero => simp [drawMany, drawOnto]
  | succ n ih =>
    rw [drawMany, drawOnto, drawOnto, map_bind]
    refine bind_congr fun r => ?_
    rw [ih, ih [r], ← comp_map]
    congr 1
    funext rs
    simp

/-- One residue more is one that is drawn first. -/
theorem drawMany_succ (n : ℕ) : drawMany (n + 1) = do
    let r ← draw
    let rs ← drawMany n
    return r :: rs := by
  rw [drawMany, drawOnto]
  refine bind_congr fun r => ?_
  rw [drawOnto_eq_map, map_eq_pure_bind]
  rfl

end Residue

namespace Share

/-- A vector is split one residue after the other. -/
theorem splitVector_eq_mapM (xs : List Residue) :
    splitVector xs = List.unzip <$> xs.mapM split := by
  induction xs with
  | nil => rfl
  | cons x xs ih =>
    have hcons : splitVector (x :: xs) = do
        let pair ← split x
        let shares ← splitVector xs
        return (pair.1 :: shares.1, pair.2 :: shares.2) := by
      simp [splitVector, split, Residue.drawMany_succ]
    rw [hcons, ih]
    simp

/-- A byte string of so many words, none of which is refused. -/
structure WithoutRefusal (n : ℕ) (s : List UInt8) : Prop where
  /-- There are four bytes for each word. -/
  length_eq : s.length = 4 * n
  /-- All words are below the modulus. -/
  below : ∀ w ∈ Words.ofBytes s, w.toNat < modulus

/-- A byte string without words that are refused is that of the words below the modulus. -/
theorem WithoutRefusal.eq_flatMap {n : ℕ} {s : List UInt8} (h : WithoutRefusal n s) :
    s = ((accepted (Words.ofBytes s)).take n).flatMap Words.toLE32 := by
  obtain ⟨left, hs, hleft⟩ := Words.exists_eq_append_of_ofBytes s
  have hlength := congrArg List.length hs
  rw [List.length_append, Words.length_flatMap_toLE32, h.length_eq] at hlength
  have hnone : left = [] := List.length_eq_zero_iff.mp (by omega)
  have hcount : (Words.ofBytes s).length = n := by omega
  have hall : accepted (Words.ofBytes s) = Words.ofBytes s :=
    List.filter_eq_self.mpr fun w hw => by simpa using h.below w hw
  rw [hall, ← hcount, List.take_length]
  simpa [hnone] using hs

/-- The words of residues are a stream without a refusal. -/
theorem withoutRefusal_flatMap (masks : List Residue) :
    WithoutRefusal masks.length ((masks.map Residue.val).flatMap Words.toLE32) := by
  refine ⟨by rw [Words.length_flatMap_toLE32, List.length_map], fun w hw => ?_⟩
  have hwords := Words.ofBytes_flatMap_append (masks.map Residue.val) []
  rw [List.append_nil] at hwords
  rw [hwords, Words.ofBytes_of_short (by decide), List.append_nil] at hw
  obtain ⟨mask, -, rfl⟩ := List.mem_map.mp hw
  exact mask.val_lt

/-- Without words to refuse the masks come from the byte string of their words only. -/
theorem exists_splitVector_eq_ok_iff {xs masks : List Residue} (hmasks : masks.length = xs.length)
    {s : List UInt8} (hs : WithoutRefusal xs.length s) :
    (∃ others rest, splitVector xs ⟨s⟩ = .ok (masks, others) rest) ↔
      s = (masks.map Residue.val).flatMap Words.toLE32 := by
  constructor
  · rintro ⟨others, rest, hsplit⟩
    obtain ⟨masks', hdrawn, hshares⟩ := splitVector_eq_ok_iff.mp hsplit
    obtain ⟨rfl, -⟩ := Prod.mk.inj hshares
    rw [Residue.map_val_of_drawMany hdrawn]
    exact hs.eq_flatMap
  · rintro rfl
    have hdrawn := Residue.drawMany_encodeResidue masks []
    refine ⟨_, ⟨[]⟩, splitVector_eq_ok_iff.mpr ⟨masks, ?_, rfl⟩⟩
    rw [List.append_nil] at hdrawn
    rw [← hmasks, List.flatMap_map]
    exact hdrawn

/-- A vector is split one residue after the other. This succeeds exactly when the stream has as many
words below the modulus as the vector has residues. The masks are then the first such words, the
bytes that are taken end with the last of them, and the shares add up to the vector. With fewer such
words the stream gives out after its last word. Every vector of masks comes from exactly one byte
string without words that are refused. -/
theorem splitVector_takes_first_accepted (xs : List Residue) :
    splitVector xs = List.unzip <$> xs.mapM split ∧
    (∀ e : Entropy,
      ((∃ shares rest, splitVector xs e = .ok shares rest) ↔
        xs.length ≤ (accepted e.words).length) ∧
      (∀ masks others rest, splitVector xs e = .ok (masks, others) rest →
        masks.map Residue.val = (accepted e.words).take xs.length ∧
        reconstruct? masks others = some xs ∧
        ∃ taken, e.bytes = taken.flatMap Words.toLE32 ++ rest.bytes ∧
          accepted taken = masks.map Residue.val ∧
          ∀ w ∈ taken.getLast?, w.toNat < modulus) ∧
      ((accepted e.words).length < xs.length → ∃ left,
        splitVector xs e = .error .entropy ⟨left⟩ ∧ left.length < 4 ∧
        e.bytes = e.words.flatMap Words.toLE32 ++ left)) ∧
    ∀ masks : List Residue, masks.length = xs.length →
      ∃! s : List UInt8, WithoutRefusal xs.length s ∧
        ∃ others rest, splitVector xs ⟨s⟩ = .ok (masks, others) rest := by
  refine ⟨splitVector_eq_mapM xs, fun e => ⟨?_, ?_, ?_⟩, fun masks hmasks => ?_⟩
  · rw [← Residue.exists_drawMany_eq_ok_iff]
    simp only [splitVector_eq_ok_iff]
    exact ⟨fun ⟨_, rest, masks, hdrawn, _⟩ => ⟨masks, rest, hdrawn⟩,
      fun ⟨masks, rest, hdrawn⟩ => ⟨_, rest, masks, hdrawn, rfl⟩⟩
  · intro masks others rest hsplit
    obtain ⟨masks', hdrawn, hshares⟩ := splitVector_eq_ok_iff.mp hsplit
    obtain ⟨rfl, rfl⟩ := Prod.mk.inj hshares
    obtain ⟨taken, hmasks, htaken, hbytes⟩ := Residue.drawMany_eq_ok_iff.mp hdrawn
    exact ⟨Residue.map_val_of_drawMany hdrawn, reconstruct?_zipWith_sub hmasks, taken, hbytes,
      htaken.accepted_eq, htaken.stops⟩
  · intro hfew
    obtain ⟨left, hbytes, hleft⟩ := Words.exists_eq_append_of_ofBytes e.bytes
    have hfail : Residue.drawMany xs.length e = .error .entropy ⟨left⟩ :=
      Residue.drawOnto_eq_error_iff.mpr ⟨rfl, hfew, hbytes⟩
    exact ⟨left, Draw.bind_eq_error_iff.mpr (.inl hfail), hleft, hbytes⟩
  · refine ⟨(masks.map Residue.val).flatMap Words.toLE32, ⟨?_, ?_⟩, fun s ⟨hs, hsplit⟩ => ?_⟩
    · exact hmasks ▸ withoutRefusal_flatMap masks
    · exact (exists_splitVector_eq_ok_iff hmasks (hmasks ▸ withoutRefusal_flatMap masks)).mpr rfl
    · exact (exists_splitVector_eq_ok_iff hmasks hs).mp hsplit

/-- The greatest word is refused, the next one is the mask, and a byte is left. On the bytes in
front of the last one of the mask the stream gives out behind the first word. Without refusal the
mask comes from its own four bytes. -/
theorem splitVector_takes_first_accepted_of_one :
    (∃ others, splitVector [1] ⟨[255, 255, 255, 255, 7, 0, 0, 0, 9]⟩ =
        .ok ([⟨7, by decide⟩], others) ⟨[9]⟩ ∧
      reconstruct? [⟨7, by decide⟩] others = some [1]) ∧
    splitVector [1] ⟨[255, 255, 255, 255, 7, 0, 0]⟩ = .error .entropy ⟨[7, 0, 0]⟩ ∧
    ∃! s : List UInt8, WithoutRefusal 1 s ∧
      ∃ others rest, splitVector [1] ⟨s⟩ = .ok ([⟨7, by decide⟩], others) rest := by
  obtain ⟨-, hstream, hunique⟩ := splitVector_takes_first_accepted [1]
  have hsplit : splitVector [1] ⟨[255, 255, 255, 255, 7, 0, 0, 0, 9]⟩ =
      .ok ([⟨7, by decide⟩], [1 - ⟨7, by decide⟩]) ⟨[9]⟩ := rfl
  obtain ⟨-, hback, -⟩ := (hstream _).2.1 _ _ _ hsplit
  obtain ⟨left, hfail, -, hleft⟩ := (hstream ⟨[255, 255, 255, 255, 7, 0, 0]⟩).2.2 (by decide)
  have hwords : [255, 255, 255, 255] ++ [7, 0, 0] = [255, 255, 255, 255] ++ left := hleft
  obtain rfl := List.append_cancel_left hwords
  exact ⟨⟨_, hsplit, hback⟩, hfail, hunique [⟨7, by decide⟩] rfl⟩

end Share

end SplitTally
