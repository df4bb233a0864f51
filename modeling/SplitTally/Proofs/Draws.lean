import SplitTally.Entropy
import SplitTally.Proofs.WireFormat

/-!
# Draws from a stream of words

A drawing computation succeeds exactly when its steps succeed one after the other. A stream of bytes
is a stream of words of four bytes each, with fewer than four bytes left over. A draw passes over
words that it does not accept and takes the first one that it does, and nothing behind this word is
touched. Without such a word it fails behind the last word of the stream.
-/

namespace SplitTally

namespace Draw

variable {ε ε' α β : Type} {e e' : Entropy}

/-- Going on takes place on the rest of the stream. -/
theorem bind_apply (x : Draw ε α) (f : α → Draw ε β) (e : Entropy) : (x >>= f) e =
    match x e with
    | .ok a rest => f a rest
    | .error cause rest => .error cause rest := by
  change EStateM.bind x f e = _
  unfold EStateM.bind
  cases x e <;> rfl

/-- A draw that goes on succeeds if both draws do, one behind the other. -/
theorem bind_eq_ok_iff {x : Draw ε α} {f : α → Draw ε β} {b : β} :
    (x >>= f) e = .ok b e' ↔ ∃ a e₁, x e = .ok a e₁ ∧ f a e₁ = .ok b e' := by
  rw [bind_apply]
  cases x e <;> simp

/-- A result that is there draws nothing. -/
theorem pure_eq_ok_iff {a b : α} : (pure a : Draw ε α) e = .ok b e' ↔ a = b ∧ e = e' := by
  change EStateM.Result.ok a e = .ok b e' ↔ _
  simp

/-- A draw that goes on fails in one of its draws. -/
theorem bind_eq_error_iff {x : Draw ε α} {f : α → Draw ε β} {cause : ε} :
    (x >>= f) e = .error cause e' ↔
      x e = .error cause e' ∨ ∃ a e₁, x e = .ok a e₁ ∧ f a e₁ = .error cause e' := by
  rw [bind_apply]
  cases x e <;> simp

/-- A result that is there is no failure. -/
theorem pure_ne_error {a : α} {cause : ε} : (pure a : Draw ε α) e ≠ .error cause e' := by
  change EStateM.Result.ok a e ≠ _
  simp

/-- A failure is no result. -/
theorem throw_ne_ok {cause : ε} {a : α} : (throw cause : Draw ε α) e ≠ .ok a e' := by
  change EStateM.Result.error cause e ≠ _
  simp

/-- Another name for the errors changes no result. -/
theorem mapError_eq_ok_iff {f : ε → ε'} {x : Draw ε α} {a : α} :
    x.mapError f e = .ok a e' ↔ x e = .ok a e' := by
  unfold mapError
  cases x e <;> simp

/-- The errors are those below, with the other name. -/
theorem mapError_eq_error_iff {f : ε → ε'} {x : Draw ε α} {cause : ε'} :
    x.mapError f e = .error cause e' ↔ ∃ below, x e = .error below e' ∧ f below = cause := by
  unfold mapError
  cases x e <;> simp [and_comm]

/-- The failure is restated for each step by itself. -/
theorem mapError_bind (f : ε → ε') (x : Draw ε α) (g : α → Draw ε β) :
    (x >>= g).mapError f = x.mapError f >>= fun a => (g a).mapError f := by
  funext e
  rw [bind_apply, mapError, bind_apply, mapError]
  cases x e <;> rfl

/-- An outcome that needs no stream draws nothing. -/
theorem ofExcept_eq_ok_iff {r : Except ε α} {a : α} :
    ofExcept r e = .ok a e' ↔ r = .ok a ∧ e = e' := by
  unfold ofExcept
  cases r <;> simp

/-- A failure that needs no stream draws nothing. -/
theorem ofExcept_eq_error_iff {r : Except ε α} {cause : ε} :
    ofExcept r e = .error cause e' ↔ r = .error cause ∧ e' = e := by
  unfold ofExcept
  cases r <;> simp [eq_comm]

/-- A run on a stream has the result that was drawn. -/
theorem runOn_eq_ok_iff {x : Draw ε α} {a : α} : x.runOn e = (.ok a, e') ↔ x e = .ok a e' := by
  unfold runOn
  cases x e <;> simp

end Draw

namespace Words

/-- The successive words of a byte string, each of four bytes, least significant first. Fewer than
four bytes at the end are left out. -/
def ofBytes : List UInt8 → List UInt32
  | a :: b :: c :: d :: rest => ofLE32 a b c d :: ofBytes rest
  | _ => []

private theorem length_toLE32 (w : UInt32) : (toLE32 w).length = 4 := rfl

private theorem ofBytes_toLE32_append (w : UInt32) (s : List UInt8) :
    ofBytes (toLE32 w ++ s) = w :: ofBytes s := by
  change ofLE32 _ _ _ _ :: ofBytes s = _
  rw [ofLE32_bytes]

/-- Words are read back in front of any bytes. -/
theorem ofBytes_flatMap_append (ws : List UInt32) (s : List UInt8) :
    ofBytes (ws.flatMap toLE32 ++ s) = ws ++ ofBytes s := by
  induction ws with
  | nil => rfl
  | cons w ws ih =>
    rw [List.flatMap_cons, List.append_assoc, ofBytes_toLE32_append, ih, List.cons_append]

/-- Every word has four bytes of a stream. -/
theorem length_flatMap_toLE32 (ws : List UInt32) :
    (ws.flatMap toLE32).length = 4 * ws.length := by
  induction ws with
  | nil => rfl
  | cons w ws ih =>
    rw [List.flatMap_cons, List.length_append, ih, length_toLE32, List.length_cons]
    omega

/-- A byte string is made up of its words and fewer than four bytes. -/
theorem exists_eq_append_of_ofBytes (s : List UInt8) :
    ∃ left, s = (ofBytes s).flatMap toLE32 ++ left ∧ left.length < 4 := by
  fun_induction ofBytes s with
  | case1 a b c d rest ih =>
    obtain ⟨left, hrest, hleft⟩ := ih
    refine ⟨left, ?_, hleft⟩
    rw [List.flatMap_cons, toLE32_ofLE32, List.append_assoc, ← hrest]
    rfl
  | case2 s hshort =>
    refine ⟨s, rfl, ?_⟩
    match s with
    | [] | [_] | [_, _] | [_, _, _] => simp
    | a :: b :: c :: d :: rest => exact absurd rfl (hshort a b c d rest)

/-- The bytes that are left over have no word. -/
theorem ofBytes_of_short {s : List UInt8} (h : s.length < 4) : ofBytes s = [] := by
  match s with
  | [] | [_] | [_, _] | [_, _, _] => rfl
  | _ :: _ :: _ :: _ :: _ => simp at h; omega

end Words

namespace Entropy

/-- The successive words of a stream. -/
def words (e : Entropy) : List UInt32 := Words.ofBytes e.bytes

/-- The words below the modulus. -/
def accepted (words : List UInt32) : List UInt32 := words.filter fun w => w.toNat < modulus

end Entropy

open Entropy (accepted)

namespace Residue

variable {select : UInt32 → Option Residue} {r : Residue} {s rest : List UInt8} {e e' : Entropy}

/-! ### The first word that is selected -/

private theorem firstSelected_toLE32_append (w : UInt32) (s : List UInt8) :
    firstSelected select (Words.toLE32 w ++ s) = match select w with
      | some r => (some r, s)
      | none => firstSelected select s := by
  change firstSelected select (_ :: _ :: _ :: _ :: s) = _
  cases h : select w <;> simp only [firstSelected, Words.ofLE32_bytes, h]

/-- The first word that is selected is found behind words that are not. -/
theorem firstSelected_eq_some_iff : firstSelected select s = (some r, rest) ↔
    ∃ passed w, s = (passed ++ [w]).flatMap Words.toLE32 ++ rest ∧
      (∀ u ∈ passed, select u = none) ∧ select w = some r := by
  constructor
  · intro h
    fun_induction firstSelected select s with
    | case1 a b c d s r' hselected =>
      cases h
      refine ⟨[], _, ?_, by simp, hselected⟩
      simp [Words.toLE32_ofLE32]
    | case2 a b c d s hrefused ih =>
      obtain ⟨passed, w, rfl, hpassed, hselected⟩ := ih h
      refine ⟨Words.ofLE32 a b c d :: passed, w, ?_, ?_, hselected⟩
      · simp [Words.toLE32_ofLE32]
      · simpa [hrefused] using hpassed
    | case3 short => cases h
  · rintro ⟨passed, w, rfl, hpassed, hselected⟩
    induction passed with
    | nil =>
      rw [List.nil_append, List.flatMap_singleton, firstSelected_toLE32_append, hselected]
    | cons u passed ih =>
      obtain ⟨hu, hpassed⟩ := List.forall_mem_cons.mp hpassed
      rw [List.cons_append, List.flatMap_cons, List.append_assoc, firstSelected_toLE32_append, hu]
      exact ih hpassed

/-- Without a word that is selected all words are passed over. -/
theorem firstSelected_eq_none_iff : firstSelected select s = (none, rest) ↔
    (∀ w ∈ Words.ofBytes s, select w = none) ∧
      s = (Words.ofBytes s).flatMap Words.toLE32 ++ rest := by
  fun_induction firstSelected select s with
  | case1 a b c d s r' hselected => simp [Words.ofBytes, hselected]
  | case2 a b c d s hrefused ih => simp [Words.ofBytes, hrefused, ih, Words.toLE32_ofLE32]
  | case3 short hshort =>
    have hnone : Words.ofBytes short = [] := by
      rw [Words.ofBytes]
      exact hshort
    simp [hnone]

/-! ### Draws -/

/-- A word is taken for the residue that it is the representative of. -/
theorem ofWord?_eq_some_iff {w : UInt32} : ofWord? w = some r ↔ r.val = w := by
  unfold ofWord?
  split
  · next hlt =>
    rw [Option.some.injEq]
    constructor
    · rintro rfl
      rfl
    · rintro rfl
      rfl
  · next hlt =>
    simp only [reduceCtorEq, false_iff]
    rintro rfl
    exact hlt r.val_lt

variable {accept : Residue → Bool}

private theorem select_eq_none_iff {w : UInt32} : (ofWord? w).filter accept = none ↔
    ∀ r : Residue, r.val = w → accept r = false := by
  simp only [Option.filter_eq_none_iff, ofWord?_eq_some_iff, Bool.not_eq_true]

/-- A draw takes the first word of a residue that is accepted, and the words before it. -/
theorem drawAccepted_eq_ok_iff : drawAccepted accept e = .ok r e' ↔
    ∃ passed, e.bytes = (passed ++ [r.val]).flatMap Words.toLE32 ++ e'.bytes ∧
      (∀ u ∈ passed, ∀ r : Residue, r.val = u → accept r = false) ∧ accept r = true := by
  have hselected : drawAccepted accept e = .ok r e' ↔
      firstSelected (fun w => (ofWord? w).filter accept) e.bytes = (some r, e'.bytes) := by
    unfold drawAccepted
    rcases firstSelected (fun w => (ofWord? w).filter accept) e.bytes with ⟨_ | r', rest⟩
    · simp
    · cases e'
      simp
  rw [hselected, firstSelected_eq_some_iff]
  simp only [select_eq_none_iff, Option.filter_eq_some_iff, ofWord?_eq_some_iff]
  constructor
  · rintro ⟨passed, w, hbytes, hpassed, rfl, haccept⟩
    exact ⟨passed, hbytes, hpassed, haccept⟩
  · rintro ⟨passed, hbytes, hpassed, haccept⟩
    exact ⟨passed, r.val, hbytes, hpassed, rfl, haccept⟩

/-- A draw fails when no word of the stream is that of a residue that is accepted, and then all
words are taken. -/
theorem drawAccepted_eq_error_iff {cause : ResidueError} :
    drawAccepted accept e = .error cause e' ↔ cause = .entropy ∧
      (∀ w ∈ e.words, ∀ r : Residue, r.val = w → accept r = false) ∧
      e.bytes = e.words.flatMap Words.toLE32 ++ e'.bytes := by
  have hselected : drawAccepted accept e = .error cause e' ↔ cause = .entropy ∧
      firstSelected (fun w => (ofWord? w).filter accept) e.bytes = (none, e'.bytes) := by
    unfold drawAccepted
    rcases firstSelected (fun w => (ofWord? w).filter accept) e.bytes with ⟨_ | r', rest⟩
    · cases e'
      simp [eq_comm]
    · simp
  rw [hselected, firstSelected_eq_none_iff]
  simp only [select_eq_none_iff, Entropy.words]

/-- No word is below the modulus when none is that of a residue. -/
theorem accepted_eq_nil_iff {ws : List UInt32} :
    accepted ws = [] ↔ ∀ w ∈ ws, ∀ r : Residue, ¬ r.val = w := by
  simp only [accepted, List.filter_eq_nil_iff, decide_eq_true_eq]
  refine forall₂_congr fun w _ => ⟨?_, fun h hlt => h ⟨w, hlt⟩ rfl⟩
  rintro hlarge r rfl
  exact hlarge r.val_lt

/-- A draw takes the first word below the modulus, and the words before it. -/
theorem draw_eq_ok_iff : draw e = .ok r e' ↔
    ∃ passed, e.bytes = (passed ++ [r.val]).flatMap Words.toLE32 ++ e'.bytes ∧
      accepted passed = [] := by
  rw [draw, drawAccepted_eq_ok_iff]
  simp only [accepted_eq_nil_iff, Bool.true_eq_false, imp_false, and_true]

/-- A draw fails when no word is below the modulus, and then all words are taken. -/
theorem draw_eq_error_iff {cause : ResidueError} : draw e = .error cause e' ↔
    cause = .entropy ∧ accepted e.words = [] ∧
      e.bytes = e.words.flatMap Words.toLE32 ++ e'.bytes := by
  rw [draw, drawAccepted_eq_error_iff]
  simp only [accepted_eq_nil_iff, Bool.true_eq_false, imp_false]

/-! ### Draws one after the other -/

/-- Of the words that are taken those below the modulus hold the masks, and the last one is among
them. -/
structure TakenFor (masks : List Residue) (taken : List UInt32) : Prop where
  /-- The words below the modulus. -/
  accepted_eq : accepted taken = masks.map Residue.val
  /-- The last word. -/
  stops : ∀ w ∈ taken.getLast?, w.toNat < modulus

/-- For no residues no words are taken. -/
theorem takenFor_nil_iff {taken : List UInt32} : TakenFor [] taken ↔ taken = [] := by
  constructor
  · rintro ⟨hnone, hstops⟩
    by_contra hne
    have hlast := hstops _ (List.getLast?_eq_some_getLast hne)
    have hmem : taken.getLast hne ∈ accepted taken :=
      List.mem_filter.mpr ⟨List.getLast_mem hne, by simpa using hlast⟩
    rw [hnone] at hmem
    cases hmem
  · rintro rfl
    exact ⟨rfl, by simp⟩

/-- The words of one mask more are words that are passed over, that of the mask, and the words of
the others. -/
theorem takenFor_cons_iff {masks : List Residue} {taken : List UInt32} :
    TakenFor (r :: masks) taken ↔ ∃ passed taken', taken = passed ++ r.val :: taken' ∧
      accepted passed = [] ∧ TakenFor masks taken' := by
  have hlt := r.val_lt
  constructor
  · rintro ⟨haccepted, hstops⟩
    obtain ⟨passed, taken', rfl, hpassed, -, hrest⟩ := List.filter_eq_cons_iff.mp haccepted
    refine ⟨passed, taken', rfl, List.filter_eq_nil_iff.mpr hpassed, hrest, fun w hw => ?_⟩
    refine hstops w ?_
    rw [List.getLast?_append, List.getLast?_cons, hw]
    simp
  · rintro ⟨passed, taken', rfl, hpassed, htaken⟩
    refine ⟨?_, fun w hw => ?_⟩
    · have hrest := htaken.accepted_eq
      simp only [accepted, List.filter_append] at hpassed hrest ⊢
      rw [hpassed, List.nil_append, List.filter_cons_of_pos (by simpa using hlt), hrest,
        List.map_cons]
    · rw [List.getLast?_append, List.getLast?_cons] at hw
      cases hlast : taken'.getLast? with
      | none =>
        obtain rfl : r.val = w := by simpa [hlast] using hw
        exact hlt
      | some v =>
        obtain rfl : v = w := by simpa [hlast] using hw
        exact htaken.stops v hlast

/-- Words that are taken from a stream stand in front of the words of what is left. -/
theorem words_eq_append {taken : List UInt32}
    (h : e.bytes = taken.flatMap Words.toLE32 ++ e'.bytes) : e.words = taken ++ e'.words := by
  rw [Entropy.words, h, Words.ofBytes_flatMap_append, Entropy.words]

/-- Drawing residues takes the words up to the last one that is needed. -/
theorem drawOnto_eq_ok_iff {drawn rs : List Residue} {n : ℕ} : drawOnto drawn n e = .ok rs e' ↔
    ∃ masks taken, rs = drawn.reverse ++ masks ∧ masks.length = n ∧ TakenFor masks taken ∧
      e.bytes = taken.flatMap Words.toLE32 ++ e'.bytes := by
  induction n generalizing drawn e with
  | zero =>
    rw [drawOnto, Draw.pure_eq_ok_iff]
    constructor
    · rintro ⟨rfl, rfl⟩
      exact ⟨[], [], by simp, rfl, takenFor_nil_iff.mpr rfl, rfl⟩
    · rintro ⟨masks, taken, rfl, hmasks, htaken, hbytes⟩
      obtain rfl := List.length_eq_zero_iff.mp hmasks
      obtain rfl := takenFor_nil_iff.mp htaken
      exact ⟨by simp, by cases e; cases e'; simpa using hbytes⟩
  | succ n ih =>
    simp only [drawOnto, Draw.bind_eq_ok_iff, ih, draw_eq_ok_iff]
    constructor
    · rintro ⟨r, e₁, ⟨passed, hbytes, hpassed⟩, masks, taken, rfl, rfl, htaken, hrest⟩
      refine ⟨r :: masks, passed ++ r.val :: taken, by simp, rfl,
        takenFor_cons_iff.mpr ⟨passed, taken, rfl, hpassed, htaken⟩, ?_⟩
      rw [hbytes, hrest]
      simp
    · rintro ⟨masks, taken, rfl, hmasks, htaken, hbytes⟩
      obtain ⟨r, masks, rfl⟩ := List.exists_cons_of_length_eq_add_one hmasks
      obtain ⟨passed, taken', rfl, hpassed, htaken'⟩ := takenFor_cons_iff.mp htaken
      refine ⟨r, ⟨taken'.flatMap Words.toLE32 ++ e'.bytes⟩, ⟨passed, ?_, hpassed⟩, masks, taken',
        by simp, by simpa using hmasks, htaken', rfl⟩
      rw [hbytes]
      simp

/-- A draw takes one of the words below the modulus. -/
theorem length_accepted_of_draw (h : draw e = .ok r e') :
    (accepted e.words).length = (accepted e'.words).length + 1 := by
  obtain ⟨passed, hbytes, hpassed⟩ := draw_eq_ok_iff.mp h
  have hlt := r.val_lt
  unfold accepted at hpassed ⊢
  rw [words_eq_append hbytes, List.filter_append, List.filter_append, hpassed]
  simp [hlt]

/-- What stands behind the last word of the stream stays the same when some words are drawn. -/
theorem bytes_eq_iff_of_draw {last : List UInt8} (h : draw e = .ok r e') :
    e.bytes = e.words.flatMap Words.toLE32 ++ last ↔
      e'.bytes = e'.words.flatMap Words.toLE32 ++ last := by
  obtain ⟨passed, hbytes, -⟩ := draw_eq_ok_iff.mp h
  rw [words_eq_append hbytes, hbytes]
  simp only [List.flatMap_append, List.append_assoc, List.append_cancel_left_eq]

/-- Drawing residues fails when fewer words are below the modulus, and then all words are taken. -/
theorem drawOnto_eq_error_iff {drawn : List Residue} {n : ℕ} {cause : ResidueError} :
    drawOnto drawn n e = .error cause e' ↔ cause = .entropy ∧
      (accepted e.words).length < n ∧ e.bytes = e.words.flatMap Words.toLE32 ++ e'.bytes := by
  induction n generalizing drawn e with
  | zero => simp [drawOnto, Draw.pure_ne_error]
  | succ n ih =>
    rw [drawOnto, Draw.bind_eq_error_iff]
    simp only [ih, draw_eq_error_iff]
    constructor
    · rintro (⟨rfl, hnone, hbytes⟩ | ⟨r, e₁, hdraw, rfl, hfew, hbytes⟩)
      · exact ⟨rfl, by simp [hnone], hbytes⟩
      · have hcount := length_accepted_of_draw hdraw
        exact ⟨rfl, by omega, (bytes_eq_iff_of_draw hdraw).mpr hbytes⟩
    · rintro ⟨rfl, hfew, hbytes⟩
      cases hdraw : draw e with
      | error cause e₁ =>
        obtain ⟨-, hnone, -⟩ := draw_eq_error_iff.mp hdraw
        exact .inl ⟨rfl, hnone, hbytes⟩
      | ok r e₁ =>
        have hcount := length_accepted_of_draw hdraw
        exact .inr ⟨r, e₁, rfl, rfl, by omega, (bytes_eq_iff_of_draw hdraw).mp hbytes⟩

/-- Residues are drawn when the stream begins with the words that are taken for them. -/
theorem drawMany_eq_ok_iff {masks : List Residue} {n : ℕ} : drawMany n e = .ok masks e' ↔
    ∃ taken, masks.length = n ∧ TakenFor masks taken ∧
      e.bytes = taken.flatMap Words.toLE32 ++ e'.bytes := by
  rw [drawMany, drawOnto_eq_ok_iff]
  constructor
  · rintro ⟨masks, taken, rfl, h⟩
    exact ⟨taken, h⟩
  · rintro ⟨taken, h⟩
    exact ⟨masks, taken, rfl, h⟩

/-- Residues can be drawn as long as there are words below the modulus. -/
theorem exists_drawMany_eq_ok_iff {n : ℕ} : (∃ masks e', drawMany n e = .ok masks e') ↔
    n ≤ (accepted e.words).length := by
  rw [← Nat.not_lt]
  constructor
  · rintro ⟨masks, e', hdrawn⟩ hfew
    obtain ⟨left, hbytes, -⟩ := Words.exists_eq_append_of_ofBytes e.bytes
    have hfail : drawMany n e = .error .entropy ⟨left⟩ :=
      drawOnto_eq_error_iff.mpr ⟨rfl, hfew, hbytes⟩
    rw [hdrawn] at hfail
    cases hfail
  · intro hmany
    cases hdrawn : drawMany n e with
    | ok masks e' => exact ⟨masks, e', rfl⟩
    | error cause e' => exact absurd (drawOnto_eq_error_iff.mp hdrawn).2.1 hmany

/-- The residues drawn are the first ones of the stream. -/
theorem map_val_of_drawMany {masks : List Residue} {n : ℕ} (h : drawMany n e = .ok masks e') :
    masks.map val = (accepted e.words).take n := by
  obtain ⟨taken, hmasks, htaken, hbytes⟩ := drawMany_eq_ok_iff.mp h
  have hsplit : accepted e.words = accepted taken ++ accepted e'.words := by
    rw [words_eq_append hbytes, accepted, List.filter_append, accepted, accepted]
  rw [hsplit, htaken.accepted_eq, List.take_left' (by rw [List.length_map, hmasks])]

end Residue

end SplitTally
