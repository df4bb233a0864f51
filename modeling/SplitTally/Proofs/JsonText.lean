import Mathlib.Algebra.Group.Nat.Defs
import Mathlib.Data.List.Basic
import Mathlib.Data.List.Forall2
import Mathlib.Tactic.IntervalCases
import SplitTally.Json.Reader
import SplitTally.Json.Writer

/-!
# JSON text is read back

What is written as a string or as a number is read back as what it was written for, whatever follows
it, as long as that does not continue a number. An object or a list is read as its members or its
elements are, one after the other.
-/

namespace SplitTally.Json

/-! ### Steps of readers -/

section Steps

variable {α β : Type} {x : Reader α} {text rest : List Char} {a : α}

/-- A reader goes on with what the first step has left. -/
theorem bind_of_ok (f : α → Reader β) (h : x text = .ok (a, rest)) :
    (x >>= f) text = f a rest := by
  change (x text >>= fun p => f p.1 p.2) = _
  rw [h]
  rfl

private theorem map_of_ok (f : α → β) (h : x text = .ok (a, rest)) :
    (f <$> x) text = .ok (f a, rest) := by
  change (x text >>= fun p => pure (f p.1, p.2)) = _
  rw [h]
  rfl

private theorem skipBlanks_cons {c : Char} (h : isBlank c = true) (text : List Char) :
    skipBlanks (c :: text) = skipBlanks text :=
  List.dropWhile_cons_of_pos h

private theorem skipBlanks_eq_self {c : Char} (h : isBlank c = false) (text : List Char) :
    skipBlanks (c :: text) = c :: text :=
  List.dropWhile_cons_of_neg (by rw [h]; decide)

end Steps

/-! ### Strings -/

/-- The digits of a number below 32 are read as the number. -/
private theorem hexUnit?_hexDigit {n : ℕ} (h : n < 0x20) :
    hexUnit? '0' '0' (hexDigit (n / 16)) (hexDigit (n % 16)) = some n := by
  revert n
  decide

/-- A written character is read as the character. -/
theorem stringOnto_escape (done : List Char) (c : Char) (rest : List Char) :
    stringOnto done (escape c ++ rest) = stringOnto (c :: done) rest := by
  unfold escape
  split_ifs with hquote hb hf hn hr ht hcontrol
  · rcases hquote with rfl | rfl <;> rfl
  · subst hb
    rfl
  · subst hf
    rfl
  · subst hn
    rfl
  · subst hr
    rfl
  · subst ht
    rfl
  · have hsmall : c.toNat < 0x20 := hcontrol
    have hunit := hexUnit?_hexDigit hsmall
    have htrailing : isTrailing c.toNat = false := by
      simp [isTrailing]
      omega
    have hleading : isLeading c.toNat = false := by
      simp [isLeading]
      omega
    simp only [List.cons_append, List.nil_append, stringOnto, hunit, htrailing, hleading,
      Bool.false_eq_true, if_false, Char.ofNat_toNat]
  · rw [List.singleton_append, stringOnto.eq_def]
    split
    case h_7 heq =>
      cases heq
      exact if_neg hcontrol
    all_goals simp_all

/-- Written characters are read up to the quote behind them. -/
theorem stringOnto_flatMap_escape (done cs rest : List Char) :
    stringOnto done (cs.flatMap escape ++ '"' :: rest) = .ok (done.reverse ++ cs, rest) := by
  induction cs generalizing done with
  | nil => simp [stringOnto]
  | cons c cs ih =>
    rw [List.flatMap_cons, List.append_assoc, stringOnto_escape, ih, List.reverse_cons,
      List.append_assoc, List.singleton_append]

/-- A written string is read back behind its first quote. -/
theorem stringBody_flatMap_escape (s : String) (rest : List Char) :
    stringBody (s.toList.flatMap escape ++ '"' :: rest) = .ok (s, rest) := by
  rw [stringBody, stringOnto_flatMap_escape]
  simp

/-! ### Numbers -/

/-- What follows a number does not continue it. -/
def EndsNumber (rest : List Char) : Prop :=
  ∀ c, rest.head? = some c → c.isDigit = false ∧ c ≠ '.' ∧ c ≠ 'e' ∧ c ≠ 'E'

variable {rest : List Char}

private theorem endsNumber_cons {c : Char} {text : List Char}
    (h : c.isDigit = false ∧ c ≠ '.' ∧ c ≠ 'e' ∧ c ≠ 'E') : EndsNumber (c :: text) := by
  intro d hd
  cases hd
  exact h

private theorem le_ofDigitChars (digits : List Char) (value : ℕ) :
    value ≤ Nat.ofDigitChars 10 digits value := by
  induction digits generalizing value with
  | nil => exact le_rfl
  | cons c digits ih =>
    calc value ≤ 10 * value + (c.toNat - '0'.toNat) := by omega
      _ ≤ Nat.ofDigitChars 10 (c :: digits) value := ih _

/-- Digits of a number that fits in a word are all taken in. -/
private theorem digitsOnto_append (hrest : EndsNumber rest) {digits : List Char} {value : ℕ}
    (hdigits : ∀ c ∈ digits, c.isDigit = true)
    (hvalue : Nat.ofDigitChars 10 digits value < wordRange) :
    digitsOnto value 0 (digits ++ rest) = (Nat.ofDigitChars 10 digits value, 0, rest) := by
  induction digits generalizing value with
  | nil =>
    cases rest with
    | nil => rfl
    | cons c rest =>
      have hc := (hrest c rfl).1
      simp [digitsOnto, digit?, hc, Nat.ofDigitChars]
  | cons c digits ih =>
    rw [List.forall_mem_cons] at hdigits
    have hnext : Nat.ofDigitChars 10 (c :: digits) value =
        Nat.ofDigitChars 10 digits (value * 10 + (c.toNat - 0x30)) := by
      rw [mul_comm]
      rfl
    rw [hnext] at hvalue ⊢
    have hfront := (le_ofDigitChars digits _).trans_lt hvalue
    rw [List.cons_append, digitsOnto, digit?, if_pos hdigits.1]
    simp only [true_and, if_pos hfront]
    exact ih hdigits.2 hvalue

/-- The first digit of a number other than zero is not zero. -/
private theorem head?_toDigits {n : ℕ} (hn : n ≠ 0) : (Nat.toDigits 10 n).head? ≠ some '0' := by
  induction n using Nat.strong_induction_on with
  | _ n ih =>
    by_cases hsmall : n < 10
    · rw [Nat.toDigits_of_lt_base hsmall]
      interval_cases n <;> simp_all [Nat.digitChar]
    · have hnext := ih (n / 10) (by omega) (by omega)
      rw [Nat.toDigits_of_base_le (by decide) (by omega),
        List.head?_append_of_ne_nil _ Nat.toDigits_ne_nil]
      exact hnext

private theorem afterInteger_eq (hrest : EndsNumber rest) (value : ℕ) :
    number.afterInteger value 0 rest = .ok (some value, rest) := by
  unfold number.afterInteger
  split
  · exact absurd rfl (hrest _ rfl).2.1
  · exact absurd rfl (hrest _ rfl).2.2.1
  · exact absurd rfl (hrest _ rfl).2.2.2
  · rfl

/-- A written number that fits in a word is read back. -/
theorem number_writeNat {n : ℕ} (hn : n < wordRange) (hrest : EndsNumber rest) :
    number (writeNat n ++ rest) = .ok (some n, rest) := by
  have hdigits : ∀ c ∈ Nat.toDigits 10 n, c.isDigit = true := fun c hc =>
    Nat.isDigit_of_mem_toDigits (by decide) (by decide) hc
  have hvalue : Nat.ofDigitChars 10 (Nat.toDigits 10 n) 0 = n := Nat.ofDigitChars_ten_toDigits
  rcases eq_or_ne n 0 with rfl | hzero
  · -- a zero is read by itself, so that no other digit may follow it
    cases rest with
    | nil => rfl
    | cons c rest =>
      have hc := (hrest c rfl).1
      change (if c.isDigit then _ else number.afterInteger 0 0 (c :: rest)) = _
      rw [hc, if_neg Bool.false_ne_true, afterInteger_eq hrest]
  · have hfirst := head?_toDigits hzero
    unfold writeNat
    generalize hcs : Nat.toDigits 10 n = cs at hdigits hvalue hfirst
    cases cs with
    | nil => exact absurd hcs Nat.toDigits_ne_nil
    | cons c cs =>
      rw [List.forall_mem_cons] at hdigits
      have hne : c ≠ '0' := fun h => hfirst (h ▸ rfl)
      have htail : Nat.ofDigitChars 10 cs (c.toNat - 0x30) = n := by
        rw [← hvalue]
        simp [Nat.ofDigitChars]
      have honto := digitsOnto_append hrest hdigits.2 (htail.trans_lt hn)
      rw [List.cons_append, number.eq_def]
      split
      · cases ‹c :: _ = []›
      · simp_all
      · simp_all [digit?, afterInteger_eq hrest]

/-! ### Values -/

/-- The reader takes the text for the value, in front of anything that does not continue a
number. -/
def Reads {α : Type} (x : Reader α) (text : List Char) (a : α) : Prop :=
  ∀ rest, EndsNumber rest → x (text ++ rest) = .ok (a, rest)

private theorem quote_append (s : String) (rest : List Char) :
    quote s ++ rest = '"' :: (s.toList.flatMap escape ++ '"' :: rest) := by
  simp [quote]

/-- A quoted text is read back. -/
theorem reads_string_quote (s : String) : Reads string (quote s) s := by
  intro rest hrest
  rw [quote_append, string, skipBlanks_eq_self (by decide)]
  exact stringBody_flatMap_escape s rest

/-- How deep a value may be nested decides about lists and objects only. -/
private theorem value_of_forall {text : List Char} {result : Except Fault (Value × List Char)}
    (h : ∀ inner, valueOver inner text = result) (depth : ℕ) : value depth text = result := by
  cases depth with
  | zero => exact h none
  | succ depth => exact h (some (value depth))

/-- A written string is read as a value, at any depth. -/
theorem reads_value_quote (depth : ℕ) (s : String) : Reads (value depth) (quote s) (.text s) := by
  intro rest hrest
  refine value_of_forall (fun inner => ?_) depth
  rw [quote_append, valueOver, skipBlanks_eq_self (by decide)]
  exact map_of_ok _ (stringBody_flatMap_escape s rest)

/-- A written number is read as a value, at any depth. -/
theorem reads_value_writeNat (depth : ℕ) {n : ℕ} (hn : n < wordRange) :
    Reads (value depth) (writeNat n) (.whole n) := by
  intro rest hrest
  have hnumber := map_of_ok Value.ofNumber (number_writeNat hn hrest)
  have hdigits : ∀ c ∈ writeNat n, c.isDigit = true := fun c hc =>
    Nat.isDigit_of_mem_toDigits (by decide) (by decide) hc
  refine value_of_forall (fun inner => ?_) depth
  rw [valueOver]
  generalize hcs : writeNat n = cs at hdigits hnumber ⊢
  cases cs with
  | nil => exact absurd hcs Nat.toDigits_ne_nil
  | cons c cs =>
    have hc := hdigits c (List.mem_cons_self)
    have hblank : isBlank c = false := by
      by_contra h
      simp only [isBlank, Bool.not_eq_false, Bool.or_eq_true, decide_eq_true_eq] at h
      rcases h with ((rfl | rfl) | rfl) | rfl <;> revert hc <;> decide
    rw [List.cons_append, skipBlanks_eq_self hblank]
    split
    case h_9 heq =>
      cases heq
      rw [if_pos hc]
      exact hnumber
    all_goals simp_all

/-- A value is read behind a blank. -/
theorem Reads.blank_value {depth : ℕ} {text : List Char} {v : Value}
    (h : Reads (value depth) text v) : Reads (value depth) (' ' :: text) v := by
  intro rest hrest
  have hover (inner : Option (Reader Value)) :
      valueOver inner (' ' :: (text ++ rest)) = valueOver inner (text ++ rest) := by
    rw [valueOver, valueOver, skipBlanks_cons (by decide)]
  cases depth with
  | zero => exact (hover none).trans (h rest hrest)
  | succ depth => exact (hover (some (value depth))).trans (h rest hrest)

/-- What stands behind a colon is read behind it. -/
theorem Reads.behind_colon {α β : Type} {x : Reader α} {text : List Char} {a : α}
    (h : Reads x text a) (f : α → β) :
    Reads (do colon; return f (← x)) (':' :: text) (f a) := by
  intro rest hrest
  have hcolon : colon (':' :: (text ++ rest)) = .ok ((), text ++ rest) := rfl
  rw [List.cons_append, bind_of_ok _ hcolon, bind_of_ok _ (h rest hrest)]
  rfl

/-! ### Members and elements -/

section Sequences

variable {σ : Type} {s t : σ} {gap close : List Char}

private theorem skipBlanks_append (hgap : ∀ c ∈ gap, isBlank c = true) (text : List Char) :
    skipBlanks (gap ++ text) = skipBlanks text :=
  List.dropWhile_append_of_pos hgap

/-- A bracket behind blanks does not continue a number. -/
theorem endsNumber_append (hclose : ∀ c ∈ close, isBlank c = true) {text : List Char}
    (htext : EndsNumber text) : EndsNumber (close ++ text) := by
  cases close with
  | nil => exact htext
  | cons c close =>
    have hc := hclose c (List.mem_cons_self)
    refine endsNumber_cons ?_
    simp only [isBlank, Bool.or_eq_true, decide_eq_true_eq] at hc
    rcases hc with ((rfl | rfl) | rfl) | rfl <;> decide

private theorem intercalate_cons (line : List Char) (lines : List (List Char)) :
    [','].intercalate (line :: lines) = line ++ lines.flatMap (',' :: ·) := by
  induction lines generalizing line with
  | nil => simp
  | cons next lines ih =>
    rw [List.intercalate_cons_cons, ih, List.flatMap_cons]
    simp

private theorem length_le_flatMap (lines : List (List Char)) :
    lines.length ≤ (lines.flatMap (',' :: ·)).length := by
  induction lines with
  | nil => exact Nat.zero_le _
  | cons line lines ih =>
    rw [List.flatMap_cons]
    simp only [List.length_cons, List.length_append]
    omega

/-- What stands behind a value in front of further lines and a bracket does not continue a
number. -/
theorem endsNumber_flatMap (lines : List (List Char)) {text : List Char} (htext : EndsNumber text) :
    EndsNumber (lines.flatMap (',' :: ·) ++ text) := by
  cases lines with
  | nil => exact htext
  | cons line lines => exact endsNumber_cons (by decide)

/-- Reading the values of members, one after the other, takes one state to another. -/
inductive MembersRead (member : σ → String → Reader σ) : σ → List (String × List Char) → σ → Prop
  | nil {s : σ} : MembersRead member s [] s
  | cons {s t u : σ} {key : String} {value : List Char} {members : List (String × List Char)}
      (hvalue : Reads (member s key) (':' :: value) t) (hmembers : MembersRead member t members u) :
      MembersRead member s ((key, value) :: members) u

/-- A written member, set in by a gap. -/
def writeMember (gap : List Char) (member : String × List Char) : List Char :=
  gap ++ (quote member.1 ++ ':' :: member.2)

variable {member : σ → String → Reader σ} {members : List (String × List Char)}

private theorem writeMember_append (gap : List Char) (key : String) (value rest : List Char) :
    writeMember gap (key, value) ++ rest =
      gap ++ '"' :: (key.toList.flatMap escape ++ '"' :: (':' :: value ++ rest)) := by
  rw [writeMember, List.append_assoc, List.append_assoc, quote_append]

/-- Written members behind the first one are read up to the brace. -/
theorem MembersRead.membersAfter_flatMap (h : MembersRead member s members t)
    (hgap : ∀ c ∈ gap, isBlank c = true) (hclose : ∀ c ∈ close, isBlank c = true) {steps : ℕ}
    (hsteps : members.length < steps) (rest : List Char) :
    membersAfter member steps s
      ((members.map (writeMember gap)).flatMap (',' :: ·) ++ (close ++ '}' :: rest)) =
        .ok (t, rest) := by
  induction h generalizing steps with
  | nil =>
    obtain ⟨steps, rfl⟩ := Nat.exists_eq_succ_of_ne_zero (Nat.ne_of_gt hsteps)
    have hbrace : skipBlanks (close ++ '}' :: rest) = '}' :: rest := skipBlanks_append hclose _
    rw [List.map_nil, List.flatMap_nil, List.nil_append, membersAfter]
    simp only [hbrace]
  | @cons s t u key value members hvalue hmembers ih =>
    obtain ⟨steps, rfl⟩ := Nat.exists_eq_succ_of_ne_zero (Nat.ne_of_gt (Nat.zero_lt_of_lt hsteps))
    have hends : EndsNumber ((members.map (writeMember gap)).flatMap (',' :: ·) ++
        (close ++ '}' :: rest)) :=
      endsNumber_flatMap _ (endsNumber_append hclose (endsNumber_cons (by decide)))
    have hrest := ih (Nat.lt_of_succ_lt_succ hsteps)
    rw [List.map_cons, List.flatMap_cons, List.append_assoc, List.cons_append, writeMember_append,
      membersAfter]
    generalize (members.map (writeMember gap)).flatMap (',' :: ·) ++ (close ++ '}' :: rest) = tail
      at hends hrest ⊢
    have hcomma (text : List Char) : skipBlanks (',' :: text) = ',' :: text := rfl
    have hquote (text : List Char) : skipBlanks (gap ++ '"' :: text) = '"' :: text :=
      skipBlanks_append hgap _
    simp only [hcomma, hquote, stringBody_flatMap_escape, hvalue tail hends, hrest]

/-- Written members are read up to the brace. -/
theorem MembersRead.members_intercalate (h : MembersRead member s members t)
    (hgap : ∀ c ∈ gap, isBlank c = true) (hclose : ∀ c ∈ close, isBlank c = true)
    (rest : List Char) :
    Json.members member s
      ([','].intercalate (members.map (writeMember gap)) ++ (close ++ '}' :: rest)) =
        .ok (t, rest) := by
  cases h with
  | nil =>
    have hbrace : skipBlanks (close ++ '}' :: rest) = '}' :: rest := skipBlanks_append hclose _
    rw [List.map_nil, List.intercalate_nil, List.nil_append, Json.members]
    simp only [hbrace]
  | @cons s t u key value members hvalue hmembers =>
    have hends : EndsNumber ((members.map (writeMember gap)).flatMap (',' :: ·) ++
        (close ++ '}' :: rest)) :=
      endsNumber_flatMap _ (endsNumber_append hclose (endsNumber_cons (by decide)))
    have hsteps : members.length < ((members.map (writeMember gap)).flatMap (',' :: ·) ++
        (close ++ '}' :: rest)).length + 1 := by
      have hlines := length_le_flatMap (members.map (writeMember gap))
      rw [List.length_map] at hlines
      rw [List.length_append]
      omega
    have hrest := hmembers.membersAfter_flatMap hgap hclose hsteps rest
    rw [List.map_cons, intercalate_cons, List.append_assoc, writeMember_append, Json.members]
    generalize (members.map (writeMember gap)).flatMap (',' :: ·) ++ (close ++ '}' :: rest) = tail
      at hends hrest ⊢
    have hquote (text : List Char) : skipBlanks (gap ++ '"' :: text) = '"' :: text :=
      skipBlanks_append hgap _
    simp only [hquote, stringBody_flatMap_escape, hvalue tail hends, hrest]

/-- A written object is read by reading the values of its members. -/
theorem MembersRead.object_writeObject (h : MembersRead member s members t) (rest : List Char) :
    object member s (writeObject members ++ rest) = .ok (t, rest) := by
  have hnone : ∀ c ∈ ([] : List Char), isBlank c = true := by simp
  have hmembers := h.members_intercalate hnone hnone rest
  have htext : writeObject members ++ rest =
      '{' :: ([','].intercalate (members.map (writeMember [])) ++ '}' :: rest) := by
    rw [writeObject, List.cons_append, List.append_assoc]
    rfl
  rw [htext, object, skipBlanks_eq_self (by decide)]
  exact hmembers

/-- An object with a member on each line is read by reading the values of its members. -/
theorem MembersRead.object_writeLines (hne : members ≠ [])
    (h : MembersRead member s (members.map fun m => (m.1, ' ' :: m.2)) t) (rest : List Char) :
    object member s (writeLines members ++ rest) = .ok (t, rest) := by
  have hgap : ∀ c ∈ ['\n', ' ', ' '], isBlank c = true := by simp [isBlank]
  have hclose : ∀ c ∈ ['\n'], isBlank c = true := by simp [isBlank]
  have hmembers := h.members_intercalate hgap hclose rest
  have htext : writeLines members ++ rest = '{' :: ([','].intercalate
      ((members.map fun m => (m.1, ' ' :: m.2)).map (writeMember ['\n', ' ', ' '])) ++
        '\n' :: '}' :: rest) := by
    rw [writeLines, if_neg (by simpa using hne), List.cons_append, List.append_assoc, List.map_map]
    rfl
  rw [htext, object, skipBlanks_eq_self (by decide)]
  exact hmembers

/-- Reading elements, none of which looks like the end of the list, takes one state to another. -/
inductive ElementsRead (element : σ → Reader σ) : σ → List (List Char) → σ → Prop
  | nil {s : σ} : ElementsRead element s [] s
  | cons {s t u : σ} {c : Char} {text : List Char} {items : List (List Char)}
      (hblank : isBlank c = false) (hopen : c ≠ ']') (helement : Reads (element s) (c :: text) t)
      (hitems : ElementsRead element t items u) : ElementsRead element s ((c :: text) :: items) u

variable {element : σ → Reader σ} {items : List (List Char)}

/-- Elements behind the first one are read up to the bracket. -/
theorem ElementsRead.elementsAfter_flatMap (h : ElementsRead element s items t) {steps : ℕ}
    (hsteps : items.length < steps) (rest : List Char) :
    elementsAfter element steps s (items.flatMap (',' :: ·) ++ ']' :: rest) = .ok (t, rest) := by
  induction h generalizing steps with
  | nil =>
    obtain ⟨steps, rfl⟩ := Nat.exists_eq_succ_of_ne_zero (Nat.ne_of_gt hsteps)
    rfl
  | @cons s t u c text items hblank hopen helement hitems ih =>
    obtain ⟨steps, rfl⟩ := Nat.exists_eq_succ_of_ne_zero (Nat.ne_of_gt (Nat.zero_lt_of_lt hsteps))
    have hends : EndsNumber (items.flatMap (',' :: ·) ++ ']' :: rest) :=
      endsNumber_flatMap _ (endsNumber_cons (by decide))
    have hrest := ih (Nat.lt_of_succ_lt_succ hsteps)
    rw [List.flatMap_cons, List.append_assoc, List.cons_append, elementsAfter]
    generalize items.flatMap (',' :: ·) ++ ']' :: rest = tail at hends hrest ⊢
    have hcomma (text : List Char) : skipBlanks (',' :: text) = ',' :: text := rfl
    have helement : element s (c :: (text ++ tail)) = .ok (t, tail) := helement tail hends
    simp only [hcomma, List.cons_append, skipBlanks_eq_self hblank]
    split
    · next heq => cases heq
    · next heq =>
      cases heq
      exact absurd rfl hopen
    · simp only [helement, hrest]

/-- A written list is read by reading its elements. -/
theorem ElementsRead.list_writeList (h : ElementsRead element s items t) (rest : List Char) :
    list element s (writeList items ++ rest) = .ok (t, rest) := by
  have htext : writeList items ++ rest = '[' :: ([','].intercalate items ++ ']' :: rest) := by
    rw [writeList, List.cons_append, List.append_assoc]
    rfl
  rw [htext, list, skipBlanks_eq_self (by decide)]
  cases h with
  | nil => rfl
  | @cons s t u c text items hblank hopen helement hitems =>
    have hends : EndsNumber (items.flatMap (',' :: ·) ++ ']' :: rest) :=
      endsNumber_flatMap _ (endsNumber_cons (by decide))
    have hsteps : items.length < (items.flatMap (',' :: ·) ++ ']' :: rest).length + 1 := by
      have hlines := length_le_flatMap items
      rw [List.length_append]
      omega
    have hrest := hitems.elementsAfter_flatMap hsteps rest
    rw [intercalate_cons, List.append_assoc]
    change elements element s _ = _
    rw [elements]
    generalize items.flatMap (',' :: ·) ++ ']' :: rest = tail at hends hrest ⊢
    have helement : element s (c :: (text ++ tail)) = .ok (t, tail) := helement tail hends
    simp only [List.cons_append, skipBlanks_eq_self hblank]
    split
    · next heq => cases heq
    · next heq =>
      cases heq
      exact absurd rfl hopen
    · simp only [helement, hrest]

end Sequences

/-! ### Objects -/

/-- Reads a member of an object whatever its key, in front of which there are those read so far,
latest first. -/
def collectMember (done : List (String × Value)) (key : String) :
    Reader (List (String × Value)) := do
  colon
  return (key, ← value (nestingLimit - 1)) :: done

/-- The members of the object that a text holds, in their order. -/
def readObject (text : String) : Except Fault (List (String × Value)) :=
  match object collectMember [] text.toList with
  | .ok (done, rest) => if (skipBlanks rest).isEmpty then .ok done.reverse else .error .malformed
  | .error fault => .error fault

/-- The text of a member is that of a value with the same key, which may stand at any depth. -/
def IsWritten (written : String × List Char) (member : String × Value) : Prop :=
  written.1 = member.1 ∧ ∀ depth, Reads (value depth) written.2 member.2

/-- Members whose values are read are collected. -/
theorem membersRead_collectMember {written : List (String × List Char)}
    {members : List (String × Value)} (h : List.Forall₂ IsWritten written members)
    (done : List (String × Value)) :
    MembersRead collectMember done written (members.reverse ++ done) := by
  induction h generalizing done with
  | nil => exact .nil
  | @cons w m written members hm _ ih =>
    obtain ⟨key, text⟩ := w
    obtain ⟨rfl, hvalue⟩ := hm
    have hcollected := ih (m :: done)
    rw [List.reverse_cons, List.append_assoc, List.singleton_append]
    exact .cons ((hvalue _).behind_colon fun v => (m.1, v) :: done) hcollected

/-- A written object is read back. -/
theorem readObject_writeObject {written : List (String × List Char)}
    {members : List (String × Value)} (h : List.Forall₂ IsWritten written members) :
    readObject (String.ofList (writeObject written)) = .ok members := by
  have hobject := (membersRead_collectMember h []).object_writeObject []
  rw [List.append_nil] at hobject
  rw [readObject, String.toList_ofList, hobject]
  simp [skipBlanks]

/-- An object that is written from members, of which there is one at least, is read back. -/
theorem readObject_writeLines {members : List (String × ℕ)} (hne : members ≠ [])
    (hmembers : ∀ m ∈ members, m.2 < wordRange) :
    readObject (String.ofList (writeLines (members.map fun m => (m.1, writeNat m.2))) ++ "\n") =
      .ok (members.map fun m => (m.1, .whole m.2)) := by
  have hwritten : List.Forall₂ IsWritten
      ((members.map fun m => (m.1, writeNat m.2)).map fun m => (m.1, ' ' :: m.2))
      (members.map fun m => (m.1, .whole m.2)) := by
    simp only [List.forall₂_map_left_iff, List.forall₂_map_right_iff, List.forall₂_same]
    exact fun m hm => ⟨rfl, fun depth => (reads_value_writeNat depth (hmembers m hm)).blank_value⟩
  have hobject := (membersRead_collectMember hwritten []).object_writeLines (by simpa using hne)
    ['\n']
  have hend : skipBlanks ['\n'] = [] := rfl
  rw [readObject, String.toList_append, String.toList_ofList]
  simp only [String.reduceToList, hobject, hend]
  simp

end SplitTally.Json
