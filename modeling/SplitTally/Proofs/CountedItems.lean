import SplitTally.Proofs.Streams
import SplitTally.Wire.Counted

/-!
# Checking a count before its items are read

Items of a fixed size that are read one after the other take a multiple of this size, so at least
that many bytes stand behind their count. A product that is cut off at the greatest word is no
greater than the product itself. So a count for which too few bytes are left is the count of no
items that could be read, and refusing it at once changes nothing but the error. A count that is not
refused is no greater than the number of bytes that are left, unless items are taken to have no
bytes.
-/

namespace SplitTally

/-- The product of the numbers, cut down to the greatest word. -/
theorem WordArithmetic.toNat_saturatingMul (x y : UInt64) :
    (saturatingMul x y).toNat = min (x.toNat * y.toNat) (UInt64.size - 1) := by
  have hgreatest : (UInt64.ofNat (UInt64.size - 1)).toNat = UInt64.size - 1 := rfl
  unfold saturatingMul
  by_cases hfits : x.toNat * y.toNat < UInt64.size
  · rw [if_pos hfits, UInt64.toNat_mul, Nat.mod_eq_of_lt hfits]
    omega
  · rw [if_neg hfits, hgreatest]
    omega

namespace Wire

variable {α β : Type} {decoder item : Decoder α} {size : ℕ}

/-- A value is read from so many bytes in front of the input, and the rest is left. -/
def Takes (decoder : Decoder α) (size : ℕ) : Prop :=
  ∀ input x rest, decoder input = .ok (x, rest) → ∃ s, s.length = size ∧ input = s ++ rest

/-- A decoder takes the bytes of the written form that it accepts. -/
theorem Exact.takes {written : α → List UInt8 → Prop} (h : Exact decoder written)
    (hsize : ∀ x s, written x s → s.length = size) : Takes decoder size := by
  intro input x rest hread
  obtain ⟨s, hs, hinput⟩ := (h input x rest).mp hread
  exact ⟨s, hsize x s hs, hinput⟩

/-- A word of 32 bits takes four bytes. -/
theorem takes_word32 : Takes word32 4 := exact_word32.takes fun _ _ hs => hs ▸ rfl

/-- Each kind of scalar takes as many bytes as its size tells. -/
theorem Scalar.takes_decode (kind : Scalar) : Takes kind.decode kind.size :=
  kind.exact_decode.takes fun x _ hs => hs ▸ kind.length_encode x

namespace Cursor

variable {cursor next : Cursor} {x : α}

/-! ### Moving a cursor -/

/-- The bytes behind the cursor. -/
def behind (cursor : Cursor) : List UInt8 := cursor.bytes.drop cursor.position

/-- So many bytes remain behind a cursor. -/
theorem length_behind (cursor : Cursor) : cursor.behind.length = cursor.remaining :=
  List.length_drop

/-- Reading takes bytes from behind the cursor and moves it to where the rest begins. -/
theorem read_eq (cursor : Cursor) (decoder : Decoder α) :
    cursor.read decoder = match decoder cursor.behind with
      | .ok (x, rest) => .ok (x, ⟨cursor.bytes, cursor.bytes.length - rest.length⟩)
      | .error cause => .error cause := rfl

/-- Reading a value moves the cursor behind the bytes of the value. -/
theorem behind_of_read (htakes : Takes decoder size) (h : cursor.read decoder = .ok (x, next)) :
    decoder cursor.behind = .ok (x, next.behind) ∧ next.bytes = cursor.bytes ∧
      next.position ≤ next.bytes.length ∧ next.remaining + size = cursor.remaining := by
  rw [read_eq] at h
  cases hread : decoder cursor.behind with
  | error cause =>
    rw [hread] at h
    cases h
  | ok p =>
    obtain ⟨y, rest⟩ := p
    rw [hread] at h
    cases h
    obtain ⟨s, rfl, hs⟩ := htakes _ _ _ hread
    have hlength := congrArg List.length hs
    rw [length_behind, remaining, List.length_append] at hlength
    have hsplit : cursor.bytes = cursor.bytes.take cursor.position ++ s ++ rest := by
      rw [List.append_assoc, ← hs, behind, List.take_append_drop]
    have hrest : cursor.bytes.drop (cursor.bytes.length - rest.length) = rest := by
      generalize cursor.bytes.take cursor.position ++ s = before at hsplit
      rw [hsplit]
      exact List.drop_left' (by simp)
    refine ⟨by rw [behind, hrest], rfl, Nat.sub_le _ _, ?_⟩
    simp only [remaining]
    omega

/-- Two values one after the other are read by moving the cursor twice. -/
theorem read_bind (htakes : Takes decoder size) (cursor : Cursor) (f : α → Decoder β) :
    cursor.read (decoder >>= f) = (cursor.read decoder >>= fun p => p.2.read (f p.1)) := by
  have hbind : (decoder >>= f) cursor.behind = (decoder cursor.behind >>= fun p => f p.1 p.2) := rfl
  cases hread : cursor.read decoder with
  | error cause =>
    change _ = Except.error cause
    rw [read_eq] at hread ⊢
    rw [hbind]
    cases hdecode : decoder cursor.behind with
    | error cause =>
      rw [hdecode] at hread
      cases hread
      rfl
    | ok p =>
      rw [hdecode] at hread
      cases hread
  | ok p =>
    obtain ⟨x, next⟩ := p
    obtain ⟨hdecode, hbytes, -, -⟩ := behind_of_read htakes hread
    change _ = next.read (f x)
    rw [read_eq, read_eq, hbind, hdecode, hbytes]
    rfl

/-- Items are read by moving the cursor behind each of them. -/
theorem read_itemsOnto (htakes : Takes item size) (n : ℕ) (done : List α)
    (hposition : cursor.position ≤ cursor.bytes.length) :
    cursor.read (itemsOnto item n done) =
      (cursor.readMany item n).map fun p => (done.reverse ++ p.1, p.2) := by
  induction n generalizing cursor done with
  | zero =>
    have hall : cursor.bytes.length - cursor.behind.length = cursor.position := by
      rw [length_behind, remaining]
      omega
    simp [read_eq, itemsOnto, readMany, Except.map, hall]
  | succ n ih =>
    rw [itemsOnto_succ, read_bind htakes, readMany]
    cases hread : cursor.read item with
    | error cause => rfl
    | ok p =>
      obtain ⟨x, next⟩ := p
      obtain ⟨-, -, hnext, -⟩ := behind_of_read htakes hread
      change next.read (itemsOnto item n (x :: done)) = Except.map _ (next.readMany item n >>= _)
      rw [ih (x :: done) hnext]
      cases next.readMany item n with
      | error cause => rfl
      | ok p => simp [Except.map, bind, Except.bind, pure, Except.pure]

/-- Items are read if the first one is and then the others behind it. -/
theorem readMany_succ_eq_ok_iff {n : ℕ} {ys : List α} :
    cursor.readMany item (n + 1) = .ok (ys, next) ↔ ∃ x mid xs, cursor.read item = .ok (x, mid) ∧
      mid.readMany item n = .ok (xs, next) ∧ ys = x :: xs := by
  rw [readMany]
  cases hfirst : cursor.read item with
  | error cause => simp [bind, Except.bind]
  | ok p =>
    obtain ⟨x, mid⟩ := p
    change (mid.readMany item n >>= _) = _ ↔ _
    cases hrest : mid.readMany item n with
    | error cause => simp [hrest, bind, Except.bind]
    | ok q =>
      obtain ⟨xs, last⟩ := q
      change Except.ok (x :: xs, last) = .ok (ys, next) ↔ _
      constructor
      · intro h
        cases h
        exact ⟨x, mid, xs, rfl, hrest, rfl⟩
      · rintro ⟨_, _, _, hx, hxs, rfl⟩
        cases hx
        rw [hrest] at hxs
        cases hxs
        rfl

/-- Items of a size take a multiple of it. -/
theorem remaining_of_readMany (htakes : Takes item size) {n : ℕ} {xs : List α}
    (h : cursor.readMany item n = .ok (xs, next)) :
    xs.length = n ∧ next.remaining + n * size = cursor.remaining := by
  induction n generalizing cursor xs with
  | zero =>
    cases h
    simp
  | succ n ih =>
    obtain ⟨x, mid, xs, hfirst, hrest, rfl⟩ := readMany_succ_eq_ok_iff.mp h
    obtain ⟨-, -, -, hmid⟩ := behind_of_read htakes hfirst
    obtain ⟨rfl, hnext⟩ := ih hrest
    refine ⟨rfl, ?_⟩
    rw [Nat.succ_mul]
    omega

/-! ### The check -/

/-- Room is reserved for a count for which there are enough bytes. -/
theorem reserved_le_remaining {least : UInt64} (hleast : 0 < least.toNat) {count : ℕ}
    (h : (cursor.readItems least item).reserved = some count) :
    ∃ word behind, cursor.read word32 = .ok (word, behind) ∧ count = word.toNat ∧
      count ≤ behind.remaining := by
  unfold readItems at h
  split at h
  · cases h
  · next word behind hword =>
    split at h
    · cases h
    · next hcheck =>
      cases h
      refine ⟨word, behind, hword, rfl, ?_⟩
      have hlt := word.toNat_lt
      have hproduct : word.toNat ≤ word.toNat * least.toNat := Nat.le_mul_of_pos_right _ hleast
      rw [WordArithmetic.toNat_saturatingMul, UInt32.toNat_toUInt64] at hcheck
      simp only [UInt64.size] at hcheck
      omega

/-- Items that are at least as long as they are taken to be would not fit where the check refuses
them. -/
theorem outcome_readItems_eq_ok_iff (htakes : Takes item size) {least : UInt64}
    (hleast : least.toNat ≤ size) {xs : List α} :
    (cursor.readItems least item).outcome = .ok (xs, next) ↔
      cursor.readCounted item = .ok (xs, next) := by
  unfold readItems readCounted
  cases hword : cursor.read word32 with
  | error cause => exact Iff.rfl
  | ok p =>
    obtain ⟨word, behind⟩ := p
    change _ ↔ behind.readMany item word.toNat = .ok (xs, next)
    dsimp only
    split
    · next hcheck =>
      constructor
      · intro h
        cases h
      intro h
      have hproduct := Nat.mul_le_mul_left word.toNat hleast
      obtain ⟨-, hremaining⟩ := remaining_of_readMany htakes h
      rw [WordArithmetic.toNat_saturatingMul, UInt32.toNat_toUInt64] at hcheck
      omega
    · exact Iff.rfl

/-- When items are read room was reserved for just these items. -/
theorem reserved_of_outcome (htakes : Takes item size) {least : UInt64} {xs : List α}
    (h : (cursor.readItems least item).outcome = .ok (xs, next)) :
    (cursor.readItems least item).reserved = some xs.length := by
  unfold readItems at h ⊢
  cases hword : cursor.read word32 with
  | error cause =>
    rw [hword] at h
    cases h
  | ok p =>
    obtain ⟨word, behind⟩ := p
    rw [hword] at h
    dsimp only at h ⊢
    split at h
    · cases h
    · next hcheck =>
      rw [if_neg hcheck, (remaining_of_readMany htakes h).1]

/-- In words that hold the product the check is that in numbers. -/
theorem read_items_eq_outcome (htakes : Takes item size) {least : UInt64}
    (hleast : least.toNat < 2 ^ 32) (cursor : Cursor) :
    cursor.read (items least.toNat item) = (cursor.readItems least item).outcome := by
  unfold items readItems
  rw [read_bind takes_word32]
  cases hword : cursor.read word32 with
  | error cause => rfl
  | ok p =>
    obtain ⟨word, behind⟩ := p
    obtain ⟨-, -, hposition, -⟩ := behind_of_read takes_word32 hword
    have hproduct : word.toNat * least.toNat ≤ UInt64.size - 1 := by
      have hlt := Nat.mul_lt_mul'' word.toNat_lt hleast
      simp only [UInt64.size]
      omega
    have hsame : (WordArithmetic.saturatingMul word.toUInt64 least).toNat =
        word.toNat * least.toNat := by
      rw [WordArithmetic.toNat_saturatingMul, UInt32.toNat_toUInt64, Nat.min_eq_left hproduct]
    change behind.read (if behind.behind.length < word.toNat * least.toNat then
      throw .unexpectedEnd >>= fun _ => itemsOnto item word.toNat [] else
        itemsOnto item word.toNat []) = _
    dsimp only
    rw [hsame, length_behind]
    by_cases hcheck : behind.remaining < word.toNat * least.toNat
    · rw [if_pos hcheck, if_pos hcheck]
      rfl
    · rw [if_neg hcheck, if_neg hcheck, read_itemsOnto htakes _ _ hposition]
      cases behind.readMany item word.toNat <;> rfl

/-- Items that are taken to be no longer than they are can be read with the check exactly when they
can be read without it, as the same items up to the same position, and then room was reserved for
just these items. The check in words decides as the one in numbers does. If the items are taken to
have bytes at all, room is only ever reserved for a count that is no greater than the number of
bytes behind it. -/
theorem readItems_agrees_with_readCounted (kind : Scalar) {least : UInt64}
    (hleast : least.toNat ≤ kind.size) (cursor : Cursor) :
    cursor.read (items least.toNat kind.decode) = (cursor.readItems least kind.decode).outcome ∧
    (∀ xs next, (cursor.readItems least kind.decode).outcome = .ok (xs, next) ↔
      cursor.readCounted kind.decode = .ok (xs, next)) ∧
    (∀ xs next, (cursor.readItems least kind.decode).outcome = .ok (xs, next) →
      (cursor.readItems least kind.decode).reserved = some xs.length) ∧
    (0 < least.toNat → ∀ count, (cursor.readItems least kind.decode).reserved = some count →
      ∃ word behind, cursor.read word32 = .ok (word, behind) ∧ count = word.toNat ∧
        count ≤ behind.remaining) := by
  have hword : least.toNat < 2 ^ 32 :=
    Nat.lt_of_le_of_lt hleast (by cases kind <;> decide)
  refine ⟨read_items_eq_outcome kind.takes_decode hword cursor, fun xs next => ?_,
    fun xs next h => ?_, fun hpos count h => ?_⟩
  · exact outcome_readItems_eq_ok_iff kind.takes_decode hleast
  · exact reserved_of_outcome kind.takes_decode h
  · exact reserved_le_remaining hpos h

/-- Two words behind a byte are read up to the byte behind them. The same bytes from their start on
announce more words than there is room for. -/
theorem readItems_agrees_with_readCounted_of_two :
    (2 : UInt64).toNat ≤ Scalar.word16.size ∧ 0 < (2 : UInt64).toNat ∧
    (readItems ⟨[9, 0, 0, 0, 2, 0, 1, 0, 2, 7], 1⟩ 2 Scalar.word16.decode).outcome =
      .ok ([(1 : UInt16), (2 : UInt16)], ⟨[9, 0, 0, 0, 2, 0, 1, 0, 2, 7], 9⟩) ∧
    (readItems ⟨[9, 0, 0, 0, 2, 0, 1, 0, 2, 7], 1⟩ 2 Scalar.word16.decode).reserved = some 2 ∧
    (∃ word behind, Cursor.read ⟨[9, 0, 0, 0, 2, 0, 1, 0, 2, 7], 1⟩ word32 = .ok (word, behind) ∧
      2 = word.toNat ∧ 2 ≤ behind.remaining) ∧
    Cursor.read ⟨[9, 0, 0, 0, 2, 0, 1, 0, 2, 7], 0⟩ (items 2 Scalar.word16.decode) =
      .error .unexpectedEnd ∧
    ∀ xs next, readCounted ⟨[9, 0, 0, 0, 2, 0, 1, 0, 2, 7], 0⟩ Scalar.word16.decode ≠
      .ok (xs, next) := by
  have hleast : (2 : UInt64).toNat ≤ Scalar.word16.size := by decide
  obtain ⟨-, hiff, hroom, hbound⟩ := readItems_agrees_with_readCounted .word16 hleast
    ⟨[9, 0, 0, 0, 2, 0, 1, 0, 2, 7], 1⟩
  obtain ⟨hsame, hiff', -, -⟩ := readItems_agrees_with_readCounted .word16 hleast
    ⟨[9, 0, 0, 0, 2, 0, 1, 0, 2, 7], 0⟩
  have hread := (hiff [(1 : UInt16), (2 : UInt16)] _).mpr rfl
  refine ⟨hleast, by decide, hread, hroom _ _ hread, hbound (by decide) 2 (hroom _ _ hread), hsame,
    fun xs next h => ?_⟩
  cases (hiff' xs next).mpr h

end Cursor

end Wire

end SplitTally
