/-!
# Cutting in two

A list is cut at a position that must not lie behind its end. A text is cut at the first occurrence
of a mark, which belongs to neither part. Main statement: the parts are found again when the first
one has no mark.
-/

namespace SplitTally.Cut

/-- The first `n` entries and the entries after them, if there are that many. -/
def atPosition? {α : Type} (n : Nat) (xs : List α) : Option (List α × List α) :=
  if n ≤ xs.length then some (xs.take n, xs.drop n) else none

/-- A list can be cut at every position up to its end. -/
theorem atPosition?_eq_some {α : Type} {n : Nat} {xs : List α} (h : n ≤ xs.length) :
    atPosition? n xs = some (xs.take n, xs.drop n) :=
  if_pos h

/-- The characters before and after the first mark, if there is one. -/
def atMark? (mark : Char) : List Char → Option (List Char × List Char)
  | [] => none
  | c :: rest =>
    if c = mark then some ([], rest)
    else (atMark? mark rest).map fun (before, after) => (c :: before, after)

/-- The parts of a text before and after the first mark, if there is one. -/
def textAtMark? (mark : Char) (text : String) : Option (String × String) :=
  (atMark? mark text.toList).map fun (before, after) =>
    (String.ofList before, String.ofList after)

/-- A text is cut where the mark is, if there is none before. -/
theorem atMark?_append {mark : Char} {before : List Char} (h : mark ∉ before)
    (after : List Char) : atMark? mark (before ++ mark :: after) = some (before, after) := by
  induction before with
  | nil => simp [atMark?]
  | cons c before ih =>
    have hne : c ≠ mark := fun heq => h (by simp [heq])
    have hrest := ih fun hmem => h (by simp [hmem])
    simp [atMark?, hne, hrest]

end SplitTally.Cut
