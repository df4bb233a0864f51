/-!
# Blanks around a text

Blanks are the characters of the Unicode property `White_Space`. Main statement: blanks around a
text that neither starts nor ends with one are all that `trim` takes away.
-/

namespace SplitTally.Blank

/-- Whether a character is a blank. -/
def isBlank (c : Char) : Bool :=
  let n := c.toNat
  (0x09 ≤ n && n ≤ 0x0d) || n = 0x20 || n = 0x85 || n = 0xa0 || n = 0x1680 ||
    (0x2000 ≤ n && n ≤ 0x200a) || n = 0x2028 || n = 0x2029 || n = 0x202f || n = 0x205f ||
    n = 0x3000

/-- The characters without the blanks around them. -/
def trimList (cs : List Char) : List Char :=
  ((cs.dropWhile isBlank).reverse.dropWhile isBlank).reverse

/-- The text without the blanks around it. -/
def trim (text : String) : String := String.ofList (trimList text.toList)

/-- Blanks in front of a text are dropped. -/
theorem dropWhile_append_of_all {before : List Char} (h : ∀ c ∈ before, isBlank c)
    (rest : List Char) : (before ++ rest).dropWhile isBlank = rest.dropWhile isBlank := by
  induction before with
  | nil => rfl
  | cons c before ih =>
    rw [List.cons_append, List.dropWhile_cons, if_pos (h c (by simp)),
      ih fun d hd => h d (by simp [hd])]

/-- Nothing is dropped in front of a text that begins with no blank. -/
theorem dropWhile_eq_self {cs : List Char} (h : ∀ c, cs.head? = some c → isBlank c = false) :
    cs.dropWhile isBlank = cs := by
  cases cs with
  | nil => rfl
  | cons c cs => rw [List.dropWhile_cons, h c rfl, if_neg Bool.false_ne_true]

/-- A text that neither begins nor ends with a blank is what is left of it between blanks. -/
theorem trimList_append {before core after : List Char} (hbefore : ∀ c ∈ before, isBlank c)
    (hafter : ∀ c ∈ after, isBlank c) (hfirst : ∀ c, core.head? = some c → isBlank c = false)
    (hlast : ∀ c, core.getLast? = some c → isBlank c = false) :
    trimList (before ++ (core ++ after)) = core := by
  have hreverse : ∀ c ∈ after.reverse, isBlank c := fun c hc => hafter c (List.mem_reverse.1 hc)
  have hhead : ∀ c, core.reverse.head? = some c → isBlank c = false := fun c hc =>
    hlast c (by rwa [List.head?_reverse] at hc)
  rw [trimList, dropWhile_append_of_all hbefore]
  cases core with
  | nil =>
    have hnone : after.dropWhile isBlank = [] := by
      simpa using dropWhile_append_of_all hafter []
    rw [List.nil_append, hnone]
    rfl
  | cons c core =>
    have hcore : (c :: core ++ after).dropWhile isBlank = c :: core ++ after :=
      dropWhile_eq_self fun d hd => hfirst d hd
    rw [hcore, List.reverse_append, dropWhile_append_of_all hreverse, dropWhile_eq_self hhead,
      List.reverse_reverse]

end SplitTally.Blank
