/-!
# Reading JSON text

A reader takes its part from the front of the text and keeps the rest. It stops at the first
problem in the order of the text. Three kinds of problem are told apart: text that is no JSON, text
that ends too early, and JSON that is not what is wanted at this place.
-/

namespace SplitTally.Json

-- Powers and sums of numbers are those of core, whatever others are in scope.
attribute [local instance (high)] instPowNat Zero.ofOfNat0

/-- Why a text is refused, for the first problem in it. -/
inductive Fault where
  /-- The text is no JSON. -/
  | malformed
  /-- The text ends too early. -/
  | cutShort
  /-- The value has the wrong type or content. -/
  | misfit
  deriving DecidableEq, Repr

/-- Reads from the front of a text and keeps the rest. -/
abbrev Reader (α : Type) := StateT (List Char) (Except Fault) α

/-! ### Blanks and fixed text -/

/-- Whether a character may stand between the parts of a text. -/
def isBlank (c : Char) : Bool := c = ' ' || c = '\n' || c = '\t' || c = '\r'

/-- The text without the blanks in front. -/
def skipBlanks (text : List Char) : List Char := text.dropWhile isBlank

/-- Reads exactly the given characters. -/
def expect : List Char → Reader Unit
  | [], text => .ok ((), text)
  | _ :: _, [] => .error .cutShort
  | c :: wanted, d :: text => if c = d then expect wanted text else .error .malformed

/-- Reads the colon between a key and its value. -/
def colon : Reader Unit := fun text =>
  match skipBlanks text with
  | [] => .error .cutShort
  | ':' :: rest => .ok ((), rest)
  | _ => .error .malformed

/-! ### Strings -/

/-- The number of a hexadecimal digit of either case. -/
def hexDigit? (c : Char) : Option Nat :=
  let n := c.toNat
  if 0x30 ≤ n ∧ n ≤ 0x39 then some (n - 0x30)
  else if 0x41 ≤ n ∧ n ≤ 0x46 then some (n - 0x37)
  else if 0x61 ≤ n ∧ n ≤ 0x66 then some (n - 0x57)
  else none

/-- The number of four hexadecimal digits. -/
def hexUnit? (a b c d : Char) : Option Nat := do
  return (← hexDigit? a) * 0x1000 + (← hexDigit? b) * 0x100 + (← hexDigit? c) * 0x10 +
    (← hexDigit? d)

/-- The problem with an escape by code point that fewer than four characters follow: the text is cut
short unless they take four bytes. -/
def shortUnit (text : List Char) : Fault :=
  if (text.map Char.utf8Size).sum < 4 then .cutShort else .malformed

/-- Whether a unit is the first half of a pair. -/
def isLeading (unit : Nat) : Bool := 0xd800 ≤ unit && unit < 0xdc00

/-- Whether a unit is the second half of a pair. -/
def isTrailing (unit : Nat) : Bool := 0xdc00 ≤ unit && unit < 0xe000

/-- The character that a pair of units stands for. -/
def ofPair (leading trailing : Nat) : Char :=
  Char.ofNat ((leading - 0xd800) * 0x400 + (trailing - 0xdc00) + 0x10000)

/-- The character that a letter stands for after a backslash. -/
def escaped? (c : Char) : Option Char :=
  if c = '"' ∨ c = '\\' ∨ c = '/' then some c
  else if c = 'b' then some '\x08'
  else if c = 'f' then some '\x0c'
  else if c = 'n' then some '\n'
  else if c = 'r' then some '\r'
  else if c = 't' then some '\t'
  else none

/-- Reads the rest of a string up to its closing quote. The characters read so far are in `done`,
latest first. -/
def stringOnto (done : List Char) : List Char → Except Fault (List Char × List Char)
  | [] => .error .cutShort
  | '"' :: rest => .ok (done.reverse, rest)
  | '\\' :: [] => .error .cutShort
  | '\\' :: 'u' :: a :: b :: c :: d :: rest =>
    match hexUnit? a b c d with
    | none => .error .malformed
    | some unit =>
      if isTrailing unit then .error .malformed
      else if isLeading unit then
        match rest with
        | [] => .error .cutShort
        | '\\' :: [] => .error .cutShort
        | '\\' :: 'u' :: e :: f :: g :: h :: rest =>
          match hexUnit? e f g h with
          | none => .error .malformed
          | some trailing =>
            if isTrailing trailing then stringOnto (ofPair unit trailing :: done) rest
            else .error .malformed
        | '\\' :: 'u' :: short => .error (shortUnit short)
        | _ => .error .malformed
      else stringOnto (Char.ofNat unit :: done) rest
  | '\\' :: 'u' :: short => .error (shortUnit short)
  | '\\' :: c :: rest =>
    match escaped? c with
    | some e => stringOnto (e :: done) rest
    | none => .error .malformed
  | c :: rest => if c.val < 0x20 then .error .malformed else stringOnto (c :: done) rest

/-- Reads the rest of a string whose opening quote was read. -/
def stringBody : Reader String := fun text =>
  match stringOnto [] text with
  | .ok (cs, rest) => .ok (String.ofList cs, rest)
  | .error e => .error e

/-! ### Numbers -/

/-- Whole numbers are kept up to 64 bits; digits beyond are only counted. -/
def wordRange : Nat := 2 ^ (64 : Nat)

/-- The number of a decimal digit. -/
def digit? (c : Char) : Option Nat := if c.isDigit then some (c.toNat - 0x30) else none

/-- Takes the digits in front of a text into `value` as long as it stays within a word, and counts
those after that. -/
def digitsOnto (value dropped : Nat) : List Char → Nat × Nat × List Char
  | [] => (value, dropped, [])
  | c :: rest =>
    match digit? c with
    | none => (value, dropped, c :: rest)
    | some d =>
      if dropped = 0 ∧ value * 10 + d < wordRange then digitsOnto (value * 10 + d) 0 rest
      else digitsOnto value (dropped + 1) rest

/-- The digits after a decimal point: the value with those that fit in a word, how many of them fit,
and whether there is one. -/
def fractionOnto (value kept : Nat) (full : Bool) : List Char → Nat × Nat × List Char
  | [] => (value, kept, [])
  | c :: rest =>
    match digit? c with
    | none => (value, kept, c :: rest)
    | some d =>
      if full = false ∧ value * 10 + d < wordRange then
        fractionOnto (value * 10 + d) (kept + 1) false rest
      else fractionOnto value kept true rest

/-- The number of the digits in front of a text. -/
def exponentOnto (value : Nat) : List Char → Nat × List Char
  | [] => (value, [])
  | c :: rest =>
    match digit? c with
    | none => (value, c :: rest)
    | some d => exponentOnto (value * 10 + d) rest

/-- A number rounded to 53 significant bits, a half going to the even neighbour. -/
def roundTo53 (n : Nat) : Nat :=
  let step := 2 ^ (n.log2 - 52)
  let low := n / step * step
  let twice := 2 * (n - low)
  if twice < step ∨ (twice = step ∧ n / step % 2 = 0) then low else low + step

/-- Whether `value * 10 ^ exponent` is beyond the numbers of double precision, with both factors
rounded to their precision first. -/
def isOutOfRange (value : Nat) (exponent : Int) : Bool :=
  if exponent < 0 then false
  else if exponent ≤ 308 then
    2 ^ (1024 : Nat) - 2 ^ (970 : Nat) ≤ roundTo53 value * roundTo53 (10 ^ exponent.toNat)
  else value ≠ 0

/-- Ends a number that is not whole, refusing one that is out of range. -/
def endNumber (value : Nat) (exponent : Int) (rest : List Char) :
    Except Fault (Option Nat × List Char) :=
  if isOutOfRange value exponent then .error .malformed else .ok (none, rest)

/-- Reads the exponent of a number after its letter. -/
def exponentPart (value : Nat) (scale : Int) (text : List Char) :
    Except Fault (Option Nat × List Char) :=
  let (negative, digits) := match text with
    | '+' :: rest => (false, rest)
    | '-' :: rest => (true, rest)
    | _ => (false, text)
  match digits with
  | [] => .error .cutShort
  | c :: rest =>
    match digit? c with
    | none => .error .malformed
    | some d =>
      let (exponent, rest) := exponentOnto d rest
      endNumber value (if negative then scale - exponent else scale + exponent) rest

/-- Reads the end of a number that is not whole: an exponent or nothing. -/
def afterFraction (value : Nat) (scale : Int) (text : List Char) :
    Except Fault (Option Nat × List Char) :=
  match text with
  | 'e' :: rest | 'E' :: rest => exponentPart value scale rest
  | _ => endNumber value scale text

/-- Reads the fraction of a number after its point. -/
def fractionPart (value dropped : Nat) (text : List Char) :
    Except Fault (Option Nat × List Char) :=
  match text with
  | [] => .error .cutShort
  | c :: _ =>
    if c.isDigit then
      let (value, kept, rest) := fractionOnto value 0 false text
      afterFraction value (dropped - kept) rest
    else .error .malformed

/-- Reads an unsigned number and returns its value if it is written as a whole number and fits in a
word. -/
def number : Reader (Option Nat) := fun text =>
  match text with
  | [] => .error .cutShort
  | '0' :: c :: rest =>
    if c.isDigit then .error .malformed else afterInteger 0 0 (c :: rest)
  | c :: rest =>
    match digit? c with
    | none => .error .malformed
    | some d =>
      let (value, dropped, rest) := digitsOnto d 0 rest
      afterInteger value dropped rest
where
  /-- Reads what may follow the digits in front of the point. -/
  afterInteger (value dropped : Nat) (text : List Char) :
      Except Fault (Option Nat × List Char) :=
    match text with
    | '.' :: rest => fractionPart value dropped rest
    | 'e' :: rest | 'E' :: rest => exponentPart value dropped rest
    | _ => if dropped = 0 then .ok (some value, text) else endNumber value dropped text

/-! ### Lists and objects -/

/-- Reads the elements of a list after the first one, up to its end, `steps` at most. -/
def elementsAfter {σ : Type} (element : σ → Reader σ) : (steps : Nat) → σ → Reader σ
  | 0, _ => fun _ => .error .malformed
  | steps + 1, s => fun text =>
    match skipBlanks text with
    | [] => .error .cutShort
    | ']' :: rest => .ok (s, rest)
    | ',' :: rest =>
      match skipBlanks rest with
      | [] => .error .cutShort
      | ']' :: _ => .error .malformed
      | rest =>
        match element s rest with
        | .ok (s, rest) => elementsAfter element steps s rest
        | .error e => .error e
    | _ => .error .malformed

/-- Reads the elements of a list whose bracket was read, each with the state left by those before
it. -/
def elements {σ : Type} (element : σ → Reader σ) (s : σ) : Reader σ := fun text =>
  match skipBlanks text with
  | [] => .error .cutShort
  | ']' :: rest => .ok (s, rest)
  | rest =>
    match element s rest with
    | .ok (s, rest) => elementsAfter element (rest.length + 1) s rest
    | .error e => .error e

/-- Reads the members of an object after the first one, up to its end, `steps` at most. -/
def membersAfter {σ : Type} (member : σ → String → Reader σ) : (steps : Nat) → σ → Reader σ
  | 0, _ => fun _ => .error .malformed
  | steps + 1, s => fun text =>
    match skipBlanks text with
    | [] => .error .cutShort
    | '}' :: rest => .ok (s, rest)
    | ',' :: rest =>
      match skipBlanks rest with
      | [] => .error .cutShort
      | '"' :: rest =>
        match stringBody rest with
        | .error e => .error e
        | .ok (key, rest) =>
          match member s key rest with
          | .ok (s, rest) => membersAfter member steps s rest
          | .error e => .error e
      | _ => .error .malformed
    | _ => .error .malformed

/-- Reads the members of an object whose brace was read. A member is read from its colon on, with
its key and the state left by those before it. -/
def members {σ : Type} (member : σ → String → Reader σ) (s : σ) : Reader σ := fun text =>
  match skipBlanks text with
  | [] => .error .cutShort
  | '}' :: rest => .ok (s, rest)
  | '"' :: rest =>
    match stringBody rest with
    | .error e => .error e
    | .ok (key, rest) =>
      match member s key rest with
      | .ok (s, rest) => membersAfter member (rest.length + 1) s rest
      | .error e => .error e
  | _ => .error .malformed

/-! ### Values -/

/-- A value, as far as values are told apart. -/
inductive Value where
  /-- A string. -/
  | text (s : String)
  /-- A whole number that fits in a word, written without sign, fraction and exponent. -/
  | whole (n : Nat)
  /-- Any other value. -/
  | other
  deriving DecidableEq, Repr

/-- The value of a number without sign. -/
def Value.ofNumber : Option Nat → Value
  | some n => .whole n
  | none => .other

/-- How deep lists and objects may be nested. -/
def nestingLimit : Nat := 127

/-- Reads a value, with `inner` for the values in lists and objects if these are allowed. -/
def valueOver (inner : Option (Reader Value)) : Reader Value := fun text =>
  match skipBlanks text with
  | [] => .error .cutShort
  | 'n' :: rest => (expect ['u', 'l', 'l'] *> pure .other : Reader Value) rest
  | 't' :: rest => (expect ['r', 'u', 'e'] *> pure .other : Reader Value) rest
  | 'f' :: rest => (expect ['a', 'l', 's', 'e'] *> pure .other : Reader Value) rest
  | '"' :: rest => (Value.text <$> stringBody : Reader Value) rest
  | '-' :: rest => (number *> pure .other : Reader Value) rest
  | '[' :: rest =>
    match inner with
    | none => .error .malformed
    | some inner => (elements (fun _ => inner *> pure ()) () *> pure .other : Reader Value) rest
  | '{' :: rest =>
    match inner with
    | none => .error .malformed
    | some inner =>
      (members (fun _ _ => colon *> inner *> pure ()) () *> pure .other : Reader Value) rest
  | c :: rest =>
    if c.isDigit then (Value.ofNumber <$> number : Reader Value) (c :: rest)
    else .error .malformed

/-- Reads a value that is nested at most `depth` deep. -/
def value : (depth : Nat) → Reader Value
  | 0 => valueOver none
  | depth + 1 => valueOver (some (value depth))

/-- Refuses the next value as a misfit. A list or object is refused at its first character, any
other value once it is read. -/
def refuse {α : Type} : Reader α := fun text =>
  match skipBlanks text with
  | '[' :: _ => .error .misfit
  | '{' :: _ => .error .misfit
  | _ =>
    match value 0 text with
    | .ok _ => .error .misfit
    | .error e => .error e

/-- Reads a string, refusing any other value. -/
def string : Reader String := fun text =>
  match skipBlanks text with
  | '"' :: rest => stringBody rest
  | rest => refuse rest

/-- Reads a list, refusing any other value. -/
def list {σ : Type} (element : σ → Reader σ) (s : σ) : Reader σ := fun text =>
  match skipBlanks text with
  | '[' :: rest => elements element s rest
  | rest => refuse rest

/-- Reads an object, refusing any other value. -/
def object {σ : Type} (member : σ → String → Reader σ) (s : σ) : Reader σ := fun text =>
  match skipBlanks text with
  | '{' :: rest => members member s rest
  | rest => refuse rest

end SplitTally.Json
