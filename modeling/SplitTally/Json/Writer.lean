/-!
# Writing JSON text

A string is written between quotes with as few escapes as possible: the quote, the backslash and
the control characters below the space, the latter with a letter where there is one and by code
point otherwise.
-/

namespace SplitTally.Json

/-- The lower-case hexadecimal digit of a number below sixteen. -/
def hexDigit (n : Nat) : Char := if n < 10 then Char.ofNat (0x30 + n) else Char.ofNat (0x57 + n)

/-- A character as it stands in a string. -/
def escape (c : Char) : List Char :=
  if c = '"' ∨ c = '\\' then ['\\', c]
  else if c = '\x08' then ['\\', 'b']
  else if c = '\x0c' then ['\\', 'f']
  else if c = '\n' then ['\\', 'n']
  else if c = '\r' then ['\\', 'r']
  else if c = '\t' then ['\\', 't']
  else if c.val < 0x20 then
    ['\\', 'u', '0', '0', hexDigit (c.toNat / 16), hexDigit (c.toNat % 16)]
  else [c]

/-- A string between quotes. -/
def quote (s : String) : List Char := '"' :: (s.toList.flatMap escape ++ ['"'])

/-- A list of written values without blanks. -/
def writeList (items : List (List Char)) : List Char :=
  '[' :: ([','].intercalate items ++ [']'])

/-- An object of written values without blanks. -/
def writeObject (members : List (String × List Char)) : List Char :=
  '{' :: ([','].intercalate (members.map fun (key, value) => quote key ++ ':' :: value) ++ ['}'])

/-- An object of written values with a member on each line, set in by two blanks. -/
def writeLines (members : List (String × List Char)) : List Char :=
  if members.isEmpty then ['{', '}']
  else
    let lines := members.map fun (key, value) =>
      '\n' :: ' ' :: ' ' :: (quote key ++ ':' :: ' ' :: value)
    '{' :: ([','].intercalate lines ++ ['\n', '}'])

/-- A written number. -/
def writeNat (n : Nat) : List Char := Nat.toDigits 10 n

end SplitTally.Json
