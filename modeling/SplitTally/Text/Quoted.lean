import SplitTally.Text.Printable

/-!
# Quoted text

A text or a character between quotes, as it stands in messages. The quote in use and the backslash
are escaped, line ends, tabulators and the null character have short escapes, and every other
character without a visible form is written by its code point.
-/

namespace SplitTally.Quoted

/-- The lower-case hexadecimal digits of a number, without leading zeros. -/
def hexDigits (n : Nat) : List Char := Nat.toDigits 16 n

/-- A character by its code point. -/
def byCodePoint (c : Char) : List Char :=
  '\\' :: 'u' :: '{' :: (hexDigits c.toNat ++ ['}'])

/-- A character as it stands between two `quote` characters. -/
def escape (quote c : Char) : List Char :=
  if c = quote ∨ c = '\\' then ['\\', c]
  else if c = '\n' then ['\\', 'n']
  else if c = '\r' then ['\\', 'r']
  else if c = '\t' then ['\\', 't']
  else if c = '\x00' then ['\\', '0']
  else if Printable.isPrintable c then [c]
  else byCodePoint c

/-- Characters between two `quote` characters. -/
def between (quote : Char) (cs : List Char) : String :=
  String.ofList (quote :: (cs.flatMap (escape quote) ++ [quote]))

/-- A text between double quotes. -/
def text (s : String) : String := between '"' s.toList

/-- A character between single quotes. -/
def char (c : Char) : String := between '\'' [c]

end SplitTally.Quoted
