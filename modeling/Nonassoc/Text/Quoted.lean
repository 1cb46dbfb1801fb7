import Nonassoc.Text.Invisible

/-!
# Quoted text

How messages show a character or a string that they complain about: in quotes, with a backslash
before a backslash and before the surrounding quote, with short names for the common controls, and
with the code in braces for every other character that does not show on its own.
-/

namespace Nonassoc.Text

/-- The code of a character in braces, as it stands in quoted text. -/
def escapeCode (c : Char) : List Char :=
  ['\\', 'u', '{'] ++ (Nat.toDigits 16 c.toNat) ++ ['}']

/-- A character as it stands between two `quote`s. -/
def escape (quote c : Char) : List Char :=
  if c = '\x00' then ['\\', '0']
  else if c = '\t' then ['\\', 't']
  else if c = '\n' then ['\\', 'n']
  else if c = '\r' then ['\\', 'r']
  else if c = '\\' || c = quote then ['\\', c]
  else if isVisible c then [c]
  else escapeCode c

/-- A character in single quotes. -/
def quoteChar (c : Char) : String :=
  String.ofList (['\''] ++ escape '\'' c ++ ['\''])

/-- A string in double quotes. -/
def quoteString (s : String) : String :=
  String.ofList (['"'] ++ s.toList.flatMap (escape '"') ++ ['"'])

end Nonassoc.Text
