/-!
# Blank characters

Blank characters separate tokens and surround pieces of text. They are the characters with the
Unicode property `White_Space`, which is a larger class than `Char.isWhitespace`.
-/

namespace Nonassoc.Text

/-- A character with the Unicode property `White_Space`. -/
def isBlank (c : Char) : Bool :=
  let n := c.toNat
  (9 ≤ n && n ≤ 13) || n == 0x20 || n == 0x85 || n == 0xA0 || n == 0x1680 ||
    (0x2000 ≤ n && n ≤ 0x200A) || n == 0x2028 || n == 0x2029 || n == 0x202F || n == 0x205F ||
    n == 0x3000

/-- Drops the blank characters at the front. -/
def trimStart (s : List Char) : List Char := s.dropWhile isBlank

/-- Drops the blank characters at both ends. -/
def trim (s : List Char) : List Char := (trimStart (trimStart s).reverse).reverse

end Nonassoc.Text
