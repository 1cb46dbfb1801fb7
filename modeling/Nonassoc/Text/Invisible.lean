import Nonassoc.Text.Combining
import Nonassoc.Text.Unassigned

/-!
# Visible characters

A character shows on its own unless it leaves no mark, attaches to the character before it, or is
not assigned. Main definition: `isVisible`.
-/

namespace Nonassoc.Text

/-- The characters that leave no mark of their own: controls, format characters, separators other
than the common space, characters for private use, and the fillers, which have the Unicode property
`Default_Ignorable_Code_Point` although they count as letters. Both ends of a range are included. -/
def invisibleRanges : List (Nat × Nat) :=
  [(0x0000, 0x001F), (0x007F, 0x00A0), (0x00AD, 0x00AD), (0x0600, 0x0605), (0x061C, 0x061C),
   (0x06DD, 0x06DD), (0x070F, 0x070F), (0x0890, 0x0891), (0x08E2, 0x08E2), (0x115F, 0x1160),
   (0x1680, 0x1680), (0x180E, 0x180E), (0x2000, 0x200F), (0x2028, 0x202F), (0x205F, 0x2064),
   (0x2066, 0x206F), (0x3000, 0x3000), (0x3164, 0x3164), (0xE000, 0xF8FF), (0xFEFF, 0xFEFF),
   (0xFFA0, 0xFFA0), (0xFFF9, 0xFFFB), (0x110BD, 0x110BD), (0x110CD, 0x110CD), (0x13430, 0x1343F),
   (0x1BCA0, 0x1BCA3), (0x1D173, 0x1D17A), (0xE0001, 0xE0001), (0xE0020, 0xE007F),
   (0xF0000, 0xFFFFD), (0x100000, 0x10FFFD)]

/-- Whether `n` lies in one of the ranges. -/
def inRanges (ranges : List (Nat × Nat)) (n : Nat) : Bool :=
  ranges.any fun r => r.1 ≤ n && n ≤ r.2

/-- A character that shows on its own. No table lists a printable character of ASCII, so none is
looked up. -/
def isVisible (c : Char) : Bool :=
  let n := c.toNat
  if n < 0x7F then 0x20 ≤ n
  else !inRanges invisibleRanges n && !inRanges combiningRanges n && !inRanges unassignedRanges n

end Nonassoc.Text
