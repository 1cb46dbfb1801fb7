/-!
# Capacity

Counts are machine words of 64 bits, and no list takes more than half of the address space. The
largest count is `maximalCount`; a list holds at most `byteCapacity` bytes or `wordCapacity` words.
-/

namespace Nonassoc

/-- The largest count of a machine word. -/
def maximalCount : Nat := 18446744073709551615

/-- How many bytes one list can hold. -/
def byteCapacity : Nat := 9223372036854775807

/-- How many words one list can hold, at eight bytes each. -/
def wordCapacity : Nat := byteCapacity / 8

end Nonassoc
