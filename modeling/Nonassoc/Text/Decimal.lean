/-!
# Decimal digits

`decimal` reads a run of ASCII digits, leading zeros allowed.
-/

namespace Nonassoc.Text

/-- The number that a run of decimal digits denotes. -/
def decimal (digits : List Char) : Nat :=
  digits.foldl (fun n d => 10 * n + (d.toNat - '0'.toNat)) 0

end Nonassoc.Text
