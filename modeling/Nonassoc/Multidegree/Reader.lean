import Nonassoc.Multidegree
import Nonassoc.Text.Blank
import Nonassoc.Text.Decimal
import Nonassoc.Text.Pieces

/-!
# Reading multidegrees

`3,2,1` and `(3,2,1)` both denote the multidegree with these multiplicities. Blank characters may
surround the whole and each piece, a piece may carry a plus sign, and parentheses come in pairs.
Main definition: `Multidegree.parse`.
-/

namespace Nonassoc.Multidegree

/-- The text without the parentheses around it, if both are there. -/
def unwrap (s : List Char) : List Char :=
  match s with
  | '(' :: rest => if rest.getLast? = some ')' then rest.dropLast else s
  | _ => s

/-- The byte that a piece denotes: digits, perhaps after a plus sign. -/
def byte? (s : List Char) : Option UInt8 :=
  let digits := match s with
    | '+' :: rest => rest
    | _ => s
  if !digits.isEmpty && digits.all Char.isDigit && Text.decimal digits < 256 then
    some (UInt8.ofNat (Text.decimal digits))
  else none

/-- The multiplicities that the pieces of a text denote. -/
def read? (s : List Char) : Option (List UInt8) :=
  (Text.pieces ',' (unwrap (Text.trim s))).mapM fun piece => byte? (Text.trim piece)

/-- The multidegree that a text denotes. -/
def parse (text : String) : Except MultidegreeError Multidegree :=
  match read? text.toList with
  | some components => .ok ⟨components⟩
  | none => .error (.unreadable text)

end Nonassoc.Multidegree
