import Nonassoc.Combination
import Nonassoc.Text.Blank
import Nonassoc.Text.Decimal
import Nonassoc.Text.Quoted

/-!
# Reading combinations

The notation of identities, expanded while it is read:

```
sum   := ('+' | '-')? term (('+' | '-') term)*
term  := integer? chain
chain := run ('*' run)*              a*b is the Jordan product, chained from the left
run   := atom atom*                  left-normed product
atom  := (letter | '(' sum ')' | '(' sum ',' sum ',' sum ')' | '[' sum ',' sum ']') ('^' integer)?
```

Letters are those of ASCII, an integer is a maximal run of ASCII digits, and blank characters may
stand before every token. A `Cursor` is what is left of the text and its byte offset. Each function
below returns what it read together with a cursor that is strictly closer to the end (`Parsed`),
which is why the recursion ends. Main definition: `Combination.parse`.
-/

namespace Nonassoc

/-- A piece of notation that has to come next. -/
inductive Missing where
  | closingParenthesis
  | associatorComma
  | associatorEnd
  | commutatorComma
  | commutatorEnd
  deriving DecidableEq

namespace Missing

/-- The character itself. -/
def char : Missing → Char
  | closingParenthesis => ')'
  | associatorComma => ','
  | associatorEnd => ')'
  | commutatorComma => ','
  | commutatorEnd => ']'

/-- How a message names it. -/
def text : Missing → String
  | closingParenthesis => "')'"
  | associatorComma => "',' in associator"
  | associatorEnd => "')' closing associator"
  | commutatorComma => "',' in commutator"
  | commutatorEnd => "']' closing commutator"

end Missing

/-- Why a text is not a combination, and at which byte. -/
inductive ParseError where
  | unexpected (found : Char) (position : Nat)
  | unexpectedEnd
  | expected (what : Missing) (position : Nat)
  | overflow (position : Nat)
  | badExponent (position : Nat)
  | exponentTooLarge (position : Nat)
  deriving DecidableEq

/-- The wording of an error. -/
def ParseError.message : ParseError → String
  | unexpected found position =>
    "unexpected " ++ Text.quoteChar found ++ " at byte " ++ toString position
  | unexpectedEnd => "unexpected end of input"
  | expected what position => "expected " ++ what.text ++ " at byte " ++ toString position
  | overflow position => "integer overflow at byte " ++ toString position
  | badExponent position => "exponent must be positive, at byte " ++ toString position
  | exponentTooLarge position => "exponent above 255 at byte " ++ toString position

namespace Combination.Parser

/-! ## Cursors -/

/-- What is left to read, and the number of bytes before it. -/
structure Cursor where
  rest : List Char
  position : Nat

/-- The cursor at the first character of `rest` that is not blank. -/
def skipBlanks : List Char → Nat → Cursor
  | [], position => ⟨[], position⟩
  | c :: rest, position =>
    if Text.isBlank c then skipBlanks rest (position + c.utf8Size) else ⟨c :: rest, position⟩

theorem length_skipBlanks (rest : List Char) (position : Nat) :
    (skipBlanks rest position).rest.length ≤ rest.length := by
  induction rest generalizing position with
  | nil => exact Nat.le_refl _
  | cons c rest ih =>
    simp only [skipBlanks]
    split
    · exact Nat.le_succ_of_le (ih _)
    · exact Nat.le_refl _

namespace Cursor

/-- Moves past blank characters. -/
def skip (c : Cursor) : Cursor := skipBlanks c.rest c.position

theorem length_skip (c : Cursor) : c.skip.rest.length ≤ c.rest.length :=
  length_skipBlanks _ _

/-- The next character that is not blank. -/
def peek (c : Cursor) : Option Char := c.skip.rest.head?

/-- The next character that is not blank, and the cursor after it. -/
def next? (c : Cursor) : Option (Char × { d : Cursor // d.rest.length < c.rest.length }) :=
  match h : c.skip.rest with
  | [] => none
  | x :: rest =>
    some (x, ⟨⟨rest, c.skip.position + x.utf8Size⟩, by
      have := c.length_skip
      simp only [h, List.length_cons] at this
      exact this⟩)

/-- The cursor after the next character that is not blank, which has to be `x`. -/
def accept? (c : Cursor) (x : Char) : Option { d : Cursor // d.rest.length < c.rest.length } :=
  match c.next? with
  | some (y, d) => if y = x then some d else none
  | none => none

/-- Moves past the required character, or reports its absence. -/
def expect (c : Cursor) (what : Missing) :
    Except ParseError { d : Cursor // d.rest.length < c.rest.length } :=
  match c.accept? what.char with
  | some d => .ok d
  | none => .error (if c.peek.isNone then .unexpectedEnd else .expected what c.skip.position)

end Cursor

/-! ## Integers and powers -/

/-- The value of the next run of digits. It has to fit a coefficient. -/
def integer (c : Cursor) :
    Except ParseError (Nat × { d : Cursor // d.rest.length ≤ c.rest.length }) :=
  let digits := c.skip.rest.takeWhile Char.isDigit
  if Coefficient.maximum < Text.decimal digits then .error (.overflow c.skip.position)
  else
    .ok (Text.decimal digits, ⟨⟨c.skip.rest.drop digits.length, c.skip.position + digits.length⟩, by
      have := c.length_skip
      simp only [List.length_drop]
      omega⟩)

/-- A combination read from `start`, and where reading goes on. -/
structure Parsed (start : Cursor) where
  value : Combination
  next : Cursor
  shorter : next.rest.length < start.rest.length

/-- The same reading with the blank characters after it passed. -/
def Parsed.skip {start : Cursor} (p : Parsed start) : Parsed start :=
  ⟨p.value, p.next.skip, Nat.lt_of_le_of_lt p.next.length_skip p.shorter⟩

/-- Reports a coefficient that does not fit at the cursor. -/
def fitted (c : Cursor) (p : Option Combination) : Except ParseError Combination :=
  match p with
  | some p => .ok p
  | none => .error (.overflow c.position)

/-- The largest exponent, since no multiplicity exceeds a byte. -/
def maximalExponent : Nat := 255

/-- Raises what was read to the exponent that follows it, if one does. -/
def powered {start : Cursor} (p : Parsed start) : Except ParseError (Parsed start) :=
  match p.next.accept? '^' with
  | none => .ok p.skip
  | some caret =>
    if !(caret.val.peek.any Char.isDigit) then .error (.badExponent caret.val.position)
    else do
      let (n, next) ← integer caret.val
      if n = 0 then throw (.badExponent caret.val.position)
      if maximalExponent < n then throw (.exponentTooLarge caret.val.position)
      let value ← fitted next.val (p.value.power? (n - 1))
      return ⟨value, next.val, by
        have h₁ := next.property
        have h₂ := caret.property
        have h₃ := p.shorter
        omega⟩

/-! ## The grammar -/

/-- Whether an atom can begin with the character. -/
def startsAtom (c : Char) : Bool := c.isAlpha || c = '(' || c = '['

/-- The sign that the character stands for in a sum. -/
def sign? : Char → Option Int
  | '+' => some 1
  | '-' => some (-1)
  | _ => none

/-- The sign before a term, and where the term begins. -/
def signed? (c : Cursor) : Option (Int × { d : Cursor // d.rest.length < c.rest.length }) :=
  match c.accept? '+' with
  | some d => some (1, d)
  | none => (c.accept? '-').map ((-1, ·))

/-- The integer before a chain, one if there is none, and where the chain begins. -/
def coefficient (c : Cursor) :
    Except ParseError (Nat × { d : Cursor // d.rest.length ≤ c.rest.length }) :=
  if c.peek.any Char.isDigit then integer c else .ok (1, ⟨c, Nat.le_refl _⟩)

mutual

/-- A letter, a sum in parentheses, an associator or a commutator, with its exponent. -/
def atom (c : Cursor) : Except ParseError (Parsed c) :=
  match c.next? with
  | none => .error .unexpectedEnd
  | some (x, inside) =>
    have h₀ := inside.property
    if x.isAlpha then powered ⟨[(1, .letter x)], inside.val, h₀⟩
    else if x = '(' then do
      let a ← sum inside.val
      have h₁ := a.shorter
      match a.next.accept? ',' with
      | some comma =>
        have h₂ := comma.property
        let b ← sum comma.val
        have h₃ := b.shorter
        let comma₂ ← b.next.expect .associatorComma
        have h₄ := comma₂.property
        let d ← sum comma₂.val
        have h₅ := d.shorter
        let close ← d.next.expect .associatorEnd
        have h₆ := close.property
        let value ← fitted close.val (associator? a.value b.value d.value)
        powered ⟨value, close.val, by omega⟩
      | none =>
        let close ← a.next.expect .closingParenthesis
        have h₂ := close.property
        powered ⟨a.value, close.val, by omega⟩
    else if x = '[' then do
      let a ← sum inside.val
      have h₁ := a.shorter
      let comma ← a.next.expect .commutatorComma
      have h₂ := comma.property
      let b ← sum comma.val
      have h₃ := b.shorter
      let close ← b.next.expect .commutatorEnd
      have h₄ := close.property
      let value ← fitted close.val (commutator? a.value b.value)
      powered ⟨value, close.val, by omega⟩
    else .error (.unexpected x c.skip.position)
termination_by 8 * c.rest.length
decreasing_by all_goals omega

/-- Atoms side by side: their left-normed product. -/
def run (c : Cursor) : Except ParseError (Parsed c) := do
  let p ← atom c
  have := p.shorter
  runOn p
termination_by 8 * c.rest.length + 2
decreasing_by all_goals omega

/-- Multiplies what was read by the atoms that follow it. -/
def runOn {start : Cursor} (p : Parsed start) : Except ParseError (Parsed start) :=
  if p.next.peek.any startsAtom then do
    let q ← atom p.next
    have := q.shorter
    have := p.shorter
    let value ← fitted q.next (p.value.mul? q.value)
    runOn ⟨value, q.next, by omega⟩
  else .ok p.skip
termination_by 8 * p.next.rest.length + 1
decreasing_by all_goals omega

/-- Runs joined by `*`: their Jordan product. -/
def chain (c : Cursor) : Except ParseError (Parsed c) := do
  let p ← run c
  have := p.shorter
  chainOn p
termination_by 8 * c.rest.length + 4
decreasing_by all_goals omega

/-- Multiplies what was read by the runs that follow it behind a `*`. -/
def chainOn {start : Cursor} (p : Parsed start) : Except ParseError (Parsed start) :=
  match p.next.accept? '*' with
  | none => .ok p.skip
  | some star => do
    have := star.property
    let q ← run star.val
    have := q.shorter
    have := p.shorter
    let value ← fitted q.next (jordan? p.value q.value)
    chainOn ⟨value, q.next, by omega⟩
termination_by 8 * p.next.rest.length + 3
decreasing_by all_goals omega

/-- A chain with the integer before it. -/
def term (c : Cursor) : Except ParseError (Parsed c) := do
  let (n, inner) ← coefficient c
  have := inner.property
  let p ← chain inner.val
  have := p.shorter
  let value ← fitted p.next (p.value.scale? n)
  return ⟨value, p.next, by omega⟩
termination_by 8 * c.rest.length + 5
decreasing_by all_goals omega

/-- Adds the terms from `c` on, the first with the given sign, to the sum so far, whose last term
stands first. -/
def terms {start : Cursor} (sign : Int) (sofar : Combination) (c : Cursor)
    (h : c.rest.length ≤ start.rest.length) : Except ParseError (Parsed start) := do
  let p ← term c
  have := p.shorter
  let value ← fitted p.next (p.value.scale? sign)
  match signed? p.next with
  | some (sign, d) =>
    have := d.property
    terms sign (value.reverse ++ sofar) d.val (by omega)
  | none =>
    let merged ← fitted p.next.skip (merge? (value.reverse ++ sofar).reverse)
    return ⟨merged, p.next.skip, by
      have := p.next.length_skip
      omega⟩
termination_by 8 * c.rest.length + 6
decreasing_by all_goals omega

/-- A sum: its terms with their signs, like words merged. -/
def sum (c : Cursor) : Except ParseError (Parsed c) :=
  match signed? c with
  | some (sign, d) =>
    have := d.property
    terms sign [] d.val (by omega)
  | none => terms 1 [] c (Nat.le_refl _)
termination_by 8 * c.rest.length + 7
decreasing_by all_goals omega

end

end Combination.Parser

open Combination.Parser in
/-- The combination that a text denotes: like words merged in order of first appearance, zero terms
dropped. The whole text has to be a sum. -/
def Combination.parse (text : String) : Except ParseError Combination := do
  let p ← sum ⟨text.toList, 0⟩
  match p.next.skip.rest with
  | [] => return p.value
  | c :: _ => throw (.unexpected c p.next.skip.position)

end Nonassoc
