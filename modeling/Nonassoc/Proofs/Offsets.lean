import Nonassoc.Proofs.Positions

/-!
# Reading by byte offsets

A second reader of combinations, which keeps the whole text and a byte offset into it. To look at
what comes next it slices the text at the offset, and blank characters are passed by looking.
Nothing in it tells that it gets on: a reading that slices inside a character ends with
`Halt.panic`, and one whose calls nest deeper than it is allowed has no outcome at all. Its place
also tells what it has done: where the last token ends that it has consumed, and where it has read
integers. Main definition: `Offsets.parse`.
-/

namespace Nonassoc

open Combination.Parser

namespace Combination.Offsets

/-! ## Slices -/

/-- What stands in a text from a byte on, which must neither be inside a character nor beyond the
end. -/
def sliceFrom? : List Char → Nat → Option (List Char)
  | text, 0 => some text
  | [], _ + 1 => none
  | c :: text, n + 1 =>
    if c.utf8Size ≤ n + 1 then sliceFrom? text (n + 1 - c.utf8Size) else none

/-- What stands in a text between two bytes. -/
def slice? (text : List Char) (start stop : Nat) : Option (List Char) := do
  let front ← sliceFrom? text start
  let back ← sliceFrom? text stop
  if start ≤ stop then some (front.take (front.length - back.length)) else none

theorem sliceFrom?_append (before after : List Char) :
    sliceFrom? (before ++ after) (bytes before) = some after := by
  induction before with
  | nil => rw [List.nil_append, bytes_nil, sliceFrom?]
  | cons c before ih =>
    have hpos := c.utf8Size_pos
    obtain ⟨n, hn⟩ : ∃ n, c.utf8Size + bytes before = n + 1 :=
      ⟨_, (Nat.sub_add_cancel (by omega)).symm⟩
    have hsub : n + 1 - c.utf8Size = bytes before := by omega
    rw [bytes_cons, List.cons_append, hn, sliceFrom?, if_pos (by omega), hsub, ih]

/-- A text can be sliced after some of its characters, and nowhere else. -/
theorem sliceFrom?_eq_some_iff {text after : List Char} {n : Nat} :
    sliceFrom? text n = some after ↔ ∃ before, text = before ++ after ∧ bytes before = n := by
  refine ⟨fun h => ?_, fun ⟨before, htext, hn⟩ => htext ▸ hn ▸ sliceFrom?_append before after⟩
  fun_induction sliceFrom? text n with
  | case1 text =>
    cases h
    exact ⟨[], rfl, rfl⟩
  | case2 => cases h
  | case3 c text n hle ih =>
    obtain ⟨before, rfl, hn⟩ := ih h
    refine ⟨c :: before, rfl, ?_⟩
    rw [bytes_cons, hn]
    omega
  | case4 => cases h

/-- A text can be sliced at the boundaries of its characters. -/
theorem isSome_sliceFrom?_iff {text : List Char} {n : Nat} :
    (sliceFrom? text n).isSome ↔ (⟨n⟩ : String.Pos.Raw).IsValid (String.ofList text) := by
  simp only [Option.isSome_iff_exists, sliceFrom?_eq_some_iff,
    String.Pos.Raw.isValid_iff_exists_append]
  constructor
  · rintro ⟨after, before, rfl, rfl⟩
    exact ⟨.ofList before, .ofList after, String.ofList_append, rfl⟩
  · rintro ⟨before, after, htext, hn⟩
    refine ⟨after.toList, before.toList, ?_, ?_⟩
    · rw [← String.toList_append, ← htext, String.toList_ofList]
    · rw [bytes, String.ofList_toList]
      exact (congrArg String.Pos.Raw.byteIdx hn).symm

theorem slice?_append (before middle after : List Char) :
    slice? (before ++ middle ++ after) (bytes before) (bytes before + bytes middle) =
      some middle := by
  have hstart : sliceFrom? (before ++ middle ++ after) (bytes before) = some (middle ++ after) := by
    rw [List.append_assoc, sliceFrom?_append]
  have hstop :
      sliceFrom? (before ++ middle ++ after) (bytes before + bytes middle) = some after := by
    rw [← bytes_append, sliceFrom?_append]
  simp only [slice?, hstart, hstop, bind, Option.bind, if_pos (Nat.le_add_right _ _)]
  simp

/-! ## Readings -/

/-- Where a reading stands. -/
structure Place where
  /-- The offset. -/
  position : Nat
  /-- The end of the last token that has been consumed. -/
  consumed : Nat
  /-- Where integers have been read, the last one first. -/
  literals : List Nat

/-- Where every reading begins. -/
def Place.start : Place := ⟨0, 0, []⟩

/-- How a reading ends without a result. -/
inductive Halt where
  | panic
  | error (e : ParseError)

/-- A reading from a place. It has no outcome if its calls nest too deep. -/
abbrev Reading := ExceptT Halt (StateT Place Option)

/-- How a reading ends from a place, and where. -/
def Reading.outcome {α : Type} (read : Reading α) (s : Place) : Option (Except Halt α × Place) :=
  read.run.run s

section
variable {α β : Type} {read : Reading α} {s t : Place}

theorem outcome_bind {f : α → Reading β} {a : α} (h : read.outcome s = some (.ok a, t)) :
    (read >>= f).outcome s = (f a).outcome t := by
  rw [Reading.outcome, ExceptT.run_bind, StateT.run_bind, show read.run.run s = _ from h]
  rfl

theorem outcome_bind_of_halt {f : α → Reading β} {e : Halt}
    (h : read.outcome s = some (.error e, t)) : (read >>= f).outcome s = some (.error e, t) := by
  rw [Reading.outcome, ExceptT.run_bind, StateT.run_bind, show read.run.run s = _ from h]
  rfl

end

/-- The calls nest too deep. -/
def exhausted {α : Type} : Reading α := ExceptT.mk fun _ => none

/-- A slice that has to exist. -/
def orPanic {α : Type} : Option α → Reading α
  | some piece => return piece
  | none => throw .panic

/-- The end of a reading with an error. -/
def fail {α : Type} (e : ParseError) : Reading α := throw (.error e)

/-- The current offset. -/
def position : Reading Nat := return (← get).position

/-- Reports a coefficient that does not fit at the offset. -/
def fit (p : Option Combination) : Reading Combination := do
  match p with
  | some p => return p
  | none => fail (.overflow (← position))

section
variable (text : List Char)

/-- Moves past blank characters and tells what comes next. -/
def peek : Reading (Option Char) := do
  let s ← get
  let rest ← orPanic (sliceFrom? text s.position)
  let trimmed := Text.trimStart rest
  set { s with position := s.position + (bytes rest - bytes trimmed) }
  return trimmed.head?

/-- Consumes the next character. -/
def bump : Reading Unit := do
  match ← peek text with
  | some c => modify fun s =>
      { s with position := s.position + c.utf8Size, consumed := s.position + c.utf8Size }
  | none => return ()

/-- Consumes the required character. -/
def expect (what : Missing) : Reading Unit := do
  match ← peek text with
  | some found => if found = what.char then bump text else fail (.expected what (← position))
  | none => fail .unexpectedEnd

/-- Consumes a run of digits. -/
def integer : Reading Nat := do
  let _ ← peek text
  let s ← get
  let rest ← orPanic (sliceFrom? text s.position)
  let stop := s.position + bytes (rest.takeWhile Char.isDigit)
  set (⟨stop, stop, s.position :: s.literals⟩ : Place)
  let digits ← orPanic (slice? text s.position stop)
  if digits = [] ∨ Coefficient.maximum < Text.decimal digits then fail (.overflow s.position)
  return Text.decimal digits

/-- Consumes the exponent behind a base, if there is one. -/
def powered (base : Combination) : Reading Combination := do
  if (← peek text) ≠ some '^' then return base
  bump text
  let caret ← position
  if !((← peek text).any Char.isDigit) then fail (.badExponent caret)
  let n ← integer text
  if n = 0 then fail (.badExponent caret)
  if maximalExponent < n then fail (.exponentTooLarge caret)
  fit (base.power? (n - 1))

/-- Consumes a sign, if one comes next. -/
def sign : Reading (Option Int) := do
  match (← peek text).bind sign? with
  | some s =>
    bump text
    return some s
  | none => return none

/-- Consumes the integer before a chain, if there is one. -/
def coefficient : Reading Nat := do
  if (← peek text).any Char.isDigit then integer text else return 1

/-! ## The grammar

The parts of the grammar, each with the depth to which calls may nest. The loops are calls, too. -/

mutual

def base : Nat → Reading Combination
  | 0 => exhausted
  | depth + 1 => do
    match ← peek text with
    | some x =>
      if x.isAlpha then
        bump text
        return [(1, .letter x)]
      else if x = '(' then
        bump text
        let a ← sum depth
        if (← peek text) = some ',' then
          bump text
          let b ← sum depth
          expect text .associatorComma
          let d ← sum depth
          expect text .associatorEnd
          fit (associator? a b d)
        else
          expect text .closingParenthesis
          return a
      else if x = '[' then
        bump text
        let a ← sum depth
        expect text .commutatorComma
        let b ← sum depth
        expect text .commutatorEnd
        fit (commutator? a b)
      else fail (.unexpected x (← position))
    | none => fail .unexpectedEnd

def atom : Nat → Reading Combination
  | 0 => exhausted
  | depth + 1 => do powered text (← base depth)

def run : Nat → Reading Combination
  | 0 => exhausted
  | depth + 1 => do runOn depth (← atom depth)

def runOn : Nat → Combination → Reading Combination
  | 0, _ => exhausted
  | depth + 1, p => do
    if (← peek text).any startsAtom then
      let q ← atom depth
      runOn depth (← fit (p.mul? q))
    else return p

def chain : Nat → Reading Combination
  | 0 => exhausted
  | depth + 1 => do chainOn depth (← run depth)

def chainOn : Nat → Combination → Reading Combination
  | 0, _ => exhausted
  | depth + 1, p => do
    if (← peek text) = some '*' then
      bump text
      let q ← run depth
      chainOn depth (← fit (jordan? p q))
    else return p

def term : Nat → Reading Combination
  | 0 => exhausted
  | depth + 1 => do
    let n ← coefficient text
    let p ← chain depth
    fit (p.scale? n)

/-- Adds the terms to the sum so far, the first one with the given sign. -/
def terms : Nat → Int → Combination → Reading Combination
  | 0, _, _ => exhausted
  | depth + 1, σ, sofar => do
    let p ← term depth
    let value ← fit (p.scale? σ)
    match ← sign text with
    | some σ => terms depth σ (sofar ++ value)
    | none => fit (merge? (sofar ++ value))

def sum : Nat → Reading Combination
  | 0 => exhausted
  | depth + 1 => do terms depth ((← sign text).getD 1) []

end

/-- The whole text has to be a sum. -/
def parse (depth : Nat) : Reading Combination := do
  let p ← sum text depth
  match ← peek text with
  | none => return p
  | some found => fail (.unexpected found (← position))

end

end Combination.Offsets

end Nonassoc
