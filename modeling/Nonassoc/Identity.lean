import Nonassoc.Combination.Parser
import Nonassoc.Total

/-!
# Identities

An identity is a homogeneous integer combination of words: every term has the same letters, each
equally often. Its letters become variables, numbered in letter order, and in every term the
occurrences of a variable are numbered from left to right. Main definitions: `Identity.ofWords`,
`Identity.scaled` and `Identity.text`, which writes an identity in the notation that
`Identity.parse` reads.
-/

namespace Nonassoc

/-! ## Content of a word -/

/-- How often each letter occurs, letters ascending. -/
abbrev Content := List (Char × Nat)

/-- Counts one more occurrence of `c`. -/
def Content.insert (c : Char) : Content → Content
  | [] => [(c, 1)]
  | (d, n) :: rest =>
    if c < d then (c, 1) :: (d, n) :: rest
    else if c = d then (d, n + 1) :: rest
    else (d, n) :: Content.insert c rest

/-- The letters of a word with their multiplicities. -/
def Word.content (w : Word) : Content := w.letters.foldl (fun k c => k.insert c) []

/-! ## Patterns -/

/-- A word whose letters are replaced by numbered occurrences of variables; `leaf v k` is occurrence
`k` of variable `v`. -/
inductive Pattern where
  | leaf (v occurrence : Nat)
  | product (left right : Pattern)
  deriving DecidableEq

namespace Pattern

/-- The pattern of a word, and how often each variable occurs up to its end, given how often each
occurs before it: a letter is the variable at its position in `letters`, and its occurrence is the
number of equal letters further left. -/
def numberFrom (letters : List Char) : Word → (before : List Nat) → Pattern × List Nat
  | .letter c, before =>
    let v := letters.idxOf c
    (leaf v (before.getD v 0), before.modify v (· + 1))
  | .product l r, before =>
    let (p, between) := numberFrom letters l before
    let (q, past) := numberFrom letters r between
    (product p q, past)

/-- The pattern of a word, given the letter of each variable. -/
def ofWord (letters : List Char) (w : Word) : Pattern :=
  (numberFrom letters w (letters.map fun _ => 0)).1

/-- The word that a pattern stands for, given the letter of each variable. -/
def word (letter : Nat → Char) : Pattern → Word
  | leaf v _ => .letter (letter v)
  | product l r => .product (l.word letter) (r.word letter)

/-- The two factors of the outermost product. -/
def factors? : Pattern → Option (Pattern × Pattern)
  | leaf .. => none
  | product l r => some (l, r)

end Pattern

/-- An integer multiple of a pattern. -/
structure Term where
  coefficient : Int
  pattern : Pattern
  deriving DecidableEq

/-! ## Identities -/

/-- A homogeneous combination of words: the letter and the number of occurrences of each variable,
and the terms. -/
structure Identity where
  letters : List Char
  degrees : List Nat
  terms : List Term
  deriving DecidableEq

/-- Why a combination is not an identity; terms are counted from zero, without those whose
coefficient is zero. -/
inductive IdentityError where
  | empty
  | notHomogeneous (term : Nat)
  | degreeTooSmall (term degree : Nat)
  | coefficientOverflow (term : Nat)
  deriving DecidableEq

/-- The wording of an error. -/
def IdentityError.message : IdentityError → String
  | empty => "the identity has no nonzero terms"
  | notHomogeneous term =>
    "term " ++ toString term ++ " is not homogeneous with the first term"
  | degreeTooSmall term degree =>
    "term " ++ toString term ++ " has degree " ++ toString degree ++
      ", identities need degree at least 2"
  | coefficientOverflow term => "coefficient of term " ++ toString term ++ " overflows"

namespace Identity

/-- The first offence in a list of terms, numbered from `term` on, that should all have the given
content. A term of degree below two is reported as that, homogeneous or not. -/
def offence? (content : Content) (term : Nat) : Combination → Option IdentityError
  | [] => none
  | (_, w) :: rest =>
    if w.degree < 2 then some (.degreeTooSmall term w.degree)
    else if w.content ≠ content then some (.notHomogeneous term)
    else offence? content (term + 1) rest

/-- The identity with the given terms, those with coefficient zero left out. -/
def ofWords (words : Combination) : Except IdentityError Identity :=
  match words.filter (·.1 ≠ 0) with
  | [] => .error .empty
  | (c, first) :: rest =>
    let content := first.content
    match offence? content 0 ((c, first) :: rest) with
    | some e => .error e
    | none =>
      let letters := content.map (·.1)
      .ok {
        letters
        degrees := content.map (·.2)
        terms := ((c, first) :: rest).map fun (c, w) => ⟨c, .ofWord letters w⟩ }

/-- The number of letters of every term. -/
def degree (e : Identity) : Nat := total e.degrees

/-- Multiplies the coefficients of the terms, numbered from `term` on, by `c`. -/
def scaleTerms (c : Int) (term : Nat) : List Term → Except IdentityError (List Term)
  | [] => .ok []
  | t :: rest =>
    match Coefficient.fit? (t.coefficient * c) with
    | none => .error (.coefficientOverflow term)
    | some x => do return ⟨x, t.pattern⟩ :: (← scaleTerms c (term + 1) rest)

/-- The same identity with every coefficient multiplied by `c`. -/
def scaled (e : Identity) (c : Int) : Except IdentityError Identity :=
  if c = 0 then .error .empty
  else do return { e with terms := ← scaleTerms c 0 e.terms }

/-- The letter of a variable. -/
def letter (e : Identity) (v : Nat) : Char := e.letters[v]?.getD ' '

/-! ## Written form -/

/-- The sign before a term; the first term has none unless it is negative. -/
def signSpelling (isFirst : Bool) (c : Int) : List Char :=
  if isFirst then if c < 0 then ['-'] else []
  else if c < 0 then [' ', '-', ' '] else [' ', '+', ' ']

/-- The size of a coefficient, which is left out if it is one. -/
def sizeSpelling (c : Int) : List Char :=
  if c.natAbs = 1 then [] else Nat.toDigits 10 c.natAbs

/-- A term without its sign. -/
def termSpelling (e : Identity) (t : Term) : List Char :=
  sizeSpelling t.coefficient ++ (t.pattern.word e.letter).spelling

/-- The terms in order with their signs. -/
def spelling (e : Identity) : List Char :=
  match e.terms with
  | [] => []
  | t :: rest =>
    signSpelling true t.coefficient ++ e.termSpelling t ++
      rest.flatMap fun t => signSpelling false t.coefficient ++ e.termSpelling t

/-- The written form of an identity. -/
def text (e : Identity) : String := String.ofList e.spelling

/-- Why a text is not an identity. -/
inductive ReadError where
  | reading (e : ParseError)
  | identity (e : IdentityError)
  deriving DecidableEq

/-- The wording of an error. -/
def ReadError.message : ReadError → String
  | reading e => e.message
  | identity e => e.message

/-- The identity that a text denotes. -/
def parse (text : String) : Except ReadError Identity :=
  match Combination.parse text with
  | .error e => .error (.reading e)
  | .ok p =>
    match ofWords p with
    | .error e => .error (.identity e)
    | .ok identity => .ok identity

end Identity

end Nonassoc
