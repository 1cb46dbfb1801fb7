/-!
# Nonassociative words

A word is a letter or an ordered product of two words: a monomial of the free nonassociative
algebra on the letters. Main definitions: `Word.degree`, `Word.letters` (left to right) and
`Word.spelling`, the form in which words are written, with a parenthesis around every product that
is a factor of another one.
-/

namespace Nonassoc

/-- A monomial over letters; the product is neither associative nor commutative. -/
inductive Word where
  | letter (c : Char)
  | product (left right : Word)
  deriving DecidableEq, Hashable

namespace Word

/-- The number of letters, each counted as often as it occurs. -/
def degree : Word → Nat
  | letter _ => 1
  | product l r => l.degree + r.degree

/-- The letters in reading order, with `after` behind them. -/
def lettersBefore : Word → (after : List Char) → List Char
  | letter c, after => c :: after
  | product l r, after => l.lettersBefore (r.lettersBefore after)

/-- The letters in reading order. -/
def letters (w : Word) : List Char := w.lettersBefore []

/-- The written form of a factor, with `after` behind it: a letter, or a product in parentheses. -/
def factorBefore : Word → (after : List Char) → List Char
  | letter c, after => c :: after
  | product l r, after => '(' :: l.factorBefore (r.factorBefore (')' :: after))

/-- The written form: factors side by side, factors that are products in parentheses. -/
def spelling : Word → List Char
  | letter c => [c]
  | product l r => l.factorBefore (r.factorBefore [])

/-- The written form as text. -/
def text (w : Word) : String := String.ofList w.spelling

/-! ## Letters and spelling of a product -/

theorem lettersBefore_eq (w : Word) (after : List Char) :
    w.lettersBefore after = w.letters ++ after := by
  induction w generalizing after with
  | letter => rfl
  | product l r hl hr =>
    simp only [letters, lettersBefore]
    rw [hl, hr, hl (r.lettersBefore []), hr [], List.append_nil, List.append_assoc]

@[simp] theorem letters_letter (c : Char) : (letter c).letters = [c] := rfl

@[simp] theorem letters_product (l r : Word) : (product l r).letters = l.letters ++ r.letters := by
  simp only [letters, lettersBefore]
  rw [lettersBefore_eq]
  rfl

/-- Puts parentheses around `spelling` unless `w` is a letter. -/
def enclose (w : Word) (spelling : List Char) : List Char :=
  match w with
  | letter _ => spelling
  | product .. => '(' :: (spelling ++ [')'])

theorem factorBefore_eq (w : Word) (after : List Char) :
    w.factorBefore after = enclose w w.spelling ++ after := by
  induction w generalizing after with
  | letter => rfl
  | product l r hl hr =>
    show '(' :: l.factorBefore (r.factorBefore (')' :: after)) =
      '(' :: (l.factorBefore (r.factorBefore []) ++ [')']) ++ after
    rw [hl, hr, hl, hr []]
    simp

@[simp] theorem spelling_letter (c : Char) : (letter c).spelling = [c] := rfl

@[simp] theorem spelling_product (l r : Word) :
    (product l r).spelling = enclose l l.spelling ++ enclose r r.spelling := by
  show l.factorBefore (r.factorBefore []) = _
  rw [factorBefore_eq, factorBefore_eq, List.append_nil]

theorem length_letters (w : Word) : w.letters.length = w.degree := by
  induction w with
  | letter => rfl
  | product l r hl hr => simp [degree, hl, hr]

end Word

end Nonassoc
