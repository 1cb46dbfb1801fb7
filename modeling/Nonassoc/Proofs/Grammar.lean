import Mathlib.Data.List.TakeWhile
import Nonassoc.Combination.Parser
import Nonassoc.Proofs.Results

/-!
# The grammar of combinations

`lex` divides a text into lexemes: maximal runs of digits, and the other characters that are not
blank. A `Phrase` is a derivation tree of the grammar, with the lexemes that it derives
(`Phrase.lexemes`) and the combination that it denotes (`Phrase.value?`), if all coefficients on the
way fit. `Derives text`: the text is derived from a sum. The other lemmas say what the steps of a
cursor are in terms of lexemes.
-/

namespace Nonassoc.Combination.Parser

/-! ## Lexemes -/

/-- A run of digits that is not empty. -/
structure Numeral where
  digits : List Char
  ne_nil : digits ≠ []
  isDigit : ∀ d ∈ digits, d.isDigit = true

namespace Numeral

/-- The number that it denotes. -/
def value (n : Numeral) : Nat := Text.decimal n.digits

/-- The digits at the front of a text that begins with one. -/
def front (c : Char) (rest : List Char) (h : c.isDigit = true) : Numeral where
  digits := c :: rest.takeWhile Char.isDigit
  ne_nil := List.cons_ne_nil _ _
  isDigit := List.forall_mem_cons.2 ⟨h, fun _ hd => List.mem_takeWhile_imp hd⟩

end Numeral

/-- What a text is made of. -/
inductive Lexeme where
  | char (c : Char)
  | numeral (n : Numeral)

/-- The lexemes of a text: blank characters separate them, and numerals are as long as possible. -/
def lex : List Char → List Lexeme
  | [] => []
  | c :: rest =>
    if Text.isBlank c then lex rest
    else if h : c.isDigit = true then
      .numeral (.front c rest h) :: lex (rest.dropWhile Char.isDigit)
    else .char c :: lex rest
termination_by l => l.length
decreasing_by
  · exact Nat.lt_succ_self _
  · exact Nat.lt_succ_of_le (List.length_dropWhile_le _ _)
  · exact Nat.lt_succ_self _

@[simp] theorem lex_nil : lex [] = [] := by rw [lex]

theorem lex_of_isBlank {c : Char} (h : Text.isBlank c = true) (rest : List Char) :
    lex (c :: rest) = lex rest := by
  rw [lex, if_pos h]

theorem lex_of_isDigit {c : Char} (hb : Text.isBlank c = false) (h : c.isDigit = true)
    (rest : List Char) :
    lex (c :: rest) = .numeral (.front c rest h) :: lex (rest.dropWhile Char.isDigit) := by
  rw [lex, if_neg (Bool.eq_false_iff.1 hb), dif_pos h]

theorem lex_of_not_isDigit {c : Char} (hb : Text.isBlank c = false) (h : c.isDigit = false)
    (rest : List Char) : lex (c :: rest) = .char c :: lex rest := by
  rw [lex, if_neg (Bool.eq_false_iff.1 hb), dif_neg (Bool.eq_false_iff.1 h)]

/-- The characters at the front with a property that the one behind them does not have. -/
theorem span_append {p : Char → Bool} (l : List Char) {r : List Char}
    (h : ∀ c ∈ r.head?, p c = false) :
    (l ++ r).takeWhile p = l.takeWhile p ∧ (l ++ r).dropWhile p = l.dropWhile p ++ r := by
  induction l with
  | nil =>
    cases r with
    | nil => exact ⟨rfl, rfl⟩
    | cons c r => simp [h c rfl]
  | cons c l ih =>
    cases hc : p c with
    | true => simp [hc, ih]
    | false => simp [hc]

/-- A text that is cut where no digit follows. -/
theorem lex_append (l : List Char) {r : List Char} (h : ∀ c ∈ r.head?, c.isDigit = false) :
    lex (l ++ r) = lex l ++ lex r := by
  fun_induction lex l with
  | case1 => rfl
  | case2 c rest hb ih => rw [List.cons_append, lex_of_isBlank hb, ih]
  | case3 c rest hb hc ih =>
    -- a numeral at the end of the first part does not go on in the second one
    obtain ⟨htake, hdrop⟩ := span_append rest h
    rw [List.cons_append, lex_of_isDigit (Bool.eq_false_iff.2 hb) hc, hdrop, ih, List.cons_append]
    simp only [Numeral.front, htake]
  | case4 c rest hb hc ih =>
    rw [List.cons_append, lex_of_not_isDigit (Bool.eq_false_iff.2 hb) (Bool.eq_false_iff.2 hc), ih,
      List.cons_append]

theorem isDigit_eq_false_of_isAlpha {c : Char} (h : c.isAlpha = true) : c.isDigit = false := by
  have hletter : (decide (c.val ≥ 'A'.val ∧ c.val ≤ 'Z'.val) ||
    (decide (c.val ≥ 'a'.val) && decide (c.val ≤ 'z'.val))) = true := h
  have hdigit : c.isDigit = (decide (c.val ≥ '0'.val) && decide (c.val ≤ '9'.val)) := rfl
  grind

/-! ## Phrases -/

/-- The signs in a sum. -/
inductive Sign where
  | plus
  | minus

namespace Sign

/-- How it is written. -/
def char : Sign → Char
  | plus => '+'
  | minus => '-'

/-- The factor that it stands for. -/
def value : Sign → Int
  | plus => 1
  | minus => -1

end Sign

/-- The nonterminals of the grammar: an atom without its exponent, an atom, a run, a chain, a term,
the signed terms of a sum, and a sum. -/
inductive Kind where
  | base
  | atom
  | run
  | chain
  | term
  | terms
  | sum

/-- The derivation trees. Runs, chains and sums grow at their ends, as they associate. -/
inductive Phrase : Kind → Type where
  | letter (c : Char) (h : c.isAlpha = true) : Phrase .base
  | parenthesized (s : Phrase .sum) : Phrase .base
  | associator (a b c : Phrase .sum) : Phrase .base
  | commutator (a b : Phrase .sum) : Phrase .base
  | plain (b : Phrase .base) : Phrase .atom
  | power (b : Phrase .base) (n : Numeral) (hpos : 1 ≤ n.value) (hle : n.value ≤ maximalExponent) :
      Phrase .atom
  | run (a : Phrase .atom) : Phrase .run
  | beside (r : Phrase .run) (a : Phrase .atom) : Phrase .run
  | chain (r : Phrase .run) : Phrase .chain
  | star (c : Phrase .chain) (r : Phrase .run) : Phrase .chain
  | term (n : Option Numeral) (c : Phrase .chain) : Phrase .term
  | first (s : Option Sign) (t : Phrase .term) : Phrase .terms
  | more (ts : Phrase .terms) (s : Sign) (t : Phrase .term) : Phrase .terms
  | sum (ts : Phrase .terms) : Phrase .sum

namespace Phrase

/-- The lexemes that a phrase derives. -/
def lexemes : {k : Kind} → Phrase k → List Lexeme
  | _, letter c _ => [.char c]
  | _, parenthesized s => .char '(' :: (s.lexemes ++ [.char ')'])
  | _, associator a b c =>
    .char '(' :: (a.lexemes ++ .char ',' :: (b.lexemes ++ .char ',' :: (c.lexemes ++ [.char ')'])))
  | _, commutator a b => .char '[' :: (a.lexemes ++ .char ',' :: (b.lexemes ++ [.char ']']))
  | _, plain b => b.lexemes
  | _, power b n _ _ => b.lexemes ++ [.char '^', .numeral n]
  | _, run a => a.lexemes
  | _, beside r a => r.lexemes ++ a.lexemes
  | _, chain r => r.lexemes
  | _, star c r => c.lexemes ++ .char '*' :: r.lexemes
  | _, term n c => (n.map Lexeme.numeral).toList ++ c.lexemes
  | _, first s t => (s.map fun s => Lexeme.char s.char).toList ++ t.lexemes
  | _, more ts s t => ts.lexemes ++ .char s.char :: t.lexemes
  | _, sum ts => ts.lexemes

/-- The factor that the numeral before a chain stands for, if it fits a coefficient. -/
def factor? : Option Numeral → Option Int
  | none => some 1
  | some n => if Coefficient.maximum < n.value then none else some n.value

/-- The combination that a phrase denotes, if all coefficients on the way fit. The terms of a sum
are merged when it is complete. -/
@[simp] def value? : {k : Kind} → Phrase k → Option Combination
  | _, letter c _ => some [(1, .letter c)]
  | _, parenthesized s => s.value?
  | _, associator a b c => do associator? (← a.value?) (← b.value?) (← c.value?)
  | _, commutator a b => do commutator? (← a.value?) (← b.value?)
  | _, plain b => b.value?
  | _, power b n _ _ => do (← b.value?).power? (n.value - 1)
  | _, run a => a.value?
  | _, beside r a => do (← r.value?).mul? (← a.value?)
  | _, chain r => r.value?
  | _, star c r => do jordan? (← c.value?) (← r.value?)
  | _, term n c => do (← c.value?).scale? (← factor? n)
  | _, first s t => do (← t.value?).scale? ((s.map Sign.value).getD 1)
  | _, more ts s t => do return (← ts.value?) ++ (← (← t.value?).scale? s.value)
  | _, sum ts => do merge? (← ts.value?)

end Phrase

/-- Everything in a product begins as an atom does. -/
theorem Phrase.exists_startsAtom {k : Kind} (φ : Phrase k)
    (hk : k = .base ∨ k = .atom ∨ k = .run ∨ k = .chain) :
    ∃ x ls, φ.lexemes = .char x :: ls ∧ startsAtom x = true := by
  induction φ with
  | letter c h => exact ⟨c, [], rfl, by simp [startsAtom, h]⟩
  | parenthesized s => exact ⟨'(', _, rfl, rfl⟩
  | associator a b c => exact ⟨'(', _, rfl, rfl⟩
  | commutator a b => exact ⟨'[', _, rfl, rfl⟩
  | plain b ih => exact ih (by simp)
  | power b n hpos hle ih =>
    obtain ⟨x, ls, hls, hx⟩ := ih (by simp)
    exact ⟨x, _, by rw [lexemes, hls]; rfl, hx⟩
  | run a ih => exact ih (by simp)
  | beside r a ih _ =>
    obtain ⟨x, ls, hls, hx⟩ := ih (by simp)
    exact ⟨x, _, by rw [lexemes, hls]; rfl, hx⟩
  | chain r ih => exact ih (by simp)
  | star c r ih _ =>
    obtain ⟨x, ls, hls, hx⟩ := ih (by simp)
    exact ⟨x, _, by rw [lexemes, hls]; rfl, hx⟩
  | term n c => simp at hk
  | first s t => simp at hk
  | more ts s t => simp at hk
  | sum ts => simp at hk

/-- The text is derived from a sum. -/
def Derives (text : String) : Prop := ∃ φ : Phrase .sum, lex text.toList = φ.lexemes

/-! ## Cursors -/

theorem lex_skipBlanks (rest : List Char) (position : Nat) :
    lex (skipBlanks rest position).rest = lex rest := by
  induction rest generalizing position with
  | nil => rfl
  | cons c rest ih =>
    simp only [skipBlanks]
    split
    · rename_i hb
      rw [ih, lex_of_isBlank hb]
    · rfl

theorem isBlank_skipBlanks {rest : List Char} {position : Nat} {c : Char} {rest' : List Char}
    (h : (skipBlanks rest position).rest = c :: rest') : Text.isBlank c = false := by
  induction rest generalizing position with
  | nil => cases h
  | cons x rest ih =>
    simp only [skipBlanks] at h
    split at h
    · exact ih h
    · rename_i hb
      cases h
      simpa using hb

namespace Cursor

/-- The lexemes that are left to read. -/
def lexemes (c : Cursor) : List Lexeme := lex c.rest

variable {c : Cursor} {x : Char} {ls : List Lexeme}

@[simp] theorem lexemes_skip (c : Cursor) : c.skip.lexemes = c.lexemes := lex_skipBlanks _ _

/-- Nothing but blank characters is left exactly if there are no more lexemes. -/
theorem rest_skip_eq_nil_iff : c.skip.rest = [] ↔ c.lexemes = [] := by
  rw [← lexemes_skip, lexemes]
  cases h : c.skip.rest with
  | nil => simp
  | cons x rest =>
    have hb : Text.isBlank x = false := isBlank_skipBlanks h
    cases hx : x.isDigit with
    | true => simp [lex_of_isDigit hb hx]
    | false => simp [lex_of_not_isDigit hb hx]

/-- What comes next: nothing, or a character that is not blank. -/
theorem next?_cases (c : Cursor) :
    (c.next? = none ∧ c.peek = none ∧ c.lexemes = []) ∨
      ∃ x d, c.next? = some (x, d) ∧ c.peek = some x ∧ c.skip.rest = x :: d.val.rest ∧
        Text.isBlank x = false := by
  unfold next? peek
  split
  · rename_i h
    refine .inl ⟨rfl, by rw [h]; rfl, ?_⟩
    rw [← lexemes_skip, lexemes, h, lex_nil]
  · rename_i x rest h
    exact .inr ⟨x, _, rfl, by rw [h]; rfl, h, isBlank_skipBlanks h⟩

theorem lexemes_of_next? {d : { d : Cursor // d.rest.length < c.rest.length }}
    (h : c.next? = some (x, d)) (hx : x.isDigit = false) :
    c.lexemes = .char x :: d.val.lexemes := by
  rcases c.next?_cases with ⟨hnone, -⟩ | ⟨y, d', hd, -, hrest, hb⟩
  · cases hnone.symm.trans h
  · cases hd.symm.trans h
    rw [← lexemes_skip, lexemes, hrest, lex_of_not_isDigit hb hx]
    rfl

theorem next?_of_lexemes (h : c.lexemes = .char x :: ls) :
    ∃ d, c.next? = some (x, d) ∧ c.peek = some x ∧ d.val.lexemes = ls ∧ x.isDigit = false := by
  rcases c.next?_cases with ⟨-, -, hnil⟩ | ⟨y, d, hd, hpeek, hrest, hb⟩
  · cases hnil.symm.trans h
  · rw [← lexemes_skip, lexemes, hrest] at h
    cases hy : y.isDigit with
    | true =>
      rw [lex_of_isDigit hb hy] at h
      cases h
    | false =>
      rw [lex_of_not_isDigit hb hy] at h
      cases h
      exact ⟨d, hd, hpeek, rfl, hy⟩

/-- The next character is a digit exactly where a numeral comes next. -/
theorem peek_isDigit_iff : c.peek.any Char.isDigit = true ↔ ∃ n ls, c.lexemes = .numeral n :: ls := by
  rcases c.next?_cases with ⟨-, hpeek, hnil⟩ | ⟨y, d, -, hpeek, hrest, hb⟩
  · simp [hpeek, hnil]
  · rw [hpeek, Option.any_some, ← lexemes_skip, lexemes, hrest]
    cases hy : y.isDigit with
    | true => simp [lex_of_isDigit hb hy]
    | false => simp [lex_of_not_isDigit hb hy]

theorem isDigit_eq_false_of_startsAtom (h : startsAtom x = true) : x.isDigit = false := by
  simp only [startsAtom, Bool.or_eq_true, decide_eq_true_eq] at h
  rcases h with (h | rfl) | rfl
  · exact isDigit_eq_false_of_isAlpha h
  · rfl
  · rfl

/-- The next character begins an atom exactly where it is the next lexeme. -/
theorem peek_startsAtom_iff : c.peek.any startsAtom = true ↔
    ∃ x ls, c.lexemes = .char x :: ls ∧ startsAtom x = true := by
  rcases c.next?_cases with ⟨-, hpeek, hnil⟩ | ⟨y, d, hd, hpeek, -, -⟩
  · simp [hpeek, hnil]
  · rw [hpeek, Option.any_some]
    refine ⟨fun hy => ⟨y, _, lexemes_of_next? hd (isDigit_eq_false_of_startsAtom hy), hy⟩, ?_⟩
    rintro ⟨x, ls, hls, hx⟩
    obtain ⟨-, -, hx', -⟩ := next?_of_lexemes hls
    cases hpeek.symm.trans hx'
    exact hx

theorem lexemes_of_accept? {d : { d : Cursor // d.rest.length < c.rest.length }}
    (h : c.accept? x = some d) (hx : x.isDigit = false) :
    c.lexemes = .char x :: d.val.lexemes := by
  unfold accept? at h
  split at h
  · rename_i y d' hnext
    split at h
    · rename_i hy
      cases h
      subst hy
      exact lexemes_of_next? hnext hx
    · cases h
  · cases h

theorem accept?_of_lexemes (h : c.lexemes = .char x :: ls) :
    ∃ d, c.accept? x = some d ∧ d.val.lexemes = ls := by
  obtain ⟨d, hd, -, hls, -⟩ := next?_of_lexemes h
  refine ⟨d, ?_, hls⟩
  rw [accept?, hd]
  exact if_pos rfl

theorem accept?_eq_none (hx : x.isDigit = false) (h : ∀ ls, c.lexemes ≠ .char x :: ls) :
    c.accept? x = none := by
  cases hd : c.accept? x with
  | none => rfl
  | some d => exact absurd (lexemes_of_accept? hd hx) (h _)

theorem lexemes_of_expect {what : Missing} {d : { d : Cursor // d.rest.length < c.rest.length }}
    (h : c.expect what = .ok d) : c.lexemes = .char what.char :: d.val.lexemes := by
  unfold expect at h
  split at h
  · rename_i hd
    cases h
    exact lexemes_of_accept? hd (by cases what <;> rfl)
  · cases h

theorem expect_of_lexemes (what : Missing) (h : c.lexemes = .char what.char :: ls) :
    ∃ d, c.expect what = .ok d ∧ d.val.lexemes = ls := by
  obtain ⟨d, hd, hls⟩ := accept?_of_lexemes h
  exact ⟨d, by rw [expect, hd], hls⟩

end Cursor

/-- An integer is a numeral that fits. -/
theorem integer_of_lexemes {c : Cursor} {n : Numeral} {ls : List Lexeme}
    (h : c.lexemes = .numeral n :: ls) :
    if Coefficient.maximum < n.value then ∃ position, integer c = .error (.overflow position)
    else ∃ d, integer c = .ok (n.value, d) ∧ d.val.lexemes = ls := by
  rcases c.next?_cases with ⟨-, -, hnil⟩ | ⟨y, d, -, -, hrest, hb⟩
  · cases hnil.symm.trans h
  · rw [← Cursor.lexemes_skip, Cursor.lexemes, hrest] at h
    cases hy : y.isDigit with
    | false =>
      rw [lex_of_not_isDigit hb hy] at h
      cases h
    | true =>
      rw [lex_of_isDigit hb hy] at h
      cases h
      have hdigits : c.skip.rest.takeWhile Char.isDigit = y :: d.val.rest.takeWhile Char.isDigit := by
        rw [hrest, List.takeWhile_cons_of_pos hy]
      have hdrop : c.skip.rest.drop (y :: d.val.rest.takeWhile Char.isDigit).length =
          d.val.rest.dropWhile Char.isDigit := by
        rw [hrest, List.length_cons, List.drop_succ_cons]
        have happend : d.val.rest.takeWhile Char.isDigit ++ d.val.rest.dropWhile Char.isDigit =
          d.val.rest := List.takeWhile_append_dropWhile
        exact (congrArg (List.drop _) happend.symm).trans List.drop_left
      unfold integer
      simp only [hdigits]
      split
      · exact ⟨_, if_pos ‹_›⟩
      · exact ⟨_, if_neg ‹_›, congrArg lex hdrop⟩

/-- An integer that is read is the numeral that comes next. -/
theorem integer_eq_ok {c : Cursor} {n : Numeral} {ls : List Lexeme}
    (hn : c.lexemes = .numeral n :: ls) {m : Nat}
    {d : { d : Cursor // d.rest.length ≤ c.rest.length }} (h : integer c = .ok (m, d)) :
    m = n.value ∧ ¬ Coefficient.maximum < n.value ∧ d.val.lexemes = ls := by
  have hinteger := integer_of_lexemes hn
  split at hinteger
  · obtain ⟨position, herror⟩ := hinteger
    cases herror.symm.trans h
  · rename_i hfits
    obtain ⟨next, hok, hls⟩ := hinteger
    cases hok.symm.trans h
    exact ⟨rfl, hfits, hls⟩

/-! ## Signs and factors -/

section
variable {c : Cursor}

theorem signed?_eq_some {sign : Int} {d : { d : Cursor // d.rest.length < c.rest.length }}
    (h : signed? c = some (sign, d)) :
    ∃ s : Sign, sign = s.value ∧ c.lexemes = .char s.char :: d.val.lexemes := by
  unfold signed? at h
  split at h
  · rename_i hd
    cases h
    exact ⟨.plus, rfl, Cursor.lexemes_of_accept? hd rfl⟩
  · obtain ⟨d', hd, h⟩ := Option.map_eq_some_iff.1 h
    cases h
    exact ⟨.minus, rfl, Cursor.lexemes_of_accept? hd rfl⟩

theorem signed?_of_lexemes {s : Sign} {ls : List Lexeme} (h : c.lexemes = .char s.char :: ls) :
    ∃ d, signed? c = some (s.value, d) ∧ d.val.lexemes = ls := by
  obtain ⟨d, hd, hls⟩ := Cursor.accept?_of_lexemes h
  refine ⟨d, ?_, hls⟩
  cases s with
  | plus =>
    rw [signed?, show c.accept? '+' = some d from hd]
    rfl
  | minus =>
    have hplus : c.accept? '+' = none := Cursor.accept?_eq_none rfl fun ls hls => by
      cases hls.symm.trans h
    rw [signed?, hplus, show c.accept? '-' = some d from hd]
    rfl

theorem signed?_eq_none (h : ∀ (s : Sign) ls, c.lexemes ≠ .char s.char :: ls) :
    signed? c = none := by
  have hplus : c.accept? '+' = none := Cursor.accept?_eq_none rfl (h .plus)
  have hminus : c.accept? '-' = none := Cursor.accept?_eq_none rfl (h .minus)
  rw [signed?, hplus, hminus]
  rfl

end

end Nonassoc.Combination.Parser
