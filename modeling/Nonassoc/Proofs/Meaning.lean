import Mathlib.Algebra.FreeNonUnitalNonAssocAlgebra
import Mathlib.Data.List.Permutation
import Nonassoc.Proofs.Merging
import Nonassoc.Proofs.Parsing

/-!
# What a text denotes

A text denotes an element of the free nonassociative ring on the letters, over the unbounded
integers: `Phrase.meaning` follows the derivation tree, and knows no coefficients that do not fit.
`Combination.parse` reads the same element or fails (`Combination.parse_meaning`). Each operation
on combinations, which works on terms that are not merged, does what its name says in the ring, and
its coefficients fit (`Expands`).
-/

namespace Nonassoc

/-- The free nonassociative ring on the letters. -/
abbrev LetterRing := FreeNonUnitalNonAssocAlgebra ℤ Char

/-! ## Words and combinations -/

namespace Word

/-- The word as an element of the free magma on the letters. -/
def magma : Word → FreeMagma Char
  | letter c => .of c
  | product l r => l.magma * r.magma

theorem magma_injective : Function.Injective magma := by
  intro u
  induction u with
  | letter c =>
    intro v h
    cases v with
    | letter d =>
      cases h
      rfl
    | product l r => cases h
  | product l r hl hr =>
    intro v h
    cases v with
    | letter d => cases h
    | product l' r' =>
      injection h with hleft hright
      rw [hl hleft, hr hright]

theorem magma_surjective : Function.Surjective magma := by
  intro m
  induction m with
  | ih1 c => exact ⟨letter c, rfl⟩
  | ih2 a b ha hb =>
    obtain ⟨l, rfl⟩ := ha
    obtain ⟨r, rfl⟩ := hb
    exact ⟨product l r, rfl⟩

/-- The word as an element of the free ring. -/
noncomputable def monomial : Word → LetterRing
  | letter c => .of ℤ c
  | product l r => l.monomial * r.monomial

theorem monomial_eq_single (w : Word) : w.monomial = MonoidAlgebra.single w.magma 1 := by
  induction w with
  | letter c => rfl
  | product l r hl hr =>
    rw [monomial, hl, hr, MonoidAlgebra.single_mul_single, mul_one]
    rfl

end Word

/-- The power of an element that is multiplied by itself `k` times, always from the right. -/
def leftPower {A : Type} [Mul A] (a : A) : (k : Nat) → A
  | 0 => a
  | k + 1 => leftPower a k * a

namespace Combination

open Coefficient (Fits)

variable {p q r : Combination}

/-- The element of the free ring with the given terms. -/
noncomputable def polynomial (p : Combination) : LetterRing :=
  (p.map fun x => x.1 • x.2.monomial).sum

@[simp] theorem polynomial_nil : polynomial [] = 0 := rfl

@[simp] theorem polynomial_cons (t : Int × Word) (p : Combination) :
    polynomial (t :: p) = t.1 • t.2.monomial + p.polynomial := by
  simp [polynomial]

@[simp] theorem polynomial_append (p q : Combination) :
    polynomial (p ++ q) = p.polynomial + q.polynomial := by
  simp [polynomial]

/-- The coefficients of the element are the totals of the terms. -/
theorem coeff_polynomial (p : Combination) (w : Word) :
    p.polynomial.coeff w.magma = p.coefficient w := by
  induction p with
  | nil => rfl
  | cons t p ih =>
    rw [polynomial_cons, coefficient_cons, Word.monomial_eq_single, MonoidAlgebra.coeff_add,
      Finsupp.add_apply, ih, MonoidAlgebra.coeff_smul, Finsupp.smul_apply,
      MonoidAlgebra.coeff_single, Finsupp.single_apply]
    simp only [Word.magma_injective.eq_iff]
    split <;> simp

theorem polynomial_eq_of_coefficient (h : ∀ w, p.coefficient w = q.coefficient w) :
    p.polynomial = q.polynomial := by
  refine MonoidAlgebra.ext (Finsupp.ext fun m => ?_)
  obtain ⟨w, rfl⟩ := Word.magma_surjective m
  rw [coeff_polynomial, coeff_polynomial, h]

theorem polynomial_scaled (c : Int) (p : Combination) :
    polynomial (p.map fun x => (x.1 * c, x.2)) = c • p.polynomial := by
  induction p with
  | nil => simp
  | cons t p ih => rw [List.map_cons, polynomial_cons, ih, polynomial_cons, smul_add, smul_smul,
      mul_comm c]

/-- The products of one term with all others. -/
theorem polynomial_row (t : Int × Word) (q : Combination) :
    polynomial (q.map fun y => (t.1 * y.1, t.2.product y.2)) =
      (t.1 • t.2.monomial) * q.polynomial := by
  induction q with
  | nil => simp
  | cons u q ih =>
    rw [List.map_cons, polynomial_cons, ih, polynomial_cons, mul_add, smul_mul_smul_comm]
    rfl

theorem polynomial_products (p q : Combination) :
    polynomial (p.flatMap fun x => q.map fun y => (x.1 * y.1, x.2.product y.2)) =
      p.polynomial * q.polynomial := by
  induction p with
  | nil => simp
  | cons t p ih =>
    rw [List.flatMap_cons, polynomial_append, polynomial_row, ih, polynomial_cons, add_mul]

/-! ## Operations -/

/-- The terms have coefficients that fit, and make up an element of the free ring. -/
structure Expands (p : Combination) (a : LetterRing) : Prop where
  fits : ∀ x ∈ p, Fits x.1
  polynomial : p.polynomial = a

namespace Expands

variable {a b d : LetterRing}

theorem fit? (h : p.polynomial = a) (hq : p.fit? = some q) : q.Expands a := by
  obtain ⟨hfits, rfl⟩ := fit?_eq_some_iff.1 hq
  exact ⟨hfits, h⟩

theorem append (hp : p.Expands a) (hq : q.Expands b) : Expands (p ++ q) (a + b) :=
  ⟨List.forall_mem_append.2 ⟨hp.fits, hq.fits⟩, by
    rw [polynomial_append, hp.polynomial, hq.polynomial]⟩

theorem scale? {c : Int} (hp : p.Expands a) (hr : p.scale? c = some r) : r.Expands (c • a) :=
  .fit? (by rw [polynomial_scaled, hp.polynomial]) hr

theorem mul? (hp : p.Expands a) (hq : q.Expands b) (hr : p.mul? q = some r) : r.Expands (a * b) :=
  .fit? (by rw [polynomial_products, hp.polynomial, hq.polynomial]) hr

theorem power? (hp : p.Expands a) {k : Nat} (hr : p.power? k = some r) :
    r.Expands (leftPower a k) := by
  induction k generalizing r with
  | zero =>
    cases hr
    exact hp
  | succ k ih =>
    obtain ⟨q, hq, hr⟩ := Option.bind_eq_some_iff.1 hr
    exact (ih hq).mul? hp hr

theorem jordan? (hp : p.Expands a) (hq : q.Expands b) (hr : jordan? p q = some r) :
    r.Expands (a * b + b * a) := by
  obtain ⟨u, hu, hr⟩ := Option.bind_eq_some_iff.1 hr
  obtain ⟨v, hv, hr⟩ := Option.bind_eq_some_iff.1 hr
  cases hr
  exact (hp.mul? hq hu).append (hq.mul? hp hv)

theorem commutator? (hp : p.Expands a) (hq : q.Expands b) (hr : commutator? p q = some r) :
    r.Expands (a * b - b * a) := by
  obtain ⟨u, hu, hr⟩ := Option.bind_eq_some_iff.1 hr
  obtain ⟨v, hv, hr⟩ := Option.bind_eq_some_iff.1 hr
  obtain ⟨w, hw, hr⟩ := Option.bind_eq_some_iff.1 hr
  cases hr
  rw [sub_eq_add_neg, ← neg_one_zsmul]
  exact (hp.mul? hq hu).append ((hq.mul? hp hv).scale? hw)

theorem associator? {s : Combination} (hp : p.Expands a) (hq : q.Expands b) (hs : s.Expands d)
    (hr : associator? p q s = some r) : r.Expands (a * b * d - a * (b * d)) := by
  obtain ⟨u, hu, hr⟩ := Option.bind_eq_some_iff.1 hr
  obtain ⟨v, hv, hr⟩ := Option.bind_eq_some_iff.1 hr
  obtain ⟨u', hu', hr⟩ := Option.bind_eq_some_iff.1 hr
  obtain ⟨v', hv', hr⟩ := Option.bind_eq_some_iff.1 hr
  obtain ⟨w, hw, hr⟩ := Option.bind_eq_some_iff.1 hr
  cases hr
  rw [sub_eq_add_neg, ← neg_one_zsmul]
  exact ((hp.mul? hq hu).mul? hs hv).append ((hp.mul? (hq.mul? hs hu') hv').scale? hw)

theorem merge? (hp : p.Expands a) (hr : merge? p = some r) : r.Expands a := by
  obtain ⟨hfits, rfl⟩ := (merge?_eq_some_iff hp.fits).1 hr
  exact ⟨hfits.fits, (polynomial_eq_of_coefficient p.coefficient_merged).trans hp.polynomial⟩

end Expands

/-! ## Derivation trees -/

namespace Parser.Phrase

/-- The element of the free ring that a phrase denotes. -/
noncomputable def meaning : {k : Kind} → Phrase k → LetterRing
  | _, letter c _ => .of ℤ c
  | _, parenthesized s => s.meaning
  | _, associator a b c =>
    a.meaning * b.meaning * c.meaning - a.meaning * (b.meaning * c.meaning)
  | _, commutator a b => a.meaning * b.meaning - b.meaning * a.meaning
  | _, plain b => b.meaning
  | _, power b n _ _ => leftPower b.meaning (n.value - 1)
  | _, run a => a.meaning
  | _, beside r a => r.meaning * a.meaning
  | _, chain r => r.meaning
  | _, star c r => c.meaning * r.meaning + r.meaning * c.meaning
  | _, term none c => c.meaning
  | _, term (some n) c => (n.value : ℤ) • c.meaning
  | _, first none t => t.meaning
  | _, first (some s) t => s.value • t.meaning
  | _, more ts s t => ts.meaning + s.value • t.meaning
  | _, sum ts => ts.meaning

/-- The value of a phrase is an expansion of what it denotes. -/
theorem expands {k : Kind} (φ : Phrase k) {p : Combination} (h : φ.value? = some p) :
    p.Expands φ.meaning := by
  induction φ generalizing p with
  | letter c hc =>
    cases h
    have hone : Fits 1 := by decide
    refine ⟨List.forall_mem_singleton.2 hone, ?_⟩
    rw [polynomial_cons, polynomial_nil, add_zero, one_smul]
    rfl
  | parenthesized s hs => exact hs h
  | associator a b c ha hb hc =>
    obtain ⟨u, hu, h⟩ := Option.bind_eq_some_iff.1 h
    obtain ⟨v, hv, h⟩ := Option.bind_eq_some_iff.1 h
    obtain ⟨w, hw, h⟩ := Option.bind_eq_some_iff.1 h
    exact (ha hu).associator? (hb hv) (hc hw) h
  | commutator a b ha hb =>
    obtain ⟨u, hu, h⟩ := Option.bind_eq_some_iff.1 h
    obtain ⟨v, hv, h⟩ := Option.bind_eq_some_iff.1 h
    exact (ha hu).commutator? (hb hv) h
  | plain b hb => exact hb h
  | power b n hpos hle hb =>
    obtain ⟨u, hu, h⟩ := Option.bind_eq_some_iff.1 h
    exact (hb hu).power? h
  | run a ha => exact ha h
  | beside r a hr ha =>
    obtain ⟨u, hu, h⟩ := Option.bind_eq_some_iff.1 h
    obtain ⟨v, hv, h⟩ := Option.bind_eq_some_iff.1 h
    exact (hr hu).mul? (ha hv) h
  | chain r hr => exact hr h
  | star c r hc hr =>
    obtain ⟨u, hu, h⟩ := Option.bind_eq_some_iff.1 h
    obtain ⟨v, hv, h⟩ := Option.bind_eq_some_iff.1 h
    exact (hc hu).jordan? (hr hv) h
  | term n c hc =>
    obtain ⟨u, hu, h⟩ := Option.bind_eq_some_iff.1 h
    obtain ⟨m, hm, h⟩ := Option.bind_eq_some_iff.1 h
    have hscaled := (hc hu).scale? h
    cases n with
    | none =>
      cases hm
      rwa [one_smul] at hscaled
    | some n =>
      simp only [factor?, Option.ite_none_left_eq_some, Option.some_inj] at hm
      rwa [← hm.2] at hscaled
  | first s t ht =>
    obtain ⟨u, hu, h⟩ := Option.bind_eq_some_iff.1 h
    have hscaled := (ht hu).scale? h
    cases s with
    | none => rwa [Option.map_none, Option.getD_none, one_smul] at hscaled
    | some s => exact hscaled
  | more ts s t hts ht =>
    obtain ⟨u, hu, h⟩ := Option.bind_eq_some_iff.1 h
    obtain ⟨v, hv, h⟩ := Option.bind_eq_some_iff.1 h
    obtain ⟨w, hw, h⟩ := Option.bind_eq_some_iff.1 h
    cases h
    exact (hts hu).append ((ht hv).scale? hw)
  | sum ts hts =>
    obtain ⟨u, hu, h⟩ := Option.bind_eq_some_iff.1 h
    exact (hts hu).merge? h

/-- What a sum denotes is written with distinct words and nonzero coefficients. -/
theorem sum_value? (φ : Phrase .sum) {p : Combination} (h : φ.value? = some p) :
    (p.map Prod.snd).Nodup ∧ ∀ x ∈ p, x.1 ≠ 0 := by
  cases φ with
  | sum ts =>
    obtain ⟨u, hu, h⟩ := Option.bind_eq_some_iff.1 h
    obtain ⟨-, rfl⟩ := (merge?_eq_some_iff (ts.expands hu).fits).1 h
    exact ⟨u.nodup_merged, fun x hx => (mem_merged.1 hx).2.2⟩

end Parser.Phrase

end Combination

/-! ## Texts -/

namespace Combination.Parser

/-- A text is read as the value of any of its derivations, or a coefficient does not fit. -/
theorem parse_of_phrase {text : String} {φ : Phrase .sum} (hφ : lex text.toList = φ.lexemes) :
    (φ.value? = none ∧ ∃ position, parse text = .error (.overflow position)) ∨
      ∃ p, φ.value? = some p ∧ parse text = .ok p := by
  have hends : Kind.sum.Ends [] := fun x ls h => by cases h
  rcases φ.complete ⟨text.toList, 0⟩ [] (hφ.trans (List.append_nil _).symm) hends with
    ⟨hnone, position, herror⟩ | ⟨r, hvalue, hr, hnil⟩
  · have herror : Parser.sum ⟨text.toList, 0⟩ = _ := herror
    exact .inl ⟨hnone, position, by rw [parse, herror]; rfl⟩
  · have hr : Parser.sum ⟨text.toList, 0⟩ = .ok r := hr
    refine .inr ⟨r.value, hvalue, ?_⟩
    rw [parse, hr]
    simp only [bind, Except.bind, Cursor.rest_skip_eq_nil_iff.2 hnil]
    rfl

theorem exists_phrase_of_parse {text : String} {p : Combination} (h : parse text = .ok p) :
    ∃ φ : Phrase .sum, lex text.toList = φ.lexemes := by
  obtain ⟨r, hr, h⟩ := bind_eq_ok.1 h
  obtain ⟨φ, hφ, -⟩ := sum_sound _ r hr
  split at h
  · rename_i hrest
    refine ⟨φ, hφ.trans ?_⟩
    rw [Cursor.rest_skip_eq_nil_iff.1 hrest, List.append_nil]
  · cases h

theorem value?_of_parse {text : String} {p : Combination} (h : parse text = .ok p)
    {φ : Phrase .sum} (hφ : lex text.toList = φ.lexemes) : φ.value? = some p := by
  rcases parse_of_phrase hφ with ⟨-, position, herror⟩ | ⟨q, hq, hok⟩
  · cases herror.symm.trans h
  · cases hok.symm.trans h
    exact hq

end Combination.Parser

open Combination.Parser
open Coefficient (Fits)

theorem Combination.fits_of_parse {text : String} {p : Combination} (h : parse text = .ok p) :
    ∀ x ∈ p, Fits x.1 := by
  obtain ⟨φ, hφ⟩ := exists_phrase_of_parse h
  exact (φ.expands (value?_of_parse h hφ)).fits

/-- What is read has distinct words and coefficients that fit and are not zero, and it is the element
of the free ring that the text denotes, whichever way the text is derived. A text is refused for an
overflow exactly if a coefficient on the way does not fit, which is so whenever a coefficient of the
denoted element does not. -/
theorem Combination.parse_meaning (text : String) :
    (∀ p, parse text = .ok p →
      (p.map Prod.snd).Nodup ∧ (∀ x ∈ p, x.1 ≠ 0 ∧ Fits x.1) ∧
      (∃ φ : Phrase .sum, lex text.toList = φ.lexemes) ∧
      ∀ φ : Phrase .sum, lex text.toList = φ.lexemes → p.polynomial = φ.meaning) ∧
    ∀ φ : Phrase .sum, lex text.toList = φ.lexemes →
      ((∃ position, parse text = .error (.overflow position)) ↔ φ.value? = none) ∧
      ∀ w : Word, ¬ Fits (φ.meaning.coeff w.magma) →
        ∃ position, parse text = .error (.overflow position) := by
  refine ⟨fun p hp => ?_, fun φ hφ => ?_⟩
  · obtain ⟨φ, hφ⟩ := exists_phrase_of_parse hp
    obtain ⟨hnodup, hne⟩ := φ.sum_value? (value?_of_parse hp hφ)
    exact ⟨hnodup, fun x hx => ⟨hne x hx, fits_of_parse hp x hx⟩, ⟨φ, hφ⟩,
      fun ψ hψ => (ψ.expands (value?_of_parse hp hψ)).polynomial⟩
  · rcases parse_of_phrase hφ with ⟨hnone, herror⟩ | ⟨p, hp, hok⟩
    · exact ⟨iff_of_true herror hnone, fun _ _ => herror⟩
    · refine ⟨iff_of_false (fun ⟨_, herror⟩ => ?_) (by rw [hp]; exact nofun), fun w hw => ?_⟩
      · cases hok.symm.trans herror
      · -- a coefficient of what was read is zero or that of a term, so it fits
        refine absurd ?_ hw
        have hexpands := φ.expands hp
        rw [← hexpands.polynomial, coeff_polynomial]
        by_cases hmem : ∃ x ∈ p, x.2 = w
        · obtain ⟨x, hx, rfl⟩ := hmem
          rw [coefficient_of_mem (φ.sum_value? hp).1 hx]
          exact hexpands.fits x hx
        · rw [coefficient_of_notMem fun x hx hxw => hmem ⟨x, hx, hxw⟩]
          decide

/-- The squares that are left of a square when a Jordan product is taken away, and a sum that is too
large. -/
theorem Combination.parse_meaning_square :
    (∃ φ : Phrase .sum, lex "(x + y)^2 - x*y".toList = φ.lexemes ∧
      parse "(x + y)^2 - x*y" = .ok [(1, .product (.letter 'x') (.letter 'x')),
        (1, .product (.letter 'y') (.letter 'y'))] ∧
      polynomial [(1, .product (.letter 'x') (.letter 'x')),
        (1, .product (.letter 'y') (.letter 'y'))] = φ.meaning) ∧
    ∃ φ : Phrase .sum, lex "9223372036854775807xy + xy".toList = φ.lexemes ∧
      ¬ Fits (φ.meaning.coeff (Word.product (.letter 'x') (.letter 'y')).magma) ∧
      ∃ position, parse "9223372036854775807xy + xy" = .error (.overflow position) := by
  let two : Numeral := ⟨['2'], by decide, List.all_eq_true.1 rfl⟩
  let maximum : Numeral := ⟨"9223372036854775807".toList, by decide, List.all_eq_true.1 rfl⟩
  let letter (c : Char) (h : c.isAlpha = true) : Phrase .atom := .plain (.letter c h)
  let x : Phrase .run := .run (letter 'x' rfl)
  let y : Phrase .run := .run (letter 'y' rfl)
  let xy : Phrase .chain := .chain (.beside x (letter 'y' rfl))
  let sum : Phrase .sum :=
    .sum (.more (.first none (.term none (.chain x))) .plus (.term none (.chain y)))
  let square : Phrase .chain :=
    .chain (.run (.power (.parenthesized sum) two (by decide) (by decide)))
  let φ : Phrase .sum :=
    .sum (.more (.first none (.term none square)) .minus (.term none (.star (.chain x) y)))
  let ψ : Phrase .sum :=
    .sum (.more (.first none (.term (some maximum) xy)) .plus (.term none xy))
  have hφ : lex "(x + y)^2 - x*y".toList = φ.lexemes := by cbv
  have hψ : lex "9223372036854775807xy + xy".toList = ψ.lexemes := by cbv
  have hparse : parse "(x + y)^2 - x*y" = .ok [(1, .product (.letter 'x') (.letter 'x')),
      (1, .product (.letter 'y') (.letter 'y'))] := by
    have hvalue : φ.value? = some [(1, .product (.letter 'x') (.letter 'x')),
      (1, .product (.letter 'y') (.letter 'y'))] := by cbv
    rcases parse_of_phrase hφ with ⟨hnone, -⟩ | ⟨p, hp, hok⟩
    · cases hnone.symm.trans hvalue
    · cases hp.symm.trans hvalue
      exact hok
  have hlarge : ψ.meaning = polynomial [(9223372036854775807, .product (.letter 'x') (.letter 'y')),
      (1, .product (.letter 'x') (.letter 'y'))] := by
    rw [polynomial_cons, polynomial_cons, polynomial_nil, add_zero]
    rfl
  have hfits : ¬ Fits (ψ.meaning.coeff (Word.product (.letter 'x') (.letter 'y')).magma) := by
    rw [hlarge, coeff_polynomial]
    decide
  exact ⟨⟨φ, hφ, hparse, ((parse_meaning _).1 _ hparse).2.2.2 φ hφ⟩,
    ψ, hψ, hfits, ((parse_meaning _).2 ψ hψ).2 _ hfits⟩

end Nonassoc
