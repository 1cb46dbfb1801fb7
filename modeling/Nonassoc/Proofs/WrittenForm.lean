import Nonassoc.Proofs.Meaning
import Nonassoc.Proofs.Identities
import Nonassoc.Proofs.Positions

/-!
# Reading what was written

An identity over ASCII letters with distinct words is read back from its written form as it was
(`Identity.parse_text`), unless a coefficient is the smallest one: its size does not fit, so that
reading stops at the first such coefficient. The written form of every word and term is derived from
the grammar (`exists_phrase_run`, `exists_phrase_term`), so that reading it is known from the grammar
too; the position of the overflow is known from what is left to read.
-/

namespace Nonassoc

open Identity (signSpelling sizeSpelling)
open Coefficient (Fits)

namespace Combination.Parser

/-! ## Words -/

theorem isBlank_eq_false_of_isAlpha {c : Char} (h : c.isAlpha = true) : Text.isBlank c = false := by
  have hletter : (decide (c.val ≥ 'A'.val ∧ c.val ≤ 'Z'.val) ||
    (decide (c.val ≥ 'a'.val) && decide (c.val ≤ 'z'.val))) = true := h
  have hrange : 65 ≤ c.toNat ∧ c.toNat ≤ 122 := by
    simp only [Bool.or_eq_true, Bool.and_eq_true, decide_eq_true_eq, ge_iff_le,
      UInt32.le_iff_toNat_le] at hletter
    simp only [Char.toNat]
    have hA : 'A'.val.toNat = 65 := rfl
    have hZ : 'Z'.val.toNat = 90 := rfl
    have ha : 'a'.val.toNat = 97 := rfl
    have hz : 'z'.val.toNat = 122 := rfl
    omega
  simp [Text.isBlank]
  omega

/-- The characters that are lexemes by themselves. -/
def IsPlain (l : List Char) : Prop := ∀ c ∈ l, Text.isBlank c = false ∧ c.isDigit = false

theorem lex_plain {l : List Char} (h : IsPlain l) (rest : List Char) :
    lex (l ++ rest) = l.map Lexeme.char ++ lex rest := by
  induction l with
  | nil => rfl
  | cons c l ih =>
    obtain ⟨hc, hl⟩ := List.forall_mem_cons.1 h
    rw [List.cons_append, lex_of_not_isDigit hc.1 hc.2, ih hl]
    rfl

theorem isPlain_enclose {w : Word} {l : List Char} (h : IsPlain l) : IsPlain (w.enclose l) := by
  cases w with
  | letter c => exact h
  | product u v =>
    refine List.forall_mem_cons.2 ⟨⟨rfl, rfl⟩, List.forall_mem_append.2 ⟨h, ?_⟩⟩
    exact List.forall_mem_singleton.2 ⟨rfl, rfl⟩

theorem isPlain_spelling {w : Word} (hw : ∀ c ∈ w.letters, c.isAlpha = true) :
    IsPlain w.spelling := by
  induction w with
  | letter c =>
    have hc := hw c (List.mem_singleton_self c)
    exact List.forall_mem_singleton.2
      ⟨isBlank_eq_false_of_isAlpha hc, isDigit_eq_false_of_isAlpha hc⟩
  | product l r hl hr =>
    rw [Word.letters_product, List.forall_mem_append] at hw
    rw [Word.spelling_product]
    exact List.forall_mem_append.2 ⟨isPlain_enclose (hl hw.1), isPlain_enclose (hr hw.2)⟩

/-- A word is a factor as it stands if it is a letter, and in parentheses if it is a product. -/
theorem exists_phrase_atom {w : Word} (hw : ∀ c ∈ w.letters, c.isAlpha = true) {r : Phrase .run}
    (hr : r.lexemes = w.spelling.map Lexeme.char) (hv : r.value? = some [(1, w)]) :
    ∃ a : Phrase .atom, a.lexemes = (w.enclose w.spelling).map Lexeme.char ∧
      a.value? = some [(1, w)] := by
  cases w with
  | letter c => exact ⟨.plain (.letter c (hw c (List.mem_singleton_self c))), rfl, rfl⟩
  | product u v =>
    refine ⟨.plain (.parenthesized (.sum (.first none (.term none (.chain r))))), ?_, ?_⟩
    · simp [Phrase.lexemes, hr, Word.enclose]
    · have hscale : scale? 1 [(1, u.product v)] = some [(1, u.product v)] := rfl
      have hmerge : merge? [(1, u.product v)] = some [(1, u.product v)] := by
        have hone : Fits 1 := by decide
        exact merge?_eq_self (List.nodup_singleton _) (List.forall_mem_singleton.2 Int.one_ne_zero)
          (List.forall_mem_singleton.2 hone)
      simp [hv, Phrase.factor?, hscale, hmerge]

/-- The written form of a word is a run that stands for the word. -/
theorem exists_phrase_run {w : Word} (hw : ∀ c ∈ w.letters, c.isAlpha = true) :
    ∃ r : Phrase .run, r.lexemes = w.spelling.map Lexeme.char ∧ r.value? = some [(1, w)] := by
  induction w with
  | letter c => exact ⟨.run (.plain (.letter c (hw c (List.mem_singleton_self c)))), rfl, rfl⟩
  | product l r hl hr =>
    rw [Word.letters_product, List.forall_mem_append] at hw
    obtain ⟨u, hu, huv⟩ := hl hw.1
    obtain ⟨v, hv, hvv⟩ := hr hw.2
    obtain ⟨a, ha, hav⟩ := exists_phrase_atom hw.1 hu huv
    obtain ⟨b, hb, hbv⟩ := exists_phrase_atom hw.2 hv hvv
    refine ⟨.beside (.run a) b, ?_, ?_⟩
    · rw [Word.spelling_product, List.map_append, ← ha, ← hb]
      rfl
    · simp only [Phrase.value?, hav, hbv]
      rfl

/-! ## Numerals -/

/-- The decimal digits of a number. -/
def Numeral.ofNat (n : Nat) : Numeral :=
  ⟨Nat.toDigits 10 n, Nat.toDigits_ne_nil, fun _ hd =>
    Nat.isDigit_of_mem_toDigits (by decide) (by decide) hd⟩

@[simp] theorem Numeral.value_ofNat (n : Nat) : (ofNat n).value = n := by
  have h : Nat.ofDigitChars 10 (Nat.toDigits 10 n) 0 = n := Nat.ofDigitChars_ten_toDigits
  rwa [Nat.ofDigitChars_eq_foldl] at h

/-- A numeral ends where no digit follows. -/
theorem lex_numeral (n : Numeral) {rest : List Char}
    (h : ∀ c l, rest = c :: l → c.isDigit = false) :
    lex (n.digits ++ rest) = .numeral n :: lex rest := by
  obtain ⟨digits, hne, hdigits⟩ := n
  cases digits with
  | nil => exact absurd rfl hne
  | cons d ds =>
    rw [List.forall_mem_cons] at hdigits
    have htake : rest.takeWhile Char.isDigit = [] := by
      cases rest with
      | nil => rfl
      | cons c l => rw [List.takeWhile_cons_of_neg (by simp [h c l rfl])]
    have hdrop : rest.dropWhile Char.isDigit = rest := by
      cases rest with
      | nil => rfl
      | cons c l => rw [List.dropWhile_cons_of_neg (by simp [h c l rfl])]
    rw [List.cons_append, lex_of_isDigit (isBlank_eq_false_of_isDigit hdigits.1) hdigits.1,
      List.dropWhile_append_of_pos hdigits.2, hdrop]
    simp only [Numeral.front, List.takeWhile_append_of_pos hdigits.2, htake, List.append_nil]

theorem not_isDigit_of_isPlain {l : List Char} (hne : l ≠ []) (h : IsPlain l) (rest : List Char) :
    ∀ c l', l ++ rest = c :: l' → c.isDigit = false := by
  intro c l' heq
  cases l with
  | nil => exact absurd rfl hne
  | cons d l =>
    obtain ⟨rfl, -⟩ := List.cons.inj heq
    exact (h d List.mem_cons_self).2

theorem spelling_ne_nil (w : Word) : w.spelling ≠ [] := by
  induction w with
  | letter c => exact List.cons_ne_nil _ _
  | product l r hl _ =>
    rw [Word.spelling_product]
    cases l with
    | letter c => exact List.cons_ne_nil _ _
    | product u v => exact List.cons_ne_nil _ _

/-! ## Terms -/

/-- The written form of a term without its sign is a term of the grammar. Its value fits unless the
coefficient is the smallest one. -/
theorem exists_phrase_term {w : Word} (hw : ∀ c ∈ w.letters, c.isAlpha = true) (x : Int) :
    ∃ t : Phrase .term,
      (∀ rest, lex (sizeSpelling x ++ (w.spelling ++ rest)) = t.lexemes ++ lex rest) ∧
      ((x.natAbs : Int) ≤ Coefficient.maximum → t.value? = some [((x.natAbs : Int), w)]) := by
  obtain ⟨r, hr, hv⟩ := exists_phrase_run hw
  have hplain := isPlain_spelling hw
  have hword : ∀ rest, lex (w.spelling ++ rest) = r.lexemes ++ lex rest := fun rest => by
    rw [lex_plain hplain, hr]
  unfold sizeSpelling
  by_cases hx : x.natAbs = 1
  · refine ⟨.term none (.chain r), fun rest => by rw [if_pos hx]; exact hword rest, fun _ => ?_⟩
    rw [hx]
    simp only [Phrase.value?, hv, Phrase.factor?]
    rfl
  · refine ⟨.term (some (.ofNat x.natAbs)) (.chain r), fun rest => ?_, fun hle => ?_⟩
    · rw [if_neg hx]
      refine (lex_numeral (.ofNat x.natAbs)
        (not_isDigit_of_isPlain (spelling_ne_nil w) hplain rest)).trans ?_
      rw [hword]
      rfl
    · have hscale : scale? (x.natAbs : Int) [(1, w)] = some [((x.natAbs : Int), w)] := by
        refine fit?_eq_some_iff.2 ⟨List.forall_mem_singleton.2 ?_, by simp⟩
        simp only [Fits, Coefficient.minimum, Coefficient.maximum] at hle ⊢
        omega
      simp only [Phrase.value?, hv, Phrase.factor?, Numeral.value_ofNat, if_neg (Int.not_lt.2 hle)]
      exact hscale

namespace Sign

/-- The sign of a coefficient. -/
def ofInt (x : Int) : Sign := if x < 0 then minus else plus

theorem scale?_natAbs (w : Word) {x : Int} (hx : Fits x) :
    scale? (ofInt x).value [((x.natAbs : Int), w)] = some [(x, w)] := by
  have hmul : (x.natAbs : Int) * (ofInt x).value = x := by
    unfold ofInt
    split <;> simp only [value] <;> omega
  refine fit?_eq_some_iff.2 ⟨?_, ?_⟩ <;> simp only [List.map_cons, List.map_nil, hmul]
  exact List.forall_mem_singleton.2 hx

/-- Between terms, the sign is written with a blank on each side. -/
theorem lex_signSpelling (x : Int) (rest : List Char) :
    lex (signSpelling false x ++ rest) = .char (ofInt x).char :: lex rest := by
  unfold signSpelling ofInt
  split
  · contradiction
  · split
    · show lex (' ' :: '-' :: ' ' :: rest) = _
      rw [lex_of_isBlank rfl, lex_of_not_isDigit rfl rfl, lex_of_isBlank rfl]
      rfl
    · show lex (' ' :: '+' :: ' ' :: rest) = _
      rw [lex_of_isBlank rfl, lex_of_not_isDigit rfl rfl, lex_of_isBlank rfl]
      rfl

/-- Before the first term, only a minus is written. -/
def first? (x : Int) : Option Sign := if x < 0 then some minus else none

theorem value_first? (x : Int) : ((first? x).map value).getD 1 = (ofInt x).value := by
  unfold first? ofInt
  split <;> rfl

theorem lex_signSpelling_first (x : Int) (rest : List Char) :
    lex (signSpelling true x ++ rest) =
      ((first? x).map fun s => Lexeme.char s.char).toList ++ lex rest := by
  simp only [signSpelling, first?, if_true]
  split
  · exact lex_of_not_isDigit rfl rfl rest
  · rfl

end Sign

/-! ## Combinations -/

/-- The terms in order with their signs. -/
def written : (isFirst : Bool) → Combination → List Char
  | _, [] => []
  | isFirst, x :: p =>
    signSpelling isFirst x.1 ++ (sizeSpelling x.1 ++ (x.2.spelling ++ written false p))

theorem written_append (isFirst : Bool) (p q : Combination) :
    written isFirst (p ++ q) = written isFirst p ++ written (isFirst && p.isEmpty) q := by
  induction p generalizing isFirst with
  | nil => simp [written]
  | cons x p ih => simp [written, ih]

/-- All letters are those of ASCII. -/
def IsAlphabetic (p : Combination) : Prop := ∀ x ∈ p, ∀ c ∈ x.2.letters, c.isAlpha = true

/-- The sizes of all coefficients fit. -/
def SizesFit (p : Combination) : Prop := ∀ x ∈ p, Fits x.1 ∧ x.1 ≠ Coefficient.minimum

theorem natAbs_le_maximum {x : Int} (h : Fits x ∧ x ≠ Coefficient.minimum) :
    (x.natAbs : Int) ≤ Coefficient.maximum := by
  obtain ⟨hfits, hne⟩ := h
  simp only [Fits, Coefficient.minimum, Coefficient.maximum] at *
  omega

/-- Terms that are written behind others extend the sum. -/
theorem exists_phrase_more {p : Combination} (hp : IsAlphabetic p) (hfits : SizesFit p)
    (ts : Phrase .terms) {v : Combination} (hv : ts.value? = some v) :
    ∃ ts' : Phrase .terms,
      (∀ rest, ts.lexemes ++ lex (written false p ++ rest) = ts'.lexemes ++ lex rest) ∧
        ts'.value? = some (v ++ p) := by
  induction p generalizing ts v with
  | nil => exact ⟨ts, fun _ => rfl, by rwa [List.append_nil]⟩
  | cons x p ih =>
    obtain ⟨hx, hp⟩ := List.forall_mem_cons.1 hp
    obtain ⟨hxfits, hfits⟩ := List.forall_mem_cons.1 hfits
    obtain ⟨t, ht, htv⟩ := exists_phrase_term hx x.1
    have hmore : (Phrase.more ts (.ofInt x.1) t).value? = some (v ++ [x]) := by
      rw [Phrase.value?, hv, htv (natAbs_le_maximum hxfits)]
      simp only [Option.bind_eq_bind, Option.bind_some, Sign.scale?_natAbs _ hxfits.1]
      rfl
    obtain ⟨ts', hts', hvalue⟩ := ih hp hfits _ hmore
    refine ⟨ts', fun rest => ?_, by rw [hvalue, List.append_assoc]; rfl⟩
    rw [← hts', written]
    simp only [List.append_assoc, Sign.lex_signSpelling, ht, Phrase.lexemes, List.cons_append]

/-- The written form of a combination is a sum that stands for it. -/
theorem exists_phrase_sum {p : Combination} (hne : p ≠ []) (hp : IsAlphabetic p)
    (hfits : SizesFit p) (hnodup : (p.map Prod.snd).Nodup) (hzero : ∀ x ∈ p, x.1 ≠ 0) :
    ∃ φ : Phrase .sum, lex (written true p) = φ.lexemes ∧ φ.value? = some p := by
  cases p with
  | nil => exact absurd rfl hne
  | cons x p =>
    obtain ⟨hx, hp⟩ := List.forall_mem_cons.1 hp
    obtain ⟨hxfits, hpfits⟩ := List.forall_mem_cons.1 hfits
    obtain ⟨t, ht, htv⟩ := exists_phrase_term hx x.1
    have hfirst : (Phrase.first (Sign.first? x.1) t).value? = some [x] := by
      rw [Phrase.value?, Sign.value_first?, htv (natAbs_le_maximum hxfits)]
      exact Sign.scale?_natAbs _ hxfits.1
    obtain ⟨ts, hts, hvalue⟩ := exists_phrase_more hp hpfits _ hfirst
    refine ⟨.sum ts, ?_, ?_⟩
    · have hend := hts []
      rw [List.append_nil, lex_nil, List.append_nil] at hend
      rw [written, Sign.lex_signSpelling_first, ht, ← List.append_assoc]
      exact hend
    · have hmerge := merge?_eq_self hnodup hzero fun y hy => (hfits y hy).1
      rw [Phrase.value?, hvalue]
      exact hmerge

/-! ## The smallest coefficient -/

/-- The digits of the size of the smallest coefficient. -/
def minimumDigits : List Char := Nat.toDigits 10 Coefficient.minimum.natAbs

theorem sizeSpelling_minimum : sizeSpelling Coefficient.minimum = minimumDigits :=
  if_neg (by decide)

theorem minimumDigits_eq : minimumDigits = "9223372036854775808".toList := by decide

theorem lex_minimumDigits {w : Word} (hw : ∀ c ∈ w.letters, c.isAlpha = true) (rest : List Char) :
    lex (minimumDigits ++ (w.spelling ++ rest)) =
      .numeral (.ofNat Coefficient.minimum.natAbs) :: lex (w.spelling ++ rest) :=
  lex_numeral (.ofNat Coefficient.minimum.natAbs)
    (not_isDigit_of_isPlain (spelling_ne_nil w) (isPlain_spelling hw) rest)

/-- A numeral that does not fit ends the reading where it begins. -/
theorem terms_overflow {start c : Cursor} {sign : Int} {sofar : Combination}
    {h : c.rest.length ≤ start.rest.length} {n : Numeral} {ls : List Lexeme}
    (hc : c.lexemes = .numeral n :: ls) (hn : Coefficient.maximum < n.value) :
    terms sign sofar c h = .error (.overflow c.skip.position) := by
  have hinteger : integer c = .error (.overflow c.skip.position) := by
    have hoverflow := integer_of_lexemes hc
    rw [if_pos hn] at hoverflow
    obtain ⟨position, hposition⟩ := hoverflow
    unfold integer at hposition ⊢
    simp only at hposition ⊢
    split
    · rfl
    · rw [if_neg ‹_›] at hposition
      cases hposition
  have hterm : term c = .error (.overflow c.skip.position) := by
    rw [term, coefficient, if_pos (Cursor.peek_isDigit_iff.2 ⟨n, ls, hc⟩), hinteger]
    rfl
  rw [terms_eq, hterm]
  rfl

/-- A written term is read, and the sign behind it. -/
theorem exists_terms_step {x : Int × Word} (hx : ∀ c ∈ x.2.letters, c.isAlpha = true)
    (hfits : Fits x.1 ∧ x.1 ≠ Coefficient.minimum) {rest : List Char} {s' : Sign}
    {ls : List Lexeme} (hrest : lex rest = .char s'.char :: ls) {start c : Cursor} (s : Sign)
    (sofar : Combination) (h : c.rest.length ≤ start.rest.length)
    (hc : c.lexemes = lex (sizeSpelling x.1 ++ (x.2.spelling ++ rest))) :
    ∃ (d : Cursor) (sofar' : Combination) (h' : d.rest.length ≤ start.rest.length),
      c.Reaches d ∧ d.lexemes = ls ∧
        terms s.value sofar c h = terms s'.value sofar' d h' := by
  obtain ⟨t, ht, hv⟩ := exists_phrase_term hx x.1
  have hsize := natAbs_le_maximum hfits
  rw [ht, hrest] at hc
  have hends : Kind.term.Ends (.char s'.char :: ls) := by
    rintro y ls' ⟨⟩
    cases s' <;> rfl
  rcases t.complete c _ hc hends with ⟨hnone, -⟩ | ⟨p, hp, hterm, hnext⟩
  · cases hnone.symm.trans (hv hsize)
  have hterm : term c = .ok p := hterm
  obtain ⟨d, hd, hls⟩ := signed?_of_lexemes hnext
  have hscale : ∃ v, p.value.scale? s.value = some v := by
    rw [Option.some_inj.1 (hp.symm.trans (hv hsize))]
    refine ⟨_, fit?_eq_some_iff.2 ⟨List.forall_mem_singleton.2 ?_, rfl⟩⟩
    simp only [Fits, Coefficient.minimum, Coefficient.maximum] at hsize ⊢
    cases s <;> simp only [Sign.value] <;> omega
  obtain ⟨v, hscale⟩ := hscale
  have hlt := Nat.lt_trans d.property p.shorter
  refine ⟨d.val, v.reverse ++ sofar, Nat.le_trans (Nat.le_of_lt hlt) h,
    (term_reaches c p hterm).trans (reaches_of_signed? hd), hls, ?_⟩
  rw [terms, hterm]
  simp only [bind, Except.bind, hscale, fitted, hd]

/-- Terms that are written before a numeral that does not fit are read, and reading ends there. -/
theorem exists_terms_overflow {p : Combination} (hp : IsAlphabetic p) (hfits : SizesFit p)
    {x : Int × Word} (hx : ∀ c ∈ x.2.letters, c.isAlpha = true)
    (hxfits : Fits x.1 ∧ x.1 ≠ Coefficient.minimum) {n : Numeral}
    (hn : Coefficient.maximum < n.value) {ls : List Lexeme} {rest : List Char}
    (hrest : lex rest = .numeral n :: ls) {start c : Cursor} (s : Sign) (sofar : Combination)
    (h : c.rest.length ≤ start.rest.length)
    (hc : c.lexemes = lex (sizeSpelling x.1 ++ (x.2.spelling ++
      (written false p ++ (signSpelling false Coefficient.minimum ++ rest))))) :
    ∃ d : Cursor, c.Reaches d ∧ d.lexemes = lex rest ∧
      terms s.value sofar c h = .error (.overflow d.skip.position) := by
  induction p generalizing x c s sofar with
  | nil =>
    obtain ⟨d, sofar', h', hreached, hd, hterms⟩ :=
      exists_terms_step hx hxfits (Sign.lex_signSpelling _ rest) s sofar h hc
    exact ⟨d, hreached, hd, hterms.trans (terms_overflow (hd.trans hrest) hn)⟩
  | cons y p ih =>
    obtain ⟨hy, hp⟩ := List.forall_mem_cons.1 hp
    obtain ⟨hyfits, hfits⟩ := List.forall_mem_cons.1 hfits
    simp only [written, List.append_assoc] at hc
    obtain ⟨d, sofar', h', hreached, hd, hterms⟩ :=
      exists_terms_step hx hxfits (Sign.lex_signSpelling _ _) s sofar h hc
    obtain ⟨d', hreached', hd', hterms'⟩ := ih hp hfits hy hyfits _ sofar' h' hd
    exact ⟨d', hreached.trans hreached', hd', hterms.trans hterms'⟩

/-- A sum begins with the sign of its first term, if one is written. -/
theorem exists_sum_eq_terms {x : Int} {rest : List Char} {c : Cursor}
    (hrest : ∀ d : Cursor, d.lexemes = lex rest → signed? d = none)
    (hc : c.lexemes = lex (signSpelling true x ++ rest)) :
    ∃ (d : Cursor) (h : d.rest.length ≤ c.rest.length),
      c.Reaches d ∧ d.lexemes = lex rest ∧ sum c = terms (Sign.ofInt x).value [] d h := by
  rw [Sign.lex_signSpelling_first] at hc
  rw [← Sign.value_first?, sum]
  cases hs : Sign.first? x with
  | none =>
    rw [hs] at hc
    have hc : c.lexemes = lex rest := hc
    rw [hrest c hc]
    exact ⟨c, Nat.le_refl _, .refl c, hc, rfl⟩
  | some s =>
    rw [hs] at hc
    obtain ⟨d, hd, hls⟩ := signed?_of_lexemes hc
    rw [hd]
    exact ⟨d.val, Nat.le_of_lt d.property, reaches_of_signed? hd, hls, rfl⟩

/-- What is written before a numeral that does not fit is read, and reading ends there. -/
theorem exists_sum_overflow {p : Combination} (hp : IsAlphabetic p) (hfits : SizesFit p)
    {n : Numeral} (hn : Coefficient.maximum < n.value) {ls : List Lexeme} {rest : List Char}
    (hrest : lex rest = .numeral n :: ls) {c : Cursor}
    (hc : c.rest = written true p ++ (signSpelling p.isEmpty Coefficient.minimum ++ rest)) :
    ∃ d : Cursor, c.Reaches d ∧ d.lexemes = lex rest ∧
      sum c = .error (.overflow d.skip.position) := by
  cases p with
  | nil =>
    obtain ⟨d, h, hreached, hd, hsum⟩ := exists_sum_eq_terms
      (fun d hd => signed?_eq_none fun s ls' hs => by cases hs.symm.trans (hd.trans hrest))
      (congrArg lex hc)
    exact ⟨d, hreached, hd, hsum.trans (terms_overflow (hd.trans hrest) hn)⟩
  | cons x p =>
    obtain ⟨hx, hp⟩ := List.forall_mem_cons.1 hp
    obtain ⟨hxfits, hfits⟩ := List.forall_mem_cons.1 hfits
    obtain ⟨t, ht, -⟩ := exists_phrase_term hx x.1
    simp only [written, List.append_assoc, List.isEmpty_cons] at hc
    obtain ⟨d, h, hreached, hd, hsum⟩ := exists_sum_eq_terms
      (fun d hd => signed?_of_term (hd.trans (ht _))) (congrArg lex hc)
    obtain ⟨d', hreached', hd', hterms⟩ :=
      exists_terms_overflow hp hfits hx hxfits hn hrest _ [] h hd
    exact ⟨d', hreached.trans hreached', hd', hsum.trans hterms⟩

/-- Reading ends at the first smallest coefficient that is written. -/
theorem parse_written_minimum {p : Combination} (hp : IsAlphabetic p) (hfits : SizesFit p)
    {w : Word} (hw : ∀ c ∈ w.letters, c.isAlpha = true) (after : List Char) :
    parse (String.ofList (written true p ++ (signSpelling p.isEmpty Coefficient.minimum ++
      (minimumDigits ++ (w.spelling ++ after))))) =
    .error (.overflow (bytes (written true p ++ signSpelling p.isEmpty Coefficient.minimum))) := by
  have hn : Coefficient.maximum < (Numeral.ofNat Coefficient.minimum.natAbs).value := by
    rw [Numeral.value_ofNat]
    decide
  let c : Cursor := ⟨written true p ++ (signSpelling p.isEmpty Coefficient.minimum ++
    (minimumDigits ++ (w.spelling ++ after))), 0⟩
  have hc : c.rest = written true p ++ (signSpelling p.isEmpty Coefficient.minimum ++
    (minimumDigits ++ (w.spelling ++ after))) := rfl
  obtain ⟨d, hreached, hd, hsum⟩ :=
    exists_sum_overflow hp hfits hn (lex_minimumDigits hw after) hc
  have hskip := hreached.skip_eq (hc.trans (List.append_assoc _ _ _).symm) hd
  have hsum : sum ⟨written true p ++ (signSpelling p.isEmpty Coefficient.minimum ++
    (minimumDigits ++ (w.spelling ++ after))), 0⟩ = .error (.overflow d.skip.position) := hsum
  rw [parse, String.toList_ofList, hsum, hskip, Nat.zero_add]
  -- the digits are not blank
  rfl

end Combination.Parser

/-! ## Identities -/

open Combination.Parser

theorem Pattern.word_numberFrom {letters : List Char} {letter : Nat → Char}
    (hletter : ∀ c ∈ letters, letter (letters.idxOf c) = c) {w : Word}
    (hw : ∀ c ∈ w.letters, c ∈ letters) (before : List Nat) :
    (numberFrom letters w before).1.word letter = w := by
  induction w generalizing before with
  | letter c => exact congrArg Word.letter (hletter c (hw c (List.mem_singleton_self c)))
  | product l r hl hr =>
    rw [Word.letters_product, List.forall_mem_append] at hw
    exact congrArg₂ Word.product (hl hw.1 before) (hr hw.2 _)

namespace Identity

/-- The words of the terms, with their coefficients. -/
def words (e : Identity) : Combination :=
  e.terms.map fun t => (t.coefficient, t.pattern.word e.letter)

theorem flatMap_spelling (e : Identity) (terms : List Term) :
    (terms.flatMap fun t => signSpelling false t.coefficient ++ e.termSpelling t) =
      written false (terms.map fun t => (t.coefficient, t.pattern.word e.letter)) := by
  induction terms with
  | nil => rfl
  | cons t terms ih =>
    rw [List.flatMap_cons, ih, List.map_cons, written, termSpelling]
    simp only [List.append_assoc]

/-- The written form of an identity is that of its words. -/
theorem spelling_eq_written (e : Identity) : e.spelling = written true e.words := by
  unfold spelling words
  cases e.terms with
  | nil => rfl
  | cons t terms =>
    rw [List.map_cons, written, ← flatMap_spelling]
    simp only [termSpelling, List.append_assoc]

/-- An identity has the words that it was made of, without those whose coefficient is zero; their
letters are its own. -/
theorem words_of_ofWords {words : Combination} {e : Identity} (h : ofWords words = .ok e) :
    e.words = words.filter (·.1 ≠ 0) ∧ e.words ≠ [] ∧
      ∀ x ∈ e.words, ∀ c ∈ x.2.letters, c ∈ e.letters := by
  obtain ⟨x, rest, hfilter, hcontent, rfl⟩ := ofWords_eq_ok_iff.1 h
  have hletters : ∀ y ∈ x :: rest, ∀ c ∈ y.2.letters, c ∈ x.2.content.map Prod.fst := by
    intro y hy c hc
    rw [← (hcontent y hy).2]
    exact Word.mem_letters_iff.1 hc
  have hletter : ∀ c ∈ x.2.content.map Prod.fst,
      ((x.2.content.map Prod.fst)[(x.2.content.map Prod.fst).idxOf c]?.getD ' ') = c := by
    intro c hc
    rw [List.getElem?_eq_getElem (List.idxOf_lt_length_iff.2 hc), Option.getD_some,
      List.getElem_idxOf]
  have hwords : (((x :: rest).map fun y =>
      (⟨y.1, .ofWord (x.2.content.map Prod.fst) y.2⟩ : Term)).map fun t =>
        (t.coefficient, t.pattern.word fun v => (x.2.content.map Prod.fst)[v]?.getD ' ')) =
      x :: rest := by
    rw [List.map_map]
    refine (List.map_congr_left fun y hy => ?_).trans (List.map_id _)
    exact Prod.ext rfl (Pattern.word_numberFrom hletter (hletters y hy) _)
  refine ⟨hwords.trans hfilter.symm, fun hnil => ?_, fun x hx => ?_⟩
  · cases hwords.symm.trans hnil
  · exact hletters x (hwords ▸ hx)

/-- Words with coefficient zero do not count. -/
theorem ofWords_filter (words : Combination) :
    ofWords (words.filter (·.1 ≠ 0)) = ofWords words := by
  unfold ofWords
  rw [List.filter_filter]
  simp only [Bool.and_self]

/-- The identities that there are: those of words with machine coefficients, and those that a text
denotes. -/
def IsMade (e : Identity) : Prop :=
  (∃ words : Combination, (∀ x ∈ words, Fits x.1) ∧ ofWords words = .ok e) ∨
    ∃ text, parse text = .ok e

theorem IsMade.exists_words {e : Identity} (h : e.IsMade) :
    ∃ words : Combination, (∀ x ∈ words, Fits x.1) ∧ ofWords words = .ok e := by
  rcases h with h | ⟨text, htext⟩
  · exact h
  · unfold parse at htext
    split at htext
    · cases htext
    · rename_i p hp
      split at htext
      · cases htext
      · cases htext
        exact ⟨p, Combination.fits_of_parse hp, ‹_›⟩

/-- The first smallest coefficient of a combination. -/
theorem exists_first_minimum {terms : List Term}
    (h : ∃ t ∈ terms, t.coefficient = Coefficient.minimum) :
    ∃ before t after, terms = before ++ t :: after ∧
      (∀ u ∈ before, u.coefficient ≠ Coefficient.minimum) ∧
        t.coefficient = Coefficient.minimum := by
  induction terms with
  | nil => simp at h
  | cons u terms ih =>
    by_cases hu : u.coefficient = Coefficient.minimum
    · exact ⟨[], u, terms, rfl, nofun, hu⟩
    · obtain ⟨before, t, after, rfl, hbefore, ht⟩ := ih (by simpa [hu] using h)
      exact ⟨u :: before, t, after, rfl, List.forall_mem_cons.2 ⟨hu, hbefore⟩, ht⟩

/-- What the words of an identity are like, and that they give it back. -/
theorem IsMade.words_spec {e : Identity} (he : e.IsMade) :
    ofWords e.words = .ok e ∧ e.words ≠ [] ∧ (∀ x ∈ e.words, Fits x.1 ∧ x.1 ≠ 0) ∧
      ∀ x ∈ e.words, ∀ c ∈ x.2.letters, c ∈ e.letters := by
  obtain ⟨words, hfits, hwords⟩ := he.exists_words
  obtain ⟨hfilter, hne, hown⟩ := words_of_ofWords hwords
  refine ⟨by rw [hfilter, ofWords_filter, hwords], hne, fun x hx => ?_, hown⟩
  rw [hfilter, List.mem_filter, decide_eq_true_eq] at hx
  exact ⟨hfits x hx.1, hx.2⟩

theorem parse_text_of_parse {text : String} {p : Combination} (h : Combination.parse text = .ok p) :
    parse text = (ofWords p).mapError ReadError.identity := by
  rw [parse, h]
  simp only
  cases ofWords p <;> rfl

variable {e : Identity}

/-- Without a smallest coefficient the written form denotes the words of the identity. -/
theorem combination_parse_text (he : e.IsMade) (hletters : IsAlphabetic e.words)
    (hdistinct : (e.words.map Prod.snd).Nodup)
    (hminimum : ∀ t ∈ e.terms, t.coefficient ≠ Coefficient.minimum) :
    Combination.parse e.text = .ok e.words := by
  obtain ⟨-, hne, hmem, -⟩ := he.words_spec
  have hsizes : SizesFit e.words := fun x hx => by
    refine ⟨(hmem x hx).1, ?_⟩
    obtain ⟨t, ht, rfl⟩ := List.mem_map.1 hx
    exact hminimum t ht
  obtain ⟨φ, hφ, hvalue⟩ :=
    exists_phrase_sum hne hletters hsizes hdistinct fun x hx => (hmem x hx).2
  have hlex : lex e.text.toList = φ.lexemes := by
    rw [text, String.toList_ofList, spelling_eq_written, hφ]
  rcases parse_of_phrase hlex with ⟨hnone, -⟩ | ⟨p, hp, hok⟩
  · cases hnone.symm.trans hvalue
  · rwa [Option.some_inj.1 (hp.symm.trans hvalue)] at hok

/-- Reading the written form stops at the first smallest coefficient. -/
theorem parse_text_minimum (he : e.IsMade) (hletters : IsAlphabetic e.words)
    {before after : List Term} {t : Term} (hterms : e.terms = before ++ t :: after)
    (hbefore : ∀ u ∈ before, u.coefficient ≠ Coefficient.minimum)
    (ht : t.coefficient = Coefficient.minimum) :
    ∃ read rest, read = { e with terms := before }.spelling ++
        signSpelling before.isEmpty t.coefficient ∧
      e.text = String.ofList (read ++ ("9223372036854775808".toList ++
        ((t.pattern.word e.letter).spelling ++ rest))) ∧
      parse e.text = .error (.reading (.overflow (String.ofList read).utf8ByteSize)) := by
  obtain ⟨-, -, hmem, -⟩ := he.words_spec
  let value (t : Term) : Int × Word := (t.coefficient, t.pattern.word e.letter)
  have happend : e.words = before.map value ++ value t :: after.map value := by
    rw [Identity.words, hterms, List.map_append, List.map_cons]
  have hsizes : SizesFit (before.map value) := fun x hx => by
    refine ⟨(hmem x (by simp [happend, hx])).1, ?_⟩
    obtain ⟨u, hu, rfl⟩ := List.mem_map.1 hx
    exact hbefore u hu
  rw [happend] at hletters
  obtain ⟨hp, hrest⟩ := List.forall_mem_append.1 hletters
  have hword := hrest _ List.mem_cons_self
  have hempty : (before.map value).isEmpty = before.isEmpty := by cases before <;> rfl
  have hspelling : ({ e with terms := before } : Identity).spelling =
    written true (before.map value) := spelling_eq_written _
  have htext : e.text = String.ofList (written true (before.map value) ++
      (signSpelling (before.map value).isEmpty Coefficient.minimum ++
        (minimumDigits ++ ((t.pattern.word e.letter).spelling ++ written false (after.map value))))) := by
    rw [text, spelling_eq_written, happend, written_append, written]
    simp only [value, ht, Bool.true_and, sizeSpelling_minimum]
  have hparse := parse_written_minimum hp hsizes hword (written false (after.map value))
  rw [← htext] at hparse
  refine ⟨_, written false (after.map value), rfl, ?_, ?_⟩
  · rw [htext, hspelling, hempty, ht, minimumDigits_eq, List.append_assoc]
  · rw [parse, hparse, hspelling, hempty, ht]
    rfl

end Identity

/-- An identity over ASCII letters with distinct words is read back as it was from its written form,
unless a coefficient is the smallest one. Then reading stops with an overflow at the size of the
first such coefficient, behind the terms before it and its sign. -/
theorem Identity.parse_text {e : Identity} (he : e.IsMade)
    (hletters : ∀ c ∈ e.letters, c.isAlpha = true) (hdistinct : (e.words.map Prod.snd).Nodup) :
    ((∀ t ∈ e.terms, t.coefficient ≠ Coefficient.minimum) → parse e.text = .ok e) ∧
    ((∃ t ∈ e.terms, t.coefficient = Coefficient.minimum) →
      ∃ before t after, e.terms = before ++ t :: after ∧
        (∀ u ∈ before, u.coefficient ≠ Coefficient.minimum) ∧
        t.coefficient = Coefficient.minimum ∧
        ∃ read rest, read = { e with terms := before }.spelling ++
            signSpelling before.isEmpty t.coefficient ∧
          e.text = String.ofList (read ++ ("9223372036854775808".toList ++
            ((t.pattern.word e.letter).spelling ++ rest))) ∧
          parse e.text = .error (.reading (.overflow (String.ofList read).utf8ByteSize))) := by
  obtain ⟨hsame, -, -, hown⟩ := he.words_spec
  have halphabetic : IsAlphabetic e.words := fun x hx c hc => hletters c (hown x hx c hc)
  refine ⟨fun hminimum => ?_, fun hminimum => ?_⟩
  · rw [parse_text_of_parse (combination_parse_text he halphabetic hdistinct hminimum), hsame]
    rfl
  · obtain ⟨before, t, after, hterms, hbefore, ht⟩ := exists_first_minimum hminimum
    exact ⟨before, t, after, hterms, hbefore, ht,
      parse_text_minimum he halphabetic hterms hbefore ht⟩

/-- The identity `(xy)x + c x(yx)`. -/
def Identity.flexible (c : Int) : Identity where
  letters := ['x', 'y']
  degrees := [2, 1]
  terms := [⟨1, .product (.product (.leaf 0 0) (.leaf 1 0)) (.leaf 0 1)⟩,
    ⟨c, .product (.leaf 0 0) (.product (.leaf 1 0) (.leaf 0 1))⟩]

/-- The flexible law comes back from its written form. With the smallest coefficient in its second
term reading stops behind `(xy)x - `. -/
theorem Identity.parse_text_flexible :
    (flexible (-1)).IsMade ∧ (flexible Coefficient.minimum).IsMade ∧
      parse (flexible (-1)).text = .ok (flexible (-1)) ∧
      parse (flexible Coefficient.minimum).text = .error (.reading (.overflow 8)) := by
  have hmade (c : Int) (hc : c ≠ 0) (hfits : Fits c) : (flexible c).IsMade := by
    refine .inl ⟨[(1, .product (.product (.letter 'x') (.letter 'y')) (.letter 'x')),
      (c, .product (.letter 'x') (.product (.letter 'y') (.letter 'x')))], ?_, ?_⟩
    · simpa using And.intro (by decide) hfits
    · simp only [ofWords, List.filter, ne_eq, hc, one_ne_zero, not_false_eq_true, decide_true]
      rfl
  have h := hmade (-1) (by decide) (by decide)
  have h' := hmade Coefficient.minimum (by decide) (by decide)
  have hletters : ∀ c ∈ ['x', 'y'], c.isAlpha = true := List.all_eq_true.1 rfl
  refine ⟨h, h', (Identity.parse_text h hletters (by decide)).1 (by decide), ?_⟩
  obtain ⟨before, t, after, hterms, hbefore, ht, read, _, rfl, -, hparse⟩ :=
    (Identity.parse_text h' hletters (by decide)).2 (by decide)
  rcases before with - | ⟨u, - | ⟨v, before⟩⟩
  · cases hterms
    cases ht
  · cases hterms
    rw [hparse]
    decide
  · simp [flexible] at hterms

end Nonassoc
