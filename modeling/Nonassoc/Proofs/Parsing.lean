import Nonassoc.Proofs.Grammar

/-!
# What is read is what the grammar derives

Everything that is read is a phrase of the grammar, and what is read is its value (`sum_sound`).
Conversely, where a phrase comes next and what stands behind it cannot continue it, the phrase is
read, or a coefficient in it does not fit (`Phrase.complete`). So a text is read only if it is
derived from a sum, and a text that is so derived is read, unless a coefficient does not fit
(`parse_grammar`).
-/

namespace Nonassoc.Combination.Parser

theorem fitted_eq_ok {c : Cursor} {x : Option Combination} {v : Combination} :
    fitted c x = .ok v ↔ x = some v := by
  cases x <;> simp [fitted]

theorem fitted_eq_error {c : Cursor} {x : Option Combination} :
    fitted c x = .error (.overflow c.position) ↔ x = none := by
  cases x <;> simp [fitted]

/-! ## What is read is derived -/

/-- A phrase with the given value stands between two cursors. -/
def Reads (k : Kind) (c : Cursor) (v : Combination) (d : Cursor) : Prop :=
  ∃ φ : Phrase k, c.lexemes = φ.lexemes ++ d.lexemes ∧ φ.value? = some v

/-- Whatever a function reads from a cursor is a phrase. -/
def Sound (k : Kind) (read : (c : Cursor) → Except ParseError (Parsed c)) (c : Cursor) : Prop :=
  ∀ p, read c = .ok p → Reads k c p.value p.next

theorem Reads.skip {k : Kind} {c d : Cursor} {v : Combination} (h : Reads k c v d) :
    Reads k c v d.skip := by
  obtain ⟨φ, hφ, hv⟩ := h
  exact ⟨φ, by rw [Cursor.lexemes_skip, hφ], hv⟩

theorem powered_sound {start : Cursor} {p q : Parsed start} (hp : Reads .base start p.value p.next)
    (h : powered p = .ok q) : Reads .atom start q.value q.next := by
  obtain ⟨φ, hφ, hv⟩ := hp
  unfold powered at h
  split at h
  · cases h
    exact Reads.skip ⟨.plain φ, hφ, hv⟩
  · rename_i caret hcaret
    split at h
    · cases h
    · rename_i hdigit
      obtain ⟨n, ls, hn⟩ := Cursor.peek_isDigit_iff.1 (by simpa using hdigit)
      obtain ⟨⟨m, next⟩, hm, h⟩ := bind_eq_ok.1 h
      obtain ⟨rfl, -, hls⟩ := integer_eq_ok hn hm
      simp only at h
      split at h
      · cases h
      · rename_i hpos
        split at h
        · cases h
        · rename_i hle
          obtain ⟨value, hvalue, h⟩ := bind_eq_ok.1 h
          cases h
          refine ⟨.power φ n (Nat.one_le_iff_ne_zero.2 hpos) (Nat.not_lt.1 hle), ?_, ?_⟩
          · rw [hφ, Cursor.lexemes_of_accept? hcaret rfl, hn, ← hls, Phrase.lexemes,
              List.append_assoc]
            rfl
          · rw [Phrase.value?, hv]
            exact fitted_eq_ok.1 hvalue

theorem coefficient_eq_ok {c : Cursor} {m : Nat}
    {d : { d : Cursor // d.rest.length ≤ c.rest.length }} (h : coefficient c = .ok (m, d)) :
    ∃ k : Option Numeral, c.lexemes = (k.map Lexeme.numeral).toList ++ d.val.lexemes ∧
      Phrase.factor? k = some (m : Int) := by
  unfold coefficient at h
  split at h
  · rename_i hdigit
    obtain ⟨n, ls, hn⟩ := Cursor.peek_isDigit_iff.1 hdigit
    obtain ⟨rfl, hfits, hls⟩ := integer_eq_ok hn h
    exact ⟨some n, by rw [hn, ← hls]; rfl, if_neg hfits⟩
  · cases h
    exact ⟨none, rfl, rfl⟩

/-- An atom before its exponent. -/
def base (c : Cursor) : Except ParseError (Parsed c) :=
  match c.next? with
  | none => .error .unexpectedEnd
  | some (x, ⟨inside, hinside⟩) =>
    if x.isAlpha then .ok ⟨[(1, .letter x)], inside, hinside⟩
    else if x = '(' then do
      let a ← sum inside
      have h₀ := Nat.lt_trans a.shorter hinside
      match a.next.accept? ',' with
      | some comma =>
        let b ← sum comma.val
        have h₁ := Nat.lt_trans b.shorter (Nat.lt_trans comma.property h₀)
        let comma₂ ← b.next.expect .associatorComma
        let d ← sum comma₂.val
        have h₂ := Nat.lt_trans d.shorter (Nat.lt_trans comma₂.property h₁)
        let close ← d.next.expect .associatorEnd
        let value ← fitted close.val (associator? a.value b.value d.value)
        return ⟨value, close.val, Nat.lt_trans close.property h₂⟩
      | none =>
        let close ← a.next.expect .closingParenthesis
        return ⟨a.value, close.val, Nat.lt_trans close.property h₀⟩
    else if x = '[' then do
      let a ← sum inside
      have h₀ := Nat.lt_trans a.shorter hinside
      let comma ← a.next.expect .commutatorComma
      let b ← sum comma.val
      have h₁ := Nat.lt_trans b.shorter (Nat.lt_trans comma.property h₀)
      let close ← b.next.expect .commutatorEnd
      let value ← fitted close.val (commutator? a.value b.value)
      return ⟨value, close.val, Nat.lt_trans close.property h₁⟩
    else .error (.unexpected x c.skip.position)

/-- An atom is read in two parts. -/
theorem atom_eq (c : Cursor) : atom c = base c >>= powered := by
  rw [atom, base]
  cases c.next? with
  | none => rfl
  | some next =>
    simp only
    split_ifs
    · rfl
    · rw [bind_assoc]
      refine bind_congr fun a => ?_
      cases a.next.accept? ',' with
      | some comma =>
        simp only [bind_assoc]
        rfl
      | none =>
        simp only [bind_assoc]
        rfl
    · simp only [bind_assoc]
      rfl
    · rfl

section
variable {n : Nat} (ih : ∀ c : Cursor, c.rest.length < n → Sound .sum sum c)
include ih

theorem base_sound {c : Cursor} (hc : c.rest.length ≤ n) : Sound .base base c := by
  intro p h
  rw [base] at h
  split at h
  · cases h
  rename_i x inside hlt hnext
  have hinside : inside.rest.length < n := Nat.lt_of_lt_of_le hlt hc
  split at h
  · rename_i hx
    cases h
    exact ⟨.letter x hx, Cursor.lexemes_of_next? hnext (isDigit_eq_false_of_isAlpha hx), rfl⟩
  split at h
  · rename_i hx
    subst hx
    have hopen : c.lexemes = .char '(' :: inside.lexemes := Cursor.lexemes_of_next? hnext rfl
    obtain ⟨a, ha, h⟩ := bind_eq_ok.1 h
    obtain ⟨φ, hφ, hv⟩ := ih _ hinside a ha
    have haltn := Nat.lt_trans a.shorter hinside
    simp only at h
    split at h
    · rename_i comma hcomma
      obtain ⟨b, hb, h⟩ := bind_eq_ok.1 h
      obtain ⟨comma₂, hcomma₂, h⟩ := bind_eq_ok.1 h
      obtain ⟨d, hd, h⟩ := bind_eq_ok.1 h
      obtain ⟨close, hclose, h⟩ := bind_eq_ok.1 h
      obtain ⟨value, hvalue, h⟩ := bind_eq_ok.1 h
      cases h
      have hcommalt := Nat.lt_trans comma.property haltn
      have hblt := Nat.lt_trans comma₂.property (Nat.lt_trans b.shorter hcommalt)
      obtain ⟨ψ, hψ, hw⟩ := ih _ hcommalt b hb
      obtain ⟨χ, hχ, hu⟩ := ih _ hblt d hd
      refine ⟨.associator φ ψ χ, ?_, ?_⟩
      · rw [hopen, hφ, Cursor.lexemes_of_accept? hcomma rfl, hψ, Cursor.lexemes_of_expect hcomma₂,
          hχ, Cursor.lexemes_of_expect hclose]
        simp [Phrase.lexemes, Missing.char]
      · rw [Phrase.value?, hv, hw, hu]
        exact fitted_eq_ok.1 hvalue
    · obtain ⟨close, hclose, h⟩ := bind_eq_ok.1 h
      cases h
      refine ⟨.parenthesized φ, ?_, hv⟩
      rw [hopen, hφ, Cursor.lexemes_of_expect hclose]
      simp [Phrase.lexemes, Missing.char]
  split at h
  · rename_i hx
    subst hx
    have hopen : c.lexemes = .char '[' :: inside.lexemes := Cursor.lexemes_of_next? hnext rfl
    obtain ⟨a, ha, h⟩ := bind_eq_ok.1 h
    obtain ⟨comma, hcomma, h⟩ := bind_eq_ok.1 h
    obtain ⟨b, hb, h⟩ := bind_eq_ok.1 h
    obtain ⟨close, hclose, h⟩ := bind_eq_ok.1 h
    obtain ⟨value, hvalue, h⟩ := bind_eq_ok.1 h
    cases h
    obtain ⟨φ, hφ, hv⟩ := ih _ hinside a ha
    obtain ⟨ψ, hψ, hw⟩ :=
      ih _ (Nat.lt_trans comma.property (Nat.lt_trans a.shorter hinside)) b hb
    refine ⟨.commutator φ ψ, ?_, ?_⟩
    · rw [hopen, hφ, Cursor.lexemes_of_expect hcomma, hψ, Cursor.lexemes_of_expect hclose]
      simp [Phrase.lexemes, Missing.char]
    · rw [Phrase.value?, hv, hw]
      exact fitted_eq_ok.1 hvalue
  · cases h

theorem atom_sound {c : Cursor} (hc : c.rest.length ≤ n) : Sound .atom atom c := by
  intro p h
  rw [atom_eq] at h
  obtain ⟨b, hb, h⟩ := bind_eq_ok.1 h
  exact powered_sound (base_sound ih hc b hb) h

theorem runOn_sound {start : Cursor} {p : Parsed start} (hn : p.next.rest.length ≤ n)
    (hp : Reads .run start p.value p.next) {q : Parsed start} (h : runOn p = .ok q) :
    Reads .run start q.value q.next := by
  induction hl : p.next.rest.length using Nat.strong_induction_on generalizing p with
  | _ l ihl =>
    rw [runOn] at h
    split at h
    · obtain ⟨a, ha, h⟩ := bind_eq_ok.1 h
      obtain ⟨value, hvalue, h⟩ := bind_eq_ok.1 h
      obtain ⟨φ, hφ, hv⟩ := hp
      obtain ⟨ψ, hψ, hw⟩ := atom_sound ih hn a ha
      refine ihl _ (hl ▸ a.shorter) (Nat.le_trans (Nat.le_of_lt a.shorter) hn) ?_ h rfl
      refine ⟨.beside φ ψ, ?_, ?_⟩
      · rw [hφ, hψ, Phrase.lexemes, List.append_assoc]
      · rw [Phrase.value?, hv, hw]
        exact fitted_eq_ok.1 hvalue
    · cases h
      exact hp.skip

theorem run_sound {c : Cursor} (hc : c.rest.length ≤ n) : Sound .run run c := by
  intro p h
  rw [run] at h
  obtain ⟨a, ha, h⟩ := bind_eq_ok.1 h
  obtain ⟨φ, hφ, hv⟩ := atom_sound ih hc a ha
  exact runOn_sound ih (Nat.le_trans (Nat.le_of_lt a.shorter) hc) ⟨.run φ, hφ, hv⟩ h

theorem chainOn_sound {start : Cursor} {p : Parsed start} (hn : p.next.rest.length ≤ n)
    (hp : Reads .chain start p.value p.next) {q : Parsed start} (h : chainOn p = .ok q) :
    Reads .chain start q.value q.next := by
  induction hl : p.next.rest.length using Nat.strong_induction_on generalizing p with
  | _ l ihl =>
    rw [chainOn] at h
    split at h
    · cases h
      exact hp.skip
    · rename_i star hstar
      obtain ⟨r, hr, h⟩ := bind_eq_ok.1 h
      obtain ⟨value, hvalue, h⟩ := bind_eq_ok.1 h
      obtain ⟨φ, hφ, hv⟩ := hp
      have hlt := Nat.lt_trans r.shorter star.property
      obtain ⟨ψ, hψ, hw⟩ := run_sound ih (Nat.le_trans (Nat.le_of_lt star.property) hn) r hr
      refine ihl _ (hl ▸ hlt) (Nat.le_trans (Nat.le_of_lt hlt) hn) ?_ h rfl
      refine ⟨.star φ ψ, ?_, ?_⟩
      · rw [hφ, Cursor.lexemes_of_accept? hstar rfl, hψ]
        simp [Phrase.lexemes]
      · rw [Phrase.value?, hv, hw]
        exact fitted_eq_ok.1 hvalue

theorem chain_sound {c : Cursor} (hc : c.rest.length ≤ n) : Sound .chain chain c := by
  intro p h
  rw [chain] at h
  obtain ⟨r, hr, h⟩ := bind_eq_ok.1 h
  obtain ⟨φ, hφ, hv⟩ := run_sound ih hc r hr
  exact chainOn_sound ih (Nat.le_trans (Nat.le_of_lt r.shorter) hc) ⟨.chain φ, hφ, hv⟩ h

theorem term_sound {c : Cursor} (hc : c.rest.length ≤ n) : Sound .term term c := by
  intro p h
  rw [term] at h
  obtain ⟨⟨m, inner⟩, hm, h⟩ := bind_eq_ok.1 h
  obtain ⟨r, hr, h⟩ := bind_eq_ok.1 h
  obtain ⟨value, hvalue, h⟩ := bind_eq_ok.1 h
  cases h
  obtain ⟨φ, hφ, hv⟩ := chain_sound ih (Nat.le_trans inner.property hc) r hr
  obtain ⟨k, hk, hfactor⟩ := coefficient_eq_ok hm
  refine ⟨.term k φ, ?_, ?_⟩
  · rw [hk, hφ, Phrase.lexemes, List.append_assoc]
  · rw [Phrase.value?, hv, hfactor]
    exact fitted_eq_ok.1 hvalue

/-- With a term at the cursor, what was read from the start is the terms of a sum. -/
def Awaits (start : Cursor) (sign : Int) (sofar : Combination) (c : Cursor) : Prop :=
  ∀ (t : Phrase .term) (ls : List Lexeme), c.lexemes = t.lexemes ++ ls →
    ∃ ts : Phrase .terms, start.lexemes = ts.lexemes ++ ls ∧
      ∀ v w, t.value? = some v → v.scale? sign = some w → ts.value? = some (sofar.reverse ++ w)

theorem terms_sound {start c : Cursor} {sign : Int} {sofar : Combination}
    {hle : c.rest.length ≤ start.rest.length} (hn : c.rest.length ≤ n)
    (hawaits : Awaits start sign sofar c) {p : Parsed start}
    (h : terms sign sofar c hle = .ok p) : Reads .sum start p.value p.next := by
  induction hl : c.rest.length using Nat.strong_induction_on generalizing c sign sofar with
  | _ l ihl =>
    rw [terms] at h
    obtain ⟨r, hr, h⟩ := bind_eq_ok.1 h
    obtain ⟨value, hvalue, h⟩ := bind_eq_ok.1 h
    obtain ⟨φ, hφ, hv⟩ := term_sound ih hn r hr
    obtain ⟨ts, hts, hvts⟩ := hawaits φ _ hφ
    have hsofar := hvts _ _ hv (fitted_eq_ok.1 hvalue)
    split at h
    · rename_i sign' d hd
      obtain ⟨s, rfl, hs⟩ := signed?_eq_some hd
      have hlt := Nat.lt_trans d.property r.shorter
      refine ihl _ (hl ▸ hlt) (Nat.le_trans (Nat.le_of_lt hlt) hn) (fun t ls ht => ?_) h rfl
      refine ⟨.more ts s t, ?_, fun v w hv hw => ?_⟩
      · rw [hts, hs, ht, Phrase.lexemes, List.append_assoc]
        rfl
      · rw [Phrase.value?, hsofar, hv]
        simp [hw]
    · obtain ⟨merged, hmerged, h⟩ := bind_eq_ok.1 h
      cases h
      refine Reads.skip ⟨.sum ts, hts, ?_⟩
      rw [Phrase.value?, hsofar]
      have := fitted_eq_ok.1 hmerged
      rwa [List.reverse_append, List.reverse_reverse] at this

theorem sum_sound_step {c : Cursor} (hc : c.rest.length ≤ n) : Sound .sum sum c := by
  intro p h
  rw [sum] at h
  split at h
  · rename_i sign d hd
    obtain ⟨s, rfl, hs⟩ := signed?_eq_some hd
    refine terms_sound ih (Nat.le_trans (Nat.le_of_lt d.property) hc) (fun t ls ht => ?_) h
    refine ⟨.first (some s) t, ?_, fun v w hv hw => ?_⟩
    · rw [hs, ht]
      rfl
    · rw [Phrase.value?, hv]
      exact hw
  · refine terms_sound ih hc (fun t ls ht => ?_) h
    refine ⟨.first none t, ht, fun v w hv hw => ?_⟩
    rw [Phrase.value?, hv]
    exact hw

end

/-- Whatever is read as a sum is one. -/
theorem sum_sound (c : Cursor) : Sound .sum sum c := by
  induction hl : c.rest.length using Nat.strong_induction_on generalizing c with
  | _ l ihl =>
    exact sum_sound_step (n := l) (fun d hd => ihl _ hd d rfl) (Nat.le_of_eq hl)

/-! ## What is derived is read -/

/-- Adds the terms that follow those in `p` to them and merges them all. -/
def sumOn {start : Cursor} (p : Parsed start) : Except ParseError (Parsed start) :=
  match signed? p.next with
  | some (sign, d) =>
    terms sign p.value.reverse d.val
      (Nat.le_of_lt (Nat.lt_trans d.property p.shorter))
  | none => do
    let merged ← fitted p.next.skip (merge? p.value)
    return { p.skip with value := merged }

theorem terms_eq {start c : Cursor} {sign : Int} {sofar : Combination}
    {h : c.rest.length ≤ start.rest.length} :
    terms sign sofar c h = (do
      let p ← term c
      let value ← fitted p.next (p.value.scale? sign)
      sumOn ⟨sofar.reverse ++ value, p.next, Nat.lt_of_lt_of_le p.shorter h⟩) := by
  rw [terms]
  refine bind_congr fun p => bind_congr fun value => ?_
  simp only [sumOn, List.reverse_append, List.reverse_reverse]
  cases signed? p.next <;> rfl

namespace Kind

/-- The function that reads phrases of a kind. -/
def read : Kind → (c : Cursor) → Except ParseError (Parsed c)
  | base => Parser.atom
  | atom => Parser.atom
  | run => Parser.run
  | chain => Parser.chain
  | term => Parser.term
  | terms => Parser.sum
  | sum => Parser.sum

/-- What it does once it has read a phrase that it may still extend. -/
def goOn {start : Cursor} : Kind → Parsed start → Except ParseError (Parsed start)
  | base => powered
  | run => runOn
  | chain => chainOn
  | terms => sumOn
  | atom | term | sum => .ok

/-- Whether a phrase of the kind is not yet read when the character comes next. -/
def continues : Kind → Char → Bool
  | base, _ => false
  | atom, x | run, x => x = '^'
  | chain, x => x = '^' || startsAtom x
  | term, x | terms, x => x = '^' || startsAtom x || x = '*'
  | sum, x => x = '^' || startsAtom x || x = '*' || x = '+' || x = '-'

/-- What may stand behind a phrase of the kind. -/
def Ends (k : Kind) (ls : List Lexeme) : Prop :=
  ∀ x ls', ls = .char x :: ls' → k.continues x = false

end Kind

/-- Reading goes on behind a phrase with the value `v`; if that does not fit, it ends there. -/
def Goes {start : Cursor} (x : Except ParseError (Parsed start))
    (on : Parsed start → Except ParseError (Parsed start)) (v : Option Combination)
    (ls : List Lexeme) : Prop :=
  (v = none ∧ ∃ position, x = .error (.overflow position)) ∨
    ∃ p, v = some p.value ∧ x = on p ∧ p.next.lexemes = ls

theorem Goes.of_eq {start : Cursor} {x x' : Except ParseError (Parsed start)}
    {on : Parsed start → Except ParseError (Parsed start)} {v : Option Combination}
    {ls : List Lexeme} (h : Goes x on v ls) (hx : x' = x) : Goes x' on v ls := hx ▸ h

/-- A computation with the value that has just been read. -/
theorem Goes.fitted {start d : Cursor} (on : Parsed start → Except ParseError (Parsed start))
    {v : Option Combination} (h : d.rest.length < start.rest.length) :
    Goes (do on ⟨← Parser.fitted d v, d, h⟩) on v d.lexemes := by
  cases v with
  | none => exact .inl ⟨rfl, _, rfl⟩
  | some v => exact .inr ⟨⟨v, d, h⟩, rfl, rfl, rfl⟩

/-- A phrase is read where it comes next and may end. -/
def Complete {k : Kind} (φ : Phrase k) : Prop :=
  ∀ (c : Cursor) (ls : List Lexeme), c.lexemes = φ.lexemes ++ ls → k.Ends ls →
    Goes (k.read c) k.goOn φ.value? ls

/-! ### Atoms -/

theorem complete_letter (x : Char) (h : x.isAlpha = true) : Complete (.letter x h) := by
  intro c ls hc _
  obtain ⟨d, hd, -, hls, -⟩ := Cursor.next?_of_lexemes hc
  refine .inr ⟨⟨[(1, .letter x)], d.val, d.property⟩, rfl, ?_, hls⟩
  rw [Kind.read, atom, hd]
  exact if_pos h

theorem complete_parenthesized {s : Phrase .sum} (hs : Complete s) :
    Complete (.parenthesized s) := by
  intro c ls hc _
  obtain ⟨d, hd, -, hls, -⟩ := Cursor.next?_of_lexemes hc
  rw [Kind.read, atom, hd, Phrase.value?]
  rcases hs d.val (.char ')' :: ls) (by rw [hls]; simp) (by rintro x ls' ⟨⟩; rfl) with
    ⟨hv, position, herror⟩ | ⟨p, hv, hp, hnext⟩
  · rw [Kind.read] at herror
    refine .inl ⟨hv, position, ?_⟩
    simp only [herror]
    rfl
  · rw [Kind.read, Kind.goOn] at hp
    have hcomma : p.next.accept? ',' = none := Cursor.accept?_eq_none rfl fun ls' h => by
      cases hnext.symm.trans h
    obtain ⟨close, hclose, hrest⟩ :=
      Cursor.expect_of_lexemes .closingParenthesis hnext
    refine .inr ⟨⟨p.value, close.val,
      Nat.lt_trans close.property (Nat.lt_trans p.shorter d.property)⟩, hv, ?_, hrest⟩
    simp only [hp, bind, Except.bind, hcomma, hclose]
    rfl

theorem complete_associator {a b e : Phrase .sum} (ha : Complete a) (hb : Complete b)
    (he : Complete e) : Complete (.associator a b e) := by
  intro c ls hc _
  obtain ⟨d, hd, -, hls, -⟩ := Cursor.next?_of_lexemes hc
  rw [Kind.read, atom, hd, Phrase.value?]
  rcases ha d.val (.char ',' :: (b.lexemes ++ .char ',' :: (e.lexemes ++ .char ')' :: ls)))
    (by rw [hls]; simp) (by rintro x ls' ⟨⟩; rfl) with
    ⟨hv, position, herror⟩ | ⟨p, hv, hp, hnext⟩
  · rw [Kind.read] at herror
    refine .inl ⟨by rw [hv]; rfl, position, ?_⟩
    simp only [herror]
    rfl
  rw [Kind.read, Kind.goOn] at hp
  obtain ⟨comma, hcomma, hrest⟩ := Cursor.accept?_of_lexemes hnext
  rcases hb comma.val _ hrest (by rintro x ls' ⟨⟩; rfl) with
    ⟨hw, position, herror⟩ | ⟨q, hw, hq, hnext⟩
  · rw [Kind.read] at herror
    refine .inl ⟨by rw [hv, hw]; rfl, position, ?_⟩
    simp only [hp, bind, Except.bind, hcomma, herror]
    rfl
  rw [Kind.read, Kind.goOn] at hq
  obtain ⟨comma₂, hcomma₂, hrest⟩ := Cursor.expect_of_lexemes .associatorComma hnext
  rcases he comma₂.val _ hrest (by rintro x ls' ⟨⟩; rfl) with
    ⟨hu, position, herror⟩ | ⟨r, hu, hr, hnext⟩
  · rw [Kind.read] at herror
    refine .inl ⟨by rw [hv, hw, hu]; rfl, position, ?_⟩
    simp only [hp, bind, Except.bind, hcomma, hq, hcomma₂, herror]
    rfl
  rw [Kind.read, Kind.goOn] at hr
  obtain ⟨close, hclose, hrest⟩ := Cursor.expect_of_lexemes .associatorEnd hnext
  rw [hv, hw, hu, ← hrest]
  have hshorter : close.val.rest.length < c.rest.length := by
    have := close.property
    have := r.shorter
    have := comma₂.property
    have := q.shorter
    have := comma.property
    have := p.shorter
    have := d.property
    omega
  refine (Goes.fitted _ hshorter).of_eq ?_
  simp only [hp, bind, Except.bind, hcomma, hq, hcomma₂, hr, hclose]
  rfl

theorem complete_commutator {a b : Phrase .sum} (ha : Complete a) (hb : Complete b) :
    Complete (.commutator a b) := by
  intro c ls hc _
  obtain ⟨d, hd, -, hls, -⟩ := Cursor.next?_of_lexemes hc
  rw [Kind.read, atom, hd, Phrase.value?]
  rcases ha d.val (.char ',' :: (b.lexemes ++ .char ']' :: ls)) (by rw [hls]; simp)
    (by rintro x ls' ⟨⟩; rfl) with ⟨hv, position, herror⟩ | ⟨p, hv, hp, hnext⟩
  · rw [Kind.read] at herror
    refine .inl ⟨by rw [hv]; rfl, position, ?_⟩
    simp only [herror]
    rfl
  rw [Kind.read, Kind.goOn] at hp
  obtain ⟨comma, hcomma, hrest⟩ := Cursor.expect_of_lexemes .commutatorComma hnext
  rcases hb comma.val _ hrest (by rintro x ls' ⟨⟩; rfl) with
    ⟨hw, position, herror⟩ | ⟨q, hw, hq, hnext⟩
  · rw [Kind.read] at herror
    refine .inl ⟨by rw [hv, hw]; rfl, position, ?_⟩
    simp only [hp, bind, Except.bind, hcomma, herror]
    rfl
  rw [Kind.read, Kind.goOn] at hq
  obtain ⟨close, hclose, hrest⟩ := Cursor.expect_of_lexemes .commutatorEnd hnext
  have hshorter : close.val.rest.length < c.rest.length := by
    have := close.property
    have := q.shorter
    have := comma.property
    have := p.shorter
    have := d.property
    omega
  rw [hv, hw, ← hrest]
  refine (Goes.fitted _ hshorter).of_eq ?_
  simp only [hp, bind, Except.bind, hcomma, hq, hclose]
  rfl

theorem powered_eq_skip {start : Cursor} {p : Parsed start} {ls : List Lexeme}
    (hnext : p.next.lexemes = ls) (hls : Kind.atom.Ends ls) : powered p = .ok p.skip := by
  have hcaret : p.next.accept? '^' = none := Cursor.accept?_eq_none rfl fun ls' h => by
    cases hls _ _ (hnext.symm.trans h)
  rw [powered, hcaret]

theorem complete_plain {b : Phrase .base} (hb : Complete b) : Complete (.plain b) := by
  intro c ls hc hls
  rcases hb c ls hc (fun _ _ _ => rfl) with ⟨hv, position, herror⟩ | ⟨p, hv, hp, hnext⟩
  · exact .inl ⟨hv, position, herror⟩
  · refine .inr ⟨p.skip, hv, ?_, (Cursor.lexemes_skip _).trans hnext⟩
    exact Eq.trans hp (powered_eq_skip hnext hls)

theorem complete_power {b : Phrase .base} (hb : Complete b) {n : Numeral} (hpos : 1 ≤ n.value)
    (hle : n.value ≤ maximalExponent) : Complete (.power b n hpos hle) := by
  intro c ls hc _
  rcases hb c (.char '^' :: .numeral n :: ls) (by rw [hc, Phrase.lexemes, List.append_assoc]; rfl)
    (fun _ _ _ => rfl) with ⟨hv, position, herror⟩ | ⟨p, hv, hp, hnext⟩
  · exact .inl ⟨by rw [Phrase.value?, hv]; rfl, position, herror⟩
  have hp : atom c = powered p := hp
  obtain ⟨caret, hcaret, hrest⟩ := Cursor.accept?_of_lexemes hnext
  have hdigit := Cursor.peek_isDigit_iff.2 ⟨n, ls, hrest⟩
  have hinteger := integer_of_lexemes hrest
  have hfits : ¬ Coefficient.maximum < n.value := by
    have : (n.value : Int) ≤ 255 := Int.ofNat_le.2 hle
    simp only [Coefficient.maximum]
    omega
  rw [if_neg hfits] at hinteger
  obtain ⟨d, hd, hls⟩ := hinteger
  have hshorter : d.val.rest.length < c.rest.length := by
    have := d.property
    have := caret.property
    have := p.shorter
    omega
  rw [Phrase.value?, hv, ← hls]
  refine (Goes.fitted _ hshorter).of_eq ?_
  rw [Kind.read, hp, powered, hcaret]
  simp only [hdigit, hd, bind, Except.bind, if_neg (Nat.one_le_iff_ne_zero.1 hpos),
    if_neg (Nat.not_lt.2 hle)]
  rfl

/-! ### Products -/

theorem complete_run {a : Phrase .atom} (ha : Complete a) : Complete (.run a) := by
  intro c ls hc hls
  rw [Kind.read, run]
  rcases ha c ls hc hls with ⟨hv, position, herror⟩ | ⟨p, hv, hp, hnext⟩
  · have herror : atom c = _ := herror
    exact .inl ⟨hv, position, by rw [herror]; rfl⟩
  · have hp : atom c = .ok p := hp
    exact .inr ⟨p, hv, by rw [hp]; rfl, hnext⟩

theorem runOn_eq_skip {start : Cursor} {p : Parsed start} {ls : List Lexeme}
    (hnext : p.next.lexemes = ls) (hls : Kind.chain.Ends ls) : runOn p = .ok p.skip := by
  have hpeek : ¬ p.next.peek.any startsAtom = true := by
    rw [Cursor.peek_startsAtom_iff]
    rintro ⟨x, ls', hx, hstarts⟩
    have hcontinues := hls x ls' (hnext.symm.trans hx)
    simp [Kind.continues, hstarts] at hcontinues
  rw [runOn, if_neg hpeek]

theorem complete_beside {r : Phrase .run} {a : Phrase .atom} (hr : Complete r) (ha : Complete a) :
    Complete (.beside r a) := by
  intro c ls hc hls
  obtain ⟨x, ls', hx, hstarts⟩ := a.exists_startsAtom (by simp)
  have hends : Kind.run.Ends (a.lexemes ++ ls) := by
    rintro y ls'' hy
    rw [hx] at hy
    cases hy
    refine decide_eq_false ?_
    rintro rfl
    cases hstarts
  rcases hr c (a.lexemes ++ ls) (by rw [hc, Phrase.lexemes, List.append_assoc]) hends with
    ⟨hv, position, herror⟩ | ⟨p, hv, hp, hnext⟩
  · exact .inl ⟨by rw [Phrase.value?, hv]; rfl, position, herror⟩
  have hp : run c = runOn p := hp
  have hpeek : p.next.peek.any startsAtom = true :=
    Cursor.peek_startsAtom_iff.2 ⟨x, _, by rw [hnext, hx]; rfl, hstarts⟩
  rw [Kind.read, hp, runOn, if_pos hpeek, Phrase.value?, hv]
  rcases ha p.next ls hnext hls with ⟨hw, position, herror⟩ | ⟨q, hw, hq, hnext⟩
  · have herror : atom p.next = _ := herror
    exact .inl ⟨by rw [hw]; rfl, position, by rw [herror]; rfl⟩
  · have hq : atom p.next = .ok q := hq
    rw [hw, hq, ← hnext]
    exact Goes.fitted runOn (Nat.lt_trans q.shorter p.shorter)

theorem Kind.Ends.imp {k k' : Kind} {ls : List Lexeme} (h : k.Ends ls)
    (hk : ∀ x, k.continues x = false → k'.continues x = false) : k'.Ends ls :=
  fun x ls' hx => hk x (h x ls' hx)

theorem Kind.Ends.run_of_chain {ls : List Lexeme} (h : Kind.chain.Ends ls) : Kind.run.Ends ls :=
  h.imp fun _ hx => (Bool.or_eq_false_iff.1 hx).1

theorem Kind.Ends.chain_of_term {ls : List Lexeme} (h : Kind.term.Ends ls) : Kind.chain.Ends ls :=
  h.imp fun _ hx => (Bool.or_eq_false_iff.1 hx).1

theorem Kind.Ends.terms_of_sum {ls : List Lexeme} (h : Kind.sum.Ends ls) : Kind.terms.Ends ls :=
  h.imp fun _ hx => (Bool.or_eq_false_iff.1 (Bool.or_eq_false_iff.1 hx).1).1

/-- A run is read to its end. -/
theorem Complete.run {r : Phrase .run} (hr : Complete r) {c : Cursor} {ls : List Lexeme}
    (hc : c.lexemes = r.lexemes ++ ls) (hls : Kind.chain.Ends ls) :
    Goes (Parser.run c) .ok r.value? ls := by
  rcases hr c ls hc hls.run_of_chain with hnone | ⟨p, hv, hp, hnext⟩
  · exact .inl hnone
  · exact .inr ⟨p.skip, hv, Eq.trans hp (runOn_eq_skip hnext hls),
      (Cursor.lexemes_skip _).trans hnext⟩

theorem complete_chain {r : Phrase .run} (hr : Complete r) : Complete (.chain r) := by
  intro c ls hc hls
  rw [Kind.read, chain]
  rcases hr.run hc hls with ⟨hv, position, herror⟩ | ⟨p, hv, hp, hnext⟩
  · exact .inl ⟨hv, position, by rw [herror]; rfl⟩
  · exact .inr ⟨p, hv, by rw [hp]; rfl, hnext⟩

theorem complete_star {e : Phrase .chain} {r : Phrase .run} (he : Complete e) (hr : Complete r) :
    Complete (.star e r) := by
  intro c ls hc hls
  rcases he c (.char '*' :: (r.lexemes ++ ls))
    (by rw [hc, Phrase.lexemes, List.append_assoc]; rfl) (by rintro x ls' ⟨⟩; rfl) with
    ⟨hv, position, herror⟩ | ⟨p, hv, hp, hnext⟩
  · exact .inl ⟨by rw [Phrase.value?, hv]; rfl, position, herror⟩
  have hp : chain c = chainOn p := hp
  obtain ⟨star, hstar, hrest⟩ := Cursor.accept?_of_lexemes hnext
  rw [Kind.read, hp, chainOn, hstar, Phrase.value?, hv]
  rcases hr.run hrest hls with ⟨hw, position, herror⟩ | ⟨q, hw, hq, hnext⟩
  · exact .inl ⟨by rw [hw]; rfl, position, by simp only [herror]; rfl⟩
  · have hshorter : q.next.rest.length < c.rest.length :=
      Nat.lt_trans q.shorter (Nat.lt_trans star.property p.shorter)
    rw [hw, ← hnext]
    refine (Goes.fitted chainOn hshorter).of_eq ?_
    simp only [hq]
    rfl

/-- A chain is read to its end. -/
theorem Complete.chain {e : Phrase .chain} (he : Complete e) {c : Cursor} {ls : List Lexeme}
    (hc : c.lexemes = e.lexemes ++ ls) (hls : Kind.term.Ends ls) :
    Goes (Parser.chain c) .ok e.value? ls := by
  rcases he c ls hc hls.chain_of_term with hnone | ⟨p, hv, hp, hnext⟩
  · exact .inl hnone
  · have hstar : p.next.accept? '*' = none := Cursor.accept?_eq_none rfl fun ls' h => by
      cases hls _ _ (hnext.symm.trans h)
    have hon : chainOn p = .ok p.skip := by rw [chainOn, hstar]
    exact .inr ⟨p.skip, hv, Eq.trans hp hon, (Cursor.lexemes_skip _).trans hnext⟩

/-! ### Sums -/

/-- The factor before a chain is read, or it does not fit. -/
theorem coefficient_of_lexemes {c : Cursor} {n : Option Numeral} {e : Phrase .chain}
    {ls : List Lexeme} (h : c.lexemes = (n.map Lexeme.numeral).toList ++ e.lexemes ++ ls) :
    (Phrase.factor? n = none ∧ ∃ position, coefficient c = .error (.overflow position)) ∨
      ∃ (m : Nat) (d : { d : Cursor // d.rest.length ≤ c.rest.length }),
        Phrase.factor? n = some (m : Int) ∧ coefficient c = .ok (m, d) ∧
          d.val.lexemes = e.lexemes ++ ls := by
  cases n with
  | none =>
    obtain ⟨x, ls', hx, -⟩ := e.exists_startsAtom (by simp)
    have hpeek : ¬ c.peek.any Char.isDigit = true := by
      rw [Cursor.peek_isDigit_iff]
      rintro ⟨n, ls'', hn⟩
      rw [hn, hx] at h
      cases h
    exact .inr ⟨1, ⟨c, Nat.le_refl _⟩, rfl, if_neg hpeek, h⟩
  | some n =>
    have hpeek := Cursor.peek_isDigit_iff.2 ⟨n, _, h⟩
    rw [coefficient, if_pos hpeek, Phrase.factor?]
    have hinteger := integer_of_lexemes h
    split at hinteger
    · exact .inl ⟨if_pos ‹_›, hinteger⟩
    · obtain ⟨d, hd, hls⟩ := hinteger
      exact .inr ⟨n.value, d, if_neg ‹_›, hd, hls⟩

theorem complete_term {n : Option Numeral} {e : Phrase .chain} (he : Complete e) :
    Complete (.term n e) := by
  intro c ls hc hls
  rw [Kind.read, term, Phrase.value?]
  rcases coefficient_of_lexemes hc with ⟨hn, position, herror⟩ | ⟨m, d, hn, hm, hrest⟩
  · exact .inl ⟨by rw [hn]; cases e.value? <;> rfl, position, by rw [herror]; rfl⟩
  rcases he.chain hrest hls with ⟨hv, position, herror⟩ | ⟨p, hv, hp, hnext⟩
  · exact .inl ⟨by rw [hv]; rfl, position, by rw [hm]; simp only [bind, Except.bind, herror]⟩
  · rw [hv, hn, ← hnext]
    refine (Goes.fitted .ok (Nat.lt_of_lt_of_le p.shorter d.property)).of_eq ?_
    rw [hm]
    simp only [bind, Except.bind, hp]
    rfl

/-- The next term is read and added to those before it. -/
theorem terms_of_lexemes {start c : Cursor} (sign : Int) (sofar : Combination)
    (h : c.rest.length ≤ start.rest.length) {t : Phrase .term} (ht : Complete t) {ls : List Lexeme}
    (hc : c.lexemes = t.lexemes ++ ls) (hls : Kind.term.Ends ls) :
    Goes (terms sign sofar c h) sumOn
      (do return sofar.reverse ++ (← (← t.value?).scale? sign)) ls := by
  rw [terms_eq]
  rcases ht c ls hc hls with ⟨hv, position, herror⟩ | ⟨p, hv, hp, hnext⟩
  · have herror : term c = _ := herror
    exact .inl ⟨by rw [hv]; rfl, position, by rw [herror]; rfl⟩
  · have hp : term c = .ok p := hp
    rw [hv, hp, ← hnext]
    cases hw : p.value.scale? sign with
    | none =>
      refine .inl ⟨?_, p.next.position, ?_⟩
      · simp only [bind, Option.bind, hw]
      · simp only [bind, Except.bind, hw, fitted]
    | some w =>
      refine .inr ⟨⟨sofar.reverse ++ w, p.next, Nat.lt_of_lt_of_le p.shorter h⟩, ?_, ?_, rfl⟩
      · simp only [bind, Option.bind, hw]
        rfl
      · simp only [bind, Except.bind, hw, fitted]

/-- A term does not begin with a sign. -/
theorem signed?_of_term {c : Cursor} {t : Phrase .term} {ls : List Lexeme}
    (h : c.lexemes = t.lexemes ++ ls) : signed? c = none := by
  refine signed?_eq_none fun s ls' hs => ?_
  cases t with
  | term n e =>
    rw [hs] at h
    cases n with
    | some n => cases h
    | none =>
      obtain ⟨x, ls'', hx, hstarts⟩ := e.exists_startsAtom (by simp)
      rw [Phrase.lexemes, hx] at h
      cases h
      cases s <;> cases hstarts

theorem complete_first {s : Option Sign} {t : Phrase .term} (ht : Complete t) :
    Complete (.first s t) := by
  intro c ls hc hls
  have hvalue : (Phrase.first s t).value? = do
      return [] ++ (← (← t.value?).scale? ((s.map Sign.value).getD 1)) := by
    simp [Phrase.value?]
  rw [Kind.read, sum, hvalue]
  cases s with
  | some s =>
    obtain ⟨d, hd, hrest⟩ := signed?_of_lexemes hc
    rw [hd]
    exact terms_of_lexemes _ [] _ ht hrest hls
  | none =>
    rw [signed?_of_term hc]
    exact terms_of_lexemes _ [] _ ht hc hls

theorem complete_more {ts : Phrase .terms} {s : Sign} {t : Phrase .term} (hts : Complete ts)
    (ht : Complete t) : Complete (.more ts s t) := by
  intro c ls hc hls
  rcases hts c (.char s.char :: (t.lexemes ++ ls))
    (by rw [hc, Phrase.lexemes, List.append_assoc]; rfl) (by rintro x ls' ⟨⟩; cases s <;> rfl) with
    ⟨hv, position, herror⟩ | ⟨p, hv, hp, hnext⟩
  · exact .inl ⟨by rw [Phrase.value?, hv]; rfl, position, herror⟩
  have hp : sum c = sumOn p := hp
  obtain ⟨d, hd, hrest⟩ := signed?_of_lexemes hnext
  rw [Kind.read, hp, sumOn, hd, Phrase.value?, hv]
  have hterms := terms_of_lexemes s.value p.value.reverse
    (Nat.le_of_lt (Nat.lt_trans d.property p.shorter)) ht hrest hls
  rwa [List.reverse_reverse] at hterms

theorem complete_sum {ts : Phrase .terms} (hts : Complete ts) : Complete (.sum ts) := by
  intro c ls hc hls
  rcases hts c ls hc hls.terms_of_sum with ⟨hv, position, herror⟩ | ⟨p, hv, hp, hnext⟩
  · exact .inl ⟨by rw [Phrase.value?, hv]; rfl, position, herror⟩
  have hp : sum c = sumOn p := hp
  have hsigned : signed? p.next = none := signed?_eq_none fun s ls' h => by
    have hcontinues := hls _ _ (hnext.symm.trans h)
    cases s <;> cases hcontinues
  rw [Kind.read, hp, sumOn, hsigned, Phrase.value?, hv, ← hnext, ← Cursor.lexemes_skip]
  exact Goes.fitted .ok _

/-- Every phrase is read where it comes next and may end. -/
theorem Phrase.complete {k : Kind} (φ : Phrase k) : Complete φ := by
  induction φ with
  | letter c h => exact complete_letter c h
  | parenthesized s hs => exact complete_parenthesized hs
  | associator a b c ha hb hc => exact complete_associator ha hb hc
  | commutator a b ha hb => exact complete_commutator ha hb
  | plain b hb => exact complete_plain hb
  | power b n hpos hle hb => exact complete_power hb hpos hle
  | run a ha => exact complete_run ha
  | beside r a hr ha => exact complete_beside hr ha
  | chain r hr => exact complete_chain hr
  | star c r hc hr => exact complete_star hc hr
  | term n c hc => exact complete_term hc
  | first s t ht => exact complete_first ht
  | more ts s t hts ht => exact complete_more hts ht
  | sum ts hts => exact complete_sum hts

end Nonassoc.Combination.Parser

namespace Nonassoc

open Combination.Parser

/-- A text is read only if the grammar derives it, with exponents from 1 to 255. Every text that it
so derives is read, unless a coefficient does not fit. -/
theorem Combination.parse_grammar (text : String) :
    (∀ p, parse text = .ok p → Derives text) ∧
      (Derives text →
        (∃ p, parse text = .ok p) ∨ ∃ position, parse text = .error (.overflow position)) := by
  refine ⟨fun p h => ?_, ?_⟩
  · obtain ⟨r, hr, h⟩ := bind_eq_ok.1 h
    obtain ⟨φ, hφ, -⟩ := sum_sound _ r hr
    split at h
    · rename_i hrest
      refine ⟨φ, hφ.trans ?_⟩
      rw [Cursor.rest_skip_eq_nil_iff.1 hrest, List.append_nil]
    · cases h
  · rintro ⟨φ, hφ⟩
    have hends : Kind.sum.Ends [] := fun x ls h => by cases h
    rcases φ.complete ⟨text.toList, 0⟩ [] (hφ.trans (List.append_nil _).symm) hends with
      ⟨-, position, herror⟩ | ⟨r, -, hr, hnil⟩
    · refine .inr ⟨position, ?_⟩
      have herror : sum ⟨text.toList, 0⟩ = _ := herror
      rw [parse, herror]
      rfl
    · refine .inl ⟨r.value, ?_⟩
      have hr : sum ⟨text.toList, 0⟩ = .ok r := hr
      rw [parse, hr]
      simp only [bind, Except.bind, Cursor.rest_skip_eq_nil_iff.2 hnil]
      rfl

/-- The Jordan product of a square and an associator. -/
theorem Combination.parse_grammar_associator : Derives "x^2 *(y,z, x)" ∧
    ((∃ p, parse "x^2 *(y,z, x)" = .ok p) ∨
      ∃ position, parse "x^2 *(y,z, x)" = .error (.overflow position)) := by
  let two : Numeral := ⟨['2'], List.cons_ne_nil _ _, List.forall_mem_singleton.2 rfl⟩
  let letter (c : Char) (h : c.isAlpha = true) : Phrase .sum :=
    .sum (.first none (.term none (.chain (.run (.plain (.letter c h))))))
  have htext : "x^2 *(y,z, x)".toList =
      ['x', '^', '2', ' ', '*', '(', 'y', ',', 'z', ',', ' ', 'x', ')'] := rfl
  have hderives : Derives "x^2 *(y,z, x)" := by
    refine ⟨.sum (.first none (.term none (.star
      (.chain (.run (.power (.letter 'x' rfl) two (by decide) (by decide))))
      (.run (.plain (.associator (letter 'y' rfl) (letter 'z' rfl) (letter 'x' rfl))))))), ?_⟩
    rw [htext]
    simp (disch := decide) only [lex_of_not_isDigit, lex_of_isDigit]
    rw [List.dropWhile_cons_of_neg (by decide)]
    simp (disch := decide) only [lex_of_not_isDigit, lex_of_isBlank, lex_nil]
    rfl
  exact ⟨hderives, (parse_grammar _).2 hderives⟩

end Nonassoc
