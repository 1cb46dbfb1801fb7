import Nonassoc.Proofs.Offsets

/-!
# What parse errors point at

`Holds` tells what each parse error says about the text: which character stands at its position,
that a base and a `^` stand before it, or that nothing but blank characters is left. A reading by
offsets that stands at a cursor of the parser (`Tracks`) can only end with an error of which that is
so (`Accounts`), and with each of its tokens it stands again where the parser does (`Simulates`).
-/

namespace Nonassoc

open Combination.Parser

/-- The byte that an error points at. -/
def ParseError.position? : ParseError → Option Nat
  | unexpected _ p | expected _ p | overflow p | badExponent p | exponentTooLarge p => some p
  | unexpectedEnd => none

namespace Combination.Offsets

/-! ## What an error says -/

/-- The numeral stands in the text at a byte, with no other digit beside it. -/
def IsLiteral (text : List Char) (n : Numeral) (p : Nat) : Prop :=
  ∃ before after, text = before ++ n.digits ++ after ∧ bytes before = p ∧
    (∀ x ∈ before.getLast?, x.isDigit = false) ∧ ∀ x ∈ after.head?, x.isDigit = false

/-- A base with a `^` behind it that ends at a byte, from where the text goes on with `after`. -/
def IsPower (text after : List Char) (p : Nat) : Prop :=
  ∃ before base, text = before ++ base ++ '^' :: after ∧ bytes (before ++ base) + 1 = p ∧
    ∃ φ : Phrase .base, lex base = φ.lexemes

theorem IsPower.exists_split {text after : List Char} {p : Nat} (h : IsPower text after p) :
    ∃ before after, text = before ++ after ∧ bytes before = p := by
  obtain ⟨before, base, htext, hposition, -⟩ := h
  refine ⟨before ++ base ++ ['^'], after, by rw [htext, List.append_assoc _ ['^']]; rfl, ?_⟩
  rw [bytes_append, ← hposition]
  rfl

/-- What an error says about the text is so, for a reading that has stopped at a place. -/
def Holds (text : List Char) (s : Place) : ParseError → Prop
  | .unexpected found p =>
    ∃ before after, text = before ++ found :: after ∧ bytes before = p ∧ Text.isBlank found = false
  | .unexpectedEnd =>
    ∃ before after, text = before ++ after ∧ bytes before = s.consumed ∧
      ∀ x ∈ after, Text.isBlank x = true
  | .expected what p =>
    ∃ before x after, text = before ++ x :: after ∧ bytes before = p ∧ Text.isBlank x = false ∧
      x ≠ what.char
  | .overflow p => ∃ before after, text = before ++ after ∧ bytes before = p
  | .badExponent p =>
    ∃ after, IsPower text after p ∧ ∀ n ls, lex after = .numeral n :: ls → n.value = 0
  | .exponentTooLarge p =>
    ∃ after n ls, IsPower text after p ∧ lex after = .numeral n :: ls ∧ maximalExponent < n.value

/-- An error of a reading is accounted for: what it says is so, and it is the overflow of an integer
that has been read exactly if that does not fit. -/
structure Accounts (text : List Char) (s : Place) (e : ParseError) : Prop where
  holds : Holds text s e
  literals : ∀ l ∈ s.literals, ∃ n, IsLiteral text n l ∧
    (e = .overflow l ↔ Coefficient.maximum < n.value)

/-! ## Where a reading stands -/

/-- A reading stands at a cursor: what it has taken from the text, and blank characters behind that,
are what stands before the cursor. No run of digits is split there, and all integers that have been
read fit. -/
structure Tracks (text : List Char) (s : Place) (c : Cursor) : Prop where
  position : s.position = c.position
  split : ∃ taken blanks, text = taken ++ blanks ++ c.rest ∧ bytes taken = s.consumed ∧
    bytes (taken ++ blanks) = c.position ∧ (∀ x ∈ blanks, Text.isBlank x = true) ∧
      ∀ x ∈ (taken ++ blanks).getLast?, ∀ y ∈ c.rest.head?, x.isDigit = true → y.isDigit = false
  literals : ∀ l ∈ s.literals, l < s.position ∧
    ∃ n, IsLiteral text n l ∧ n.value ≤ Coefficient.maximum

/-- A reading stands at a cursor that it has reached, or has passed the blank characters there. -/
structure Near (text : List Char) (s : Place) (c : Cursor) : Prop where
  reached : Cursor.Reaches ⟨text, 0⟩ c
  tracks : Tracks text s c ∨ Tracks text s c.skip

section
variable {text : List Char} {s t : Place} {c : Cursor}

theorem skipBlanks_rest (rest : List Char) (position : Nat) :
    (skipBlanks rest position).rest = Text.trimStart rest := by
  induction rest generalizing position with
  | nil => rfl
  | cons c rest ih =>
    rw [skipBlanks, Text.trimStart, List.dropWhile_cons]
    split
    · exact ih _
    · rfl

/-- What stands before a reading. -/
theorem Tracks.exists_before (h : Tracks text s c) :
    ∃ before, text = before ++ c.rest ∧ bytes before = s.position := by
  obtain ⟨taken, blanks, htext, -, hposition, -⟩ := h.split
  exact ⟨taken ++ blanks, htext, hposition.trans h.position.symm⟩

theorem Tracks.near (h : Tracks text s c) : Near text s c := by
  obtain ⟨before, htext, hposition⟩ := h.exists_before
  exact ⟨⟨before, htext, by rw [hposition, h.position, Nat.zero_add]⟩, .inl h⟩

theorem Near.exists_tracks (h : Near text s c) : ∃ d, Tracks text s d ∧ d.skip = c.skip :=
  h.tracks.elim (fun h => ⟨c, h, rfl⟩) fun h => ⟨c.skip, h, c.skip_skip⟩

theorem Tracks.sliceFrom? (h : Tracks text s c) :
    sliceFrom? text s.position = some c.rest :=
  sliceFrom?_eq_some_iff.2 h.exists_before

theorem Tracks.slice? (h : Tracks text s c) {token rest : List Char}
    (hrest : c.rest = token ++ rest) :
    slice? text s.position (s.position + bytes token) = some token := by
  obtain ⟨before, htext, hposition⟩ := h.exists_before
  rw [htext, hrest, ← hposition, ← List.append_assoc]
  exact slice?_append _ _ _

theorem Tracks.literals_of_le (h : Tracks text s c) {q : Nat} (hq : s.position ≤ q) :
    ∀ l ∈ s.literals, l < q ∧ ∃ n, IsLiteral text n l ∧ n.value ≤ Coefficient.maximum := by
  intro l hl
  obtain ⟨hlt, hn⟩ := h.literals l hl
  exact ⟨Nat.lt_of_lt_of_le hlt hq, hn⟩

theorem Tracks.start (text : List Char) : Tracks text .start ⟨text, 0⟩ where
  position := rfl
  split := ⟨[], [], rfl, rfl, rfl, nofun, nofun⟩
  literals := nofun

/-- Blank characters can be passed. -/
theorem Tracks.skip (h : Tracks text s c) :
    Tracks text { s with position := c.skip.position } c.skip := by
  obtain ⟨taken, blanks, htext, hconsumed, hposition, hblanks, hsplit⟩ := h.split
  obtain ⟨more, hrest, hskip, hmore⟩ := skipBlanks_split c.rest c.position
  have hle : s.position ≤ c.skip.position := h.position ▸ hskip ▸ Nat.le_add_right _ _
  refine ⟨rfl, ⟨taken, blanks ++ more, ?_, hconsumed, ?_, ?_, ?_⟩, h.literals_of_le hle⟩
  · rw [htext, hrest]
    simp only [List.append_assoc]
    rfl
  · rw [← List.append_assoc, bytes_append, hposition]
    exact hskip.symm
  · exact List.forall_mem_append.2 ⟨hblanks, hmore⟩
  · cases hm : more.getLast? with
    | none =>
      rw [List.getLast?_eq_none_iff] at hm
      subst hm
      rw [List.append_nil]
      rwa [hrest] at hsplit
    | some z =>
      intro x hx y hy hdigit
      rw [← List.append_assoc, List.getLast?_append, hm] at hx
      cases hx
      have hblank := hmore z (List.mem_of_getLast? hm)
      rw [isBlank_eq_false_of_isDigit hdigit] at hblank
      cases hblank

/-- The place after a token of which no digit run goes on. -/
theorem Tracks.consume {t rest : List Char} (h : Tracks text s c) (hrest : c.rest = t ++ rest)
    (hend : ∀ x ∈ t.getLast?, ∀ y ∈ rest.head?, x.isDigit = true → y.isDigit = false)
    (hne : t ≠ []) {literals : List Nat}
    (hliterals : ∀ l ∈ literals, l < c.position + bytes t ∧
      ∃ n, IsLiteral text n l ∧ n.value ≤ Coefficient.maximum) :
    Tracks text ⟨c.position + bytes t, c.position + bytes t, literals⟩
      ⟨rest, c.position + bytes t⟩ := by
  obtain ⟨before, htext, hposition⟩ := h.exists_before
  rw [h.position] at hposition
  refine ⟨rfl, ⟨before ++ t, [], ?_, ?_, ?_, nofun, ?_⟩, hliterals⟩
  · rw [htext, hrest, List.append_nil, List.append_assoc]
  · rw [bytes_append, hposition]
  · rw [List.append_nil, bytes_append, hposition]
  · rw [List.append_nil, List.getLast?_append_of_ne_nil _ hne]
    exact hend

/-- An error is accounted for if it is no overflow at an earlier place. -/
theorem Tracks.accounts {e : ParseError} (h : Tracks text s c) (he : Holds text s e)
    (hoverflow : ∀ p, e = .overflow p → p = c.position) : Accounts text s e := by
  refine ⟨he, fun l hl => ?_⟩
  obtain ⟨hlt, n, hn, hle⟩ := h.literals l hl
  refine ⟨n, hn, fun h' => ?_, fun hgt => absurd hgt (Int.not_lt.2 hle)⟩
  rw [h.position, hoverflow l h'] at hlt
  exact absurd hlt (Nat.lt_irrefl _)

end

/-! ## Readings that agree -/

section
variable {α β γ δ : Type} {text : List Char} {s t : Place} {c : Cursor}

/-- Reading from a place ends as `x` does: with related results or with the same error, which is
accounted for. -/
def Simulates (text : List Char) (R : α → β → Place → Prop) (read : Reading α) (s : Place) :
    Except ParseError β → Prop
  | .ok b => ∃ a t, read.outcome s = some (.ok a, t) ∧ R a b t
  | .error e => ∃ t, read.outcome s = some (.error (.error e), t) ∧ Accounts text t e

variable {R : α → β → Place → Prop} {Q : γ → δ → Place → Prop} {read : Reading α}

theorem Simulates.of_outcome {read' : Reading α} {x : Except ParseError β}
    (h : Simulates text R read' t x) (heq : read.outcome s = read'.outcome t) :
    Simulates text R read s x := by
  cases x with
  | ok b =>
    obtain ⟨a, u, hu, hR⟩ := h
    exact ⟨a, u, heq.trans hu, hR⟩
  | error e =>
    obtain ⟨u, hu, he⟩ := h
    exact ⟨u, heq.trans hu, he⟩

theorem Simulates.imp {R' : α → β → Place → Prop} {x : Except ParseError β}
    (h : Simulates text R read s x) (himp : ∀ a b t, R a b t → R' a b t) :
    Simulates text R' read s x := by
  cases x with
  | ok b =>
    obtain ⟨a, t, ht, hR⟩ := h
    exact ⟨a, t, ht, himp a b t hR⟩
  | error e => exact h

/-- A step of the reading alone. -/
theorem Simulates.step {a : α} {f : α → Reading γ} {x : Except ParseError δ}
    (h : read.outcome s = some (.ok a, t)) (hf : Simulates text Q (f a) t x) :
    Simulates text Q (read >>= f) s x :=
  hf.of_outcome (outcome_bind h)

theorem Simulates.bind {x : Except ParseError β} {f : α → Reading γ} {g : β → Except ParseError δ}
    (h : Simulates text R read s x)
    (hf : ∀ a b t, x = .ok b → R a b t → Simulates text Q (f a) t (g b)) :
    Simulates text Q (read >>= f) s (x >>= g) := by
  cases x with
  | ok b =>
    obtain ⟨a, t, ht, hR⟩ := h
    exact Simulates.step ht (hf a b t rfl hR)
  | error e =>
    obtain ⟨t, ht, he⟩ := h
    exact ⟨t, outcome_bind_of_halt ht, he⟩

theorem Simulates.pure {a : α} {b : β} (h : R a b s) :
    Simulates text R (pure a : Reading α) s (.ok b) := ⟨a, s, rfl, h⟩

theorem Simulates.fail {e : ParseError} (h : Accounts text s e) :
    Simulates text R (fail e : Reading α) s (.error e) := ⟨s, rfl, h⟩

/-- An error at the current offset. -/
theorem Simulates.fail_here {e : Nat → ParseError} (h : Accounts text s (e s.position)) :
    Simulates text R (position >>= fun p => Offsets.fail (e p) : Reading α) s
      (.error (e s.position)) :=
  Simulates.step rfl (.fail h)

/-! ## Tokens -/

theorem outcome_peek (h : Near text s c) :
    ∃ t, (peek text).outcome s = some (.ok c.peek, t) ∧ Tracks text t c.skip := by
  obtain ⟨d, hd, hskip⟩ := h.exists_tracks
  obtain ⟨blanks, hrest, hposition, -⟩ := skipBlanks_split d.rest d.position
  have htrimmed : Text.trimStart d.rest = d.skip.rest := (skipBlanks_rest _ _).symm
  have hbytes : s.position + (bytes d.rest - bytes d.skip.rest) = d.skip.position := by
    have hposition : d.skip.position = d.position + bytes blanks := hposition
    have hsum : bytes d.rest = bytes blanks + bytes d.skip.rest :=
      (congrArg bytes hrest).trans (bytes_append _ _)
    rw [hd.position, hposition, hsum, Nat.add_sub_cancel]
  refine ⟨{ s with position := d.skip.position }, ?_, hskip ▸ hd.skip⟩
  rw [peek, outcome_bind (s := s) (a := s) (t := s) rfl, hd.sliceFrom?,
    outcome_bind (s := s) (a := d.rest) (t := s) rfl, htrimmed, ← hbytes, Cursor.peek, ← hskip]
  rfl

/-- A look at what comes next. -/
theorem Simulates.peek (h : Near text s c) {f : Option Char → Reading α} {x : Except ParseError β}
    (hf : ∀ t, Tracks text t c.skip → Near text t c → Simulates text R (f c.peek) t x) :
    Simulates text R (Offsets.peek text >>= f) s x := by
  obtain ⟨t, ht, htracks⟩ := outcome_peek h
  exact .step ht (hf t htracks ⟨h.reached, .inr htracks⟩)

/-- The next character is consumed. It must be no digit. -/
theorem outcome_bump (h : Near text s c) {x : Char}
    {d : { d : Cursor // d.rest.length < c.rest.length }} (hnext : c.next? = some (x, d))
    (hx : x.isDigit = false) :
    ∃ t, (bump text).outcome s = some (.ok (), t) ∧ Tracks text t d.val := by
  obtain ⟨u, hu, htracks⟩ := outcome_peek h
  obtain ⟨hrest, hposition, hpeek, -⟩ := Cursor.next?_eq_some hnext
  have hle : u.position ≤ c.skip.position + bytes [x] := htracks.position ▸ Nat.le_add_right _ _
  have hconsume := htracks.consume (t := [x]) hrest (by simp [hx]) (List.cons_ne_nil _ _)
    (htracks.literals_of_le hle)
  rw [bytes_cons, bytes_nil, Nat.add_zero, ← hposition] at hconsume
  refine ⟨_, ?_, hconsume⟩
  rw [bump, outcome_bind hu, hpeek, hposition, ← htracks.position]
  rfl

theorem Simulates.bump (h : Near text s c) {x : Char}
    {d : { d : Cursor // d.rest.length < c.rest.length }} (hnext : c.next? = some (x, d))
    (hx : x.isDigit = false) {f : Unit → Reading α} {y : Except ParseError β}
    (hf : ∀ t, Tracks text t d.val → Simulates text R (f ()) t y) :
    Simulates text R (Offsets.bump text >>= f) s y := by
  obtain ⟨t, ht, htracks⟩ := outcome_bump h hnext hx
  exact .step ht (hf t htracks)

theorem Tracks.accounts_unexpectedEnd (h : Tracks text s c) (hrest : c.rest = []) :
    Accounts text s .unexpectedEnd := by
  refine h.accounts ?_ nofun
  obtain ⟨taken, blanks, htext, hconsumed, -, hblanks, -⟩ := h.split
  exact ⟨taken, blanks, by rw [htext, hrest, List.append_nil], hconsumed, hblanks⟩

theorem Tracks.accounts_unexpected (h : Tracks text s c) {x : Char} {rest : List Char}
    (hrest : c.rest = x :: rest) (hx : Text.isBlank x = false) :
    Accounts text s (.unexpected x s.position) := by
  refine h.accounts ?_ nofun
  obtain ⟨before, htext, hposition⟩ := h.exists_before
  exact ⟨before, rest, by rw [htext, hrest], hposition, hx⟩

theorem Tracks.accounts_expected (h : Tracks text s c) {x : Char} {rest : List Char}
    (hrest : c.rest = x :: rest) (hx : Text.isBlank x = false) {what : Missing}
    (hwhat : x ≠ what.char) : Accounts text s (.expected what s.position) := by
  refine h.accounts ?_ nofun
  obtain ⟨before, htext, hposition⟩ := h.exists_before
  exact ⟨before, x, rest, by rw [htext, hrest], hposition, hx, hwhat⟩

theorem Simulates.expect (h : Near text s c) (what : Missing) :
    Simulates text (fun _ d t => Tracks text t d.val) (Offsets.expect text what) s
      (c.expect what) := by
  refine .peek h fun t ht hnear => ?_
  rcases c.next?_cases with ⟨hnext, hpeek, hnil⟩ | ⟨x, d, hnext, hpeek, hrest, hx⟩
  · rw [Cursor.expect, Cursor.accept?, hnext, hpeek]
    exact .fail (ht.accounts_unexpectedEnd (Cursor.rest_skip_eq_nil_iff.2 hnil))
  · rw [Cursor.expect, Cursor.accept?, hnext, hpeek]
    by_cases hchar : x = what.char
    · obtain ⟨u, hu, htracks⟩ := outcome_bump hnear hnext (by subst hchar; cases what <;> rfl)
      simp only [if_pos hchar]
      exact ⟨(), u, hu, htracks⟩
    · simp only [if_neg hchar, Option.isNone_some, ← ht.position]
      exact .fail_here (ht.accounts_expected hrest hx hchar)

theorem Simulates.fit (h : Tracks text s c) (p : Option Combination) :
    Simulates text (fun v w t => v = w ∧ Tracks text t c) (fit p) s (fitted c p) := by
  cases p with
  | some p => exact .pure ⟨rfl, h⟩
  | none =>
    rw [fitted, ← h.position]
    refine .fail_here (h.accounts ?_ fun p hp => ?_)
    · obtain ⟨before, htext, hposition⟩ := h.exists_before
      exact ⟨before, c.rest, htext, hposition⟩
    · cases hp
      exact h.position

theorem signed?_eq (c : Cursor) : signed? c = c.next?.bind fun x => (sign? x.1).map (·, x.2) := by
  unfold signed? Cursor.accept?
  rcases c.next? with - | ⟨x, d⟩
  · rfl
  · by_cases hplus : x = '+'
    · subst hplus
      rfl
    · by_cases hminus : x = '-'
      · subst hminus
        rfl
      · have hsign : sign? x = none := by
          unfold sign?
          split <;> simp_all
        simp [hplus, hminus, hsign]

theorem isDigit_eq_false_of_sign? {x : Char} {σ : Int} (h : sign? x = some σ) :
    x.isDigit = false := by
  unfold sign? at h
  split at h
  · rfl
  · rfl
  · cases h

theorem outcome_sign (h : Near text s c) :
    (signed? c = none ∧ ∃ t, (sign text).outcome s = some (.ok none, t) ∧ Tracks text t c.skip) ∨
      ∃ σ d t, signed? c = some (σ, d) ∧ (sign text).outcome s = some (.ok (some σ), t) ∧
        Tracks text t d.val := by
  obtain ⟨t, ht, htracks⟩ := outcome_peek h
  have hsign : (sign text).outcome s = _ := outcome_bind ht
  rw [signed?_eq]
  rcases c.next?_cases with ⟨hnext, hpeek, -⟩ | ⟨x, d, hnext, hpeek, -, -⟩
  · rw [hpeek] at hsign
    exact .inl ⟨by rw [hnext]; rfl, t, hsign, htracks⟩
  · rw [hpeek] at hsign
    rw [hnext]
    cases hx : sign? x with
    | none =>
      rw [Option.bind_some, hx] at hsign
      exact .inl ⟨by rw [Option.bind_some, hx]; rfl, t, hsign, htracks⟩
    | some σ =>
      rw [Option.bind_some, hx] at hsign
      obtain ⟨u, hu, hutracks⟩ :=
        outcome_bump ⟨h.reached, .inr htracks⟩ hnext (isDigit_eq_false_of_sign? hx)
      refine .inr ⟨σ, d, u, by rw [Option.bind_some, hx]; rfl, hsign.trans ?_, hutracks⟩
      exact outcome_bind hu

/-- Where a digit comes next, a numeral does. -/
theorem exists_digits (h : c.peek.any Char.isDigit = true) :
    ∃ (n : Numeral) (rest : List Char), c.skip.rest = n.digits ++ rest ∧
      c.skip.rest.takeWhile Char.isDigit = n.digits ∧
        (∃ x ∈ c.skip.rest.head?, x.isDigit = true) ∧ ∀ x ∈ rest.head?, x.isDigit = false := by
  rcases c.next?_cases with ⟨-, hpeek, -⟩ | ⟨x, d, -, hpeek, hrest, -⟩
  · rw [hpeek] at h
    cases h
  · rw [hpeek, Option.any_some] at h
    rw [hrest]
    refine ⟨.front x d.val.rest h, d.val.rest.dropWhile Char.isDigit, ?_, ?_, ⟨x, rfl, h⟩, ?_⟩
    · rw [Numeral.front, List.cons_append, List.takeWhile_append_dropWhile]
    · rw [List.takeWhile_cons_of_pos h, Numeral.front]
    · intro y hy
      have := List.head?_dropWhile_not Char.isDigit d.val.rest
      rw [Option.mem_def.1 hy] at this
      simpa using this

/-- A digit run that comes next is a literal of the text. -/
theorem Tracks.isLiteral (h : Tracks text s c) {n : Numeral} {rest : List Char}
    (hrest : c.rest = n.digits ++ rest) (hfirst : ∃ x ∈ c.rest.head?, x.isDigit = true)
    (hlast : ∀ x ∈ rest.head?, x.isDigit = false) : IsLiteral text n s.position := by
  obtain ⟨taken, blanks, htext, -, hposition, -, hsplit⟩ := h.split
  obtain ⟨y, hy, hdigit⟩ := hfirst
  refine ⟨taken ++ blanks, rest, ?_, hposition.trans h.position.symm, fun x hx => ?_, hlast⟩
  · rw [htext, hrest, List.append_assoc _ n.digits]
  · exact Bool.eq_false_iff.2 fun hx' => by cases (hsplit x hx y hy hx').symm.trans hdigit

/-- An integer that does not fit is the overflow at its own place, and at no earlier one. -/
theorem Tracks.accounts_overflow (h : Tracks text s c) {n : Numeral}
    (hn : IsLiteral text n s.position) (hmaximum : Coefficient.maximum < n.value) (q : Nat) :
    Accounts text ⟨q, q, s.position :: s.literals⟩ (.overflow s.position) := by
  refine ⟨?_, List.forall_mem_cons.2 ⟨⟨n, hn, fun _ => hmaximum, fun _ => rfl⟩, fun l hl => ?_⟩⟩
  · obtain ⟨before, htext, hposition⟩ := h.exists_before
    exact ⟨before, c.rest, htext, hposition⟩
  · obtain ⟨hlt, m, hm, hle⟩ := h.literals l hl
    refine ⟨m, hm, fun hl' => ?_, fun hgt => absurd hgt (Int.not_lt.2 hle)⟩
    cases hl'
    exact absurd hlt (Nat.lt_irrefl _)

/-- The place after an integer that fits. -/
theorem Tracks.consume_integer (h : Tracks text s c) {n : Numeral} {rest : List Char}
    (hn : IsLiteral text n s.position) (hle : n.value ≤ Coefficient.maximum)
    (hrest : c.rest = n.digits ++ rest) (hlast : ∀ x ∈ rest.head?, x.isDigit = false) :
    Tracks text
      ⟨c.position + bytes n.digits, c.position + bytes n.digits, s.position :: s.literals⟩
      ⟨rest, c.position + bytes n.digits⟩ := by
  have hlt : s.position < c.position + bytes n.digits := by
    rw [h.position, bytes_of_isDigit n.isDigit]
    exact Nat.lt_add_of_pos_right (List.length_pos_of_ne_nil n.ne_nil)
  exact h.consume hrest (fun _ _ y hy _ => hlast y hy) n.ne_nil
    (List.forall_mem_cons.2 ⟨⟨hlt, n, hn, hle⟩, h.literals_of_le (Nat.le_of_lt hlt)⟩)

/-- An integer is read where it begins, and does not fit or is consumed. -/
theorem outcome_integer (h : Near text s c) {n : Numeral} {rest : List Char}
    (hrest : c.skip.rest = n.digits ++ rest)
    (htake : c.skip.rest.takeWhile Char.isDigit = n.digits) :
    ∃ t, Tracks text t c.skip ∧ (integer text).outcome s =
      some (if Coefficient.maximum < n.value then .error (.error (.overflow t.position))
        else .ok n.value,
        ⟨t.position + bytes n.digits, t.position + bytes n.digits, t.position :: t.literals⟩) := by
  obtain ⟨t, ht, htracks⟩ := outcome_peek h
  refine ⟨t, htracks, ?_⟩
  rw [integer, outcome_bind ht, outcome_bind (s := t) (a := t) (t := t) rfl, htracks.sliceFrom?,
    outcome_bind (s := t) (a := c.skip.rest) (t := t) rfl]
  simp only [htake]
  rw [outcome_bind rfl, htracks.slice? hrest, outcome_bind (a := n.digits) rfl,
    show Text.decimal n.digits = n.value from rfl]
  by_cases hmaximum : Coefficient.maximum < n.value
  · rw [if_pos (.inr hmaximum), if_pos hmaximum]
    rfl
  · rw [if_neg (not_or.2 ⟨n.ne_nil, hmaximum⟩), if_neg hmaximum]
    rfl

theorem Simulates.integer (h : Near text s c) (hdigit : c.peek.any Char.isDigit = true) :
    Simulates text (fun n m t => n = m.1 ∧ Tracks text t m.2.val) (integer text) s
      (Parser.integer c) := by
  obtain ⟨n, rest, hrest, htake, hfirst, hlast⟩ := exists_digits hdigit
  obtain ⟨t, ht, hinteger⟩ := outcome_integer h hrest htake
  have hliteral := ht.isLiteral hrest hfirst hlast
  unfold Parser.integer
  simp only [htake, show Text.decimal n.digits = n.value from rfl]
  by_cases hmaximum : Coefficient.maximum < n.value
  · rw [if_pos hmaximum] at hinteger ⊢
    rw [← ht.position]
    exact ⟨_, hinteger, ht.accounts_overflow hliteral hmaximum _⟩
  · rw [if_neg hmaximum] at hinteger ⊢
    refine ⟨_, _, hinteger, rfl, ?_⟩
    change Tracks text _ ⟨c.skip.rest.drop n.digits.length, c.skip.position + n.digits.length⟩
    rw [hrest, List.drop_left, ← bytes_of_isDigit n.isDigit, ht.position]
    exact ht.position ▸ ht.consume_integer hliteral (Int.not_lt.1 hmaximum) hrest hlast

theorem Simulates.coefficient (h : Near text s c) :
    Simulates text (fun n m t => n = m.1 ∧ Near text t m.2.val) (coefficient text) s
      (Parser.coefficient c) := by
  refine .peek h fun t _ hnear => ?_
  unfold Parser.coefficient
  by_cases hdigit : c.peek.any Char.isDigit = true
  · rw [if_pos hdigit, if_pos hdigit]
    refine (Simulates.integer hnear hdigit).imp fun n m u hu => ⟨hu.1, hu.2.near⟩
  · rw [if_neg hdigit, if_neg hdigit]
    exact .pure ⟨rfl, hnear⟩

/-! ## Powers -/

/-- A base of the grammar ends at the cursor. -/
def EndsBase (text : List Char) (c : Cursor) : Prop :=
  ∃ before base, text = before ++ base ++ c.rest ∧ c.position = bytes (before ++ base) ∧
    ∃ φ : Phrase .base, lex (base ++ c.rest) = φ.lexemes ++ lex c.rest

/-- A `^` behind a base makes it a power. -/
theorem EndsBase.isPower (h : EndsBase text c) {d : Cursor} {hd : d.rest.length < c.rest.length}
    (hnext : c.next? = some ('^', ⟨d, hd⟩)) : IsPower text d.rest d.position := by
  obtain ⟨before, base, htext, hposition, φ, hφ⟩ := h
  obtain ⟨blanks, hsplit, hskip, -⟩ := skipBlanks_split c.rest c.position
  obtain ⟨hcaret, hlast, -, -⟩ := Cursor.next?_eq_some hnext
  have hrest : c.rest = blanks ++ '^' :: d.rest := hsplit.trans (congrArg _ hcaret)
  refine ⟨before, base ++ blanks, ?_, ?_, φ, ?_⟩
  · rw [htext, hrest]
    simp only [List.append_assoc]
  · rw [← List.append_assoc, bytes_append, ← hposition]
    exact (congrArg (· + 1) hskip.symm).trans hlast.symm
  · have hlexemes : lex c.rest = lex ('^' :: d.rest) :=
      (Cursor.lexemes_of_next? hnext rfl).trans (lex_of_not_isDigit rfl rfl _).symm
    -- no numeral contains the caret, so the lexemes before it are those of the base
    rw [hlexemes, hrest, ← List.append_assoc, lex_append _ (by simp)] at hφ
    exact List.append_cancel_right hφ

/-- The value of what has been read is the same, and the reading stands where it ends. -/
def Lands (text : List Char) {start : Cursor} (v : Combination) (p : Parsed start) (t : Place) :
    Prop :=
  v = p.value ∧ Tracks text t p.next

/-- A value that has been computed where reading stands. -/
theorem Simulates.fit_landing {start : Cursor} (h : Tracks text s c) (p : Option Combination)
    (hshorter : c.rest.length < start.rest.length) :
    Simulates text (Lands text) (Offsets.fit p) s (do
      let value ← fitted c p
      return (⟨value, c, hshorter⟩ : Parsed start)) := by
  have hfit := Simulates.fit h p
  cases p with
  | some p => exact .pure ⟨rfl, h⟩
  | none => exact hfit

theorem Simulates.powered {start : Cursor} {p : Parsed start} (h : Tracks text s p.next)
    (hbase : EndsBase text p.next) :
    Simulates text (Lands text) (powered text p.value) s (Parser.powered p) := by
  refine .peek h.near fun t ht hnear => ?_
  unfold Parser.powered
  rcases Cursor.accept?_cases p.next '^' with ⟨hnone, hpeek⟩ | ⟨caret, hcaret, hnext, hpeek⟩
  · rw [if_pos hpeek, hnone]
    exact .pure ⟨rfl, ht⟩
  rw [if_neg (not_not.2 hpeek), hcaret]
  have hpower := hbase.isPower hnext
  refine .bump hnear hnext rfl fun u hu => .step (t := u) rfl ?_
  rw [hu.position]
  refine .peek hu.near fun v hv hvnear => ?_
  by_cases hdigit : caret.val.peek.any Char.isDigit = true
  · obtain ⟨n, ls, hn⟩ := Cursor.peek_isDigit_iff.1 hdigit
    simp only [hdigit]
    refine (Simulates.integer hvnear hdigit).bind fun _ ⟨m, next⟩ w hm ⟨hvalue, hw⟩ => ?_
    subst hvalue
    obtain ⟨rfl, -⟩ := integer_eq_ok hn hm
    by_cases hzero : n.value = 0
    · have hbad : Accounts text w (.badExponent caret.val.position) := by
        refine hw.accounts ⟨_, hpower, fun n' ls' hn' => ?_⟩ nofun
        cases hn.symm.trans hn'
        exact hzero
      simp only [if_pos hzero]
      exact ⟨w, rfl, hbad⟩
    by_cases hmaximal : maximalExponent < n.value
    · have hlarge : Accounts text w (.exponentTooLarge caret.val.position) :=
        hw.accounts ⟨_, n, ls, hpower, hn, hmaximal⟩ nofun
      simp only [if_neg hzero, if_pos hmaximal]
      exact ⟨w, rfl, hlarge⟩
    simp only [if_neg hzero, if_neg hmaximal]
    exact .fit_landing hw _ _
  · have hbad : Accounts text v (.badExponent caret.val.position) := by
      refine hv.accounts ⟨_, hpower, fun n ls hn => ?_⟩ nofun
      exact absurd (Cursor.peek_isDigit_iff.2 ⟨n, ls, hn⟩) hdigit
    simp only [hdigit]
    exact ⟨v, rfl, hbad⟩

end

end Combination.Offsets

end Nonassoc
