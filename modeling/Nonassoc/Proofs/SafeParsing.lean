import Nonassoc.Proofs.ErrorPositions

/-!
# Every text is read safely

Reading by byte offsets does what the parser does, from any place where it stands at a cursor
(`sum_agrees`): one lemma for each part of the grammar, by induction on what is left of the text.
Calls nest at most seven deep for each character. So the reader ends on every text, never slices
inside a character, and its errors are accounted for: `Combination.parse_safe`.
-/

namespace Nonassoc

open Combination.Parser

namespace Combination.Offsets

/-! ## The grammar -/

/-- From a cursor, reading agrees with the parser. -/
def Agrees (text : List Char) (read : Reading Combination)
    (parse : (c : Cursor) → Except ParseError (Parsed c)) (c : Cursor) : Prop :=
  ∀ s, Near text s c → Simulates text (Lands text) read s (parse c)

/-- What has been read as a base is one. -/
theorem endsBase_of_base {text : List Char} {s : Place} {c : Cursor} (h : Near text s c)
    {p : Parsed c} (hp : Parser.base c = .ok p) : EndsBase text p.next := by
  obtain ⟨before, htext, hposition⟩ := h.reached
  obtain ⟨base, hrest, hposition'⟩ := base_reaches (fun d _ => sum_reaches d) le_rfl p hp
  obtain ⟨φ, hφ, -⟩ := base_sound (fun d _ => sum_sound d) le_rfl p hp
  have htext : text = before ++ c.rest := htext
  refine ⟨before, base, by rw [htext, hrest, List.append_assoc], ?_, φ, hrest ▸ hφ⟩
  rw [hposition', hposition, bytes_append, Nat.zero_add]

section
variable {text : List Char} {n : Nat}
  (ih : ∀ (c : Cursor) (d : Nat), c.rest.length < n → 7 * c.rest.length + 6 < d →
    Agrees text (sum text d) Parser.sum c)
include ih

theorem base_agrees {c : Cursor} {d : Nat} (hc : c.rest.length ≤ n) (hd : 7 * c.rest.length < d) :
    Agrees text (base text d) Parser.base c := by
  intro s h
  obtain ⟨d, rfl⟩ := Nat.exists_eq_add_one_of_ne_zero (Nat.ne_zero_of_lt hd)
  -- what is read inside brackets is shorter than the base
  have hsum : ∀ e : Cursor, e.rest.length < c.rest.length → Agrees text (sum text d) Parser.sum e :=
    fun e he => ih e d (Nat.lt_of_lt_of_le he hc) (by omega)
  rw [base, Parser.base]
  refine .peek h fun t ht hnear => ?_
  rcases c.next?_cases with ⟨hnext, hpeek, hnil⟩ | ⟨x, inside, hnext, hpeek, hrest, hblank⟩
  · rw [hnext, hpeek]
    exact .fail (ht.accounts_unexpectedEnd (Cursor.rest_skip_eq_nil_iff.2 hnil))
  obtain ⟨inside, hinside⟩ := inside
  rw [hnext, hpeek]
  by_cases hletter : x.isAlpha = true
  · simp only [if_pos hletter]
    exact .bump hnear hnext (isDigit_eq_false_of_isAlpha hletter) fun u hu => .pure ⟨rfl, hu⟩
  by_cases hparenthesis : x = '('
  · subst hparenthesis
    simp only [if_neg hletter, if_pos]
    refine .bump hnear hnext rfl fun u hu => ?_
    refine (hsum _ hinside u hu.near).bind fun _ a v _ hv => ?_
    obtain ⟨rfl, hv⟩ := hv
    have ha := Nat.lt_trans a.shorter hinside
    refine .peek hv.near fun w hw hwnear => ?_
    rcases a.next.accept?_cases ',' with ⟨hnone, hpeek⟩ | ⟨comma, hcomma, hnext, hpeek⟩
    · simp only [hnone, if_neg hpeek]
      exact (Simulates.expect hwnear _).bind fun _ close _ _ hclose => .pure ⟨rfl, hclose⟩
    · simp only [hcomma, if_pos hpeek]
      have hcommalt := Nat.lt_trans comma.property ha
      refine .bump hwnear hnext rfl fun t₁ ht₁ => ?_
      refine (hsum _ hcommalt t₁ ht₁.near).bind fun _ b t₂ _ ht₂ => ?_
      obtain ⟨rfl, ht₂⟩ := ht₂
      refine (Simulates.expect ht₂.near _).bind fun _ comma₂ t₃ _ ht₃ => ?_
      have hb := Nat.lt_trans comma₂.property (Nat.lt_trans b.shorter hcommalt)
      refine (hsum _ hb t₃ ht₃.near).bind fun _ e t₄ _ ht₄ => ?_
      obtain ⟨rfl, ht₄⟩ := ht₄
      exact (Simulates.expect ht₄.near _).bind fun _ close t₅ _ ht₅ => .fit_landing ht₅ _ _
  by_cases hbracket : x = '['
  · subst hbracket
    simp only [if_neg hletter, if_neg hparenthesis, if_pos]
    refine .bump hnear hnext rfl fun u hu => ?_
    refine (hsum _ hinside u hu.near).bind fun _ a v _ hv => ?_
    obtain ⟨rfl, hv⟩ := hv
    refine (Simulates.expect hv.near _).bind fun _ comma t₁ _ ht₁ => ?_
    have hcommalt := Nat.lt_trans comma.property (Nat.lt_trans a.shorter hinside)
    refine (hsum _ hcommalt t₁ ht₁.near).bind fun _ b t₂ _ ht₂ => ?_
    obtain ⟨rfl, ht₂⟩ := ht₂
    exact (Simulates.expect ht₂.near _).bind fun _ close t₃ _ ht₃ => .fit_landing ht₃ _ _
  · simp only [if_neg hletter, if_neg hparenthesis, if_neg hbracket, ← ht.position]
    exact .fail_here (ht.accounts_unexpected hrest hblank)

theorem atom_agrees {c : Cursor} {d : Nat} (hc : c.rest.length ≤ n)
    (hd : 7 * c.rest.length + 1 < d) : Agrees text (atom text d) Parser.atom c := by
  intro s h
  obtain ⟨d, rfl⟩ := Nat.exists_eq_add_one_of_ne_zero (Nat.ne_zero_of_lt hd)
  rw [atom, atom_eq]
  refine (base_agrees ih hc (by omega) s h).bind fun _ p t hp ht => ?_
  obtain ⟨rfl, ht⟩ := ht
  exact .powered ht (endsBase_of_base h hp)

theorem runOn_agrees {start : Cursor} {p : Parsed start} {d : Nat} (hn : p.next.rest.length ≤ n)
    (hd : 7 * p.next.rest.length + 2 < d) {s : Place} (h : Tracks text s p.next) :
    Simulates text (Lands text) (runOn text d p.value) s (Parser.runOn p) := by
  induction hl : p.next.rest.length using Nat.strong_induction_on generalizing p d s with
  | _ l ihl =>
    obtain ⟨d, rfl⟩ := Nat.exists_eq_add_one_of_ne_zero (Nat.ne_zero_of_lt hd)
    rw [runOn, Parser.runOn]
    refine .peek h.near fun t ht hnear => ?_
    by_cases hstarts : p.next.peek.any startsAtom = true
    · rw [if_pos hstarts, if_pos hstarts]
      refine (atom_agrees ih hn (by omega) t hnear).bind fun _ q u _ hu => ?_
      obtain ⟨rfl, hu⟩ := hu
      refine (Simulates.fit hu _).bind fun value _ w _ hw => ?_
      obtain ⟨rfl, hw⟩ := hw
      have hq := q.shorter
      exact ihl _ (hl ▸ hq) (by simp only; omega) (by simp only; omega) hw rfl
    · rw [if_neg hstarts, if_neg hstarts]
      exact .pure ⟨rfl, ht⟩

theorem run_agrees {c : Cursor} {d : Nat} (hc : c.rest.length ≤ n)
    (hd : 7 * c.rest.length + 2 < d) : Agrees text (run text d) Parser.run c := by
  intro s h
  obtain ⟨d, rfl⟩ := Nat.exists_eq_add_one_of_ne_zero (Nat.ne_zero_of_lt hd)
  rw [run, Parser.run]
  refine (atom_agrees ih hc (by omega) s h).bind fun _ p t _ ht => ?_
  obtain ⟨rfl, ht⟩ := ht
  have hp := p.shorter
  exact runOn_agrees ih (by omega) (by omega) ht

theorem chainOn_agrees {start : Cursor} {p : Parsed start} {d : Nat} (hn : p.next.rest.length ≤ n)
    (hd : 7 * p.next.rest.length < d) {s : Place} (h : Tracks text s p.next) :
    Simulates text (Lands text) (chainOn text d p.value) s (Parser.chainOn p) := by
  induction hl : p.next.rest.length using Nat.strong_induction_on generalizing p d s with
  | _ l ihl =>
    obtain ⟨d, rfl⟩ := Nat.exists_eq_add_one_of_ne_zero (Nat.ne_zero_of_lt hd)
    rw [chainOn, Parser.chainOn]
    refine .peek h.near fun t ht hnear => ?_
    rcases p.next.accept?_cases '*' with ⟨hnone, hpeek⟩ | ⟨star, hstar, hnext, hpeek⟩
    · rw [if_neg hpeek, hnone]
      exact .pure ⟨rfl, ht⟩
    · rw [if_pos hpeek, hstar]
      have hlt := star.property
      refine .bump hnear hnext rfl fun u hu => ?_
      refine (run_agrees ih (by omega) (by omega) u hu.near).bind fun _ q v _ hv => ?_
      obtain ⟨rfl, hv⟩ := hv
      refine (Simulates.fit hv _).bind fun value _ w _ hw => ?_
      obtain ⟨rfl, hw⟩ := hw
      have hq := Nat.lt_trans q.shorter hlt
      exact ihl _ (hl ▸ hq) (by simp only; omega) (by simp only; omega) hw rfl

theorem chain_agrees {c : Cursor} {d : Nat} (hc : c.rest.length ≤ n)
    (hd : 7 * c.rest.length + 3 < d) : Agrees text (chain text d) Parser.chain c := by
  intro s h
  obtain ⟨d, rfl⟩ := Nat.exists_eq_add_one_of_ne_zero (Nat.ne_zero_of_lt hd)
  rw [chain, Parser.chain]
  refine (run_agrees ih hc (by omega) s h).bind fun _ p t _ ht => ?_
  obtain ⟨rfl, ht⟩ := ht
  have hp := p.shorter
  exact chainOn_agrees ih (by omega) (by omega) ht

theorem term_agrees {c : Cursor} {d : Nat} (hc : c.rest.length ≤ n)
    (hd : 7 * c.rest.length + 4 < d) : Agrees text (term text d) Parser.term c := by
  intro s h
  obtain ⟨d, rfl⟩ := Nat.exists_eq_add_one_of_ne_zero (Nat.ne_zero_of_lt hd)
  rw [term, Parser.term]
  refine (Simulates.coefficient h).bind fun _ m t _ ht => ?_
  obtain ⟨m, inner⟩ := m
  obtain ⟨rfl, ht⟩ := ht
  have hinner : inner.val.rest.length ≤ c.rest.length := inner.property
  have hd : 7 * inner.val.rest.length + 3 < d := by omega
  refine (chain_agrees ih (Nat.le_trans hinner hc) hd t ht).bind fun _ p u _ hu => ?_
  obtain ⟨rfl, hu⟩ := hu
  exact .fit_landing hu _ _

theorem terms_agrees {start c : Cursor} {σ : Int} {sofar : Combination} {d : Nat}
    {hle : c.rest.length ≤ start.rest.length} (hn : c.rest.length ≤ n)
    (hd : 7 * c.rest.length + 5 < d) {s : Place} (h : Near text s c) :
    Simulates text (Lands text) (terms text d σ sofar.reverse) s (Parser.terms σ sofar c hle) := by
  induction hl : c.rest.length using Nat.strong_induction_on generalizing c σ sofar d s with
  | _ l ihl =>
    obtain ⟨d, rfl⟩ := Nat.exists_eq_add_one_of_ne_zero (Nat.ne_zero_of_lt hd)
    rw [terms, Parser.terms]
    refine (term_agrees ih hn (by omega) s h).bind fun _ p t _ ht => ?_
    obtain ⟨rfl, ht⟩ := ht
    refine (Simulates.fit ht _).bind fun value _ u _ hu => ?_
    obtain ⟨rfl, hu⟩ := hu
    have hsofar : sofar.reverse ++ value = (value.reverse ++ sofar).reverse := by simp
    rw [hsofar]
    rcases outcome_sign hu.near with ⟨hnone, v, hv, hvtracks⟩ | ⟨σ', e, v, hsome, hv, hvtracks⟩
    · refine .step hv ?_
      simp only [hnone]
      exact .fit_landing hvtracks _ _
    · refine .step hv ?_
      simp only [hsome]
      have hlt := Nat.lt_trans e.property p.shorter
      exact ihl _ (hl ▸ hlt) (by omega) (by omega) hvtracks.near rfl

theorem sum_agrees_step {c : Cursor} {d : Nat} (hc : c.rest.length ≤ n)
    (hd : 7 * c.rest.length + 6 < d) : Agrees text (sum text d) Parser.sum c := by
  intro s h
  obtain ⟨d, rfl⟩ := Nat.exists_eq_add_one_of_ne_zero (Nat.ne_zero_of_lt hd)
  rw [sum, Parser.sum]
  rcases outcome_sign h with ⟨hnone, t, ht, htracks⟩ | ⟨σ, e, t, hsome, ht, htracks⟩
  · rw [hnone]
    exact .step ht (terms_agrees ih hc (by omega) ⟨h.reached, .inr htracks⟩)
  · rw [hsome]
    have he := e.property
    exact .step ht (terms_agrees ih (by omega) (by omega) htracks.near)

end

/-- With enough depth, reading a sum by offsets does what the parser does. -/
theorem sum_agrees (text : List Char) {c : Cursor} {d : Nat} (hd : 7 * c.rest.length + 6 < d) :
    Agrees text (sum text d) Parser.sum c := by
  induction hl : c.rest.length using Nat.strong_induction_on generalizing c d with
  | _ l ihl =>
    exact sum_agrees_step (n := l) (fun e d he hd => ihl _ he hd rfl) (Nat.le_of_eq hl) hd

/-- A depth to which no reading of the text nests its calls. -/
def enough (text : List Char) : Nat := 7 * text.length + 7

/-- With enough depth, reading a text by offsets does what the parser does. -/
theorem parse_agrees (text : String) {depth : Nat} (h : enough text.toList ≤ depth) :
    Simulates text.toList (fun p q s => p = q ∧ ∃ c, Tracks text.toList s c)
      (parse text.toList depth) .start (Combination.parse text) := by
  refine (sum_agrees _ h _ (Tracks.start text.toList).near).bind fun _ p t _ ht => ?_
  obtain ⟨rfl, ht⟩ := ht
  refine .peek ht.near fun u hu _ => ?_
  rcases p.next.next?_cases with ⟨-, hpeek, hnil⟩ | ⟨x, d, -, hpeek, hrest, hblank⟩
  · rw [hpeek, Cursor.rest_skip_eq_nil_iff.2 hnil]
    exact .pure ⟨rfl, _, hu⟩
  · rw [hpeek, hrest]
    simp only [← hu.position]
    exact .fail_here (hu.accounts_unexpected hrest hblank)

theorem Holds.exists_split {text : List Char} {s : Place} {e : ParseError} (h : Holds text s e)
    {p : Nat} (hp : e.position? = some p) :
    ∃ before after, text = before ++ after ∧ bytes before = p := by
  cases e with
  | unexpected found q =>
    cases hp
    obtain ⟨before, after, htext, hposition, -⟩ := h
    exact ⟨before, _, htext, hposition⟩
  | unexpectedEnd => cases hp
  | expected what q =>
    cases hp
    obtain ⟨before, x, after, htext, hposition, -⟩ := h
    exact ⟨before, _, htext, hposition⟩
  | overflow q =>
    cases hp
    exact h
  | badExponent q =>
    cases hp
    obtain ⟨after, hpower, -⟩ := h
    exact hpower.exists_split
  | exponentTooLarge q =>
    cases hp
    obtain ⟨after, n, ls, hpower, -⟩ := h
    exact hpower.exists_split

end Combination.Offsets

open Combination.Offsets in
/-- Reading by byte offsets comes to an end on every text, whatever depth it is allowed beyond what
is enough. It never slices inside a character, and finds what the parser finds. An integer that it
reaches overflows at its first digit exactly if it does not fit a coefficient. What an error says
about the text is so, and its position is a boundary between characters. -/
theorem Combination.parse_safe (text : String) (spare : Nat) :
    ∃ place, (Offsets.parse text.toList (enough text.toList + spare)).outcome .start =
        some ((parse text).mapError Halt.error, place) ∧
      (∀ l ∈ place.literals, ∃ n, IsLiteral text.toList n l ∧
        (parse text = .error (.overflow l) ↔ Coefficient.maximum < n.value)) ∧
      ∀ e, parse text = .error e → Holds text.toList place e ∧
        ∀ p, e.position? = some p →
          p ≤ text.utf8ByteSize ∧ (⟨p⟩ : String.Pos.Raw).IsValid text := by
  have h := parse_agrees text (Nat.le_add_right (enough text.toList) spare)
  cases hparse : parse text with
  | ok q =>
    rw [hparse] at h
    obtain ⟨_, s, hs, rfl, c, hc⟩ := h
    refine ⟨s, hs, fun l hl => ?_, nofun⟩
    obtain ⟨-, n, hn, hle⟩ := hc.literals l hl
    exact ⟨n, hn, nofun, fun hgt => absurd hgt (Int.not_lt.2 hle)⟩
  | error e =>
    rw [hparse] at h
    obtain ⟨s, hs, he⟩ := h
    refine ⟨s, hs, fun l hl => ?_, ?_⟩
    · obtain ⟨n, hn, hiff⟩ := he.literals l hl
      exact ⟨n, hn, by rw [← hiff, Except.error.injEq]⟩
    · rintro _ ⟨⟩
      refine ⟨he.holds, fun p hp => ?_⟩
      have hvalid : (⟨p⟩ : String.Pos.Raw).IsValid text := by
        rw [← String.ofList_toList (s := text), ← isSome_sliceFrom?_iff, Option.isSome_iff_exists]
        obtain ⟨before, after, hsplit⟩ := he.holds.exists_split hp
        exact ⟨after, sliceFrom?_eq_some_iff.2 ⟨before, hsplit⟩⟩
      exact ⟨hvalid.le_utf8ByteSize, hvalid⟩

end Nonassoc
