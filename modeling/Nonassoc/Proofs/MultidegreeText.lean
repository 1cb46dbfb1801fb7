import Nonassoc.Multidegree.Reader
import Nonassoc.Proofs.Lines

/-!
# Multidegrees as texts

What the text of a multidegree looks like is said here without reference to reading it
(`Multidegree.Denotes`): blank characters around a list, perhaps in parentheses, whose pieces between
commas are bytes in decimal with blank characters around them. A text that looks like this is read as
what it denotes and no other text is read, and a multidegree is what its written form denotes. Main
result: `Multidegree.parse_exact`.
-/

namespace Nonassoc

/-! ## Blank characters and pieces -/

namespace Text

/-- A text is another one, which has no blank character at an end, with blank characters around it. -/
structure IsPadded (s core : List Char) : Prop where
  padding : ∃ before after, s = before ++ (core ++ after) ∧
    (∀ c ∈ before, isBlank c = true) ∧ ∀ c ∈ after, isBlank c = true
  first : ∀ c ∈ core.head?, isBlank c = false
  last : ∀ c ∈ core.getLast?, isBlank c = false

theorem trim_append_right {after : List Char} (h : ∀ c ∈ after, isBlank c = true) (l : List Char) :
    trim (l ++ after) = trim l := by
  induction after generalizing l with
  | nil => rw [List.append_nil]
  | cons c after ih =>
    obtain ⟨hc, hafter⟩ := List.forall_mem_cons.1 h
    rw [List.append_cons, ih hafter, trim_concat hc]

theorem trim_append_left {before : List Char} (h : ∀ c ∈ before, isBlank c = true) (l : List Char) :
    trim (before ++ l) = trim l := by
  rw [trim_eq, trim_eq, List.dropWhile_append_of_pos h]

theorem trim_eq_self {l : List Char} (hfirst : ∀ c ∈ l.head?, isBlank c = false)
    (hlast : ∀ c ∈ l.getLast?, isBlank c = false) : trim l = l := by
  have hdrop : l.dropWhile isBlank = l := by
    cases l with
    | nil => rfl
    | cons c l => exact List.dropWhile_cons_of_neg (by simp [hfirst c rfl])
  rw [trim_eq, hdrop, List.rdropWhile_eq_self_iff]
  intro hne
  rw [hlast _ (List.getLast?_eq_some_getLast hne)]
  exact Bool.false_ne_true

theorem isPadded_trim (s : List Char) : IsPadded s (trim s) where
  padding := exists_append_trim s
  first c hc := by
    obtain ⟨after, hafter⟩ : trim s <+: s.dropWhile isBlank := List.rdropWhile_prefix _ _
    have hdrop := List.head?_dropWhile_not isBlank s
    rw [← hafter, List.head?_append, hc] at hdrop
    exact hdrop
  last c hc := by
    have hne : trim s ≠ [] := by
      rintro hnil
      rw [hnil] at hc
      cases hc
    rw [List.getLast?_eq_some_getLast hne] at hc
    cases hc
    exact Bool.eq_false_iff.2 (List.rdropWhile_last_not isBlank _ hne)

/-- What is padded is what trimming leaves. -/
theorem isPadded_iff {s core : List Char} : IsPadded s core ↔ trim s = core := by
  constructor
  · intro h
    obtain ⟨before, after, rfl, hbefore, hafter⟩ := h.padding
    rw [trim_append_left hbefore, trim_append_right hafter, trim_eq_self h.first h.last]
  · rintro rfl
    exact isPadded_trim s

/-- No piece has a separator. -/
theorem not_mem_of_mem_pieces (separator : Char) (s : List Char) :
    ∀ piece ∈ pieces separator s, separator ∉ piece := by
  induction s with
  | nil => exact List.forall_mem_singleton.2 List.not_mem_nil
  | cons c s ih =>
    have hcons : pieces separator (c :: s) = addToPieces separator c (pieces separator s) := rfl
    rw [hcons]
    unfold addToPieces
    split
    · exact List.forall_mem_cons.2 ⟨List.not_mem_nil, ih⟩
    · rename_i hne
      split
      · exact List.forall_mem_singleton.2 fun hmem => hne (List.mem_singleton.1 hmem).symm
      · rename_i piece more heq
        rw [heq, List.forall_mem_cons] at ih
        refine List.forall_mem_cons.2 ⟨fun hmem => ?_, ih.2⟩
        exact (List.mem_cons.1 hmem).elim (fun h => hne h.symm) ih.1

/-- A text is cut into the pieces that make it up. -/
theorem pieces_eq_iff {separator : Char} {s : List Char} {found : List (List Char)} :
    pieces separator s = found ↔
      found ≠ [] ∧ (∀ piece ∈ found, separator ∉ piece) ∧ s = [separator].intercalate found := by
  constructor
  · rintro rfl
    exact ⟨pieces_ne_nil _ _, not_mem_of_mem_pieces _ _, (intercalate_pieces _ _).symm⟩
  · rintro ⟨hne, hfree, rfl⟩
    exact (pieces_intercalate hne hfree).1

end Text

/-! ## Multidegrees -/

namespace Multidegree

/-- A list stands in one pair of parentheses, or it stands alone. -/
inductive Wraps : List Char → List Char → Prop
  | parentheses (inner : List Char) : Wraps ('(' :: (inner ++ [')'])) inner
  | alone {inner : List Char} : (∀ l, inner ≠ '(' :: (l ++ [')'])) → Wraps inner inner

/-- Decimal digits, at least one of them, perhaps after a plus sign, with the value of a byte. -/
def IsByte (s : List Char) (x : UInt8) : Prop :=
  ∃ digits, (s = digits ∨ s = '+' :: digits) ∧ digits ≠ [] ∧ (∀ d ∈ digits, d.isDigit = true) ∧
    Nat.ofDigitChars 10 digits 0 = x.toNat

/-- The text, without blank characters around it and without parentheses, consists of pieces between
commas, which denote the multiplicities in turn. -/
def Denotes (s : List Char) (t : Multidegree) : Prop :=
  ∃ core inner pieces, Text.IsPadded s core ∧ Wraps core inner ∧
    (pieces ≠ [] ∧ (∀ piece ∈ pieces, ',' ∉ piece) ∧ inner = [','].intercalate pieces) ∧
    List.Forall₂ (fun piece x => ∃ number, Text.IsPadded piece number ∧ IsByte number x)
      pieces t.components

theorem wraps_unwrap (core : List Char) : Wraps core (unwrap core) := by
  unfold unwrap
  split
  · rename_i rest
    split
    · rename_i hlast
      conv => arg 1; rw [← List.dropLast_append_getLast? _ hlast]
      exact .parentheses _
    · rename_i hlast
      refine .alone fun l hl => hlast ?_
      rw [(List.cons.inj hl).2, List.getLast?_concat]
  · rename_i hfirst
    exact .alone fun l => hfirst _

theorem wraps_iff {core inner : List Char} : Wraps core inner ↔ unwrap core = inner := by
  refine ⟨fun h => ?_, fun h => h ▸ wraps_unwrap core⟩
  cases h with
  | parentheses => simp [unwrap]
  | alone h =>
    unfold unwrap
    split
    · rename_i rest
      split
      · rename_i hlast
        exact absurd (congrArg _ (List.dropLast_append_getLast? _ hlast).symm) (h rest.dropLast)
      · rfl
    · rfl

/-- Digits that denote a byte. -/
theorem digits_eq_some_iff {digits : List Char} {x : UInt8} :
    (if !digits.isEmpty && digits.all Char.isDigit && Text.decimal digits < 256 then
      some (UInt8.ofNat (Text.decimal digits)) else none) = some x ↔
      digits ≠ [] ∧ (∀ d ∈ digits, d.isDigit = true) ∧ Nat.ofDigitChars 10 digits 0 = x.toNat := by
  have hdecimal : Nat.ofDigitChars 10 digits 0 = Text.decimal digits := Nat.ofDigitChars_eq_foldl
  have hbyte : Text.decimal digits < 256 ∧ UInt8.ofNat (Text.decimal digits) = x ↔
      Text.decimal digits = x.toNat := by
    have hx := x.toNat_lt
    rw [← UInt8.toNat_inj, UInt8.toNat_ofNat']
    omega
  rw [Option.ite_none_right_eq_some, hdecimal, ← hbyte]
  simp [and_assoc]

/-- A plus sign is not a digit, so it is clear whether there is one. -/
theorem byte?_eq_some_iff {s : List Char} {x : UInt8} : byte? s = some x ↔ IsByte s x := by
  unfold byte?
  rw [digits_eq_some_iff]
  constructor
  · intro h
    split at h
    · exact ⟨_, .inr rfl, h⟩
    · exact ⟨_, .inl rfl, h⟩
  · rintro ⟨digits, hs, hne, hdigits, hvalue⟩
    rcases hs with rfl | rfl
    · split
      · exact absurd (hdigits '+' List.mem_cons_self) (by decide)
      · exact ⟨hne, hdigits, hvalue⟩
    · exact ⟨hne, hdigits, hvalue⟩

theorem read?_eq_some_iff {s : List Char} {xs : List UInt8} :
    read? s = some xs ↔ Denotes s ⟨xs⟩ := by
  simp only [Denotes, Text.isPadded_iff, wraps_iff, ← Text.pieces_eq_iff, ← byte?_eq_some_iff,
    exists_eq_left', exists_and_left, read?, mapM_eq_some]

theorem parse_eq_ok_iff {s : String} {t : Multidegree} : parse s = .ok t ↔ Denotes s.toList t := by
  rw [← read?_eq_some_iff, parse]
  split <;> rename_i h
  · rw [h, Except.ok.injEq, Option.some_inj]
    exact ⟨fun ht => ht ▸ rfl, fun ht => ht ▸ rfl⟩
  · rw [h]
    exact iff_of_false nofun nofun

theorem parse_eq_error_iff {s : String} {e : MultidegreeError} :
    parse s = .error e ↔ e = .unreadable s ∧ ∀ t, ¬ Denotes s.toList t := by
  simp only [← parse_eq_ok_iff]
  rw [parse]
  split
  · simp
  · simp [eq_comm]

/-! ## Written forms -/

theorem isPadded_of_digits {digits : List Char} (h : ∀ d ∈ digits, d.isDigit = true) :
    Text.IsPadded digits digits :=
  have hblank : ∀ d ∈ digits, Text.isBlank d = false := fun d hd =>
    Combination.Parser.isBlank_eq_false_of_isDigit (h d hd)
  Text.isPadded_iff.2 (Text.trim_eq_self (fun d hd => hblank d (List.mem_of_mem_head? hd))
    fun d hd => hblank d (List.mem_of_mem_getLast? hd))

theorem toList_text (t : Multidegree) : t.text.toList =
    '(' :: ([','].intercalate (t.components.map fun x => Nat.toDigits 10 x.toNat) ++ [')']) := by
  have hdigits : ∀ n : Nat, (toString n).toList = Nat.toDigits 10 n := fun n =>
    String.toList_ofList
  simp only [text, String.toList_append, String.toList_intercalate, List.map_map,
    Function.comp_def, hdigits]
  rfl

/-- A multidegree is what its written form denotes. -/
theorem denotes_text {t : Multidegree} (h : 0 < t.generators) : Denotes t.text.toList t := by
  have hdigits : ∀ n : Nat, ∀ d ∈ Nat.toDigits 10 n, d.isDigit = true := fun n d hd =>
    Nat.isDigit_of_mem_toDigits (by decide) (by decide) hd
  rw [toList_text]
  refine ⟨_, _, _, Text.isPadded_iff.2 (Text.trim_eq_self ?_ ?_), .parentheses _, ⟨?_, ?_, rfl⟩,
    List.forall₂_map_left_iff.2 (List.forall₂_same.2 fun x _ => ?_)⟩
  · rintro c ⟨⟩
    rfl
  · intro c hc
    rw [← List.cons_append, List.getLast?_concat] at hc
    cases hc
    rfl
  · rw [ne_eq, List.map_eq_nil_iff]
    exact List.ne_nil_of_length_pos h
  · refine List.forall_mem_map.2 fun x _ hcomma => ?_
    exact absurd (hdigits x.toNat ',' hcomma) (by decide)
  · exact ⟨_, isPadded_of_digits (hdigits x.toNat), _, .inl rfl, Nat.toDigits_ne_nil,
      hdigits x.toNat, Nat.ofDigitChars_ten_toDigits⟩

/-- Every multidegree with a generator is read back from its written form, and every text is read as
the multidegree that it denotes; if it denotes none, the error holds the text as it is. -/
theorem parse_exact :
    (∀ t : Multidegree, 0 < t.generators → parse t.text = .ok t) ∧
    ∀ s : String, (∀ t, parse s = .ok t ↔ Denotes s.toList t) ∧
      ∀ e, parse s = .error e ↔ e = .unreadable s ∧ ∀ t, ¬ Denotes s.toList t :=
  ⟨fun _ h => parse_eq_ok_iff.2 (denotes_text h), fun _ =>
    ⟨fun _ => parse_eq_ok_iff, fun _ => parse_eq_error_iff⟩⟩

/-- A multidegree with three generators is read back from its written form. -/
theorem parse_exact_three : 0 < (⟨[3, 2, 255]⟩ : Multidegree).generators ∧
    parse "(3,2,255)" = .ok ⟨[3, 2, 255]⟩ :=
  ⟨by decide, parse_exact.1 ⟨[3, 2, 255]⟩ (by decide)⟩

example : parse " ( +3 ,02,255\u2003)" = .ok ⟨[3, 2, 255]⟩ := by rfl

example : parse "((1))" = .error (.unreadable "((1))") := by rfl

end Multidegree

end Nonassoc
