import Mathlib.Data.List.DropRight
import Nonassoc.Command.Report
import Nonassoc.Proofs.WrittenForm

/-!
# Identities as lines

Cutting a text at its separators gives back the pieces that it was joined from
(`Text.pieces_intercalate`), and blank characters around a text do not change what it is read as
(`Identity.parse_trim_eq_ok_iff`). So the identities in a text of lines are those of its lines, one by
one, without the blank lines and the comments: `Command.readIdentities_identityLines`.
-/

namespace Nonassoc

/-! ## Pieces -/

namespace Text

theorem pieces_of_not_mem {separator : Char} {l : List Char} (h : separator ∉ l) :
    pieces separator l = [l] := by
  induction l with
  | nil => rfl
  | cons c l ih =>
    obtain ⟨hc, hl⟩ := not_or.1 (mt List.mem_cons.2 h)
    have hcons : pieces separator (c :: l) = addToPieces separator c (pieces separator l) := rfl
    rw [hcons, ih hl, addToPieces, if_neg (Ne.symm hc)]

/-- A text is cut at its first separator. -/
theorem pieces_append_cons {separator : Char} {l : List Char} (h : separator ∉ l)
    (rest : List Char) : pieces separator (l ++ separator :: rest) = l :: pieces separator rest := by
  induction l with
  | nil => exact if_pos rfl
  | cons c l ih =>
    obtain ⟨hc, hl⟩ := not_or.1 (mt List.mem_cons.2 h)
    have hcons : pieces separator (c :: l ++ separator :: rest) =
      addToPieces separator c (pieces separator (l ++ separator :: rest)) := rfl
    rw [hcons, ih hl, addToPieces, if_neg (Ne.symm hc)]

/-- The pieces of a joined text are those that were joined; a separator at the end begins an empty
one. -/
theorem pieces_intercalate {separator : Char} {ls : List (List Char)} (hne : ls ≠ [])
    (h : ∀ l ∈ ls, separator ∉ l) :
    pieces separator ([separator].intercalate ls) = ls ∧
      pieces separator ([separator].intercalate ls ++ [separator]) = ls ++ [[]] := by
  induction ls with
  | nil => exact absurd rfl hne
  | cons l ls ih =>
    have hl := h l List.mem_cons_self
    cases ls with
    | nil =>
      rw [List.intercalate_singleton, pieces_append_cons hl]
      exact ⟨pieces_of_not_mem hl, rfl⟩
    | cons l' ls =>
      obtain ⟨hjoined, hended⟩ := ih (List.cons_ne_nil _ _) fun x hx => h x (List.mem_cons_of_mem _ hx)
      simp only [List.intercalate_cons_cons, List.append_assoc, List.cons_append, List.nil_append,
        pieces_append_cons hl]
      exact ⟨congrArg _ hjoined, congrArg _ hended⟩

/-! ## Blank ends -/

theorem trim_eq (l : List Char) : trim l = (l.dropWhile isBlank).rdropWhile isBlank := rfl

/-- What is trimmed away is blank. -/
theorem exists_append_trim (l : List Char) : ∃ before after, l = before ++ (trim l ++ after) ∧
    (∀ c ∈ before, isBlank c = true) ∧ ∀ c ∈ after, isBlank c = true := by
  refine ⟨l.takeWhile isBlank, (l.dropWhile isBlank).rtakeWhile isBlank, ?_,
    fun c hc => List.mem_takeWhile_imp hc, fun c hc => List.mem_rtakeWhile_imp hc⟩
  rw [trim_eq, List.rdropWhile_append_rtakeWhile, List.takeWhile_append_dropWhile]

theorem trim_concat {c : Char} (h : isBlank c = true) (l : List Char) : trim (l ++ [c]) = trim l := by
  rw [trim_eq, trim_eq, List.dropWhile_append]
  split
  · rename_i hl
    rw [List.isEmpty_iff.1 hl, List.dropWhile_cons_of_pos h]
    rfl
  · rw [List.rdropWhile_concat_pos _ _ _ h]

end Text

/-! ## Lexemes -/

namespace Combination.Parser

theorem lex_append_left {l : List Char} (h : ∀ c ∈ l, Text.isBlank c = true) (r : List Char) :
    lex (l ++ r) = lex r := by
  induction l with
  | nil => rfl
  | cons c l ih =>
    rw [List.cons_append, lex_of_isBlank (h c List.mem_cons_self)]
    exact ih fun x hx => h x (List.mem_cons_of_mem _ hx)

theorem lex_append_of_isBlank (l : List Char) {r : List Char} (h : ∀ c ∈ r, Text.isBlank c = true) :
    lex (l ++ r) = lex l := by
  have hdigit : ∀ c ∈ r.head?, c.isDigit = false := fun c hc =>
    Bool.eq_false_iff.2 fun hc' => by
      cases (h c (List.mem_of_head? hc)).symm.trans (isBlank_eq_false_of_isDigit hc')
  have hblank := lex_append_left h []
  rw [List.append_nil, lex_nil] at hblank
  rw [lex_append l hdigit, hblank, List.append_nil]

/-- Blank ends have no lexemes. -/
theorem lex_trim (l : List Char) : lex (Text.trim l) = lex l := by
  obtain ⟨before, after, hl, hbefore, hafter⟩ := Text.exists_append_trim l
  conv_rhs => rw [hl, lex_append_left hbefore, lex_append_of_isBlank _ hafter]

/-- Texts with the same lexemes are read as the same combination. -/
theorem parse_eq_ok_of_lex {text text' : String} (h : lex text.toList = lex text'.toList)
    {p : Combination} (hp : parse text = .ok p) : parse text' = .ok p := by
  obtain ⟨φ, hφ⟩ := exists_phrase_of_parse hp
  have hvalue := value?_of_parse hp hφ
  rcases parse_of_phrase (h.symm.trans hφ) with ⟨hnone, -⟩ | ⟨p', hp', hparse⟩
  · cases hnone.symm.trans hvalue
  · rw [hparse, Option.some.inj (hp'.symm.trans hvalue)]

end Combination.Parser

/-! ## Identities -/

open Combination.Parser (lex lex_trim parse_eq_ok_of_lex)

theorem Identity.parse_eq_ok_iff {text : String} {e : Identity} :
    parse text = .ok e ↔ ∃ p, Combination.parse text = .ok p ∧ ofWords p = .ok e := by
  unfold parse
  split
  · rename_i h
    simp [h]
  · rename_i p h
    split <;> rename_i h' <;> simp [h, h']

/-- Blank ends do not change what a text is read as. -/
theorem Identity.parse_trim_eq_ok_iff {text : String} {e : Identity} :
    parse (String.ofList (Text.trim text.toList)) = .ok e ↔ parse text = .ok e := by
  have h : lex (String.ofList (Text.trim text.toList)).toList = lex text.toList := by
    rw [String.toList_ofList, lex_trim]
  simp only [parse_eq_ok_iff]
  exact exists_congr fun p => and_congr_left fun _ =>
    ⟨parse_eq_ok_of_lex h, parse_eq_ok_of_lex h.symm⟩

namespace Command

/-- A line as it is without the blank characters at its ends. -/
def trimmed (line : String) : String := String.ofList (Text.trim line.toList)

/-- Whether a line holds an identity. -/
def isIdentityLine (line : String) : Bool := holdsIdentity (Text.trim line.toList)

/-- The text consists of the given lines, the last of which may be ended by a line feed or not. -/
structure HasLines (text : String) (ls : List String) : Prop where
  ne_nil : ls ≠ []
  newline : ∀ l ∈ ls, '\n' ∉ l.toList
  joined : text = String.intercalate "\n" ls ∨ text = String.intercalate "\n" ls ++ "\n"

/-- The pieces between line feeds, where a carriage return at the end of a line is trimmed away
anyway. -/
theorem identityLines_eq (text : String) :
    identityLines text =
      (((Text.pieces '\n' text.toList).map Text.trim).filter holdsIdentity).map String.ofList := by
  unfold identityLines lines
  rw [List.map_map]
  congr 2
  refine List.map_congr_left fun line _ => ?_
  simp only [Function.comp_apply]
  split
  · rename_i h
    conv_rhs => rw [← List.dropLast_append_getLast? _ h, Text.trim_concat rfl]
  · rfl

theorem identityLines_of_hasLines {text : String} {ls : List String} (h : HasLines text ls) :
    identityLines text = (ls.filter isIdentityLine).map trimmed := by
  have hne : ls.map String.toList ≠ [] := fun hnil => h.ne_nil (List.map_eq_nil_iff.1 hnil)
  obtain ⟨hjoined, hended⟩ := Text.pieces_intercalate hne (List.forall_mem_map.2 h.newline)
  have hls : ((ls.map String.toList).map Text.trim).filter holdsIdentity =
      (ls.filter isIdentityLine).map (Text.trim ∘ String.toList) := by
    rw [List.map_map, List.filter_map]
    rfl
  have htoList : (String.intercalate "\n" ls).toList = ['\n'].intercalate (ls.map String.toList) :=
    String.toList_intercalate
  rw [identityLines_eq]
  rcases h.joined with rfl | rfl
  · rw [htoList, hjoined, hls, List.map_map]
    rfl
  · -- what follows the last line feed is an empty line, which holds no identity
    rw [String.toList_append, htoList]
    have hlast : (([[]] : List (List Char)).map Text.trim).filter holdsIdentity = [] := rfl
    rw [show "\n".toList = ['\n'] from rfl, hended, List.map_append, List.filter_append, hlast,
      List.append_nil, hls, List.map_map]
    rfl

theorem readIdentities_eq_ok_iff {texts : List String} {identities : List Identity} :
    readIdentities texts = .ok identities ↔
      List.Forall₂ (fun text e => Identity.parse text = .ok e) texts identities := by
  simp only [readIdentities, mapM_eq_ok, mapError_eq_ok]

/-- The identities in a text of lines are read as if its lines were given one by one, without the blank
lines and the comments. -/
theorem readIdentities_identityLines {text : String} {ls : List String} (h : HasLines text ls)
    {identities : List Identity} :
    readIdentities (identityLines text) = .ok identities ↔
      readIdentities (ls.filter isIdentityLine) = .ok identities := by
  rw [identityLines_of_hasLines h]
  simp only [readIdentities_eq_ok_iff, List.forall₂_map_left_iff]
  simp only [trimmed, Identity.parse_trim_eq_ok_iff]

end Command

end Nonassoc
