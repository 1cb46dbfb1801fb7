/-!
# Pieces of a text

`pieces` cuts a text at every separator. There is always a piece, and joining the pieces with the
separator gives the text back (`intercalate_pieces`).
-/

namespace Nonassoc.Text

/-- Puts a character in front of the first piece, or begins a piece before it at a separator. -/
def addToPieces (separator c : Char) (found : List (List Char)) : List (List Char) :=
  if c = separator then [] :: found
  else
    match found with
    | [] => [[c]]
    | piece :: more => (c :: piece) :: more

/-- The pieces of a text between separators. -/
def pieces (separator : Char) (s : List Char) : List (List Char) :=
  s.foldr (addToPieces separator) [[]]

theorem pieces_ne_nil (separator : Char) (s : List Char) : pieces separator s ≠ [] := by
  cases s with
  | nil => simp [pieces]
  | cons c s =>
    simp only [pieces, List.foldr_cons, addToPieces]
    split
    · simp
    · split <;> simp

/-- The separators are all that is lost. -/
theorem intercalate_pieces (separator : Char) (s : List Char) :
    [separator].intercalate (pieces separator s) = s := by
  induction s with
  | nil => rfl
  | cons c s ih =>
    have hne := pieces_ne_nil separator s
    have hcons : pieces separator (c :: s) = addToPieces separator c (pieces separator s) := rfl
    rw [hcons]
    cases hp : pieces separator s with
    | nil => exact absurd hp hne
    | cons piece more =>
      rw [hp] at ih
      unfold addToPieces
      split
      · rename_i h
        rw [List.intercalate_cons_cons, ih, h]
        rfl
      · cases more with
        | nil => simpa using ih
        | cons p ps =>
          rw [List.intercalate_cons_cons] at ih ⊢
          rw [← ih]
          rfl

end Nonassoc.Text
