/-!
# Cancellation tokens

A search polls a token as it goes, and stops when it is refused. A token refuses once it has been
cancelled, or once its budget of polls is used up; a refusal for lack of budget cancels it. Main
definition: `Token.poll`.
-/

namespace Nonassoc

/-- Whether the token was cancelled, and how many more polls it grants, if that is limited. -/
structure Token where
  cancelled : Bool
  budget : Option Nat
  deriving DecidableEq

namespace Token

/-- A token that grants any number of polls. -/
def unlimited : Token := ⟨false, none⟩

/-- A token that grants the given number of polls, any number if none is given. -/
def ofBudget (budget : Option Nat) : Token := ⟨false, budget⟩

/-- Makes the token refuse all later polls. -/
def cancel (t : Token) : Token := { t with cancelled := true }

/-- Whether the poll is granted, and the token after it. -/
def poll (t : Token) : Bool × Token :=
  if t.cancelled then (false, t)
  else
    match t.budget with
    | none => (true, t)
    | some 0 => (false, t.cancel)
    | some (k + 1) => (true, { t with budget := some k })

theorem poll_of_cancelled {t : Token} (h : t.cancelled = true) : t.poll = (false, t) := by
  simp [poll, h]

/-- A refusal leaves the token cancelled. -/
theorem cancelled_of_poll {t s : Token} (h : t.poll = (false, s)) : s.cancelled = true := by
  unfold poll at h
  split at h
  · cases h
    assumption
  · split at h <;> cases h
    rfl

end Token

end Nonassoc
