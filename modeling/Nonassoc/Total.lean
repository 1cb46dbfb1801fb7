/-!
# Totals

`total` adds up a list of numbers. It goes along with joining lists (`total_append`), and no entry is
above it (`le_total`).
-/

namespace Nonassoc

/-- The sum of a list of numbers. -/
def total : List Nat → Nat
  | [] => 0
  | n :: rest => n + total rest

@[simp] theorem total_nil : total [] = 0 := rfl
@[simp] theorem total_cons (n : Nat) (l : List Nat) : total (n :: l) = n + total l := rfl

theorem total_append (l m : List Nat) : total (l ++ m) = total l + total m := by
  induction l with
  | nil => simp
  | cons n l ih => simp only [List.cons_append, total_cons, ih, Nat.add_assoc]

theorem le_total {n : Nat} {l : List Nat} (h : n ∈ l) : n ≤ total l := by
  induction l with
  | nil => cases h
  | cons m l ih =>
    rcases List.mem_cons.1 h with rfl | h
    · exact Nat.le_add_right ..
    · exact Nat.le_trans (ih h) (Nat.le_add_left ..)

end Nonassoc
