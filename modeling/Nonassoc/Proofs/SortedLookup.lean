import Mathlib.Order.Lattice

/-!
# Association lists with ascending keys

Look-ups in a list whose keys ascend: a key before the first one is not there
(`lookup_eq_none_of_lt`), and an entry is found under its key (`lookup_of_mem`).
-/

namespace Nonassoc

variable {κ α : Type} [LinearOrder κ]

theorem lookup_eq_none_of_lt {k : κ} {l : List (κ × α)} (h : ∀ x ∈ l, k < x.1) :
    l.lookup k = none := by
  rw [List.lookup_eq_none_iff]
  intro x hx
  simpa using (h x hx).ne

theorem lookup_of_mem {l : List (κ × α)} (h : l.Pairwise fun x y => x.1 < y.1) {k : κ} {a : α}
    (hm : (k, a) ∈ l) : l.lookup k = some a := by
  induction l with
  | nil => cases hm
  | cons c l ih =>
    obtain ⟨c, b⟩ := c
    obtain ⟨hc, hl⟩ := List.pairwise_cons.1 h
    rcases List.mem_cons.1 hm with heq | hm
    · cases heq
      exact List.lookup_cons_self
    · have hne : (k == c) = false := by simpa using (hc _ hm).ne'
      rw [List.lookup_cons, hne]
      exact ih hl hm

theorem mem_of_lookup {l : List (κ × α)} {k : κ} {a : α} (h : l.lookup k = some a) :
    (k, a) ∈ l := by
  obtain ⟨before, after, rfl, -⟩ := List.lookup_eq_some_iff.1 h
  exact List.mem_append_right _ List.mem_cons_self

end Nonassoc
