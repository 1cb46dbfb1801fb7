import Mathlib.Algebra.Group.Nat.Defs
import Mathlib.Data.List.Forall2
import Mathlib.Data.List.GetD
import Mathlib.Data.List.Nodup

/-!
# Choices

`choices ls` lists the ways to choose an item from each list of `ls`, the last choice varying
fastest: each way (`mem_choices`), and each once if no list repeats an item (`nodup_choices`). If the
items are lists that come in lexicographic order, then so do the choices (`pairwise_choices`).
-/

namespace Nonassoc

/-- A list that is put together from parts has no repetition if none of the parts has one and no
item comes from two parts. -/
theorem nodup_flatMap_of_inj {α β : Type} {l : List α} {f : α → List β} (hl : l.Nodup)
    (hf : ∀ a ∈ l, (f a).Nodup) (h : ∀ a ∈ l, ∀ a' ∈ l, ∀ b, b ∈ f a → b ∈ f a' → a = a') :
    (l.flatMap f).Nodup :=
  List.nodup_flatMap.2 ⟨hf, hl.imp_of_mem fun {a a'} ha ha' hne b hb hb' =>
    hne (h a ha a' ha' b hb hb')⟩

/-- An item may tell the part that it comes from. -/
theorem nodup_flatMap_of_key {α β : Type} {l : List α} {f : α → List β} (key : β → α)
    (hl : l.Nodup) (hf : ∀ a ∈ l, (f a).Nodup) (hk : ∀ a ∈ l, ∀ b ∈ f a, key b = a) :
    (l.flatMap f).Nodup :=
  nodup_flatMap_of_inj hl hf fun a ha a' ha' b hb hb' =>
    (hk a ha b hb).symm.trans (hk a' ha' b hb')

theorem lt_length_of_lt_getD {l : List Nat} {v k : Nat} (h : k < l.getD v 0) : v < l.length := by
  by_contra hle
  rw [List.getD_eq_default _ _ (Nat.not_lt.1 hle)] at h
  exact absurd h (Nat.not_lt_zero k)

theorem mem_range'_sub {first past i : Nat} :
    i ∈ List.range' first (past - first) ↔ first ≤ i ∧ i < past := by
  rw [List.mem_range'_1]
  omega

variable {α β : Type}

theorem forall₂_eq_map_iff {f : α → β} {l : List α} {m : List β} :
    List.Forall₂ (fun a b => b = f a) l m ↔ m = l.map f := by
  rw [eq_comm, ← List.forall₂_eq_eq_eq, List.forall₂_map_left_iff]
  simp only [eq_comm]

/-- The ways to choose an item from each list. -/
def choices : List (List α) → List (List α)
  | [] => [[]]
  | l :: ls => l.flatMap fun a => (choices ls).map (a :: ·)

theorem mem_choices {ls : List (List α)} {r : List α} :
    r ∈ choices ls ↔ List.Forall₂ (· ∈ ·) r ls := by
  induction ls generalizing r with
  | nil => simp [choices]
  | cons l ls ih =>
    simp only [choices, List.mem_flatMap, List.mem_map, ih, List.forall₂_cons_right_iff]
    refine ⟨fun h => ?_, fun h => ?_⟩
    · obtain ⟨a, ha, r, hr, rfl⟩ := h
      exact ⟨a, r, ha, hr, rfl⟩
    · obtain ⟨a, r, ha, hr, rfl⟩ := h
      exact ⟨a, ha, r, hr, rfl⟩

theorem nodup_choices {ls : List (List α)} (h : ∀ l ∈ ls, l.Nodup) : (choices ls).Nodup := by
  induction ls with
  | nil => exact List.nodup_singleton _
  | cons l ls ih =>
    rw [List.forall_mem_cons] at h
    refine List.nodup_flatMap.2 ⟨fun a _ => (ih h.2).map List.cons_injective, ?_⟩
    refine h.1.imp fun {a a'} hne r hr hr' => ?_
    obtain ⟨s, -, rfl⟩ := List.mem_map.1 hr
    obtain ⟨s', -, he⟩ := List.mem_map.1 hr'
    exact hne (List.cons.inj he).1.symm

theorem flatMap_filter (p : α → Bool) (f : α → List β) (l : List α) :
    (l.filter p).flatMap f = l.flatMap fun a => if p a then f a else [] := by
  induction l with
  | nil => rfl
  | cons a l ih =>
    rw [List.filter_cons, List.flatMap_cons, ← ih]
    split <;> rfl

/-- The choices from what a filter leaves are those that it leaves item by item. -/
theorem choices_map_filter (p : α → Bool) (f : β → List α) (l : List β) :
    choices (l.map fun b => (f b).filter p) = (choices (l.map f)).filter (·.all p) := by
  induction l with
  | nil => rfl
  | cons b l ih =>
    simp only [List.map_cons, choices, ih, List.filter_flatMap, List.filter_map, flatMap_filter]
    refine List.flatMap_congr fun a _ => ?_
    by_cases ha : p a = true
    · simp [Function.comp_def, ha]
    · simp [Function.comp_def, ha]

/-- What follows lists of one length does not change their order. -/
theorem append_lt_append {a b : List Nat} (h : a < b) (hlen : a.length = b.length) (c d : List Nat) :
    a ++ c < b ++ d := by
  induction a generalizing b with
  | nil =>
    obtain rfl := List.length_eq_zero_iff.1 hlen.symm
    exact absurd h (List.not_lt_nil [])
  | cons x a ih =>
    cases b with
    | nil => cases hlen
    | cons y b =>
      rw [List.cons_append, List.cons_append]
      rw [List.cons_lt_cons_iff] at h ⊢
      exact h.imp_right fun ⟨hxy, hab⟩ => ⟨hxy, ih hab (Nat.succ.inj hlen)⟩

theorem pairwise_choices {ls : List (List (List Nat))}
    (h : ∀ l ∈ ls, l.Pairwise (· < ·) ∧ ∃ k, ∀ xs ∈ l, xs.length = k) :
    (choices ls).Pairwise fun p q => p.flatten < q.flatten := by
  induction ls with
  | nil => exact List.pairwise_singleton _ _
  | cons l ls ih =>
    obtain ⟨⟨hl, k, hk⟩, hls⟩ := List.forall_mem_cons.1 h
    rw [choices, List.pairwise_flatMap]
    refine ⟨fun xs _ => ?_, ?_⟩
    · refine List.pairwise_map.2 ((ih hls).imp fun hlt => ?_)
      rw [List.flatten_cons, List.flatten_cons]
      exact List.append_left_lt hlt
    · refine hl.imp_of_mem fun {xs ys} hxs hys hlt => ?_
      intro p hp q hq
      obtain ⟨p, -, rfl⟩ := List.mem_map.1 hp
      obtain ⟨q, -, rfl⟩ := List.mem_map.1 hq
      rw [List.flatten_cons, List.flatten_cons]
      exact append_lt_append hlt ((hk xs hxs).trans (hk ys hys).symm) _ _

/-- Lists that are put behind increasing first entries come in lexicographic order if those behind
the same entry do. -/
theorem pairwise_flatMap_cons {l : List β} {first : β → Nat} {f : β → List (List Nat)}
    (hl : l.Pairwise fun a b => first a < first b) (hf : ∀ a ∈ l, (f a).Pairwise (· < ·)) :
    (l.flatMap fun a => (f a).map (first a :: ·)).Pairwise (· < ·) := by
  rw [List.pairwise_flatMap]
  refine ⟨fun a ha => ?_, hl.imp fun {a b} hlt p hp q hq => ?_⟩
  · exact List.pairwise_map.2 ((hf a ha).imp fun hlt => List.cons_lt_cons_iff.2 (.inr ⟨rfl, hlt⟩))
  · obtain ⟨p, -, rfl⟩ := List.mem_map.1 hp
    obtain ⟨q, -, rfl⟩ := List.mem_map.1 hq
    exact List.cons_lt_cons_iff.2 (.inl hlt)

/-- Choices of numbers come in lexicographic order if the numbers ascend. -/
theorem pairwise_lt_choices {ls : List (List Nat)} (h : ∀ l ∈ ls, l.Pairwise (· < ·)) :
    (choices ls).Pairwise (· < ·) := by
  induction ls with
  | nil => exact List.pairwise_singleton _ _
  | cons l ls ih =>
    obtain ⟨hl, hls⟩ := List.forall_mem_cons.1 h
    exact pairwise_flatMap_cons hl fun _ _ => ih hls

/-- The first choice takes the first item everywhere. -/
theorem head?_choices {ls : List (List α)} {r : List α}
    (h : List.Forall₂ (fun l a => l.head? = some a) ls r) : (choices ls).head? = some r := by
  induction h with
  | nil => rfl
  | @cons l a ls r ha _ ih =>
    obtain ⟨l, rfl⟩ := List.head?_eq_some_iff.1 ha
    rw [choices, List.flatMap_cons, List.head?_append, List.head?_map, ih]
    rfl

theorem length_choices (ls : List (List α)) : (choices ls).length = (ls.map List.length).prod := by
  induction ls with
  | nil => rfl
  | cons l ls ih => simp [choices, ih]

theorem mem_choices_map {l : List β} {f : β → List α} {r : List α} :
    r ∈ choices (l.map f) ↔ List.Forall₂ (fun a b => a ∈ f b) r l := by
  rw [mem_choices, List.forall₂_map_right_iff]

end Nonassoc
