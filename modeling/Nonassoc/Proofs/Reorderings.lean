import Mathlib.Data.List.Range
import Nonassoc.Proofs.Choices
import Nonassoc.Proofs.Counts
import Nonassoc.Proofs.Failures

/-!
# Other orders of the variables

`permute order l` lists the entries of `l` in another order, given by their places. An identity
whose variables are numbered in another order (`Identity.IsReordered`) has the same splits,
partitions, substitutions and matchings, up to that order of their rows and up to the order in which
they are found, and it has the same value at each. So a run for it finds the same up to the order of
the equations and of their pairs (`generate_reordered`).
-/

namespace Nonassoc

open Multidegree (Name)
open Search (Partition Substitution splits partitions substitutions reached)

variable {α β : Type}

/-! ## Lists in another order -/

/-- The entries at the given places. -/
def permute (order : List Nat) (l : List α) : List α := order.filterMap (l[·]?)

theorem permute_map (order : List Nat) (f : α → β) (l : List α) :
    permute order (l.map f) = (permute order l).map f := by
  simp only [permute, List.getElem?_map, List.map_filterMap]

theorem permute_zip (order : List Nat) {l : List α} {l' : List β} (h : l.length = l'.length) :
    permute order (l.zip l') = (permute order l).zip (permute order l') := by
  induction order with
  | nil => rfl
  | cons i order ih =>
    simp only [permute, List.filterMap_cons] at ih ⊢
    by_cases hi : i < l.length
    · have hi' : i < l'.length := h ▸ hi
      have hz : i < (l.zip l').length := by simp [hi, hi']
      simp only [List.getElem?_eq_getElem hi, List.getElem?_eq_getElem hi',
        List.getElem?_eq_getElem hz, List.getElem_zip, ih, List.zip_cons_cons]
    · have hi' : l'.length ≤ i := h ▸ Nat.not_lt.1 hi
      have hz : (l.zip l').length ≤ i := by simp [hi', Nat.not_lt.1 hi]
      simp only [List.getElem?_eq_none (Nat.not_lt.1 hi), List.getElem?_eq_none hi',
        List.getElem?_eq_none hz, ih]

theorem forall₂_permute {R : α → β → Prop} {l : List α} {l' : List β} (h : List.Forall₂ R l l')
    (order : List Nat) : List.Forall₂ R (permute order l) (permute order l') := by
  induction order with
  | nil => exact .nil
  | cons i order ih =>
    simp only [permute, List.filterMap_cons] at ih ⊢
    by_cases hi : i < l.length
    · have hi' : i < l'.length := h.length_eq ▸ hi
      simp only [List.getElem?_eq_getElem hi, List.getElem?_eq_getElem hi']
      exact .cons (h.get hi hi') ih
    · have hi' : l'.length ≤ i := h.length_eq ▸ Nat.not_lt.1 hi
      simp only [List.getElem?_eq_none (Nat.not_lt.1 hi), List.getElem?_eq_none hi']
      exact ih

theorem permute_range (l : List α) : permute (List.range l.length) l = l := by
  induction l with
  | nil => rfl
  | cons a l ih =>
    rw [permute, List.length_cons, List.range_succ_eq_map, List.filterMap_cons, List.filterMap_map]
    exact congrArg (a :: ·) ih

/-- Where an entry has gone. -/
theorem getElem?_permute_of_mem {order : List Nat} {l : List α} (h : ∀ i ∈ order, i < l.length)
    {v : Nat} (hv : v ∈ order) : (permute order l)[order.idxOf v]? = l[v]? := by
  induction order with
  | nil => cases hv
  | cons i order ih =>
    obtain ⟨hi, h⟩ := List.forall_mem_cons.1 h
    rw [permute, List.filterMap_cons, List.getElem?_eq_getElem hi]
    by_cases hiv : i = v
    · subst hiv
      rw [List.idxOf_cons_self, List.getElem?_cons_zero, List.getElem?_eq_getElem hi]
    · rw [List.idxOf_cons_ne _ hiv, List.getElem?_cons_succ]
      exact ih h ((List.mem_cons.1 hv).resolve_left (Ne.symm hiv))

theorem map_idxOf_self [DecidableEq α] {l : List α} (h : l.Nodup) :
    l.map l.idxOf = List.range l.length := by
  refine List.ext_getElem (by simp) fun i hi _ => ?_
  rw [List.getElem_map, List.getElem_range, h.idxOf_getElem i (by simpa using hi)]

/-- A list without repetitions has its entries in any other order at some places. -/
theorem exists_permute_of_perm [DecidableEq α] {l l' : List α} (hl : l.Nodup) (h : l'.Perm l) :
    ∃ order, order.Perm (List.range l.length) ∧ l' = permute order l := by
  refine ⟨l'.map l.idxOf, map_idxOf_self hl ▸ h.map l.idxOf, ?_⟩
  rw [permute, List.filterMap_map]
  have hget : ∀ x ∈ l', ((l[·]?) ∘ l.idxOf) x = some x := fun x hx =>
    List.getElem?_idxOf (h.subset hx)
  rw [List.filterMap_congr hget, List.filterMap_some]

section
variable {n : Nat} {order : List Nat} (ho : order.Perm (List.range n))
include ho

theorem nodup_of_perm_range : order.Nodup := ho.nodup_iff.2 List.nodup_range

theorem mem_iff_of_perm_range {i : Nat} : i ∈ order ↔ i < n := by
  rw [ho.mem_iff, List.mem_range]

theorem length_of_perm_range : order.length = n := ho.length_eq.trans List.length_range

theorem permute_perm {l : List α} (hl : l.length = n) : (permute order l).Perm l := by
  subst hl
  have h := ho.filterMap (l[·]?)
  rwa [← permute, ← permute, permute_range] at h

theorem length_permute {l : List α} (hl : l.length = n) : (permute order l).length = n :=
  (permute_perm ho hl).length_eq.trans hl

theorem permute_ne_nil {l : List α} (hl : l.length = n) (hne : l ≠ []) : permute order l ≠ [] := by
  intro hnil
  have hperm := permute_perm ho hl
  rw [hnil, List.nil_perm] at hperm
  exact hne hperm

/-- Where the entry at a place has gone; there is none beyond the end. -/
theorem getElem?_permute {l : List α} (hl : l.length = n) (v : Nat) :
    (permute order l)[order.idxOf v]? = l[v]? := by
  subst hl
  by_cases hv : v ∈ order
  · exact getElem?_permute_of_mem (fun i hi => (mem_iff_of_perm_range ho).1 hi) hv
  · rw [List.idxOf_eq_length hv, length_of_perm_range ho,
      List.getElem?_eq_none (length_permute ho rfl).le,
      List.getElem?_eq_none (Nat.not_lt.1 (mt (mem_iff_of_perm_range ho).2 hv))]

/-- A list in another order is known by where the entries have gone. -/
theorem eq_permute {l l' : List α} (hl : l.length = n) (hl' : l'.length = n)
    (h : ∀ v, l'[order.idxOf v]? = l[v]?) : l' = permute order l := by
  refine List.ext_getElem? fun i => ?_
  by_cases hi : i < order.length
  · have hidx := (nodup_of_perm_range ho).idxOf_getElem i hi
    rw [← hidx, h, getElem?_permute ho hl]
  · have hle : n ≤ i := length_of_perm_range ho ▸ Nat.not_lt.1 hi
    rw [List.getElem?_eq_none (hl'.trans_le hle),
      List.getElem?_eq_none ((length_permute ho hl).trans_le hle)]

theorem modify_permute {l : List α} (hl : l.length = n) {v : Nat} (hv : v < n) (f : α → α) :
    (permute order l).modify (order.idxOf v) f = permute order (l.modify v f) := by
  have hlength := length_permute ho hl
  refine eq_permute ho (by simpa using hl) (by simpa using hlength) fun u => ?_
  have hidx : order.idxOf v = order.idxOf u ↔ v = u :=
    List.idxOf_inj ((mem_iff_of_perm_range ho).2 hv)
  simp only [List.getElem?_modify, getElem?_permute ho hl, hidx]

theorem idxOf_permute [DecidableEq α] {l : List α} (hl : l.length = n) (hnodup : l.Nodup) {x : α}
    (hx : x ∈ l) : (permute order l).idxOf x = order.idxOf (l.idxOf x) := by
  have hget := getElem?_permute ho hl (l.idxOf x)
  rw [List.getElem?_idxOf hx] at hget
  obtain ⟨hlt, hget⟩ := List.getElem?_eq_some_iff.1 hget
  have h := ((permute_perm ho hl).nodup_iff.2 hnodup).idxOf_getElem _ hlt
  rwa [hget] at h

/-- The places where the entries of a list in another order were before. -/
theorem inverse_perm : ((List.range n).map order.idxOf).Perm (List.range n) := by
  have h := ho.symm.map order.idxOf
  rwa [map_idxOf_self (nodup_of_perm_range ho), length_of_perm_range ho] at h

theorem permute_inverse {l : List α} (hl : l.length = n) :
    permute ((List.range n).map order.idxOf) (permute order l) = l := by
  rw [permute, List.filterMap_map]
  have hget : ((permute order l)[·]?) ∘ order.idxOf = (l[·]?) :=
    funext fun v => getElem?_permute ho hl v
  rw [hget]
  subst hl
  exact permute_range l

/-- Lists that are each other's entries in another order. -/
theorem perm_map_permute {L L' : List (List α)} (hL : L.Nodup) (hL' : L'.Nodup)
    (hlen : ∀ l ∈ L, l.length = n) (hlen' : ∀ l ∈ L', l.length = n)
    (h : ∀ l ∈ L, permute order l ∈ L')
    (h' : ∀ l ∈ L', permute ((List.range n).map order.idxOf) l ∈ L) :
    L'.Perm (L.map (permute order)) := by
  -- both maps are injective, so neither list is longer than the other
  have hinj : ∀ {order : List Nat}, order.Perm (List.range n) → ∀ {L : List (List α)}, L.Nodup →
      (∀ l ∈ L, l.length = n) → (L.map (permute order)).Nodup := by
    intro order ho L hL hlen
    refine hL.map_on fun l hl l' hl' heq => ?_
    rw [← permute_inverse ho (hlen l hl), heq, permute_inverse ho (hlen l' hl')]
  have hsub : (L.map (permute order)).Subperm L' := by
    refine (hinj ho hL hlen).subperm fun x hx => ?_
    obtain ⟨l, hl, rfl⟩ := List.mem_map.1 hx
    exact h l hl
  have hsub' : (L'.map (permute ((List.range n).map order.idxOf))).Subperm L := by
    refine (hinj (inverse_perm ho) hL' hlen').subperm fun x hx => ?_
    obtain ⟨l, hl, rfl⟩ := List.mem_map.1 hx
    exact h' l hl
  refine (hsub.perm_of_length_le ?_).symm
  simpa using hsub'.length_le

/-- The choices from lists in another order. -/
theorem choices_permute {ls : List (List α)} (hl : ls.length = n) (hnodup : ∀ l ∈ ls, l.Nodup) :
    (choices (permute order ls)).Perm ((choices ls).map (permute order)) := by
  have hlength : ∀ {ls : List (List α)}, ls.length = n → ∀ r ∈ choices ls, r.length = n :=
    fun hl r hr => (mem_choices.1 hr).length_eq.trans hl
  refine perm_map_permute ho (nodup_choices hnodup) (nodup_choices fun l hmem => ?_) (hlength hl)
    (hlength (length_permute ho hl)) (fun r hr => ?_) fun r hr => ?_
  · exact hnodup l ((permute_perm ho hl).subset hmem)
  · exact mem_choices.2 (forall₂_permute (mem_choices.1 hr) order)
  · have h := forall₂_permute (mem_choices.1 hr) ((List.range n).map order.idxOf)
    rw [permute_inverse ho hl] at h
    exact mem_choices.2 h

end

/-- What is put together from parts in another order, each with its own items in another order. -/
theorem flatMap_perm_map {α' β' : Type} {L : List α} {L' : List α'} {g : α → α'} {f : α → List β}
    {f' : α' → List β'} {h : β → β'} (hL : L'.Perm (L.map g))
    (hf : ∀ a ∈ L, (f' (g a)).Perm ((f a).map h)) : (L'.flatMap f').Perm ((L.flatMap f).map h) := by
  rw [List.map_flatMap]
  refine (hL.flatMap_right f').trans ?_
  rw [List.flatMap_map]
  exact List.Perm.flatMap_left L hf

theorem forall₂_flatMap {R : β → β → Prop} {l : List α} {f g : α → List β}
    (h : ∀ a ∈ l, List.Forall₂ R (f a) (g a)) : List.Forall₂ R (l.flatMap f) (l.flatMap g) := by
  have hself : List.Forall₂ (fun a b => a = b ∧ a ∈ l) l l :=
    List.forall₂_same.2 fun a ha => ⟨rfl, ha⟩
  exact List.rel_flatMap hself fun a b hab => hab.1 ▸ h a hab.2

/-! ## Searches for variables in another order -/

section
variable {t : Multidegree.Table} {target : Name} {degrees : List Nat}
  (ht : t.contains target = true) (hd : degrees ≠ [])
include ht hd

theorem length_of_mem_partitions {partition : Partition}
    (h : partition ∈ (splits t target degrees).toList.flatMap fun split =>
      (partitions t split degrees).toList) : partition.length = degrees.length := by
  obtain ⟨split, hsplit, hpartition⟩ := List.mem_flatMap.1 h
  obtain ⟨hlen, hne, hn⟩ := Search.splits_spec ht hd hsplit
  have hlength := ((Search.mem_partitions hlen hne hn).1 hpartition).length_eq
  simpa [hlen] using hlength

theorem length_of_mem_reached {b : Basis} {s : Substitution} (h : s ∈ reached t b target degrees) :
    s.length = degrees.length := by
  rw [reached, ← List.flatMap_assoc] at h
  obtain ⟨partition, hpartition, hs⟩ := List.mem_flatMap.1 h
  rw [(Search.yields_substitutions partition).toList] at hs
  exact (mem_choices_map.1 hs).length_eq.trans (length_of_mem_partitions ht hd hpartition)

end

section
variable {order degrees : List Nat} (ho : order.Perm (List.range degrees.length))
include ho

theorem splits_permute {t : Multidegree.Table} {target : Name} (ht : t.contains target = true) :
    (splits t target (permute order degrees)).toList.Perm
      ((splits t target degrees).toList.map (permute order)) := by
  have hlength : ∀ {degrees : List Nat}, ∀ l ∈ (splits t target degrees).toList,
      l.length = degrees.length := by
    intro degrees l hl
    simpa using ((Search.mem_splits ht).1 hl).2.2.1.length_eq.symm
  -- a split in another order asks for the degrees in that order
  have hmem : ∀ {order degrees : List Nat}, order.Perm (List.range degrees.length) →
      ∀ l ∈ (splits t target degrees).toList,
        permute order l ∈ (splits t target (permute order degrees)).toList := by
    intro order degrees ho l hl
    have hperm := permute_perm ho (hlength l hl)
    obtain ⟨hne, hnames, hle, hsum⟩ := (Search.mem_splits ht).1 hl
    refine (Search.mem_splits ht).2 ⟨?_, fun n hn => hnames n (hperm.subset hn), ?_, ?_⟩
    · exact permute_ne_nil ho rfl hne
    · rw [← permute_map]
      exact forall₂_permute hle order
    · rw [(hperm.map t.count).sum_eq, hsum]
  refine perm_map_permute ho (Search.nodup_splits ht _) (Search.nodup_splits ht _) hlength
    (fun l hl => (hlength l hl).trans (length_permute ho rfl)) (hmem ho) fun l hl => ?_
  have hinverse := inverse_perm ho
  rw [← length_permute ho (l := degrees) rfl] at hinverse
  have h := hmem hinverse l hl
  rwa [length_permute ho rfl, permute_inverse ho rfl] at h

theorem partitions_permute {t : Multidegree.Table} {split : List Name}
    (hlen : split.length = degrees.length) (hne : split ≠ [])
    (hn : ∀ n ∈ split, t.contains n = true) :
    (partitions t (permute order split) (permute order degrees)).toList.Perm
      ((partitions t split degrees).toList.map (permute order)) := by
  have hperm := permute_perm ho hlen
  have hlen' : (permute order split).length = (permute order degrees).length :=
    (length_permute ho hlen).trans (length_permute ho rfl).symm
  have hne' := permute_ne_nil ho hlen hne
  rw [(Search.yields_partitions hlen hne hn).toList, (Search.yields_partitions hlen' hne'
    fun n hmem => hn n (hperm.subset hmem)).toList, Search.partitionLists, Search.partitionLists,
    ← permute_zip order hlen, ← permute_map]
  refine choices_permute (n := degrees.length) ho (by simp [hlen]) fun l hl => ?_
  obtain ⟨x, -, rfl⟩ := List.mem_map.1 hl
  exact Search.nodup_partLists _ _ _

theorem substitutions_permute {b : Basis} {p : Partition} (hlen : p.length = degrees.length) :
    (substitutions b (permute order p)).toList.Perm
      ((substitutions b p).toList.map (permute order)) := by
  rw [(Search.yields_substitutions p).toList, (Search.yields_substitutions _).toList,
    Search.substitutionLists, Search.substitutionLists, ← permute_map]
  refine choices_permute ho (by simp [hlen]) fun l hl => ?_
  obtain ⟨names, -, rfl⟩ := List.mem_map.1 hl
  refine nodup_choices fun l hl => ?_
  obtain ⟨n, -, rfl⟩ := List.mem_map.1 hl
  exact b.nodup_ofName n

theorem matchingLists_permute :
    (matchingLists (permute order degrees)).Perm
      ((matchingLists degrees).map (permute order)) := by
  rw [matchingLists, matchingLists, ← permute_map]
  refine choices_permute ho (by simp) fun l hl => ?_
  obtain ⟨d, -, rfl⟩ := List.mem_map.1 hl
  exact nodup_arrangementLists d List.nodup_range

section
variable {t : Multidegree.Table} {target : Name} (ht : t.contains target = true) (hd : degrees ≠ [])
include ht hd

/-- All partitions of all splits. -/
theorem flatMap_partitions_permute :
    ((splits t target (permute order degrees)).toList.flatMap fun split =>
        (partitions t split (permute order degrees)).toList).Perm
      (((splits t target degrees).toList.flatMap fun split =>
        (partitions t split degrees).toList).map (permute order)) := by
  refine flatMap_perm_map (splits_permute ho ht) fun split hsplit => ?_
  obtain ⟨hlen, hne, hn⟩ := Search.splits_spec ht hd hsplit
  exact partitions_permute ho hlen hne hn

theorem reached_permute (b : Basis) :
    (reached t b target (permute order degrees)).Perm
      ((reached t b target degrees).map (permute order)) := by
  rw [reached, reached, ← List.flatMap_assoc, ← List.flatMap_assoc]
  exact flatMap_perm_map (flatMap_partitions_permute ho ht hd) fun partition hpartition =>
    substitutions_permute ho (length_of_mem_partitions ht hd hpartition)

end

end

/-! ## Identities with their variables in another order -/

/-- The pattern with other numbers for its variables. -/
def Pattern.rename (number : Nat → Nat) : Pattern → Pattern
  | leaf v k => leaf (number v) k
  | product l r => product (l.rename number) (r.rename number)

theorem Pattern.rename_eq_self {number : Nat → Nat} {p : Pattern} (h : ∀ x ∈ p.leaves, number x.1 = x.1) :
    p.rename number = p := by
  induction p with
  | leaf v k => rw [rename, h (v, k) (List.mem_singleton_self _)]
  | product l r hl hr =>
    rw [leaves] at h
    rw [rename, hl fun x hx => h x (List.mem_append_left _ hx),
      hr fun x hx => h x (List.mem_append_right _ hx)]

/-- The term with other numbers for its variables. -/
def Term.rename (number : Nat → Nat) (t : Term) : Term :=
  { t with pattern := t.pattern.rename number }

/-- The second identity is the first one with its variables in another order; `order` tells for each
new number the old one. -/
structure Identity.IsReordered (order : List Nat) (e e' : Identity) : Prop where
  perm : order.Perm (List.range e.degrees.length)
  degrees : e'.degrees = permute order e.degrees
  terms : e'.terms = e.terms.map (Term.rename order.idxOf)

namespace Linearization

section
variable {n : Nat} {order : List Nat} (ho : order.Perm (List.range n)) {a : PartialAlgebra}
  {s : Substitution} (hs : s.length = n) {m : Matching} (hm : m.length = n)
include ho hs hm

/-- The rows that a pattern reads have gone where its variables have. -/
theorem evaluatePattern_rename (p : Pattern) :
    evaluatePattern a (permute order s) (permute order m) (p.rename order.idxOf) =
      evaluatePattern a s m p := by
  induction p with
  | leaf v k =>
    simp only [Pattern.rename, evaluatePattern, Matching.slot, Search.Substitution.slot,
      getElem?_permute ho hm, getElem?_permute ho hs]
  | product l r hl hr => simp only [Pattern.rename, evaluatePattern, hl, hr]

theorem evaluateTerm_rename (t : Term) :
    evaluateTerm a (permute order s) (permute order m) (t.rename order.idxOf) =
      evaluateTerm a s m t := by
  cases hpattern : t.pattern with
  | leaf v k =>
    have hpattern' : (t.rename order.idxOf).pattern = .leaf (order.idxOf v) k := by
      rw [Term.rename, hpattern]
      rfl
    simp only [evaluateTerm, hpattern, hpattern']
  | product l r =>
    have hpattern' : (t.rename order.idxOf).pattern =
        .product (l.rename order.idxOf) (r.rename order.idxOf) := by
      rw [Term.rename, hpattern]
      rfl
    rw [evaluateTerm_product hpattern, evaluateTerm_product hpattern',
      evaluatePattern_rename ho hs hm, evaluatePattern_rename ho hs hm]
    rfl

end

/-- The pairs under a matching, none if it cannot be evaluated. -/
def pairsUnder (z : Linearization) (s : Substitution) (m : Matching) : List Pair :=
  match z.evaluate s m with
  | .ok pairs => pairs
  | .error _ => []

theorem equationAt_of_evaluate {z : Linearization} {s : Substitution}
    (h : ∀ m ∈ z.matchings.toList, ∃ pairs, z.evaluate s m = .ok pairs) :
    z.equationAt s =
      if (z.matchings.toList.flatMap (z.pairsUnder s)).isEmpty then none
      else some ⟨z.matchings.toList.flatMap (z.pairsUnder s)⟩ := by
  refine PairsAt.equationAt ⟨z.matchings.toList.map (z.pairsUnder s), ?_, List.flatMap_def⟩
  refine List.forall₂_map_right_iff.2 (List.forall₂_same.2 fun m hm => ?_)
  obtain ⟨pairs, hpairs⟩ := h m hm
  rw [pairsUnder, hpairs]

/-- The linearization of another identity of the same number of matchings. -/
def withIdentity (z : Linearization) (e : Identity) : Linearization :=
  { z with identity := e, matchings := Nonassoc.matchings e.degrees }

section
variable {z : Linearization} {order : List Nat} {e' : Identity}
  (he : z.identity.IsReordered order e') {s : Substitution}
  (hs : s.length = z.identity.degrees.length)
include he hs

theorem evaluate_withIdentity {m : Matching} (hm : m.length = z.identity.degrees.length) :
    (z.withIdentity e').evaluate (permute order s) (permute order m) = z.evaluate s m := by
  simp only [evaluate, withIdentity, he.terms, List.mapM_map, Function.comp_def,
    evaluateTerm_rename he.perm hs hm]

/-- At the substitution with its rows in another order, the equation is the same up to the order of
its pairs. -/
theorem equationAt_withIdentity (hz : z.matchings = Nonassoc.matchings z.identity.degrees)
    (h : ∀ m ∈ matchingLists z.identity.degrees, ∃ pairs, z.evaluate s m = .ok pairs) :
    List.Forall₂ (fun q q' : Equation => q.pairs.Perm q'.pairs) (z.equationAt s).toList
      ((z.withIdentity e').equationAt (permute order s)).toList := by
  have hlength : ∀ m ∈ matchingLists z.identity.degrees, m.length = z.identity.degrees.length :=
    fun m hm => (mem_matchingLists.1 hm).length_eq
  have hmatchings : z.matchings.toList = matchingLists z.identity.degrees := by
    rw [hz, (yields_matchings _).toList]
  have hmatchings' : (z.withIdentity e').matchings.toList =
      matchingLists (permute order z.identity.degrees) := by
    rw [withIdentity, (yields_matchings _).toList, he.degrees]
  have hperm := matchingLists_permute he.perm
  have hpairs : (z.matchings.toList.flatMap (z.pairsUnder s)).Perm
      ((z.withIdentity e').matchings.toList.flatMap
        ((z.withIdentity e').pairsUnder (permute order s))) := by
    rw [hmatchings, hmatchings']
    refine .trans (.of_eq ?_) (hperm.flatMap_right _).symm
    rw [List.flatMap_map]
    refine List.flatMap_congr fun m hm => ?_
    rw [pairsUnder, pairsUnder, evaluate_withIdentity he hs (hlength m hm)]
  rw [equationAt_of_evaluate fun m hm => h m (hmatchings ▸ hm), equationAt_of_evaluate ?_,
    hpairs.isEmpty_eq]
  · split
    · exact .nil
    · exact .cons hpairs .nil
  · intro x hx
    obtain ⟨m, hm, rfl⟩ := List.mem_map.1 (hperm.subset (hmatchings' ▸ hx))
    obtain ⟨pairs, hpairs⟩ := h m hm
    exact ⟨pairs, (evaluate_withIdentity he hs (hlength m hm)).trans hpairs⟩

end

theorem ofIdentity_reordered {order : List Nat} {e e' : Identity} (he : e.IsReordered order e')
    (a : PartialAlgebra) : ofIdentity e' a = (ofIdentity e a).map (withIdentity · e') := by
  have hprod : (e'.degrees.map Nat.factorial).prod = (e.degrees.map Nat.factorial).prod := by
    rw [he.degrees]
    exact ((permute_perm he.perm rfl).map _).prod_eq
  simp only [ofIdentity, matchingCount_eq, hprod]
  split <;> rfl

end Linearization

/-! ## Runs -/

/-- The same equations up to their order and the order of their pairs. -/
def SameEquations (l l' : List Equation) : Prop :=
  ∃ m : List Equation, List.Forall₂ (fun q q' => q.pairs.Perm q'.pairs) l m ∧ m.Perm l'

namespace SameEquations

variable {l l' : List Equation} (h : SameEquations l l')
include h

theorem length_eq : l.length = l'.length := by
  obtain ⟨m, hm, hperm⟩ := h
  exact hm.length_eq.trans hperm.length_eq

theorem isEmpty_eq : l.isEmpty = l'.isEmpty := by
  rw [Bool.eq_iff_iff, List.isEmpty_iff_length_eq_zero, List.isEmpty_iff_length_eq_zero,
    h.length_eq]

theorem total_size_eq : total (l.map Equation.size) = total (l'.map Equation.size) := by
  obtain ⟨m, hm, hperm⟩ := h
  have hmap : l.map Equation.size = m.map Equation.size := by
    rw [← List.forall₂_eq_eq_eq, List.forall₂_map_left_iff, List.forall₂_map_right_iff]
    exact hm.imp fun _ _ hq => hq.length_eq
  rw [hmap, total_eq_sum, total_eq_sum, (hperm.map _).sum_eq]

theorem ofEquations_eq (stats : Stats) :
    (Outcome.ofResult (.ok ()) l' stats).status = (Outcome.ofResult (.ok ()) l stats).status ∧
      (Outcome.ofResult (.ok ()) l' stats).stats = (Outcome.ofResult (.ok ()) l stats).stats := by
  simp only [Outcome.ofResult, Outcome.ofEquations, h.isEmpty_eq, h.length_eq, h.total_size_eq,
    and_self]

end SameEquations

section
variable {order : List Nat} {e e' : Identity} (he : e.IsReordered order e') (hd : e.degrees ≠ [])
  {target : Name} {a : PartialAlgebra} {config : Config}
include he hd

theorem isFinished_reordered :
    (generate e' target a config .unlimited).1.status.IsFinished ↔
      (generate e target a config .unlimited).1.status.IsFinished := by
  have hd' : e'.degrees ≠ [] := he.degrees ▸ permute_ne_nil he.perm rfl hd
  rw [isFinished_iff_evaluate hd, isFinished_iff_evaluate hd']
  refine and_congr_right fun ht => ?_
  rw [Linearization.ofIdentity_reordered he]
  cases hz : Linearization.ofIdentity e a with
  | error f => simp only [Except.map, reduceCtorEq, false_and, exists_false]
  | ok z =>
    obtain ⟨rfl, rfl, -⟩ := Linearization.ofIdentity_eq_ok hz
    simp only [Except.map, Except.ok.injEq, exists_eq_left', he.degrees,
      (reached_permute he.perm ht hd _).mem_iff, (matchingLists_permute he.perm).mem_iff,
      List.forall_mem_map]
    refine forall₂_congr fun s hs => forall₂_congr fun m hm => ?_
    rw [Linearization.evaluate_withIdentity he (length_of_mem_reached ht hd hs)
      (mem_matchingLists.1 hm).length_eq]

/-- A run for an identity with its variables in another order finds the same equations. -/
theorem generate_reordered
    (h : (generate e target a config .unlimited).1.status.IsFinished) :
    (generate e' target a config .unlimited).1.status =
        (generate e target a config .unlimited).1.status ∧
      (generate e' target a config .unlimited).1.stats =
        (generate e target a config .unlimited).1.stats ∧
      SameEquations (generate e target a config .unlimited).1.equations
        (generate e' target a config .unlimited).1.equations := by
  have h' := (isFinished_reordered he hd).2 h
  obtain ⟨ht, z, hz, heval⟩ := (isFinished_iff_evaluate hd).1 h
  have hz' := Linearization.ofIdentity_reordered he a
  rw [hz] at hz'
  rw [generate_of_isFinished h hz, generate_of_isFinished h' hz']
  obtain ⟨rfl, rfl, hmatchings⟩ := Linearization.ofIdentity_eq_ok hz
  have hreached := reached_permute he.perm ht hd z.algebra.basis
  have hsame : SameEquations
      ((reached z.algebra.table z.algebra.basis target z.identity.degrees).flatMap fun s =>
        (z.equationAt s).toList)
      ((reached z.algebra.table z.algebra.basis target e'.degrees).flatMap fun s =>
        ((z.withIdentity e').equationAt s).toList) := by
    rw [he.degrees]
    refine ⟨_, ?_, (hreached.flatMap_right _).symm⟩
    rw [List.flatMap_map]
    refine forall₂_flatMap fun s hs => ?_
    exact Linearization.equationAt_withIdentity he (length_of_mem_reached ht hd hs) hmatchings
      (heval s hs)
  have hsplits := (splits_permute he.perm ht).length_eq
  have hpartitions := (flatMap_partitions_permute he.perm ht hd).length_eq
  have hsubstitutions := hreached.length_eq
  rw [List.length_map] at hsplits hpartitions hsubstitutions
  rw [← he.degrees] at hsplits hpartitions hsubstitutions
  rw [hsplits, hpartitions, hsubstitutions]
  obtain ⟨hstatus, hstats⟩ := hsame.ofEquations_eq _
  exact ⟨hstatus, hstats, hsame⟩

end

end Nonassoc
