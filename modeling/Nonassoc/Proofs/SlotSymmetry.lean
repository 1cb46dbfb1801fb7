import Mathlib.Data.Option.Defs
import Nonassoc.Proofs.MatchingOrder
import Nonassoc.Proofs.Reorderings
import Nonassoc.Proofs.Workers

/-!
# Other orders of the slots

An identity is linearized under all matchings of its occurrences to slots, so it does not matter in
which order the elements stand in the slots of a variable. The value under a matching, with the slots
in other orders, is the value under another matching, which goes to the slots through these orders
(`Linearization.evaluate_permuteRows`); and every matching is reached in this way from just one
(`matchingLists_permuteRows`).

Main result: `Linearization.equation_permuteRows`, for batches of any size and for workers.
-/

namespace Nonassoc

open Search (Substitution)

/-! ## Rows in other orders -/

section
variable {α : Type}

/-- Every row with its entries in another order, given by their places. -/
def permuteRows (orders : List (List Nat)) (rows : List (List α)) : List (List α) :=
  List.zipWith permute orders rows

theorem getElem?_permute_eq_bind {order : List Nat} {l : List α} (h : ∀ i ∈ order, i < l.length)
    (k : Nat) : (permute order l)[k]? = order[k]?.bind (l[·]?) := by
  induction order generalizing k with
  | nil => rfl
  | cons i order ih =>
    obtain ⟨hi, h⟩ := List.forall_mem_cons.1 h
    rw [permute, List.filterMap_cons, List.getElem?_eq_getElem hi]
    cases k with
    | zero => exact (List.getElem?_eq_getElem hi).symm
    | succ k => exact ih h k

/-- What was picked by its place is found at that place. -/
theorem map_idxOf_permute {order slots : List Nat} (ho : order.Nodup)
    (h : ∀ i ∈ slots, i < order.length) : (permute slots order).map order.idxOf = slots := by
  induction slots with
  | nil => rfl
  | cons i slots ih =>
    obtain ⟨hi, h⟩ := List.forall_mem_cons.1 h
    rw [permute, List.filterMap_cons, List.getElem?_eq_getElem hi]
    exact congrArg₂ _ (ho.idxOf_getElem i hi) (ih h)

end

theorem map_length_of_mem {degrees : List Nat} {m : Matching} (hm : m ∈ matchingLists degrees) :
    m.map List.length = degrees := by
  rw [← List.forall₂_eq_eq_eq, List.forall₂_map_left_iff]
  exact (mem_matchingLists.1 hm).imp fun _ _ h => length_of_perm_range h

section
variable {degrees : List Nat} {m orders : Matching} (hm : m ∈ matchingLists degrees)
include hm

/-- The entry at a place goes through the order of its row. -/
theorem getElem?_permuteRows {α : Type} {rows : List (List α)}
    (hrows : rows.map List.length = degrees) (v k : Nat) :
    (permuteRows m rows)[v]?.bind (·[k]?) =
      (m[v]?.bind (·[k]?)).bind fun j => rows[v]?.bind (·[j]?) := by
  rw [mem_matchingLists, ← hrows, List.forall₂_map_right_iff] at hm
  clear hrows
  induction hm generalizing v with
  | nil => rfl
  | @cons order row _ _ h _ ih =>
    cases v with
    | zero => exact getElem?_permute_eq_bind (fun i hi => (mem_iff_of_perm_range h).1 hi) k
    | succ v => exact ih v

variable (ho : orders ∈ matchingLists degrees)
include ho

theorem permuteRows_mem : permuteRows m orders ∈ matchingLists degrees := by
  rw [mem_matchingLists] at hm ho ⊢
  induction hm generalizing orders with
  | nil =>
    cases ho
    exact .nil
  | cons hslots _ ih =>
    cases ho with
    | cons horder ho =>
      exact .cons ((permute_perm hslots (length_of_perm_range horder)).trans horder) (ih ho)

/-- A matching is known from where it goes through the orders. -/
theorem eq_of_permuteRows : List.zipWith (fun order slots => slots.map order.idxOf) orders
    (permuteRows m orders) = m := by
  rw [mem_matchingLists] at hm ho
  induction hm generalizing orders with
  | nil =>
    cases ho
    rfl
  | cons hslots _ ih =>
    cases ho with
    | cons horder ho =>
      refine congrArg₂ _ (map_idxOf_permute (nodup_of_perm_range horder) fun i hi => ?_) (ih ho)
      rw [length_of_perm_range horder]
      exact (mem_iff_of_perm_range hslots).1 hi

end

/-- Going through the orders, each matching is reached once. -/
theorem matchingLists_permuteRows {degrees : List Nat} {orders : Matching}
    (ho : orders ∈ matchingLists degrees) :
    ((matchingLists degrees).map (permuteRows · orders)).Perm (matchingLists degrees) := by
  have hinj : ((matchingLists degrees).map (permuteRows · orders)).Nodup := by
    refine (nodup_matchingLists degrees).map_on fun m hm m' hm' heq => ?_
    rw [← eq_of_permuteRows hm ho, heq, eq_of_permuteRows hm' ho]
  have hsub : (matchingLists degrees).map (permuteRows · orders) ⊆ matchingLists degrees := by
    intro x hx
    obtain ⟨m, hm, rfl⟩ := List.mem_map.1 hx
    exact permuteRows_mem hm ho
  exact (hinj.subperm hsub).perm_of_length_le (by rw [List.length_map])

/-! ## Linearizing -/

namespace Linearization

theorem evaluatePattern_leaf_eq (a : PartialAlgebra) (s : Substitution) (m : Matching) (v k : Nat) :
    evaluatePattern a s m (.leaf v k) =
      match (m[v]?.bind (·[k]?)).bind fun j => s[v]?.bind (·[j]?) with
      | some b => .ok (Element.basis b)
      | none => .error (.fault .index) := by
  rw [evaluatePattern, Matching.slot]
  cases m[v]?.bind (·[k]?) with
  | none => rfl
  | some j =>
    show (do
      let b ← (s.slot v j).mapError Failure.fault
      return Element.basis b) = _
    rw [Search.Substitution.slot, Option.bind_some]
    cases s[v]?.bind (·[j]?) <;> rfl

section
variable {z : Linearization} {s : Substitution} {degrees : List Nat} {orders m : Matching}
  (hs : s.map List.length = degrees) (ho : orders ∈ matchingLists degrees)
include hs ho

section
variable (hm : m ∈ matchingLists degrees)
include hm

theorem evaluatePattern_permuteRows (a : PartialAlgebra) (p : Pattern) :
    evaluatePattern a (permuteRows orders s) m p =
      evaluatePattern a s (permuteRows m orders) p := by
  induction p with
  | leaf v k =>
    simp only [evaluatePattern_leaf_eq, getElem?_permuteRows ho hs,
      getElem?_permuteRows hm (map_length_of_mem ho), Option.bind_assoc]
  | product l r hl hr => simp only [evaluatePattern, hl, hr]

theorem evaluate_permuteRows :
    z.evaluate (permuteRows orders s) m = z.evaluate s (permuteRows m orders) := by
  have hterm : evaluateTerm z.algebra (permuteRows orders s) m =
      evaluateTerm z.algebra s (permuteRows m orders) := by
    funext t
    simp only [evaluateTerm, evaluatePattern_permuteRows hs ho hm]
  rw [evaluate, evaluate, hterm]

end

/-- The pairs under all matchings are the same up to their order. -/
theorem alike_mapM_evaluate :
    Alike List.Perm ((matchingLists degrees).mapM (z.evaluate (permuteRows orders s)))
      ((matchingLists degrees).mapM (z.evaluate s)) := by
  have hmapM : (matchingLists degrees).mapM (z.evaluate (permuteRows orders s)) =
      ((matchingLists degrees).map (permuteRows · orders)).mapM (z.evaluate s) := by
    rw [List.mapM_map]
    exact mapM_congr fun m hm => evaluate_permuteRows hs ho hm
  rw [hmapM]
  exact alike_mapM (matchingLists_permuteRows ho)

end

theorem flatEquation_eq_map (z : Linearization) (s : Substitution) :
    z.flatEquation s = (z.matchings.toList.mapM (z.evaluate s)).map fun ps =>
      if ps.flatten.isEmpty then none else some ⟨ps.flatten⟩ := by
  unfold flatEquation
  cases z.matchings.toList.mapM (z.evaluate s) <;> rfl

/-- The same pairs up to their order, or no equation at all. -/
def SamePairs : Option Equation → Option Equation → Prop :=
  Option.Rel fun q q' => q.pairs.Perm q'.pairs

theorem samePairs_of_perm {pairs pairs' : List Pair} (h : pairs.Perm pairs') :
    SamePairs (if pairs.isEmpty then none else some ⟨pairs⟩)
      (if pairs'.isEmpty then none else some ⟨pairs'⟩) := by
  rw [h.isEmpty_eq]
  split
  · exact .none
  · exact .some h

/-- If the elements in the slots of every variable are put in another order, the linearized identity
fails as before, is empty as before, or has the same pairs up to their order. That is so as long as no
poll is refused, for batches of any size, and however workers share the batches. -/
theorem equation_permuteRows {e : Identity} {a : PartialAlgebra} {z : Linearization}
    (hz : ofIdentity e a = .ok z) {s : Substitution} (hs : s.map List.length = e.degrees)
    {orders : List (List Nat)}
    (ho : List.Forall₂ (fun order d => order.Perm (List.range d)) orders e.degrees) :
    (∀ batchSize batchSize' t t', (z.equation batchSize s t).2.cancelled = false →
      (z.equation batchSize' (permuteRows orders s) t').2.cancelled = false →
        Alike SamePairs (z.equation batchSize' (permuteRows orders s) t').1
          (z.equation batchSize s t).1) ∧
    (∀ batchSize, Alike SamePairs (z.equation batchSize (permuteRows orders s) .unlimited).1
      (z.equation batchSize s .unlimited).1) ∧
    ∀ batches batches' result result', batches.flatten = z.matchings.toList →
      batches'.flatten = z.matchings.toList → z.Shared s batches result →
        z.Shared (permuteRows orders s) batches' result' → Alike List.Perm result' result := by
  obtain ⟨rfl, rfl, hmatchings⟩ := ofIdentity_eq_ok hz
  have hlist : z.matchings.toList = matchingLists z.identity.degrees := by
    rw [hmatchings, (yields_matchings _).toList]
  have halike := alike_mapM_evaluate (z := z) hs (mem_matchingLists.2 ho)
  have hflat : Alike SamePairs (z.flatEquation (permuteRows orders s)) (z.flatEquation s) := by
    rw [flatEquation_eq_map, flatEquation_eq_map, hlist]
    exact halike.map fun ps ps' hperm => samePairs_of_perm hperm.flatten
  refine ⟨fun n n' t t' hc hc' => ?_, fun n => ?_, fun batches batches' r r' hb hb' hr hr' => ?_⟩
  · rw [equation_uncancelled hmatchings hc, equation_uncancelled hmatchings hc']
    exact hflat
  · rw [equation_unlimited hmatchings, equation_unlimited hmatchings]
    exact hflat
  · -- workers collect the same pairs, be it in batches of other sizes
    have hshared := hr.alike
    have hshared' := hr'.alike
    rw [hb, hlist] at hshared
    rw [hb', hlist] at hshared'
    have hpairs' : Alike (fun pairs' ps => pairs'.Perm ps.flatten) r'
        ((matchingLists z.identity.degrees).mapM (z.evaluate s)) :=
      hshared'.trans halike fun _ _ _ h hperm => h ▸ hperm.flatten
    exact hpairs'.trans hshared.swap fun _ _ _ hperm h => h ▸ hperm

/-- The square at two elements and at the same elements in the other order. -/
theorem equation_permuteRows_square :
    ∃ (a : PartialAlgebra) (square : Identity) (z : Linearization),
      Identity.ofWords [(1, .product (.letter 'x') (.letter 'x'))] = .ok square ∧
      ofIdentity square a = .ok z ∧ permuteRows [[1, 0]] [[0, 1]] = [[1, 0]] ∧
      (z.equation 1 [[0, 1]] .unlimited).1 = .ok (some ⟨[⟨1, 0, 1⟩, ⟨1, 1, 0⟩]⟩) ∧
      (z.equation 1 [[1, 0]] .unlimited).1 = .ok (some ⟨[⟨1, 1, 0⟩, ⟨1, 0, 1⟩]⟩) ∧
      (∀ t, (z.equation 1 [[0, 1]] t).2.cancelled = false →
        Alike SamePairs (z.equation 1 [[1, 0]] .unlimited).1 (z.equation 1 [[0, 1]] t).1) ∧
      ∀ batches result result', batches.flatten = z.matchings.toList →
        z.Shared [[0, 1]] batches result → z.Shared [[1, 0]] batches result' →
          Alike List.Perm result' result := by
  obtain ⟨t, b, b', -, -, -⟩ : ∃ t b b', Multidegree.Table.ofTarget ⟨[2]⟩ = .ok t ∧
      (Basis.empty t).push none 1 = .ok b ∧ b.push none 1 = .ok b' := ⟨_, _, _, rfl, rfl, rfl⟩
  let a : PartialAlgebra := ⟨.standard, t, b', .empty⟩
  let square : Identity := ⟨['x'], [2], [⟨1, .product (.leaf 0 0) (.leaf 0 1)⟩]⟩
  let z : Linearization := ⟨square, a, Nonassoc.matchings [2], 2⟩
  have hz : ofIdentity square a = .ok z := rfl
  have hs : ([[0, 1]] : Substitution).map List.length = square.degrees := rfl
  have ho : List.Forall₂ (fun order d => order.Perm (List.range d)) [[1, 0]] square.degrees :=
    .cons (List.Perm.swap 0 1 []) .nil
  obtain ⟨hbatches, -, hworkers⟩ := equation_permuteRows hz hs ho
  exact ⟨a, square, z, rfl, hz, rfl, rfl, rfl, fun t ht => hbatches 1 1 t .unlimited ht rfl,
    fun batches r r' hb hr hr' => hworkers batches batches r r' hb hb hr hr'⟩

end Linearization

end Nonassoc
