import Nonassoc.Generation
import Nonassoc.Proofs.Identities
import Nonassoc.Proofs.Matchings
import Nonassoc.Proofs.Results
import Nonassoc.Proofs.SlotTables
import Nonassoc.Proofs.Walk

/-!
# What a run returns

`Linearization.PairsAt z s pairs` says that `pairs` are the pairs at the substitution `s`: those
under every matching, in order. However a run ends, each equation that it returns consists of the
pairs at some substitution that the searches reach (`exists_reached_of_mem`,
`mem_of_mem_generateAll`). A run that is neither cancelled nor fails has found the pairs at all of
them, and returns those that are not empty (`pairsAt_of_finished`). It does not fail unless some
evaluation does (`generate_finishes`). Two searches that do the same at every substitution end alike
(`similar_visitTarget`).
-/

namespace Nonassoc

open Multidegree (Name)
open Search (Partition Substitution splits partitions substitutions reached)

namespace Linearization

/-! ## One substitution -/

/-- The pairs at a substitution: those under all matchings. -/
def PairsAt (z : Linearization) (s : Substitution) (pairs : List Pair) : Prop :=
  ∃ ps, List.Forall₂ (fun m ps => z.evaluate s m = .ok ps) z.matchings.toList ps ∧
    pairs = ps.flatten

variable {z : Linearization}

theorem addMatching_eq_ok {s : Substitution} {m : Matching} {t : Token} {sum : Sum}
    (h : (z.addMatching s m t sum).result = .ok ()) :
    ∃ more, z.evaluate s m = .ok more ∧
      (z.addMatching s m t sum).state.pairs.toList = sum.pairs.toList ++ more := by
  unfold addMatching at h ⊢
  split at h
  · rename_i more hmore
    exact ⟨more, hmore, by simp⟩
  · cases h

theorem visitMatching_eq_ok {batchSize : Nat} {s : Substitution} {m : Matching} {t : Token}
    {sum : Sum} (h : (z.visitMatching batchSize s m t sum).result = .ok ()) :
    ∃ more, z.evaluate s m = .ok more ∧
      (z.visitMatching batchSize s m t sum).state.pairs.toList = sum.pairs.toList ++ more := by
  unfold visitMatching at h ⊢
  split at h
  · exact addMatching_eq_ok h
  · split at h
    · exact addMatching_eq_ok h
    · cases h

theorem equation_eq_ok {batchSize : Nat} {s : Substitution} {t : Token} {e : Option Equation}
    (h : (z.equation batchSize s t).1 = .ok e) :
    ∃ pairs, z.PairsAt s pairs ∧ e = if pairs.isEmpty then none else some ⟨pairs⟩ := by
  unfold equation at h
  simp only at h
  split at h
  · cases h
  rename_i hrun
  have hfold := Walk.foldlM_of_forEach (z.visitMatching batchSize s)
    (fun sum : Sum => sum.pairs.toList) (fun pairs m => do return pairs ++ (← z.evaluate s m))
    (fun m t sum hm => by
      obtain ⟨more, hmore, hpairs⟩ := visitMatching_eq_ok hm
      rw [hmore, hpairs]
      rfl) hrun
  obtain ⟨ps, hps, hpairs⟩ := foldlM_append_eq_ok.1 hfold
  refine ⟨_, ⟨ps, hps, rfl⟩, ?_⟩
  cases h
  rw [← Array.isEmpty_toList, hpairs]
  simp

/-! ## One identity -/

/-- A linearization of an identity in an algebra has all its matchings. -/
theorem ofIdentity_eq_ok {e : Identity} {a : PartialAlgebra} (h : ofIdentity e a = .ok z) :
    z.identity = e ∧ z.algebra = a ∧ z.matchings = Nonassoc.matchings e.degrees := by
  obtain ⟨count, -, h⟩ := bind_eq_ok.1 h
  cases h
  exact ⟨rfl, rfl, rfl⟩

theorem ofIdentity_of_fits {e : Identity} {a : PartialAlgebra}
    (h : (e.degrees.map Nat.factorial).prod ≤ matchingCapacity) :
    ofIdentity e a =
      .ok ⟨e, a, Nonassoc.matchings e.degrees, (e.degrees.map Nat.factorial).prod⟩ := by
  rw [ofIdentity, matchingCount_eq_ok h]
  rfl

theorem count_of_ofIdentity {e : Identity} {a : PartialAlgebra} (h : ofIdentity e a = .ok z) :
    z.count = (e.degrees.map Nat.factorial).prod := by
  obtain ⟨count, hcount, h⟩ := bind_eq_ok.1 h
  cases h
  rw [matchingCount_eq] at hcount
  split at hcount
  · exact (Except.ok.inj hcount).symm
  · cases hcount

/-- As many matchings are evaluated as were counted. -/
theorem length_matchings {e : Identity} {a : PartialAlgebra} (h : ofIdentity e a = .ok z) :
    z.matchings.toList.length = z.count := by
  rw [(ofIdentity_eq_ok h).2.2, (yields_matchings e.degrees).toList, length_matchingLists,
    count_of_ofIdentity h]

theorem ofIdentity_eq_error {e : Identity} {a : PartialAlgebra} {f : Failure}
    (h : ofIdentity e a = .error f) : f = .exhausted .permutationList := by
  rcases bind_eq_error.1 h with h | ⟨count, -, h⟩
  · exact matchingCount_eq_error h
  · cases h

/-- What a run does that goes through the given substitutions: it keeps the equations that were
there, those that it adds are made of the pairs at its substitutions, and if it comes to its end
then it has found the pairs at each. -/
structure Covers (z : Linearization) (subs : List Substitution) (p : Progress)
    (run : Walk.Run Progress) : Prop where
  keeps : ∀ q ∈ p.equations, q ∈ run.state.equations
  adds : ∀ q ∈ run.state.equations, q ∈ p.equations ∨ ∃ s ∈ subs, z.PairsAt s q.pairs
  finds : run.result = .ok () → ∀ s ∈ subs, ∃ pairs, z.PairsAt s pairs ∧
    (pairs = [] ∨ ⟨pairs⟩ ∈ run.state.equations)

/-- A walk covers what the visits to its items cover. -/
theorem Covers.forEach {α : Type} {visitor : α → Token → Progress → Walk.Run Progress}
    {subs : α → List Substitution} (h : ∀ a t p, z.Covers (subs a) p (visitor a t p)) (w : Walk α)
    (t : Token) (p : Progress) : z.Covers (w.toList.flatMap subs) p (w.forEach visitor t p) where
  keeps q hq := Walk.forEach_inv (P := fun p => q ∈ p.equations)
    (fun a _ t p => (h a t p).keeps q) t p hq
  adds := Walk.forEach_inv
    (P := fun p' => ∀ q ∈ p'.equations, q ∈ p.equations ∨
      ∃ s ∈ w.toList.flatMap subs, z.PairsAt s q.pairs)
    (fun a ha t p' hp' q hq => by
      rcases (h a t p').adds q hq with hq | ⟨s, hs, hpairs⟩
      · exact hp' q hq
      · exact .inr ⟨s, List.mem_flatMap.2 ⟨a, ha, hs⟩, hpairs⟩) t p fun q hq => .inl hq
  finds hrun s hs := by
    obtain ⟨a, ha, hs⟩ := List.mem_flatMap.1 hs
    refine Walk.forEach_all (Q := fun a p => ∀ s ∈ subs a, ∃ pairs, z.PairsAt s pairs ∧
      (pairs = [] ∨ ⟨pairs⟩ ∈ p.equations)) (fun a t p => (h a t p).finds)
      (fun a b t p hp s hs => ?_) hrun a ha s hs
    obtain ⟨pairs, hpairs, hmem⟩ := hp s hs
    exact ⟨pairs, hpairs, hmem.imp_right ((h b t p).keeps _)⟩

theorem covers_visitSubstitution (batchSize : Nat) (s : Substitution) (t : Token) (p : Progress) :
    z.Covers [s] p (z.visitSubstitution batchSize s t p) := by
  unfold visitSubstitution
  simp only
  split
  · rename_i e t' he
    obtain ⟨pairs, hpairs, rfl⟩ := equation_eq_ok (congrArg Prod.fst he)
    cases pairs with
    | nil =>
      refine ⟨fun q hq => hq, fun q hq => .inl hq, fun _ s hs => ?_⟩
      rw [List.mem_singleton.1 hs]
      exact ⟨[], hpairs, .inl rfl⟩
    | cons x pairs =>
      refine ⟨fun q hq => Array.mem_push_of_mem _ hq, fun q hq => ?_, fun _ s hs => ?_⟩
      · rcases Array.mem_push.1 hq with hq | rfl
        · exact .inl hq
        · exact .inr ⟨s, List.mem_singleton_self s, hpairs⟩
      · rw [List.mem_singleton.1 hs]
        exact ⟨_, hpairs, .inr Array.mem_push_self⟩
  · exact ⟨fun q hq => hq, fun q hq => .inl hq, nofun⟩

theorem covers_visitPartition (batchSize : Nat) (partition : Partition) (t : Token) (p : Progress) :
    z.Covers (substitutions z.algebra.basis partition).toList p
      (z.visitPartition batchSize partition t p) := by
  have h := Covers.forEach (z.covers_visitSubstitution batchSize)
    (substitutions z.algebra.basis partition) t p.countPartition
  rw [List.flatMap_singleton'] at h
  exact ⟨h.keeps, h.adds, h.finds⟩

theorem covers_visitSplit (batchSize : Nat) (split : List Name) (t : Token) (p : Progress) :
    z.Covers ((partitions z.algebra.table split z.identity.degrees).toList.flatMap fun partition =>
      (substitutions z.algebra.basis partition).toList) p (z.visitSplit batchSize split t p) := by
  have h := Covers.forEach (z.covers_visitPartition batchSize)
    (partitions z.algebra.table split z.identity.degrees) t p.countSplit
  unfold visitSplit
  simp only
  split <;> exact ⟨h.keeps, h.adds, h.finds⟩

theorem covers_visitTarget (batchSize : Nat) (target : Name) (t : Token) :
    z.Covers (reached z.algebra.table z.algebra.basis target z.identity.degrees) .start
      (z.visitTarget batchSize target t) :=
  Covers.forEach (z.covers_visitSplit batchSize) _ t .start

/-- A split ends as the search of its partitions does. -/
theorem result_visitSplit (batchSize : Nat) (split : List Name) (t : Token) (p : Progress) :
    (z.visitSplit batchSize split t p).result =
      ((partitions z.algebra.table split z.identity.degrees).forEach
        (z.visitPartition batchSize) t p.countSplit).result := by
  simp only [visitSplit]
  split <;> rfl

theorem token_visitSplit (batchSize : Nat) (split : List Name) (t : Token) (p : Progress) :
    (z.visitSplit batchSize split t p).token =
      ((partitions z.algebra.table split z.identity.degrees).forEach
        (z.visitPartition batchSize) t p.countSplit).token := by
  simp only [visitSplit]
  split <;> rfl

end Linearization

/-! ## Two searches side by side -/

/-- Counting and the end of a split keep a relation between the progresses of two searches. -/
structure Progress.Keeps (R : Progress → Progress → Prop) : Prop where
  countSplit : ∀ {p p'}, R p p' → R p.countSplit p'.countSplit
  countPartition : ∀ {p p'}, R p p' → R p.countPartition p'.countPartition
  complete : ∀ {p p'}, R p p' → R p.complete p'.complete

namespace Linearization

variable {z : Linearization}

section
variable {z' : Linearization} (halgebra : z'.algebra = z.algebra)
  (hdegrees : z'.identity.degrees = z.identity.degrees) {T : Token → Token → Prop}
  (hpoll : ∀ t t', T t t' → t'.poll.1 = t.poll.1 ∧ T t.poll.2 t'.poll.2)
  {R : Progress → Progress → Prop} (hR : Progress.Keeps R) {batchSize batchSize' : Nat}
  (h : ∀ s t t' p p', T t t' → R p p' →
    (z.visitSubstitution batchSize s t p).Similar T R (z'.visitSubstitution batchSize' s t' p'))
include halgebra hpoll hR h

theorem similar_visitPartition (partition : Partition) {t t' : Token} {p p' : Progress}
    (ht : T t t') (hp : R p p') :
    (z.visitPartition batchSize partition t p).Similar T R
      (z'.visitPartition batchSize' partition t' p') := by
  simp only [visitPartition, halgebra]
  exact Walk.forEach_similar hpoll (fun s _ => h s) ht (hR.countPartition hp)

include hdegrees

theorem similar_visitSplit (split : List Name) {t t' : Token} {p p' : Progress} (ht : T t t')
    (hp : R p p') :
    (z.visitSplit batchSize split t p).Similar T R (z'.visitSplit batchSize' split t' p') := by
  have hrun := Walk.forEach_similar (w := partitions z.algebra.table split z.identity.degrees) hpoll
    (fun partition _ _ _ _ _ => similar_visitPartition halgebra hpoll hR h partition) ht
    (hR.countSplit hp)
  simp only [visitSplit, halgebra, hdegrees, hrun.result]
  split
  · exact ⟨rfl, hrun.token, hR.complete hrun.state⟩
  · exact hrun

/-- If two searches of the same space do the same at every substitution, then they end alike. -/
theorem similar_visitTarget (target : Name) {t t' : Token} (ht : T t t')
    (hstart : R .start .start) :
    (z.visitTarget batchSize target t).Similar T R (z'.visitTarget batchSize' target t') := by
  simp only [visitTarget, halgebra, hdegrees]
  exact Walk.forEach_similar hpoll
    (fun split _ _ _ _ _ => similar_visitSplit halgebra hdegrees hpoll hR h split) ht hstart

end

/-! ## Finding everything -/

theorem evaluatePattern_leaf {a : PartialAlgebra} {s : Substitution} {m : Matching} {v k j : Nat}
    {b : BasisId} (hj : m.slot v k = .ok j) (hb : s.slot v j = .ok b) :
    evaluatePattern a s m (.leaf v k) = .ok (Element.basis b) := by
  simp only [evaluatePattern, hj, Except.mapError, bind, Except.bind, hb]
  rfl

/-- A term that is a product of two occurrences needs no known product. -/
theorem exists_evaluateTerm {a : PartialAlgebra} {degrees : List Nat} {s : Substitution}
    (hs : s.map List.length = degrees) {m : Matching} (hm : m ∈ matchingLists degrees) {t : Term}
    (ht : t.pattern.IsNumbered degrees)
    (hl : ∃ u i v j, t.pattern = .product (.leaf u i) (.leaf v j)) :
    ∃ pairs, evaluateTerm a s m t = .ok pairs := by
  obtain ⟨u, i, v, j, hp⟩ := hl
  have hleaf : ∀ q ∈ t.pattern.leaves, ∃ x,
      evaluatePattern a s m (.leaf q.1 q.2) = .ok x := by
    intro q hq
    obtain ⟨k, hk, hmk⟩ := exists_slot_of_mem hm ((ht.mem_iff q.1 q.2).1 hq)
    obtain ⟨b, hb⟩ := Search.exists_slot hs hk
    exact ⟨_, evaluatePattern_leaf hmk hb⟩
  rw [hp] at hleaf
  obtain ⟨x, hx⟩ := hleaf (u, i) (by simp [Pattern.leaves])
  obtain ⟨y, hy⟩ := hleaf (v, j) (by simp [Pattern.leaves])
  simp only [evaluateTerm, hp, hx, hy]
  split
  · exact ⟨_, rfl⟩
  · exact ⟨_, rfl⟩

/-- The equation at a substitution is found if the identity can be evaluated under every
matching. -/
theorem equation_finishes {s : Substitution} (hw : z.matchings.failure? = none)
    (h : ∀ m ∈ z.matchings.toList, ∃ pairs, z.evaluate s m = .ok pairs) (batchSize : Nat) :
    ∃ e, z.equation batchSize s .unlimited = (.ok e, .unlimited) := by
  have hrun := Walk.forEach_finishes (z.visitMatching batchSize s) hw (fun m hm sum => by
    obtain ⟨pairs, hpairs⟩ := h m hm
    unfold visitMatching addMatching
    rw [hpairs]
    split <;> exact ⟨rfl, rfl⟩) ⟨#[], 0⟩
  unfold equation
  simp only [hrun.1, hrun.2]
  exact ⟨_, rfl⟩

section
variable {target : Name} (ht : z.algebra.table.contains target = true)
  (hd : z.identity.degrees ≠ []) (hw : z.matchings.failure? = none)
  (h : ∀ s ∈ reached z.algebra.table z.algebra.basis target z.identity.degrees,
    ∀ m ∈ z.matchings.toList, ∃ pairs, z.evaluate s m = .ok pairs)
include ht hd hw h

theorem visitSplit_finishes (batchSize : Nat) {split : List Name}
    (hsplit : split ∈ (splits z.algebra.table target z.identity.degrees).toList) (p : Progress) :
    (z.visitSplit batchSize split .unlimited p).result = .ok () ∧
      (z.visitSplit batchSize split .unlimited p).token = .unlimited := by
  obtain ⟨hlen, hne, hn⟩ := Search.splits_spec ht hd hsplit
  have hrun := Walk.forEach_finishes (z.visitPartition batchSize)
    (Search.yields_partitions hlen hne hn).failure? (fun partition hpartition p => by
      refine Walk.forEach_finishes _ (Search.failure?_substitutions partition) (fun s hs p => ?_) _
      have hreached : s ∈ reached z.algebra.table z.algebra.basis target z.identity.degrees :=
        List.mem_flatMap.2 ⟨split, hsplit, List.mem_flatMap.2 ⟨partition, hpartition, hs⟩⟩
      obtain ⟨e, he⟩ := equation_finishes hw (h s hreached) batchSize
      unfold visitSubstitution
      rw [he]
      exact ⟨rfl, rfl⟩) p.countSplit
  unfold visitSplit
  simp only [hrun.1]
  exact ⟨trivial, hrun.2⟩

theorem visitTarget_finishes (batchSize : Nat) :
    (z.visitTarget batchSize target .unlimited).result = .ok () :=
  (Walk.forEach_finishes _ (Search.failure?_splits ht _)
    (fun _ hsplit p => visitSplit_finishes ht hd hw h batchSize hsplit p) _).1

end

end Linearization

/-! ## Outcomes -/

variable {e : Identity} {a : PartialAlgebra} {target : Name} {config : Config} {t : Token}

theorem mem_of_mem_keptEquations {run : Walk.Run Progress} {q : Equation}
    (h : q ∈ keptEquations run) : q ∈ run.state.equations := by
  unfold keptEquations at h
  split at h
  · exact Array.mem_toList_iff.1 (List.mem_of_mem_take h)
  · exact Array.mem_toList_iff.1 h

theorem mem_of_mem_ofResult {result : Except Failure Unit} {equations : List Equation}
    {stats : Stats} {q : Equation}
    (h : q ∈ (Outcome.ofResult result equations stats).equations) : q ∈ equations := by
  unfold Outcome.ofResult at h
  split at h
  · exact h
  · exact h
  · cases h

/-- A run on a known target whose matchings fit in memory is a search. -/
theorem generate_eq_search (ht : a.table.contains target = true) {z : Linearization}
    (hz : Linearization.ofIdentity e a = .ok z) :
    generate e target a config t =
      (.ofResult (z.visitTarget config.batchSize target t).result
          (keptEquations (z.visitTarget config.batchSize target t))
          (z.visitTarget config.batchSize target t).state.stats,
        (z.visitTarget config.batchSize target t).token) := by
  simp only [generate, ht, hz, Bool.not_true, Bool.false_eq_true, if_false]

theorem Outcome.status_ofResult_error {f : Failure} (hf : f ≠ .cancelled)
    (equations : List Equation) (stats : Stats) :
    (ofResult (.error f) equations stats).status = .failed f := by
  cases f <;> first | rfl | exact absurd rfl hf

theorem Outcome.eq_error_of_status_ofResult {result : Except Failure Unit}
    {equations : List Equation} {stats : Stats} {f : Failure}
    (h : (ofResult result equations stats).status = .failed f) : result = .error f := by
  unfold ofResult ofEquations at h
  split at h
  · simp only at h
    split at h <;> cases h
  · cases h
  · cases h
    rfl

/-- The run came to its end, with equations or without any. -/
def Status.IsFinished (s : Status) : Prop := s = .complete ∨ s = .empty

/-- A run comes to its end or is cancelled exactly if its search is. -/
theorem Outcome.isFinished_ofResult {result : Except Failure Unit} {equations : List Equation}
    {stats : Stats} :
    (ofResult result equations stats).status.IsFinished ↔ result = .ok () := by
  unfold ofResult ofEquations Status.IsFinished
  split
  · simp only [iff_true]
    cases equations.isEmpty <;> simp
  · simp
  · simp

theorem Outcome.cancelled_ofResult {result : Except Failure Unit} {equations : List Equation}
    {stats : Stats} :
    (ofResult result equations stats).status = .cancelled ↔ result = .error .cancelled := by
  unfold ofResult ofEquations
  split
  · cases equations.isEmpty <;> simp
  · simp
  · rename_i hf
    simpa using hf

theorem Outcome.equations_ofResult {result : Except Failure Unit} {equations : List Equation}
    {stats : Stats} (h : result = .ok () ∨ result = .error .cancelled) :
    (ofResult result equations stats).equations = equations := by
  rcases h with rfl | rfl <;> rfl

/-- Every equation that a run returns consists of the pairs at a substitution that is reached. -/
theorem exists_reached_of_mem {q : Equation} (h : q ∈ (generate e target a config t).1.equations) :
    a.table.contains target = true ∧ ∃ z, Linearization.ofIdentity e a = .ok z ∧
      ∃ s ∈ reached a.table a.basis target e.degrees, z.PairsAt s q.pairs := by
  unfold generate at h
  split at h
  · exact absurd (mem_of_mem_ofResult h) List.not_mem_nil
  rename_i hcontains
  split at h
  · exact absurd (mem_of_mem_ofResult h) List.not_mem_nil
  rename_i z hz
  obtain ⟨rfl, rfl, -⟩ := Linearization.ofIdentity_eq_ok hz
  refine ⟨by simpa using hcontains, z, hz, ?_⟩
  have hmem := mem_of_mem_keptEquations (mem_of_mem_ofResult h)
  rcases (z.covers_visitTarget config.batchSize target t).adds q hmem with hq | hq
  · exact absurd hq (by simp [Progress.start])
  · exact hq

/-- A run that ends with or without equations has found the pairs at all substitutions, and returns
them where there are any. -/
theorem pairsAt_of_finished (h : (generate e target a config t).1.status = .complete ∨
      (generate e target a config t).1.status = .empty) :
    a.table.contains target = true ∧ ∃ z, Linearization.ofIdentity e a = .ok z ∧
      ∀ s ∈ reached a.table a.basis target e.degrees, ∃ pairs, z.PairsAt s pairs ∧
        (pairs = [] ∨ ⟨pairs⟩ ∈ (generate e target a config t).1.equations) := by
  unfold generate at h ⊢
  split at h
  · rcases h with h | h <;> cases h
  rename_i hcontains
  rw [if_neg hcontains]
  split at h
  · rename_i failure hfailure
    cases failure <;> rcases h with h | h <;> cases h
  rename_i z hz
  obtain ⟨rfl, rfl, -⟩ := Linearization.ofIdentity_eq_ok hz
  refine ⟨by simpa using hcontains, z, hz, ?_⟩
  have hcovers := z.covers_visitTarget config.batchSize target t
  simp only at h ⊢
  cases hrun : (z.visitTarget config.batchSize target t).result with
  | ok u =>
    intro s hs
    obtain ⟨pairs, hpairs, hmem⟩ := hcovers.finds hrun s hs
    refine ⟨pairs, hpairs, hmem.imp_right fun hmem => ?_⟩
    simpa [Outcome.ofResult, Outcome.ofEquations, keptEquations, hrun] using hmem
  | error failure =>
    rw [hrun] at h
    cases failure <;> rcases h with h | h <;> cases h

/-- Such a run has evaluated its identity at all substitutions under all matchings. -/
theorem exists_evaluate_of_finished (h : (generate e target a config t).1.status.IsFinished)
    {z : Linearization} (hz : Linearization.ofIdentity e a = .ok z) {s : Substitution}
    (hs : s ∈ reached a.table a.basis target e.degrees) {m : Matching}
    (hm : m ∈ z.matchings.toList) : ∃ pairs, z.evaluate s m = .ok pairs := by
  obtain ⟨-, z', hz', hfound⟩ := pairsAt_of_finished h
  cases hz.symm.trans hz'
  obtain ⟨_, ⟨ps, hps, -⟩, -⟩ := hfound s hs
  obtain ⟨pairs, -, hpairs⟩ := exists_of_forall₂ hps hm
  exact ⟨pairs, hpairs⟩

theorem mem_of_mem_generateFrom {identities : List Identity} {equations : Array Equation}
    {stats : Stats} {q : Equation}
    (h : q ∈ (generateFrom target a config identities t equations stats).1.equations) :
    q ∈ equations ∨ ∃ e ∈ identities, ∃ t', q ∈ (generate e target a config t').1.equations := by
  induction identities generalizing t equations stats with
  | nil => exact .inl (Array.mem_toList_iff.1 (mem_of_mem_ofResult h))
  | cons e rest ih =>
    have hmem : q ∈ equations ++ (generate e target a config t).1.equations →
        q ∈ equations ∨
          ∃ e' ∈ e :: rest, ∃ t', q ∈ (generate e' target a config t').1.equations := by
      intro hq
      rw [← Array.mem_toList_iff, Array.toList_appendList, List.mem_append,
        Array.mem_toList_iff] at hq
      exact hq.imp_right fun hq => ⟨e, List.mem_cons_self, t, hq⟩
    simp only [generateFrom] at h
    split at h
    · rcases ih h with hq | ⟨e', he', t', hq⟩
      · exact hmem hq
      · exact .inr ⟨e', List.mem_cons_of_mem _ he', t', hq⟩
    · rcases ih h with hq | ⟨e', he', t', hq⟩
      · exact hmem hq
      · exact .inr ⟨e', List.mem_cons_of_mem _ he', t', hq⟩
    · exact hmem (Array.mem_toList_iff.1 h)

/-- A run for several identities returns equations of single runs. -/
theorem mem_of_mem_generateAll {identities : List Identity} {q : Equation}
    (h : q ∈ (generateAll identities target a config t).1.equations) :
    ∃ e ∈ identities, ∃ t', q ∈ (generate e target a config t').1.equations := by
  unfold generateAll at h
  split at h
  · exact absurd (mem_of_mem_ofResult h) List.not_mem_nil
  rcases mem_of_mem_generateFrom h with hq | ⟨e, he, t', hq⟩
  · exact absurd hq (by simp)
  · exact ⟨e, (List.mem_filter.1 he).1, t', hq⟩

/-- With a token that grants every poll, a run ends with or without equations if its identity can be
evaluated at all substitutions. -/
theorem generate_finishes (ht : a.table.contains target = true) (hd : e.degrees ≠ [])
    {z : Linearization} (hz : Linearization.ofIdentity e a = .ok z)
    (h : ∀ s ∈ reached a.table a.basis target e.degrees, ∀ m ∈ matchingLists e.degrees,
      ∃ pairs, z.evaluate s m = .ok pairs) :
    (generate e target a config .unlimited).1.status = .complete ∨
      (generate e target a config .unlimited).1.status = .empty := by
  obtain ⟨rfl, rfl, hm⟩ := Linearization.ofIdentity_eq_ok hz
  have hyields := yields_matchings z.identity.degrees
  rw [← hm] at hyields
  have hrun := Linearization.visitTarget_finishes ht hd hyields.failure?
    (fun s hs m hmem => h s hs m (hyields.toList ▸ hmem)) config.batchSize
  unfold generate
  rw [ht, hz]
  simp only [hrun, Outcome.ofResult, Outcome.ofEquations]
  cases (keptEquations (z.visitTarget config.batchSize target .unlimited)).isEmpty with
  | true => exact .inr rfl
  | false => exact .inl rfl

end Nonassoc
