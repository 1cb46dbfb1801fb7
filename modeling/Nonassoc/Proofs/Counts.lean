import Mathlib.Algebra.BigOperators.Ring.List
import Mathlib.Algebra.Ring.Nat
import Nonassoc.Proofs.Cancellation

/-!
# What a search counts

A search that comes to its end has counted all splits, all their partitions and all their
substitutions, and the matchings of every substitution (`stats_visitTarget`). What it keeps are the
equations at the substitutions that it reaches (`keptEquations_eq_reached`). So the outcome of a run
that comes to its end is known (`generate_of_isFinished`).
-/

namespace Nonassoc

open Multidegree (Name)
open Search (splits partitions substitutions reached)

namespace Linearization

variable {z : Linearization}

/-- A count that grows by a fixed number with every split, partition and substitution. -/
theorem visitTarget_adds (value : Stats → Nat) (forSplit forPartition forSubstitution : Nat)
    (hsplit : ∀ p : Progress, value p.countSplit.stats = value p.stats + forSplit)
    (hpartition : ∀ p : Progress, value p.countPartition.stats = value p.stats + forPartition)
    (hsubstitution : ∀ (p : Progress) (e : Option Equation),
      value (p.countSubstitution.record z.count e).stats = value p.stats + forSubstitution)
    {batchSize : Nat} {target : Name} {t : Token}
    (h : (z.visitTarget batchSize target t).result = .ok ()) :
    value (z.visitTarget batchSize target t).state.stats = value .zero +
      ((splits z.algebra.table target z.identity.degrees).toList.length * forSplit +
        (((splits z.algebra.table target z.identity.degrees).toList.flatMap fun split =>
            (partitions z.algebra.table split z.identity.degrees).toList).length * forPartition +
          (reached z.algebra.table z.algebra.basis target z.identity.degrees).length *
            forSubstitution)) := by
  have hvisit : ∀ s t p, (z.visitSubstitution batchSize s t p).result = .ok () →
      value (z.visitSubstitution batchSize s t p).state.stats =
        value p.stats + forSubstitution := by
    intro s t p hr
    rw [visitSubstitution_eq_ok hr, hsubstitution]
  have hvisit' : ∀ partition t p, (z.visitPartition batchSize partition t p).result = .ok () →
      value (z.visitPartition batchSize partition t p).state.stats = value p.stats +
        (forPartition +
          (substitutions z.algebra.basis partition).toList.length * forSubstitution) := by
    intro partition t p hr
    have hadds := Walk.forEach_adds (value ·.stats) (fun _ => forSubstitution) hvisit hr
    rw [hpartition, List.map_const', List.sum_replicate, smul_eq_mul] at hadds
    exact hadds.trans (Nat.add_assoc _ _ _)
  have hvisit'' : ∀ split t p, (z.visitSplit batchSize split t p).result = .ok () →
      value (z.visitSplit batchSize split t p).state.stats = value p.stats +
        (forSplit +
          ((partitions z.algebra.table split z.identity.degrees).toList.map fun partition =>
            forPartition +
              (substitutions z.algebra.basis partition).toList.length * forSubstitution).sum) := by
    intro split t p hr
    rw [result_visitSplit] at hr
    have hadds := Walk.forEach_adds (value ·.stats) _ hvisit' hr
    rw [hsplit] at hadds
    simp only [visitSplit, hr]
    exact hadds.trans (Nat.add_assoc _ _ _)
  refine (Walk.forEach_adds (value ·.stats) _ hvisit'' h).trans ?_
  simp only [reached, List.length_flatMap, List.sum_map_add, List.map_const', List.sum_replicate,
    smul_eq_mul, List.sum_map_mul_right]
  rfl

/-- A search that comes to its end has counted everything that it goes through. -/
theorem stats_visitTarget {batchSize : Nat} {target : Name} {t : Token}
    (h : (z.visitTarget batchSize target t).result = .ok ()) :
    (z.visitTarget batchSize target t).state.stats =
      { subtypes := (splits z.algebra.table target z.identity.degrees).toList.length
        partitions := ((splits z.algebra.table target z.identity.degrees).toList.flatMap fun split =>
          (partitions z.algebra.table split z.identity.degrees).toList).length
        substitutions :=
          (reached z.algebra.table z.algebra.basis target z.identity.degrees).length
        permutations :=
          (reached z.algebra.table z.algebra.basis target z.identity.degrees).length * z.count
        equations := 0
        basisPairs := 0 } := by
  have hsubtypes := visitTarget_adds Stats.subtypes 1 0 0 (fun _ => rfl) (fun _ => rfl)
    (fun _ _ => rfl) h
  have hpartitions := visitTarget_adds Stats.partitions 0 1 0 (fun _ => rfl) (fun _ => rfl)
    (fun _ _ => rfl) h
  have hsubstitutions := visitTarget_adds Stats.substitutions 0 0 1 (fun _ => rfl) (fun _ => rfl)
    (fun _ _ => rfl) h
  have hpermutations := visitTarget_adds Stats.permutations 0 0 z.count (fun _ => rfl)
    (fun _ => rfl) (fun _ _ => rfl) h
  have hequations := visitTarget_adds Stats.equations 0 0 0 (fun _ => rfl) (fun _ => rfl)
    (fun _ _ => rfl) h
  have hpairs := visitTarget_adds Stats.basisPairs 0 0 0 (fun _ => rfl) (fun _ => rfl)
    (fun _ _ => rfl) h
  simp only [Stats.zero, Nat.mul_zero, Nat.mul_one, Nat.add_zero, Nat.zero_add] at *
  rcases hstats : (z.visitTarget batchSize target t).state.stats with ⟨a, b, c, d, e, f⟩
  simp only [hstats] at hsubtypes hpartitions hsubstitutions hpermutations hequations hpairs
  rw [hsubtypes, hpartitions, hsubstitutions, hpermutations, hequations, hpairs]

/-- A search that comes to its end keeps the equations at the substitutions that it reaches. -/
theorem keptEquations_eq_reached {batchSize : Nat} {target : Name}
    {t : Token} (h : (z.visitTarget batchSize target t).result = .ok ()) :
    keptEquations (z.visitTarget batchSize target t) =
      (reached z.algebra.table z.algebra.basis target z.identity.degrees).flatMap fun s =>
        (z.equationAt s).toList := by
  rw [keptEquations_visitTarget (.inl h), Walk.finished_eq_toList h, reached, List.flatMap_assoc]
  refine congrArg (List.flatMap · _) (funext fun split => ?_)
  rw [equationsOf, List.flatMap_assoc]

end Linearization

/-- The outcome of a run that comes to its end. -/
theorem generate_of_isFinished {e : Identity} {target : Name} {a : PartialAlgebra} {config : Config}
    {t : Token} (h : (generate e target a config t).1.status.IsFinished) {z : Linearization}
    (hz : Linearization.ofIdentity e a = .ok z) :
    (generate e target a config t).1 =
      .ofResult (.ok ())
        ((reached a.table a.basis target e.degrees).flatMap fun s => (z.equationAt s).toList)
        { subtypes := (splits a.table target e.degrees).toList.length
          partitions := ((splits a.table target e.degrees).toList.flatMap fun split =>
            (partitions a.table split e.degrees).toList).length
          substitutions := (reached a.table a.basis target e.degrees).length
          permutations := (reached a.table a.basis target e.degrees).length * z.count
          equations := 0
          basisPairs := 0 } := by
  have ht := (pairsAt_of_finished h).1
  obtain ⟨rfl, rfl, -⟩ := Linearization.ofIdentity_eq_ok hz
  rw [generate_eq_search ht hz] at h ⊢
  have hresult := Outcome.isFinished_ofResult.1 h
  rw [hresult, Linearization.keptEquations_eq_reached hresult,
    Linearization.stats_visitTarget hresult]

end Nonassoc
