import Nonassoc.Proofs.Batches

/-!
# What a budget pays for

Every split, partition and substitution that a search visits has a poll of its own, the last one
before it (`Walk.Paid`), and so has every batch of matchings. So a run that is granted `k` polls counts
at most `k` splits, partitions and substitutions together, and at most `k` batches of matchings
(`generate_isWithin`, `generateAll_isWithin`).

The bound is a potential: what is left of the budget, weighted with the batch size `b`, and the counts
so far, with the same weight, do not add up to more than before (`Run.Costs`).
-/

namespace Nonassoc

open Multidegree (Name Table)
open Search (Partition Substitution)

namespace Walk

variable {α β σ ε : Type}

/-! ## Walks that pay for their items -/

/-- Every item is all that comes after some poll. -/
def Paid : Walk α → Prop
  | done => True
  | fail _ => True
  | visit _ => False
  | poll rest => (rest ()).Paid ∨ ∃ a, rest () = visit a
  | fork v w => v.Paid ∧ (w ()).Paid

/-- After a poll, the walk pays for its items. -/
def Due (w : Walk α) : Prop := w.Paid ∨ ∃ a, w = visit a

theorem Due.visit (a : α) : (visit a).Due := .inr ⟨a, rfl⟩

section
variable {wrap : ε → Failure} {x : Except ε β} {next : β → Walk α}

theorem Paid.attempt (h : ∀ b, (next b).Paid) : (attempt wrap x next).Paid := by
  cases x with
  | ok b => exact h b
  | error e => trivial

theorem Due.attempt (h : ∀ b, (next b).Due) : (Walk.attempt wrap x next).Due := by
  cases x with
  | ok b => exact h b
  | error e => exact .inl trivial

end

theorem Paid.chooseFrom {next : Nat → Walk α} (h : ∀ i, (next i).Paid) (first count : Nat) :
    (Walk.chooseFrom first count next).Paid := by
  fun_induction Walk.chooseFrom first count next with
  | case1 => trivial
  | case2 first next => exact h first
  | case3 first next count ih => exact ⟨h first, ih h⟩

theorem Paid.filter {w : Walk α} (h : w.Paid) (p : α → Bool) : (w.filter p).Paid := by
  induction w with
  | done => trivial
  | fail e => trivial
  | visit a => exact h.elim
  | poll rest ih =>
    rcases h with h | ⟨a, ha⟩
    · exact .inl (ih () h)
    · show ((rest ()).filter p).Due
      rw [ha, Walk.filter]
      split
      · exact .visit a
      · exact .inl trivial
  | fork v w hv hw => exact ⟨hv h.1, hw () h.2⟩

/-! ## Runs within a budget -/

/-- What is left of a budget of `k` polls, each worth `b`, pays for what the run adds to the cost, all
but an amount of `c`. -/
def Run.Costs (b : Nat) (cost : σ → Nat) (c k : Nat) (s : σ) (run : Run σ) : Prop :=
  ∃ k', b * k' + cost run.state ≤ b * k + cost s + c ∧
    (run.result = .ok () → run.token = .ofBudget (some k'))

/-- If a visit costs no more than a poll is worth, a walk that pays for its items costs nothing. -/
theorem forEach_costs {b : Nat} {cost : σ → Nat} {visitor : α → Token → σ → Run σ}
    (h : ∀ a k s, (visitor a (.ofBudget (some k)) s).Costs b cost b k s) {w : Walk α} (hw : w.Paid)
    (k : Nat) (s : σ) : (w.forEach visitor (.ofBudget (some k)) s).Costs b cost 0 k s := by
  induction w generalizing k s with
  | done => exact ⟨k, le_rfl, fun _ => rfl⟩
  | fail e => exact ⟨k, le_rfl, fun h => by cases h⟩
  | visit a => exact hw.elim
  | poll rest ih =>
    cases k with
    | zero => exact ⟨0, le_rfl, fun h => by cases h⟩
    | succ k =>
      show ((rest ()).forEach visitor (.ofBudget (some k)) s).Costs b cost 0 (k + 1) s
      rw [Run.Costs, Nat.mul_succ]
      rcases hw with hw | ⟨a, ha⟩
      · obtain ⟨k', hle, htoken⟩ := ih () hw k s
        exact ⟨k', by omega, htoken⟩
      · rw [ha]
        obtain ⟨k', hle, htoken⟩ := h a k s
        exact ⟨k', hle.trans (by omega), htoken⟩
  | fork v w hv hw' =>
    obtain ⟨k', hle, htoken⟩ := hv hw.1 k s
    rw [forEach]
    generalize v.forEach visitor (.ofBudget (some k)) s = run at hle htoken
    obtain ⟨result, t, s'⟩ := run
    cases result with
    | error e => exact ⟨k', hle, fun h => by cases h⟩
    | ok =>
      obtain rfl : t = .ofBudget (some k') := htoken rfl
      obtain ⟨k'', hle', htoken'⟩ := hw' () hw.2 k' s'
      exact ⟨k'', hle'.trans hle, htoken'⟩

end Walk

open Walk (Paid Due Run)

/-! ## The searches pay for their items -/

namespace Search

variable {α : Type}

theorem paid_fillColumn {lastColumn : Bool} {bound : UInt8} {next : List Share → Balance → Walk α}
    (h : ∀ shares balance, (next shares balance).Paid) (shares : List Share) (used : UInt8)
    (balance : Balance) (before : List Share) :
    (fillColumn lastColumn bound next shares used balance before).Paid := by
  induction shares generalizing used balance before with
  | nil => trivial
  | cons share rest ih =>
    left
    split
    · trivial
    refine Paid.chooseFrom (fun i => ?_) _ _
    dsimp only
    split
    · trivial
    split
    · split
      · exact h _ _
      split
      · trivial
      · exact ih _ _ _
    · trivial

theorem paid_fillColumns {next : List Share → Walk α} (h : ∀ shares, (next shares).Due)
    (bounds : List UInt8) (shares : List Share) (balance : Balance) :
    (fillColumns next bounds shares balance).Paid := by
  induction bounds generalizing shares balance with
  | nil => exact h shares
  | cons bound rest ih => exact paid_fillColumn ih shares 0 balance []

theorem paid_splits (t : Table) (target : Name) (least : List Nat) :
    (splits t target least).Paid := by
  refine Paid.attempt fun m => ?_
  split
  · trivial
  · exact paid_fillColumns (fun _ => Due.attempt .visit) _ _ _

theorem paid_partsOf {t : Table} {next : List Name → Walk α} (h : ∀ parts, (next parts).Due)
    (count : Nat) (residual : Name) (bound : Option Name) (taken : List Name) :
    (partsOf t next count residual bound taken).Paid := by
  fun_induction partsOf t next count residual bound taken with
  | case1 residual bound taken => exact .inl (Paid.attempt fun _ => trivial)
  | case2 residual bound taken =>
    refine Due.attempt fun n => ?_
    split
    · exact .inl trivial
    split
    · exact h _
    · exact .inl trivial
  | case3 count residual bound taken ih =>
    refine .inl (Paid.attempt fun n => ?_)
    split
    · trivial
    refine Paid.chooseFrom (fun part => Paid.attempt fun rest => ?_) _ _
    cases rest with
    | none => trivial
    | some rest => exact ih part rest

theorem due_partsOfAll (t : Table) (l : List (Name × Nat)) (taken : Partition) :
    (partsOfAll t l taken).Due := by
  induction l generalizing taken with
  | nil => exact .visit _
  | cons x rest ih => exact .inl (paid_partsOf (fun parts => ih (parts :: taken)) _ _ _ _)

theorem paid_partitions (t : Table) (split : List Name) (degrees : List Nat) :
    (partitions t split degrees).Paid := by
  rw [partitions]
  split_ifs with hlength hempty
  · trivial
  · trivial
  · cases split with
    | nil => exact absurd rfl hempty
    | cons n split =>
      cases degrees with
      | nil => exact absurd (Nat.succ_ne_zero _) hlength
      | cons d degrees =>
        exact (paid_partsOf (fun _ => due_partsOfAll t _ _) d n none []).filter _

theorem paid_fillRow (b : Basis) {next : List BasisId → Walk α} (h : ∀ row, (next row).Due)
    (names : List Name) (taken : List BasisId) : (fillRow b next names taken).Paid := by
  induction names generalizing taken with
  | nil => exact h _
  | cons name rest ih => exact .inl (Paid.chooseFrom (fun x => ih (x :: taken)) _ _)

theorem paid_substitutions (b : Basis) (p : Partition) : (substitutions b p).Paid := by
  suffices h : ∀ taken, (fillRows b p taken).Paid from h []
  induction p with
  | nil => exact fun taken => Due.visit taken.reverse
  | cons names rest ih =>
    exact fun taken => paid_fillRow b (fun row => .inl (ih (row :: taken))) names []

end Search

/-! ## Counts within a budget -/

/-- The counts, with all but the number of matchings worth `b` each. -/
def Stats.cost (b : Nat) (s : Stats) : Nat :=
  b * (s.subtypes + s.partitions + s.substitutions) + s.permutations

/-- The counts are those of at most `k` visits and `k` batches of `b` matchings. -/
def Stats.IsWithin (b k : Nat) (s : Stats) : Prop :=
  s.subtypes + s.partitions + s.substitutions ≤ k ∧ s.permutations ≤ b * k

theorem Stats.isWithin_of_cost_le {b k : Nat} (hb : 0 < b) {s : Stats} (h : s.cost b ≤ b * k) :
    s.IsWithin b k :=
  ⟨Nat.le_of_mul_le_mul_left ((Nat.le_add_right ..).trans h) hb, (Nat.le_add_left ..).trans h⟩

theorem Stats.cost_add (b : Nat) (s s' : Stats) : (s.add s').cost b = s.cost b + s'.cost b := by
  simp only [cost, add, Nat.mul_add]
  omega

theorem Outcome.cost_ofResult (b : Nat) (result : Except Failure Unit) (equations : List Equation)
    (s : Stats) : (ofResult result equations s).stats.cost b = s.cost b := by
  unfold ofResult
  split <;> rfl

namespace Linearization

variable {z : Linearization} (hm : z.matchings = Nonassoc.matchings z.identity.degrees)
  (hcount : z.count = z.matchings.toList.length) (batchSize : Nat)
include hm hcount

/-- A substitution is worth a poll, and its batches are paid for by polls of their own. -/
theorem visitSubstitution_costs (s : Substitution) (k : Nat) (p : Progress) :
    (z.visitSubstitution batchSize s (.ofBudget (some k)) p).Costs (max batchSize 1)
      (·.stats.cost (max batchSize 1)) (max batchSize 1) k p := by
  rw [visitSubstitution]
  rcases hequation : z.equation batchSize s (.ofBudget (some k)) with ⟨f | e, t⟩
  · refine ⟨0, ?_, fun h => by cases h⟩
    simp only [Progress.countSubstitution, Stats.cost, Nat.mul_add]
    omega
  · obtain ⟨hle, hrun⟩ := equation_ofBudget hm (congrArg Prod.fst hequation)
    obtain rfl := congrArg Prod.snd (hequation.symm.trans (hrun batchSize k hle))
    refine ⟨_, ?_, fun _ => rfl⟩
    have hbatches : z.count ≤
        max batchSize 1 * (z.matchings.toList.length ⌈/⌉ max batchSize 1) :=
      hcount.le.trans ((ceilDiv_le_iff_le_mul (by omega)).1 le_rfl)
    have hpaid := Nat.mul_le_mul_left (max batchSize 1) hle
    simp only [Progress.countSubstitution, Progress.record, Stats.cost, Nat.mul_add, Nat.mul_sub]
    omega

theorem visitPartition_costs (partition : Partition) (k : Nat) (p : Progress) :
    (z.visitPartition batchSize partition (.ofBudget (some k)) p).Costs (max batchSize 1)
      (·.stats.cost (max batchSize 1)) (max batchSize 1) k p := by
  obtain ⟨k', hle, htoken⟩ := Walk.forEach_costs (visitSubstitution_costs hm hcount batchSize)
    (Search.paid_substitutions z.algebra.basis partition) k p.countPartition
  refine ⟨k', hle.trans (le_of_eq ?_), htoken⟩
  simp only [Progress.countPartition, Stats.cost, Nat.mul_add]
  omega

theorem visitSplit_costs (split : List Name) (k : Nat) (p : Progress) :
    (z.visitSplit batchSize split (.ofBudget (some k)) p).Costs (max batchSize 1)
      (·.stats.cost (max batchSize 1)) (max batchSize 1) k p := by
  obtain ⟨k', hle, htoken⟩ := Walk.forEach_costs (visitPartition_costs hm hcount batchSize)
    (Search.paid_partitions z.algebra.table split z.identity.degrees) k p.countSplit
  have hcost : max batchSize 1 * k + p.countSplit.stats.cost (max batchSize 1) =
      max batchSize 1 * k + p.stats.cost (max batchSize 1) + max batchSize 1 := by
    simp only [Progress.countSplit, Stats.cost, Nat.mul_add]
    omega
  unfold visitSplit
  dsimp only
  split
  · exact ⟨k', hle.trans hcost.le, htoken⟩
  · exact ⟨k', hle.trans hcost.le, htoken⟩

theorem visitTarget_costs (target : Name) (k : Nat) :
    (z.visitTarget batchSize target (.ofBudget (some k))).Costs (max batchSize 1)
      (·.stats.cost (max batchSize 1)) 0 k .start :=
  Walk.forEach_costs (visitSplit_costs hm hcount batchSize)
    (Search.paid_splits z.algebra.table target z.identity.degrees) k .start

end Linearization

section
variable (target : Name) (a : PartialAlgebra) (config : Config)

theorem generate_costs (e : Identity) (k : Nat) :
    ∃ k', max config.batchSize 1 * k' +
          (generate e target a config (.ofBudget (some k))).1.stats.cost (max config.batchSize 1) ≤
        max config.batchSize 1 * k ∧
      ((generate e target a config (.ofBudget (some k))).1.status.IsFinished →
        (generate e target a config (.ofBudget (some k))).2 = .ofBudget (some k')) := by
  rcases generate_cases e target a with ⟨f, -, hf⟩ | ⟨z, hz, -, -, hrun⟩
  · rw [(hf config _).1, Outcome.cost_ofResult]
    exact ⟨k, le_rfl, fun _ => rfl⟩
  · obtain ⟨rfl, rfl, hm⟩ := Linearization.ofIdentity_eq_ok hz
    obtain ⟨k', hle, htoken⟩ := Linearization.visitTarget_costs hm
      (Linearization.length_matchings hz).symm config.batchSize target k
    rw [(hrun config _).1, Outcome.cost_ofResult, Outcome.isFinished_ofResult]
    exact ⟨k', hle, htoken⟩

theorem generateFrom_costs (identities : List Identity) (k : Nat) (equations : Array Equation)
    (stats : Stats) :
    (generateFrom target a config identities (.ofBudget (some k)) equations stats).1.stats.cost
        (max config.batchSize 1) ≤
      max config.batchSize 1 * k + stats.cost (max config.batchSize 1) := by
  induction identities generalizing k equations stats with
  | nil =>
    rw [generateFrom, Outcome.cost_ofResult]
    exact Nat.le_add_left ..
  | cons e rest ih =>
    obtain ⟨k', hle, htoken⟩ := generate_costs target a config e k
    by_cases hfinished :
        (generate e target a config (.ofBudget (some k))).1.status.IsFinished
    · rw [(generateFrom_of_isFinished rest equations stats hfinished).1, htoken hfinished]
      refine (ih k' _ _).trans ?_
      rw [Stats.cost_add]
      omega
    · rw [(generateFrom_of_not_isFinished rest equations stats hfinished).1, Stats.cost_add]
      omega

theorem generate_isWithin (e : Identity) (k : Nat) :
    (generate e target a config (.ofBudget (some k))).1.stats.IsWithin
      (max config.batchSize 1) k := by
  obtain ⟨k', hle, -⟩ := generate_costs target a config e k
  exact Stats.isWithin_of_cost_le (by omega) ((Nat.le_add_left ..).trans hle)

theorem generateAll_isWithin (identities : List Identity) (k : Nat) :
    (generateAll identities target a config (.ofBudget (some k))).1.stats.IsWithin
      (max config.batchSize 1) k := by
  refine Stats.isWithin_of_cost_le (by omega) ?_
  rw [generateAll]
  split
  · rw [Outcome.cost_ofResult]
    exact Nat.zero_le _
  · exact generateFrom_costs target a config _ k #[] .zero

end

end Nonassoc
