import Nonassoc.Proofs.Charges
import Nonassoc.Proofs.Checked.Partitions
import Nonassoc.Proofs.Checked.Splits
import Nonassoc.Proofs.Checked.Substitutions
import Nonassoc.Proofs.Splits
import Nonassoc.Proofs.Visits

/-!
# Interrupted searches

What a search does does not depend on who watches it: it polls and visits in a fixed order, the
`Walk.steps` of its walk, and goes on until a poll is refused or a visit fails
(`Walk.forEach_eq_replay`). So what has been visited when a search ends early is an initial part of
what it visits in all. Since every visit has a poll in front of it (`Walk.Spaced`), nothing more is
visited once the token is cancelled, be it by the visitor.

`Walk.StopsExactly` says this of a search in terms of the calls that its visitor gets;
`Walk.stopsExactly` proves it by induction on the steps. Main result: `searches_stopExactly`, for the
three searches and for their programs on memory.
-/

namespace Nonassoc.Walk

variable {α β σ : Type}

/-! ## Steps -/

/-- What a walk does: it polls, or it visits an item. -/
inductive Step (α : Type) where
  | poll
  | visit (item : α)

namespace Step

/-- The item of a visit. -/
def item? : Step α → Option α
  | poll => none
  | visit a => some a

/-- The step with another item. -/
def map (f : α → β) : Step α → Step β
  | poll => poll
  | visit a => visit (f a)

end Step

/-- The items of the visits. -/
def items (steps : List (Step α)) : List α := steps.filterMap Step.item?

@[simp] theorem items_nil : items ([] : List (Step α)) = [] := rfl

@[simp] theorem items_poll (rest : List (Step α)) : items (.poll :: rest) = items rest := rfl

@[simp] theorem items_visit (a : α) (rest : List (Step α)) :
    items (.visit a :: rest) = a :: items rest := rfl

@[simp] theorem items_append (l l' : List (Step α)) : items (l ++ l') = items l ++ items l' :=
  List.filterMap_append

/-- Takes steps in turn, until a poll is refused or a visit fails. -/
def replay (visitor : α → Token → σ → Run σ) : List (Step α) → Token → σ → Run σ
  | [], t, s => ⟨.ok (), t, s⟩
  | .poll :: rest, t, s =>
    if t.poll.1 then replay visitor rest t.poll.2 s else ⟨.error .cancelled, t.poll.2, s⟩
  | .visit a :: rest, t, s =>
    match (visitor a t s).result with
    | .ok () => replay visitor rest (visitor a t s).token (visitor a t s).state
    | .error _ => visitor a t s

/-- The steps of a walk, in order. -/
def steps : Walk α → List (Step α)
  | done => []
  | fail _ => []
  | visit a => [.visit a]
  | poll rest => .poll :: (rest ()).steps
  | fork v w =>
    match v.failure? with
    | some _ => v.steps
    | none => v.steps ++ (w ()).steps

theorem items_steps (w : Walk α) : items w.steps = w.toList := by
  induction w with
  | done => rfl
  | fail e => rfl
  | visit a => rfl
  | poll rest ih => exact ih ()
  | fork v w hv hw =>
    rw [steps, toList]
    cases v.failure? with
    | none => simp only [items_append, hv, hw ()]
    | some e => exact hv

section
variable {visitor : α → Token → σ → Run σ}

theorem replay_append (l l' : List (Step α)) (t : Token) (s : σ) :
    replay visitor (l ++ l') t s =
      match (replay visitor l t s).result with
      | .ok () => replay visitor l' (replay visitor l t s).token (replay visitor l t s).state
      | .error _ => replay visitor l t s := by
  induction l generalizing t s with
  | nil => rfl
  | cons step l ih =>
    cases step with
    | poll =>
      rw [List.cons_append, replay, replay]
      split
      · exact ih _ _
      · rfl
    | visit a =>
      rw [List.cons_append, replay, replay]
      cases hr : (visitor a t s).result with
      | ok u => exact ih _ _
      | error e => simp only [hr]

/-- A walk that does not fail by itself is taken step by step. -/
theorem forEach_eq_replay {w : Walk α} (hw : w.failure? = none) (t : Token) (s : σ) :
    forEach visitor w t s = replay visitor w.steps t s := by
  induction w generalizing t s with
  | done => rfl
  | fail e => cases hw
  | visit a =>
    rw [forEach, steps, replay]
    rcases visitor a t s with ⟨_ | _, t', s'⟩ <;> rfl
  | poll rest ih =>
    rw [forEach_poll, steps, replay]
    simp only [ih () hw]
  | fork v w hv hw' =>
    have hfirst := failure?_of_fork hw
    rw [failure?_fork w hfirst] at hw
    rw [forEach_fork, hv hfirst]
    simp only [steps, hfirst, replay_append]
    cases (replay visitor v.steps t s).result with
    | ok u => exact hw' () hw _ _
    | error e => rfl

end

theorem replay_map (f : α → β) (visitor : β → Token → σ → Run σ) (l : List (Step α)) (t : Token)
    (s : σ) : replay visitor (l.map (Step.map f)) t s = replay (fun a => visitor (f a)) l t s := by
  induction l generalizing t s with
  | nil => rfl
  | cons step l ih => cases step <;> simp only [List.map_cons, Step.map, replay, ih]

/-! ## Steps with a poll in front of each visit -/

/-- Every visit comes right after a poll. -/
inductive Spaced : List (Step α) → Prop
  | nil : Spaced []
  | poll {rest : List (Step α)} : Spaced rest → Spaced (.poll :: rest)
  | visit {a : α} {rest : List (Step α)} : Spaced rest → Spaced (.poll :: .visit a :: rest)

theorem Spaced.append {l l' : List (Step α)} (h : Spaced l) (h' : Spaced l') : Spaced (l ++ l') := by
  induction h with
  | nil => exact h'
  | poll _ ih => exact .poll ih
  | visit _ ih => exact .visit ih

/-- What comes after a visit begins with a poll again. -/
theorem Spaced.of_append_visit {front rest : List (Step α)} {a : α}
    (h : Spaced (front ++ .visit a :: rest)) : Spaced rest := by
  generalize hl : front ++ .visit a :: rest = l at h
  induction h generalizing front with
  | nil => simp at hl
  | poll _ ih =>
    cases front with
    | nil => cases hl
    | cons step front => exact ih (List.cons.inj hl).2
  | visit hrest ih =>
    match front, hl with
    | [], hl => cases hl
    | [_], hl =>
      cases hl
      exact hrest
    | _ :: _ :: front, hl => exact ih (List.cons.inj (List.cons.inj hl).2).2

theorem Spaced.map (f : α → β) {l : List (Step α)} (h : Spaced l) :
    Spaced (l.map (Step.map f)) := by
  induction h with
  | nil => exact .nil
  | poll _ ih => exact .poll ih
  | visit _ ih => exact .visit ih

theorem Paid.spaced {w : Walk α} (h : w.Paid) : Spaced w.steps := by
  induction w with
  | done => exact .nil
  | fail e => exact .nil
  | visit a => exact h.elim
  | poll rest ih =>
    rw [steps]
    rcases h with h | ⟨a, ha⟩
    · exact .poll (ih () h)
    · rw [ha]
      exact .visit .nil
  | fork v w hv hw =>
    rw [steps]
    split
    · exact hv h.1
    · exact (hv h.1).append (hw () h.2)

/-! ## Calls -/

/-- A call of a visitor: the item, and the token and the state at that point. -/
structure Call (α σ : Type) where
  item : α
  token : Token
  state : σ

/-- What the visitor does when it is called. -/
def Call.run (visitor : α → Token → σ → Run σ) (c : Call α σ) : Run σ :=
  visitor c.item c.token c.state

/-- A visitor that also keeps a list of its calls. -/
def logging (visitor : α → Token → σ → Run σ) :
    α → Token → σ × List (Call α σ) → Run (σ × List (Call α σ)) := fun a t x =>
  let run := visitor a t x.1
  ⟨run.result, run.token, (run.state, x.2 ++ [⟨a, t, x.1⟩])⟩

/-- A search that calls a visitor, which may have states of any kind. -/
abbrev Enumerator (α : Type) := (σ : Type) → (α → Token → σ → Run σ) → Token → σ → Run σ

/-- The calls that a visitor gets from a search. -/
def Enumerator.calls (search : Enumerator α) (visitor : α → Token → σ → Run σ) (t : Token) (s : σ) :
    List (Call α σ) :=
  (search _ (logging visitor) t (s, [])).state.2

/-- The calls while steps are taken. -/
def called (visitor : α → Token → σ → Run σ) : List (Step α) → Token → σ → List (Call α σ)
  | [], _, _ => []
  | .poll :: rest, t, s => if t.poll.1 then called visitor rest t.poll.2 s else []
  | .visit a :: rest, t, s =>
    ⟨a, t, s⟩ ::
      match (visitor a t s).result with
      | .ok () => called visitor rest (visitor a t s).token (visitor a t s).state
      | .error _ => []

section
variable {visitor : α → Token → σ → Run σ}

/-- Keeping a list of calls changes nothing else. -/
theorem replay_logging (l : List (Step α)) (t : Token) (s : σ) (log : List (Call α σ)) :
    replay (logging visitor) l t (s, log) =
      ⟨(replay visitor l t s).result, (replay visitor l t s).token,
        ((replay visitor l t s).state, log ++ called visitor l t s)⟩ := by
  induction l generalizing t s log with
  | nil => simp only [replay, called, List.append_nil]
  | cons step l ih =>
    cases step with
    | poll =>
      rw [replay, replay, called]
      split
      · exact ih _ _ _
      · rw [List.append_nil]
    | visit a =>
      rw [replay, replay, called]
      cases hr : (visitor a t s).result with
      | ok u => simp only [logging, hr, ih, List.append_assoc, List.singleton_append]
      | error e => simp only [logging, hr]

theorem called_append {l : List (Step α)} {t t' : Token} {s s' : σ}
    (h : replay visitor l t s = ⟨.ok (), t', s'⟩) (l' : List (Step α)) :
    called visitor (l ++ l') t s = called visitor l t s ++ called visitor l' t' s' := by
  induction l generalizing t s with
  | nil =>
    cases h
    rfl
  | cons step l ih =>
    cases step with
    | poll =>
      rw [replay] at h
      rw [List.cons_append, called, called]
      split at h
      · rename_i hpoll
        rw [if_pos hpoll, if_pos hpoll, ih h]
      · cases h
    | visit a =>
      rw [replay] at h
      rw [List.cons_append, called, called]
      cases hr : (visitor a t s).result with
      | ok u =>
        rw [hr] at h
        simp only [ih h, List.cons_append]
      | error e =>
        rw [hr] at h
        cases (congrArg Run.result h).symm.trans hr

theorem items_called_initial (l : List (Step α)) (t : Token) (s : σ) :
    (called visitor l t s).map Call.item <+: items l := by
  induction l generalizing t s with
  | nil => exact List.prefix_rfl
  | cons step l ih =>
    cases step with
    | poll =>
      rw [called, items_poll]
      split
      · exact ih _ _
      · exact List.nil_prefix
    | visit a =>
      rw [called, items_visit, List.map_cons, List.prefix_cons_inj]
      cases (visitor a t s).result with
      | ok u => exact ih _ _
      | error e => exact List.nil_prefix

theorem items_called {l : List (Step α)} {t : Token} {s : σ}
    (h : (replay visitor l t s).result = .ok ()) : (called visitor l t s).map Call.item = items l := by
  induction l generalizing t s with
  | nil => rfl
  | cons step l ih =>
    cases step with
    | poll =>
      rw [replay] at h
      rw [called, items_poll]
      split at h
      · rename_i hpoll
        rw [if_pos hpoll, ih h]
      · cases h
    | visit a =>
      rw [replay] at h
      rw [called, items_visit, List.map_cons]
      cases hr : (visitor a t s).result with
      | ok u =>
        rw [hr] at h
        rw [ih h]
      | error e =>
        rw [hr] at h
        cases h.symm.trans hr

/-- A call is that of a step, up to which all went well, and the calls after it are those of the steps
after that one, if it succeeds. -/
theorem exists_of_called {l : List (Step α)} {t : Token} {s : σ} {before after : List (Call α σ)}
    {c : Call α σ} (h : called visitor l t s = before ++ c :: after) :
    ∃ front rest, l = front ++ .visit c.item :: rest ∧
      replay visitor front t s = ⟨.ok (), c.token, c.state⟩ ∧
      after = match (c.run visitor).result with
        | .ok () => called visitor rest (c.run visitor).token (c.run visitor).state
        | .error _ => [] := by
  induction l generalizing t s before with
  | nil => simp [called] at h
  | cons step l ih =>
    cases step with
    | poll =>
      rw [called] at h
      split at h
      · rename_i hpoll
        obtain ⟨front, rest, rfl, hfront, hafter⟩ := ih h
        refine ⟨.poll :: front, rest, rfl, ?_, hafter⟩
        rw [replay, if_pos hpoll, hfront]
      · simp at h
    | visit a =>
      rw [called] at h
      cases before with
      | nil =>
        obtain ⟨rfl, hafter⟩ := List.cons_eq_cons.1 h
        exact ⟨[], l, rfl, rfl, hafter.symm⟩
      | cons d before =>
        obtain ⟨-, hrest⟩ := List.cons_eq_cons.1 h
        cases hr : (visitor a t s).result with
        | ok u =>
          rw [hr] at hrest
          obtain ⟨front, rest, rfl, hfront, hafter⟩ := ih hrest
          refine ⟨.visit a :: front, rest, rfl, ?_, hafter⟩
          simp only [replay, hr, hfront]
        | error e =>
          rw [hr] at hrest
          simp at hrest

/-- A call that fails is the last one, and the steps end as it does. -/
theorem called_failed {l : List (Step α)} {t : Token} {s : σ} {before after : List (Call α σ)}
    {c : Call α σ} (h : called visitor l t s = before ++ c :: after) {e : Failure}
    (he : (c.run visitor).result = .error e) :
    after = [] ∧ replay visitor l t s = c.run visitor := by
  obtain ⟨front, rest, rfl, hfront, hafter⟩ := exists_of_called h
  rw [he] at hafter
  refine ⟨hafter, ?_⟩
  have hresult : (visitor c.item c.token c.state).result = .error e := he
  simp only [replay_append, hfront, replay, hresult]
  rfl

/-- With a cancelled token, steps that begin with a poll end there. -/
theorem Spaced.of_cancelled {l : List (Step α)} (hl : Spaced l) {t : Token} (ht : t.cancelled = true)
    (s : σ) : called visitor l t s = [] ∧
      (l ≠ [] → replay visitor l t s = ⟨.error .cancelled, t, s⟩) := by
  have hpoll := Token.poll_of_cancelled ht
  cases hl with
  | nil => exact ⟨rfl, fun h => absurd rfl h⟩
  | poll => simp [called, replay, hpoll]
  | visit => simp [called, replay, hpoll]

/-- There is no call after one that leaves the token cancelled. -/
theorem Spaced.called_cancelled {l : List (Step α)} (hl : Spaced l) {t : Token} {s : σ}
    {before after : List (Call α σ)} {c : Call α σ}
    (h : called visitor l t s = before ++ c :: after)
    (hc : (c.run visitor).token.cancelled = true) : after = [] := by
  obtain ⟨front, rest, rfl, -, hafter⟩ := exists_of_called h
  rw [hafter]
  split
  · exact (hl.of_append_visit.of_cancelled hc _).1
  · rfl

/-- Steps end early only with a call that fails or with a poll that is refused. -/
theorem replay_stopped {l : List (Step α)} {t : Token} {s : σ} {e : Failure}
    (h : (replay visitor l t s).result = .error e) :
    (∃ before c, called visitor l t s = before ++ [c] ∧ (c.run visitor).result = .error e) ∨
      e = .cancelled ∧ ∃ front rest t' s', l = front ++ .poll :: rest ∧
        replay visitor front t s = ⟨.ok (), t', s'⟩ ∧ t'.poll.1 = false := by
  induction l generalizing t s with
  | nil => cases h
  | cons step l ih =>
    cases step with
    | poll =>
      rw [replay] at h
      rw [called]
      split at h
      · rename_i hpoll
        rw [if_pos hpoll]
        refine (ih h).imp_right fun ⟨he, front, rest, t', s', hl, hfront, hrefused⟩ => ?_
        refine ⟨he, .poll :: front, rest, t', s', by rw [hl, List.cons_append], ?_, hrefused⟩
        rw [replay, if_pos hpoll, hfront]
      · rename_i hpoll
        cases h
        exact .inr ⟨rfl, [], l, t, s, rfl, rfl, Bool.eq_false_iff.2 hpoll⟩
    | visit a =>
      rw [replay] at h
      rw [called]
      cases hr : (visitor a t s).result with
      | ok u =>
        rw [hr] at h
        rcases ih h with ⟨before, c, hcalls, hc⟩ | ⟨he, front, rest, t', s', hl, hfront, hrefused⟩
        · exact .inl ⟨⟨a, t, s⟩ :: before, c, by simp only [hcalls, List.cons_append], hc⟩
        · refine .inr ⟨he, .visit a :: front, rest, t', s', by rw [hl, List.cons_append], ?_, hrefused⟩
          simp only [replay, hr, hfront]
      | error e' =>
        rw [hr] at h
        exact .inl ⟨[], ⟨a, t, s⟩, rfl, h⟩

end

/-! ## Searches that stop exactly -/

/-- A run of a search that takes its steps until it is stopped: what is visited is an initial part of
what there is, and all of it if the run succeeds; nothing is visited after a visit that fails, after a
poll that is refused, or once the visitor has cancelled the token. -/
structure ExactRun (search : Enumerator α) (steps : List (Step α)) (visitor : α → Token → σ → Run σ)
    (t : Token) (s : σ) : Prop where
  replay : search σ visitor t s = replay visitor steps t s
  initial : (search.calls visitor t s).map Call.item <+: items steps
  complete : (search σ visitor t s).result = .ok () →
    (search.calls visitor t s).map Call.item = items steps
  failed : ∀ (before after : List (Call α σ)) (c : Call α σ) (e : Failure),
    search.calls visitor t s = before ++ c :: after → (c.run visitor).result = .error e →
      after = [] ∧ search σ visitor t s = c.run visitor
  refused : ∀ (front rest : List (Step α)) (t' : Token) (s' : σ),
    steps = front ++ .poll :: rest → Walk.replay visitor front t s = ⟨.ok (), t', s'⟩ →
      t'.poll.1 = false → search σ visitor t s = ⟨.error .cancelled, t'.poll.2, s'⟩ ∧
        (search.calls visitor t s).map Call.item = items front
  cancelled : ∀ (before after : List (Call α σ)) (c : Call α σ),
    search.calls visitor t s = before ++ c :: after → (c.run visitor).token.cancelled = true →
      after = []
  tripped : t.cancelled = true → search.calls visitor t s = [] ∧
    (steps ≠ [] → search σ visitor t s = ⟨.error .cancelled, t, s⟩)
  stopped : ∀ e : Failure, (search σ visitor t s).result = .error e →
    (∃ (before : List (Call α σ)) (c : Call α σ),
      search.calls visitor t s = before ++ [c] ∧ (c.run visitor).result = .error e) ∨
    e = .cancelled ∧ ∃ (front rest : List (Step α)) (t' : Token) (s' : σ),
      steps = front ++ .poll :: rest ∧ Walk.replay visitor front t s = ⟨.ok (), t', s'⟩ ∧
        t'.poll.1 = false

/-- A search has these steps, whoever the visitor is and whatever the token grants. -/
def StopsExactly (search : Enumerator α) (steps : List (Step α)) : Prop :=
  ∀ (σ : Type) (visitor : α → Token → σ → Run σ) (t : Token) (s : σ),
    ExactRun search steps visitor t s

theorem stopsExactly {search : Enumerator α} {steps : List (Step α)} (hl : Spaced steps)
    (h : ∀ (σ : Type) (visitor : α → Token → σ → Run σ) (t : Token) (s : σ),
      search σ visitor t s = replay visitor steps t s) : StopsExactly search steps := by
  intro σ visitor t s
  have hcalls : search.calls visitor t s = called visitor steps t s := by
    rw [Enumerator.calls, h, replay_logging, List.nil_append]
  constructor
  case replay => exact h σ visitor t s
  case initial =>
    rw [hcalls]
    exact items_called_initial steps t s
  case complete =>
    rw [hcalls, h]
    exact items_called
  case failed =>
    intro before after c e hc he
    rw [hcalls] at hc
    rw [h]
    exact called_failed hc he
  case refused =>
    intro front rest t' s' hsteps hfront hrefused
    have hpoll : ¬ t'.poll.1 = true := Bool.eq_false_iff.1 hrefused
    rw [hcalls, h, hsteps, called_append hfront, replay_append, hfront, called, if_neg hpoll,
      List.append_nil]
    refine ⟨?_, items_called (congrArg Run.result hfront)⟩
    simp only [Walk.replay, if_neg hpoll]
  case cancelled =>
    intro before after c
    rw [hcalls]
    exact hl.called_cancelled
  case tripped =>
    intro ht
    rw [hcalls, h]
    exact hl.of_cancelled ht s
  case stopped =>
    intro e
    rw [hcalls, h]
    exact replay_stopped

theorem Paid.stopsExactly {w : Walk α} (h : w.Paid) (hw : w.failure? = none) :
    StopsExactly (fun _ visitor => w.forEach visitor) w.steps :=
  Walk.stopsExactly h.spaced fun _ _ => forEach_eq_replay hw

theorem enumerates_items {w : Walk α} (hw : w.failure? = none) : w.Enumerates (items w.steps) :=
  items_steps w ▸ Yields.enumerates ⟨hw, rfl⟩

end Nonassoc.Walk

namespace Nonassoc.Search

open Multidegree (Name Table)
open Checked (SlotTable)
open Walk (StopsExactly Step items)

theorem failure?_partitions {t : Table} {split : List Name} {degrees : List Nat}
    (hlen : split.length = degrees.length) (hs : ∀ n ∈ split, t.contains n = true) :
    (partitions t split degrees).failure? = none := by
  cases split with
  | nil =>
    rw [partitions, if_neg (not_not.2 hlen)]
    rfl
  | cons n split => exact (yields_partitions hlen (List.cons_ne_nil n split) hs).failure?

/-- However the search for the splits of a target, the partitions of a split or the substitutions of a
partition is stopped, it stops exactly: by a visit that fails, by a poll that is refused, wherever
that is, or by a visitor that cancels the token. So do the searches on memory. -/
theorem searches_stopExactly {t : Table} {target : Name} {split : List Name} {degrees : List Nat}
    {b : Basis} (ht : t.contains target = true) (least : List Nat)
    (hlen : split.length = degrees.length) (hs : ∀ n ∈ split, t.contains n = true) (hb : b.Built t)
    (p : Partition) :
    (∃ steps, (splits t target least).Enumerates (items steps) ∧
      StopsExactly (fun _ visitor => (splits t target least).forEach visitor) steps ∧
      (t.size ≤ maximalCount → total least ≤ maximalCount →
        StopsExactly (fun _ => Checked.splits t target least) steps)) ∧
    (∃ steps, (partitions t split degrees).Enumerates (items steps) ∧
      StopsExactly (fun _ visitor => (partitions t split degrees).forEach visitor) steps ∧
      (t.size ≤ maximalCount → (∀ d ∈ degrees, d ≤ wordCapacity) →
        StopsExactly (fun _ => Checked.partitions t split degrees) steps)) ∧
    ∃ steps, (substitutions b p).Enumerates (items steps) ∧
      StopsExactly (fun _ visitor => (substitutions b p).forEach visitor) steps ∧
      (b.size ≤ maximalCount → p.length * (p.map List.length).foldr max 0 ≤ wordCapacity →
        StopsExactly (fun _ => Checked.tables b p)
          (steps.map (Step.map SlotTable.ofSubstitution))) := by
  have hsplits := failure?_splits ht least
  have hpartitions := failure?_partitions hlen hs
  have hsubstitutions := failure?_substitutions (b := b) p
  refine ⟨⟨_, Walk.enumerates_items hsplits, (paid_splits ..).stopsExactly hsplits, ?_⟩,
    ⟨_, Walk.enumerates_items hpartitions, (paid_partitions ..).stopsExactly hpartitions, ?_⟩,
    ⟨_, Walk.enumerates_items hsubstitutions, (paid_substitutions ..).stopsExactly hsubstitutions,
      ?_⟩⟩
  · intro hsize hleast
    refine Walk.stopsExactly (paid_splits t target least).spaced fun σ visitor token st => ?_
    rw [Checked.splits_eq hsize target hleast, Walk.forEach_eq_replay hsplits]
  · intro hsize hdegrees
    refine Walk.stopsExactly (paid_partitions t split degrees).spaced fun σ visitor token st => ?_
    rw [Checked.partitions_eq hsize split hdegrees, Walk.forEach_eq_replay hpartitions]
  · intro hsize hcells
    refine Walk.stopsExactly ((paid_substitutions b p).spaced.map _) fun σ visitor token st => ?_
    rw [Checked.tables_eq hb hsize hcells, Walk.forEach_eq_replay hsubstitutions, Walk.replay_map]

/-- The searches for one variable that occurs twice, at the square of a generator, on memory. -/
theorem searches_stopExactly_square :
    ∃ t, Table.ofTarget ⟨[2]⟩ = .ok t ∧ t.contains 2 = true ∧
      ∃ b, Basis.run t [.push none 1] = b ∧
        (∃ steps, (splits t 2 [2]).Enumerates (items steps) ∧
          StopsExactly (fun _ => Checked.splits t 2 [2]) steps) ∧
        (∃ steps, (partitions t [2] [2]).Enumerates (items steps) ∧
          StopsExactly (fun _ => Checked.partitions t [2] [2]) steps) ∧
        ∃ steps, (substitutions b [[1, 1]]).Enumerates (items steps) ∧
          StopsExactly (fun _ => Checked.tables b [[1, 1]])
            (steps.map (Step.map SlotTable.ofSubstitution)) := by
  obtain ⟨t, h, ht, hsize, hbasis⟩ : ∃ t, Table.ofTarget ⟨[2]⟩ = .ok t ∧ t.contains 2 = true ∧
      t.size ≤ maximalCount ∧ (Basis.run t [.push none 1]).size ≤ maximalCount :=
    ⟨_, rfl, by decide, by decide, by decide⟩
  have hlen : [2].length = [2].length := rfl
  obtain ⟨⟨steps, hsteps, -, hsplits⟩, ⟨steps', hsteps', -, hpartitions⟩,
    ⟨steps'', hsteps'', -, htables⟩⟩ :=
    searches_stopExactly ht [2] hlen (List.forall_mem_singleton.2 ht)
      (Basis.built_run t [.push none 1]) [[1, 1]]
  exact ⟨t, h, ht, _, rfl, ⟨steps, hsteps, hsplits hsize (by decide)⟩,
    ⟨steps', hsteps', hpartitions hsize (by decide)⟩,
    ⟨steps'', hsteps'', htables hbasis (by decide)⟩⟩

end Nonassoc.Search
