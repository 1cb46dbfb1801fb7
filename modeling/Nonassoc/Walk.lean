import Nonassoc.Failure
import Nonassoc.Token

/-!
# Walks

A walk is a search tree that unfolds as it is searched: a node polls, forks, visits an item, or
fails. What comes later is computed when it is asked for, so a walk may be far too long to be taken
to its end. Everything is stated about three views: `Walk.toList`, the items in order, `Walk.polls`,
the number of polls, and `Walk.failure?`; each operation has a lemma on the items. `Walk.forEach`
takes a walk with a visitor, which carries a state and may fail, and a token, which is asked at every
poll.
-/

namespace Nonassoc

/-- A search tree. The second branch of a fork is searched once the first one has been, unless that
one fails. -/
inductive Walk (α : Type) where
  | done
  | fail (e : Failure)
  | visit (item : α)
  | poll (rest : Unit → Walk α)
  | fork (first : Walk α) (second : Unit → Walk α)

namespace Walk

variable {α β ε : Type}

/-! ## Views -/

/-- The failure at the end, if there is one. -/
def failure? : Walk α → Option Failure
  | done => none
  | fail e => some e
  | visit _ => none
  | poll rest => (rest ()).failure?
  | fork v w =>
    match v.failure? with
    | some e => some e
    | none => (w ()).failure?

/-- The items in order. -/
def toList : Walk α → List α
  | done => []
  | fail _ => []
  | visit a => [a]
  | poll rest => (rest ()).toList
  | fork v w =>
    match v.failure? with
    | some _ => v.toList
    | none => v.toList ++ (w ()).toList

/-- The number of polls. -/
def polls : Walk α → Nat
  | done => 0
  | fail _ => 0
  | visit _ => 0
  | poll rest => (rest ()).polls + 1
  | fork v w =>
    match v.failure? with
    | some _ => v.polls
    | none => v.polls + (w ()).polls

/-! ## Building walks -/

/-- Goes on with the result of a computation, or fails with its error. -/
def attempt (wrap : ε → Failure) (x : Except ε β) (next : β → Walk α) : Walk α :=
  match x with
  | .ok b => next b
  | .error e => fail (wrap e)

/-- Goes on with every value of a list in turn. -/
def choose : List β → (β → Walk α) → Walk α
  | [], _ => done
  | [b], next => next b
  | b :: c :: rest, next => fork (next b) fun _ => choose (c :: rest) next

/-- Goes on with each of `count` consecutive numbers in turn, from `first` on. -/
def chooseFrom (first : Nat) : (count : Nat) → (Nat → Walk α) → Walk α
  | 0, _ => done
  | 1, next => next first
  | count + 2, next => fork (next first) fun _ => chooseFrom (first + 1) (count + 1) next

/-- Leaves out the items that fail a test. -/
def filter (p : α → Bool) : Walk α → Walk α
  | done => done
  | fail e => fail e
  | visit a => if p a then visit a else done
  | poll rest => poll fun _ => (rest ()).filter p
  | fork v w => fork (v.filter p) fun _ => (w ()).filter p

/-! ## Taking a walk -/

/-- How far a walk came: its result, and the token and the visitor's state at that point. -/
structure Run (σ : Type) where
  result : Except Failure Unit
  token : Token
  state : σ

/-- Takes a walk. The token is asked at every poll and may end the walk; the visitor is given every
item, may change token and state, and may end the walk with a failure. -/
def forEach {σ : Type} (visitor : α → Token → σ → Run σ) : Walk α → Token → σ → Run σ
  | done, t, s => ⟨.ok (), t, s⟩
  | fail e, t, s => ⟨.error e, t, s⟩
  | visit a, t, s => visitor a t s
  | poll rest, t, s =>
    match t.poll with
    | (true, t) => forEach visitor (rest ()) t s
    | (false, t) => ⟨.error .cancelled, t, s⟩
  | fork v w, t, s =>
    match forEach visitor v t s with
    | ⟨.ok (), t, s⟩ => forEach visitor (w ()) t s
    | ⟨.error e, t, s⟩ => ⟨.error e, t, s⟩

/-! ## Lemmas on the items -/

@[simp] theorem toList_done : (done : Walk α).toList = [] := rfl
@[simp] theorem toList_fail (e : Failure) : (fail e : Walk α).toList = [] := rfl
@[simp] theorem toList_visit (a : α) : (visit a).toList = [a] := rfl
@[simp] theorem toList_poll (rest : Unit → Walk α) : (poll rest).toList = (rest ()).toList := rfl

/-- Where the first branch does not fail, the items of the second follow its own. -/
theorem toList_fork {v : Walk α} (w : Unit → Walk α) (h : v.failure? = none) :
    (fork v w).toList = v.toList ++ (w ()).toList := by
  simp [toList, h]

theorem failure?_fork {v : Walk α} (w : Unit → Walk α) (h : v.failure? = none) :
    (fork v w).failure? = (w ()).failure? := by
  simp [failure?, h]

theorem failure?_choose {l : List β} {next : β → Walk α} (h : ∀ b ∈ l, (next b).failure? = none) :
    (choose l next).failure? = none := by
  fun_induction choose l next with
  | case1 => rfl
  | case2 b next => exact h b (by simp)
  | case3 b c rest next ih =>
    rw [failure?_fork _ (h b (by simp))]
    exact ih fun x hx => h x (List.mem_cons_of_mem _ hx)

/-- Where the walks of the values do not fail, their items come one after the other. -/
theorem toList_choose {l : List β} {next : β → Walk α} (h : ∀ b ∈ l, (next b).failure? = none) :
    (choose l next).toList = l.flatMap fun b => (next b).toList := by
  fun_induction choose l next with
  | case1 => rfl
  | case2 b next => simp
  | case3 b c rest next ih =>
    rw [toList_fork _ (h b (by simp)), ih fun x hx => h x (List.mem_cons_of_mem _ hx)]
    rfl

/-- Consecutive numbers are chosen as those of a list are. -/
theorem chooseFrom_eq_choose (first count : Nat) (next : Nat → Walk α) :
    chooseFrom first count next = choose (List.range' first count) next := by
  fun_induction chooseFrom first count next with
  | case1 => rfl
  | case2 => rfl
  | case3 first next count ih =>
    rw [ih]
    rfl

theorem failure?_filter (p : α → Bool) (w : Walk α) : (w.filter p).failure? = w.failure? := by
  induction w with
  | done => rfl
  | fail e => rfl
  | visit a => by_cases h : p a <;> simp [filter, h, failure?]
  | poll rest ih => exact ih ()
  | fork v w hv hw => simp only [filter, failure?, hv, hw ()]

theorem toList_filter (p : α → Bool) (w : Walk α) : (w.filter p).toList = w.toList.filter p := by
  induction w with
  | done => rfl
  | fail e => rfl
  | visit a => by_cases h : p a <;> simp [filter, h]
  | poll rest ih => exact ih ()
  | fork v w hv hw =>
    simp only [filter, toList, failure?_filter]
    split
    · exact hv
    · rw [List.filter_append, hv, hw ()]

end Walk

end Nonassoc
