import Nonassoc.Proofs.Results
import Nonassoc.Token.Pool

/-!
# Shared tokens

A log holds the operations on the handles of some tokens with their answers, the newest one first.
`Pool.origin?` reads off a log which token a handle refers to, and `Pool.eventsOf` what was done with
one token through any of its handles. A token is fixed by the latter and by its budget
(`Pool.tokenOf`): what each operation does to this is the invariant `Pool.Tracks`. So polls are counted
exactly and refusals are final, whatever is done with other tokens. Main result: `Pool.run_obeys`.
-/

namespace Nonassoc.Token

/-- A poll is granted if the token is not cancelled and its budget is not used up. -/
theorem poll_eq (t : Token) :
    t.poll = if t.cancelled = false ∧ t.budget ≠ some 0 then
      (true, ⟨t.cancelled, t.budget.map (· - 1)⟩) else (false, t.cancel) := by
  obtain ⟨cancelled, budget⟩ := t
  cases cancelled with
  | true => rfl
  | false =>
    cases budget with
    | none => rfl
    | some k => cases k <;> rfl

namespace Pool

/-! ## Logs -/

/-- What can be done with tokens through their handles. -/
inductive Operation where
  | new (budget : Option Nat)
  | share (handle : Nat)
  | poll (handle : Nat)
  | cancel (handle : Nat)
  | isCancelled (handle : Nat)
  deriving DecidableEq

/-- What an operation answers. -/
inductive Answer where
  | handle (handle : Nat)
  | granted (granted : Bool)
  | cancelled (cancelled : Bool)
  | done
  deriving DecidableEq

namespace Operation

/-- The handle that is used; a new token needs none. -/
def handle? : Operation → Option Nat
  | new _ => none
  | share x | poll x | cancel x | isCancelled x => some x

/-- The answer to an operation, and the pool after it. -/
def apply : Operation → Pool → Except Fault (Answer × Pool)
  | new budget, p =>
    let (x, p) := p.new (.ofBudget budget)
    .ok (.handle x, p)
  | share x, p => do
    let (y, p) ← p.share x
    return (.handle y, p)
  | poll x, p => do
    let (granted, p) ← p.poll x
    return (.granted granted, p)
  | cancel x, p => do
    let p ← p.cancel x
    return (.done, p)
  | isCancelled x, p => do
    let cancelled ← p.isCancelled x
    return (.cancelled cancelled, p)

end Operation

/-- An operation with its answer. -/
abbrev Event := Operation × Answer

/-- Does an operation and puts it in the log. -/
def record (s : List Event × Pool) (o : Operation) : Except Fault (List Event × Pool) := do
  let (a, p) ← o.apply s.2
  return ((o, a) :: s.1, p)

/-- The log of operations that are done one after the other, and the pool after them. -/
def run (operations : List Operation) : Except Fault (List Event × Pool) :=
  operations.foldlM record ([], empty)

/-- The handle under which the token of a handle was made. -/
def origin? : List Event → Nat → Option Nat
  | [], _ => none
  | (.new _, .handle x) :: earlier, y => if y = x then some x else origin? earlier y
  | (.share z, .handle x) :: earlier, y => if y = x then origin? earlier z else origin? earlier y
  | _ :: earlier, y => origin? earlier y

/-- What was done with a token through its handles, the newest event first. -/
def eventsOf : List Event → Nat → List Event
  | [], _ => []
  | e :: earlier, r =>
    if e.1.handle?.bind (origin? earlier) = some r then e :: eventsOf earlier r
    else eventsOf earlier r

/-- Whether a poll was granted. -/
def isGrant : Event → Bool
  | (.poll _, .granted true) => true
  | _ => false

/-- Whether a token was cancelled or a poll was refused. -/
def isEnd : Event → Bool
  | (.cancel _, _) => true
  | (.poll _, .granted false) => true
  | _ => false

/-- The token with the given budget after some events. -/
def tokenOf (budget : Option Nat) (events : List Event) : Token :=
  ⟨events.any isEnd, budget.map (· - events.countP isGrant)⟩

/-! ## One token -/

/-- The budget is enough for what was granted. -/
def Affords (budget : Option Nat) (events : List Event) : Prop :=
  ∀ k, budget = some k → events.countP isGrant ≤ k

theorem tokenOf_cons {e : Event} (hgrant : isGrant e = false) (hend : isEnd e = false)
    (budget : Option Nat) (events : List Event) :
    tokenOf budget (e :: events) = tokenOf budget events := by
  simp [tokenOf, hgrant, hend]

theorem affords_cons {e : Event} (hgrant : isGrant e = false) {budget : Option Nat}
    {events : List Event} (h : Affords budget events) : Affords budget (e :: events) := fun k hk => by
  simpa [hgrant] using h k hk

theorem tokenOf_cancel (budget : Option Nat) (events : List Event) (x : Nat) (a : Answer) :
    tokenOf budget ((.cancel x, a) :: events) = (tokenOf budget events).cancel := by
  simp [tokenOf, Token.cancel, isGrant, isEnd]

theorem tokenOf_refused (budget : Option Nat) (events : List Event) (x : Nat) :
    tokenOf budget ((.poll x, .granted false) :: events) = (tokenOf budget events).cancel := by
  simp [tokenOf, Token.cancel, isGrant, isEnd]

theorem tokenOf_granted (budget : Option Nat) (events : List Event) (x : Nat) :
    tokenOf budget ((.poll x, .granted true) :: events) =
      ⟨(tokenOf budget events).cancelled, (tokenOf budget events).budget.map (· - 1)⟩ := by
  rw [tokenOf, List.countP_cons_of_pos rfl]
  cases budget <;> rfl

/-- When a poll is granted: nothing has ended the token, and its budget is not used up. -/
def Grants (budget : Option Nat) (events : List Event) : Prop :=
  (∀ e ∈ events, isEnd e = false) ∧ ∀ k, budget = some k → events.countP isGrant < k

theorem cancelled_tokenOf {budget : Option Nat} {events : List Event} :
    (tokenOf budget events).cancelled = true ↔ ∃ e ∈ events, isEnd e = true :=
  List.any_eq_true

theorem grants_iff {budget : Option Nat} {events : List Event} :
    Grants budget events ↔
      (tokenOf budget events).cancelled = false ∧ (tokenOf budget events).budget ≠ some 0 := by
  refine and_congr ?_ ?_
  · rw [← Bool.not_eq_true, cancelled_tokenOf]
    simp
  · cases budget with
    | none => exact iff_of_true nofun nofun
    | some k =>
      simp only [tokenOf, Option.map_some, ne_eq, Option.some_inj, forall_eq']
      omega

/-- What a poll answers, and the token after it. -/
theorem poll_tokenOf {budget : Option Nat} {events : List Event} (h : Affords budget events)
    (x : Nat) : ∃ granted,
      (tokenOf budget events).poll =
        (granted, tokenOf budget ((.poll x, .granted granted) :: events)) ∧
      (granted = true ↔ Grants budget events) ∧
      Affords budget ((.poll x, .granted granted) :: events) := by
  rw [poll_eq]
  by_cases hgrants : Grants budget events
  · refine ⟨true, ?_, iff_of_true rfl hgrants, fun k hk => ?_⟩
    · rw [if_pos (grants_iff.1 hgrants), tokenOf_granted]
    · rw [List.countP_cons_of_pos rfl]
      exact hgrants.2 k hk
  · refine ⟨false, ?_, iff_of_false Bool.false_ne_true hgrants, affords_cons rfl h⟩
    rw [if_neg (mt grants_iff.2 hgrants), tokenOf_refused]

/-! ## Places -/

theorem get_eq_ok_iff {p : Pool} {x i : Nat} {token : Token} :
    p.get x = .ok (i, token) ↔ p.handles[x]? = some i ∧ p.tokens[i]? = some token := by
  unfold get
  cases hx : p.handles[x]? with
  | none => simp
  | some j =>
    simp only [Option.some_inj]
    cases hj : p.tokens[j]? with
    | none =>
      refine ⟨nofun, fun h => ?_⟩
      obtain ⟨rfl, h⟩ := h
      cases hj.symm.trans h
    | some token' =>
      simp only [Except.ok.injEq, Prod.mk.injEq]
      refine and_congr_right fun h => ?_
      rw [← h, hj, Option.some_inj]

theorem poll_eq_ok {p : Pool} {x i : Nat} {token after : Token} {granted : Bool}
    (hget : p.get x = .ok (i, token)) (hpoll : token.poll = (granted, after)) :
    p.poll x = .ok (granted, { p with tokens := p.tokens.setIfInBounds i after }) := by
  simp only [poll, hget, bind, Except.bind, hpoll]
  rfl

/-- What a log says about the token that was made under the handle `r`, which is the one at place `i`. -/
structure IsAt (log : List Event) (p : Pool) (r i : Nat) : Prop where
  origin : origin? log r = some r
  handle : p.handles[r]? = some i
  token : ∃ budget, p.tokens[i]? = some (tokenOf budget (eventsOf log r)) ∧
    (∀ b, (.new b, .handle r) ∈ log ↔ b = budget) ∧ Affords budget (eventsOf log r)

/-- What a log says about the pool after it. -/
structure Tracks (log : List Event) (p : Pool) : Prop where
  known : ∀ x, (∃ r, origin? log x = some r) ↔ x < p.handles.size
  fresh : ∀ r, p.handles.size ≤ r → eventsOf log r = [] ∧ ∀ b, (.new b, .handle r) ∉ log
  token : ∀ x r, origin? log x = some r → ∃ i, p.handles[x]? = some i ∧ IsAt log p r i
  distinct : ∀ r s i, IsAt log p r i → IsAt log p s i → r = s

theorem Tracks.empty : Tracks [] empty where
  known x := by simp [origin?, Pool.empty]
  fresh r _ := ⟨rfl, fun _ => List.not_mem_nil⟩
  token x r h := by cases h
  distinct r s i h := by cases h.origin

section
variable {log : List Event} {p : Pool}

theorem Tracks.lt_of_origin (h : Tracks log p) {x r : Nat} (hx : origin? log x = some r) :
    x < p.handles.size ∧ r < p.handles.size := by
  obtain ⟨i, -, hr⟩ := h.token x r hx
  exact ⟨(h.known x).1 ⟨r, hx⟩, (h.known r).1 ⟨r, hr.origin⟩⟩

theorem IsAt.lt_size {r i : Nat} (h : IsAt log p r i) : i < p.tokens.size := by
  obtain ⟨budget, htoken, -⟩ := h.token
  exact (Array.getElem?_eq_some_iff.1 htoken).1

theorem Tracks.isAt (h : Tracks log p) {r i : Nat} (hr : origin? log r = some r)
    (hi : p.handles[r]? = some i) : IsAt log p r i := by
  obtain ⟨j, hj, hat⟩ := h.token r r hr
  cases hi.symm.trans hj
  exact hat

/-! ## New tokens -/

theorem mem_new_cons {b budget : Option Nat} {r x : Nat} :
    ((.new b, .handle r) : Event) ∈ (.new budget, .handle x) :: log ↔
      b = budget ∧ r = x ∨ (.new b, .handle r) ∈ log := by
  simp

theorem eventsOf_new (budget : Option Nat) (a : Answer) (log : List Event) (r : Nat) :
    eventsOf ((.new budget, a) :: log) r = eventsOf log r := if_neg nofun

/-- The token of a new handle comes after those that were there before. -/
theorem Tracks.isAt_new_iff (h : Tracks log p) (budget : Option Nat) {r i : Nat} :
    IsAt ((.new budget, .handle p.handles.size) :: log) (p.new (.ofBudget budget)).2 r i ↔
      r = p.handles.size ∧ i = p.tokens.size ∨ IsAt log p r i := by
  obtain ⟨hnone, hfresh⟩ := h.fresh p.handles.size (Nat.le_refl _)
  constructor
  · intro hr
    have horigin := hr.origin
    have hhandle := hr.handle
    simp only [origin?, new, Array.getElem?_push] at horigin hhandle
    split at horigin
    · rename_i heq
      rw [if_pos heq, Option.some_inj] at hhandle
      exact .inl ⟨heq, hhandle.symm⟩
    · rename_i hne
      rw [if_neg hne] at hhandle
      exact .inr (h.isAt horigin hhandle)
  · rintro (⟨rfl, rfl⟩ | hr)
    · refine ⟨if_pos rfl, Array.getElem?_push_size, budget, ?_, fun b => ?_, ?_⟩
      · simp [new, eventsOf_new, hnone, tokenOf, Token.ofBudget]
      · rw [mem_new_cons, or_iff_left (hfresh b), and_iff_left rfl]
      · rw [eventsOf_new, hnone]
        exact fun k _ => Nat.zero_le k
    · have hne : r ≠ p.handles.size := Nat.ne_of_lt (h.lt_of_origin hr.origin).1
      obtain ⟨budget', htoken, hbudget, haffords⟩ := hr.token
      refine ⟨(if_neg hne).trans hr.origin, ?_, budget', ?_, fun b => ?_, ?_⟩
      · rw [new, Array.getElem?_push, if_neg hne, hr.handle]
      · rw [new, Array.getElem?_push, if_neg (Nat.ne_of_lt hr.lt_size), eventsOf_new, htoken]
      · rw [mem_new_cons, or_iff_right fun hb => hne hb.2, hbudget]
      · rwa [eventsOf_new]

theorem Tracks.new (h : Tracks log p) (budget : Option Nat) :
    Tracks ((.new budget, .handle p.handles.size) :: log) (p.new (.ofBudget budget)).2 := by
  have horigin : ∀ x, origin? ((.new budget, .handle p.handles.size) :: log) x =
      if x = p.handles.size then some p.handles.size else origin? log x := fun x => rfl
  refine ⟨fun x => ?_, fun r hr => ?_, fun x r hx => ?_, fun r s i hr hs => ?_⟩
  · rw [horigin, Pool.new, Array.size_push, Nat.lt_succ_iff_lt_or_eq, ← h.known]
    split
    · rename_i hx
      exact iff_of_true ⟨_, rfl⟩ (.inr hx)
    · rename_i hx
      exact (or_iff_left hx).symm
  · rw [Pool.new, Array.size_push] at hr
    obtain ⟨hnone, hfresh⟩ := h.fresh r (Nat.le_of_succ_le hr)
    refine ⟨by rw [eventsOf_new, hnone], fun b hb => ?_⟩
    rcases mem_new_cons.1 hb with ⟨-, rfl⟩ | hb
    · exact Nat.lt_irrefl _ hr
    · exact hfresh b hb
  · rw [horigin] at hx
    split at hx
    · rename_i heq
      cases hx
      exact ⟨p.tokens.size, heq ▸ Array.getElem?_push_size, (h.isAt_new_iff budget).2 (.inl ⟨rfl, rfl⟩)⟩
    · rename_i hne
      obtain ⟨i, hi, hr⟩ := h.token x r hx
      refine ⟨i, ?_, (h.isAt_new_iff budget).2 (.inr hr)⟩
      rw [Pool.new, Array.getElem?_push, if_neg hne, hi]
  · rcases (h.isAt_new_iff budget).1 hr with ⟨rfl, rfl⟩ | hr
    · rcases (h.isAt_new_iff budget).1 hs with ⟨rfl, -⟩ | hs
      · rfl
      · exact absurd hs.lt_size (Nat.lt_irrefl _)
    · rcases (h.isAt_new_iff budget).1 hs with ⟨rfl, rfl⟩ | hs
      · exact absurd hr.lt_size (Nat.lt_irrefl _)
      · exact h.distinct r s i hr hs

/-! ## Events of one token -/

section
variable {o : Operation} {x r : Nat} (ho : o.handle? = some x)
include ho

theorem eventsOf_cons (hx : origin? log x = some r) (a : Answer) (s : Nat) :
    eventsOf ((o, a) :: log) s = if s = r then (o, a) :: eventsOf log s else eventsOf log s := by
  rw [eventsOf, ho, Option.bind_some, hx]
  simp only [Option.some_inj, eq_comm]

theorem mem_cons_of_handle {a : Answer} {b : Option Nat} {s : Nat} :
    ((.new b, .handle s) : Event) ∈ (o, a) :: log ↔ (.new b, .handle s) ∈ log := by
  rw [List.mem_cons]
  refine or_iff_right fun heq => ?_
  cases heq
  cases ho

/-- An event that is no grant and no end leaves every token as it is. -/
theorem tokenOf_eventsOf_cons (hx : origin? log x = some r) {a : Answer}
    (hgrant : isGrant (o, a) = false) (hend : isEnd (o, a) = false) (budget : Option Nat) (s : Nat) :
    tokenOf budget (eventsOf ((o, a) :: log) s) = tokenOf budget (eventsOf log s) ∧
      (Affords budget (eventsOf log s) → Affords budget (eventsOf ((o, a) :: log) s)) := by
  rw [eventsOf_cons ho hx]
  split
  · exact ⟨tokenOf_cons hgrant hend budget _, affords_cons hgrant⟩
  · exact ⟨rfl, id⟩

theorem Tracks.fresh_cons (h : Tracks log p) (hx : origin? log x = some r) (a : Answer) {s : Nat}
    (hs : p.handles.size ≤ s) :
    eventsOf ((o, a) :: log) s = [] ∧ ∀ b, (.new b, .handle s) ∉ (o, a) :: log := by
  obtain ⟨hnone, hfresh⟩ := h.fresh s hs
  rw [eventsOf_cons ho hx, if_neg (Nat.ne_of_gt (Nat.lt_of_lt_of_le (h.lt_of_origin hx).2 hs))]
  exact ⟨hnone, fun b hb => hfresh b ((mem_cons_of_handle ho).1 hb)⟩

end

/-! ## New handles -/

section
variable {x r i : Nat} (hx : origin? log x = some r)
include hx

theorem origin?_share (z y : Nat) : origin? ((.share x, .handle z) :: log) y =
    if y = z then some r else origin? log y := by
  rw [← hx]
  rfl

/-- A new handle to a token that was there before is not a new token. -/
theorem Tracks.isAt_share_iff (h : Tracks log p) {s j : Nat} :
    IsAt ((.share x, .handle p.handles.size) :: log) { p with handles := p.handles.push i } s j ↔
      IsAt log p s j := by
  have ho : (Operation.share x).handle? = some x := rfl
  constructor
  · intro hs
    have horigin := hs.origin
    have hhandle := hs.handle
    rw [origin?_share hx] at horigin
    split at horigin
    · rename_i heq
      exact absurd (heq.symm.trans (Option.some.inj horigin).symm)
        (Nat.ne_of_gt (h.lt_of_origin hx).2)
    · rename_i hne
      rw [Array.getElem?_push, if_neg hne] at hhandle
      exact h.isAt horigin hhandle
  · intro hs
    have hne : s ≠ p.handles.size := Nat.ne_of_lt (h.lt_of_origin hs.origin).1
    obtain ⟨budget, htoken, hbudget, haffords⟩ := hs.token
    obtain ⟨hsame, haffords'⟩ :=
      tokenOf_eventsOf_cons ho hx (a := .handle p.handles.size) rfl rfl budget s
    refine ⟨by rw [origin?_share hx, if_neg hne, hs.origin], ?_, budget, hsame ▸ htoken,
      fun b => (mem_cons_of_handle ho).trans (hbudget b), haffords' haffords⟩
    rw [Array.getElem?_push, if_neg hne, hs.handle]

theorem Tracks.share (h : Tracks log p) (hr : IsAt log p r i) :
    Tracks ((.share x, .handle p.handles.size) :: log) { p with handles := p.handles.push i } := by
  refine ⟨fun y => ?_, fun s hs => ?_, fun y s hy => ?_, fun s s' j hs hs' => ?_⟩
  · rw [origin?_share hx, Array.size_push, Nat.lt_succ_iff_lt_or_eq, ← h.known]
    split
    · rename_i heq
      exact iff_of_true ⟨_, rfl⟩ (.inr heq)
    · rename_i hne
      exact (or_iff_left hne).symm
  · rw [Array.size_push] at hs
    exact h.fresh_cons rfl hx _ (Nat.le_of_succ_le hs)
  · rw [origin?_share hx] at hy
    split at hy
    · rename_i heq
      cases hy
      exact ⟨i, heq ▸ Array.getElem?_push_size, (h.isAt_share_iff hx).2 hr⟩
    · rename_i hne
      obtain ⟨j, hj, hs⟩ := h.token y s hy
      exact ⟨j, by rw [Array.getElem?_push, if_neg hne, hj], (h.isAt_share_iff hx).2 hs⟩
  · exact h.distinct s s' j ((h.isAt_share_iff hx).1 hs) ((h.isAt_share_iff hx).1 hs')

end

/-! ## Changes of a token -/

/-- What is done with a token changes the token at its place and no other one. -/
theorem Tracks.update (h : Tracks log p) {o : Operation} {a : Answer} {x r i : Nat}
    (ho : o.handle? = some x) (hx : origin? log x = some r) (hr : IsAt log p r i)
    (horigin : ∀ y, origin? ((o, a) :: log) y = origin? log y) {token : Token}
    (htoken : ∀ budget, Affords budget (eventsOf log r) →
      p.tokens[i]? = some (tokenOf budget (eventsOf log r)) →
      token = tokenOf budget ((o, a) :: eventsOf log r) ∧
        Affords budget ((o, a) :: eventsOf log r)) :
    Tracks ((o, a) :: log) { p with tokens := p.tokens.setIfInBounds i token } := by
  have hat : ∀ {s j}, IsAt ((o, a) :: log) { p with tokens := p.tokens.setIfInBounds i token } s j ↔
      IsAt log p s j := by
    intro s j
    refine ⟨fun hs => h.isAt ((horigin s).symm.trans hs.origin) hs.handle, fun hs => ?_⟩
    obtain ⟨budget, hbefore, hbudget, haffords⟩ := hs.token
    refine ⟨(horigin s).trans hs.origin, hs.handle, budget, ?_⟩
    by_cases heq : s = r
    · subst heq
      obtain rfl : i = j := Option.some.inj (hr.handle.symm.trans hs.handle)
      obtain ⟨hafter, haffords'⟩ := htoken budget haffords hbefore
      rw [eventsOf_cons ho hx, if_pos rfl, Array.getElem?_setIfInBounds_self_of_lt hr.lt_size, hafter]
      exact ⟨rfl, fun b => (mem_cons_of_handle ho).trans (hbudget b), haffords'⟩
    · have hne : i ≠ j := fun hij => heq (h.distinct s r i (hij ▸ hs) hr)
      rw [eventsOf_cons ho hx, if_neg heq, Array.getElem?_setIfInBounds_ne hne]
      exact ⟨hbefore, fun b => (mem_cons_of_handle ho).trans (hbudget b), haffords⟩
  refine ⟨fun y => ?_, fun s hs => ?_, fun y s hy => ?_, fun s s' j hs hs' => ?_⟩
  · rw [horigin, h.known]
  · exact h.fresh_cons ho hx a hs
  · obtain ⟨j, hj, hs⟩ := h.token y s ((horigin y).symm.trans hy)
    exact ⟨j, hj, hat.2 hs⟩
  · exact h.distinct s s' j (hat.1 hs) (hat.1 hs')

/-! ## Steps -/

/-- What an operation answers and does. -/
inductive Step (p : Pool) : Operation → Answer → Pool → Prop
  | new (budget : Option Nat) :
      Step p (.new budget) (.handle p.handles.size) (p.new (.ofBudget budget)).2
  | share {x i : Nat} {token : Token} : p.get x = .ok (i, token) →
      Step p (.share x) (.handle p.handles.size) { p with handles := p.handles.push i }
  | poll {x i : Nat} {token after : Token} {granted : Bool} : p.get x = .ok (i, token) →
      token.poll = (granted, after) →
      Step p (.poll x) (.granted granted) { p with tokens := p.tokens.setIfInBounds i after }
  | cancel {x i : Nat} {token : Token} : p.get x = .ok (i, token) →
      Step p (.cancel x) .done { p with tokens := p.tokens.setIfInBounds i token.cancel }
  | isCancelled {x i : Nat} {token : Token} : p.get x = .ok (i, token) →
      Step p (.isCancelled x) (.cancelled token.cancelled) p

theorem apply_eq_ok_iff {o : Operation} {a : Answer} {p' : Pool} :
    o.apply p = .ok (a, p') ↔ Step p o a p' := by
  constructor
  · intro ho
    cases o with
    | new budget =>
      cases ho
      exact .new budget
    | share x =>
      obtain ⟨_, hq, hret⟩ := bind_eq_ok.1 ho
      cases hret
      obtain ⟨_, hget, hq⟩ := bind_eq_ok.1 hq
      cases hq
      exact .share hget
    | poll x =>
      obtain ⟨_, hq, hret⟩ := bind_eq_ok.1 ho
      cases hret
      obtain ⟨_, hget, hq⟩ := bind_eq_ok.1 hq
      cases hq
      exact .poll hget rfl
    | cancel x =>
      obtain ⟨_, hq, hret⟩ := bind_eq_ok.1 ho
      cases hret
      obtain ⟨_, hget, hq⟩ := bind_eq_ok.1 hq
      cases hq
      exact .cancel hget
    | isCancelled x =>
      obtain ⟨_, hq, hret⟩ := bind_eq_ok.1 ho
      cases hret
      obtain ⟨_, hget, hq⟩ := bind_eq_ok.1 hq
      cases hq
      exact .isCancelled hget
  · intro hstep
    cases hstep with
    | new budget => rfl
    | share hget =>
      simp only [Operation.apply, Pool.share, hget]
      rfl
    | poll hget hpoll =>
      rw [Operation.apply, poll_eq_ok hget hpoll]
      rfl
    | cancel hget =>
      simp only [Operation.apply, Pool.cancel, hget]
      rfl
    | isCancelled hget =>
      simp only [Operation.apply, Pool.isCancelled, hget]
      rfl

theorem Tracks.exists_get (h : Tracks log p) {x r : Nat} (hx : origin? log x = some r) :
    ∃ i budget, IsAt log p r i ∧ p.get x = .ok (i, tokenOf budget (eventsOf log r)) ∧
      (∀ b, (.new b, .handle r) ∈ log ↔ b = budget) ∧ Affords budget (eventsOf log r) := by
  obtain ⟨i, hi, hr⟩ := h.token x r hx
  obtain ⟨budget, htoken, hbudget, haffords⟩ := hr.token
  exact ⟨i, budget, hr, get_eq_ok_iff.2 ⟨hi, htoken⟩, hbudget, haffords⟩

theorem Tracks.origin_of_get (h : Tracks log p) {x i : Nat} {token : Token}
    (hget : p.get x = .ok (i, token)) : ∃ r, origin? log x = some r ∧ IsAt log p r i := by
  have hi := (get_eq_ok_iff.1 hget).1
  obtain ⟨r, hx⟩ := (h.known x).2 (Array.getElem?_eq_some_iff.1 hi).1
  obtain ⟨j, hj, hr⟩ := h.token x r hx
  cases hi.symm.trans hj
  exact ⟨r, hx, hr⟩

/-- Every operation keeps the log true. -/
theorem Tracks.step (h : Tracks log p) {o : Operation} {a : Answer} {p' : Pool}
    (hstep : Step p o a p') : Tracks ((o, a) :: log) p' := by
  cases hstep with
  | new budget => exact h.new budget
  | share hget =>
    obtain ⟨r, hx, hr⟩ := h.origin_of_get hget
    exact h.share hx hr
  | @poll x i token after granted hget hpoll =>
    obtain ⟨r, hx, hr⟩ := h.origin_of_get hget
    refine h.update rfl hx hr (fun _ => rfl) fun budget haffords htoken => ?_
    cases htoken.symm.trans (get_eq_ok_iff.1 hget).2
    obtain ⟨granted', hpoll', -, haffords'⟩ := poll_tokenOf haffords x
    rw [hpoll, Prod.mk.injEq] at hpoll'
    obtain ⟨rfl, rfl⟩ := hpoll'
    exact ⟨rfl, haffords'⟩
  | cancel hget =>
    obtain ⟨r, hx, hr⟩ := h.origin_of_get hget
    refine h.update rfl hx hr (fun _ => rfl) fun budget haffords htoken => ?_
    cases htoken.symm.trans (get_eq_ok_iff.1 hget).2
    exact ⟨(tokenOf_cancel _ _ _ _).symm, affords_cons rfl haffords⟩
  | @isCancelled x i token hget =>
    obtain ⟨r, hx, hr⟩ := h.origin_of_get hget
    have hi := (get_eq_ok_iff.1 hget).2
    have hsame : { p with tokens := p.tokens.setIfInBounds i token } = p := by
      obtain ⟨hlt, rfl⟩ := Array.getElem?_eq_some_iff.1 hi
      rw [Array.setIfInBounds, dif_pos hlt, Array.set_getElem_self]
    rw [← hsame]
    refine h.update rfl hx hr (fun _ => rfl) fun budget haffords htoken => ?_
    cases htoken.symm.trans hi
    exact ⟨(tokenOf_cons rfl rfl _ _).symm, affords_cons rfl haffords⟩

/-- What is done through other tokens' handles changes nothing for a handle. -/
theorem Tracks.get_step (h : Tracks log p) {o : Operation} {a : Answer} {p' : Pool}
    (hstep : Step p o a p') {y s : Nat} (hy : origin? log y = some s)
    (hother : ∀ x, o.handle? = some x → origin? log x ≠ some s) : p'.get y = p.get y := by
  obtain ⟨j, budget, hs, hget, -⟩ := h.exists_get hy
  obtain ⟨hj, htoken⟩ := get_eq_ok_iff.1 hget
  have hne : y ≠ p.handles.size := Nat.ne_of_lt (h.lt_of_origin hy).1
  -- the place that an operation changes is that of its handle's token
  have hplace : ∀ {x i token}, o.handle? = some x → p.get x = .ok (i, token) → i ≠ j := by
    intro x i token hx hget' heq
    obtain ⟨r, horigin, hr⟩ := h.origin_of_get hget'
    exact hother x hx (h.distinct r s j (heq ▸ hr) hs ▸ horigin)
  rw [hget, get_eq_ok_iff]
  cases hstep with
  | new budget =>
    rw [Pool.new, Array.getElem?_push, if_neg hne, Array.getElem?_push,
      if_neg (Nat.ne_of_lt hs.lt_size)]
    exact ⟨hj, htoken⟩
  | share =>
    rw [Array.getElem?_push, if_neg hne]
    exact ⟨hj, htoken⟩
  | poll hget' => exact ⟨hj, by rw [Array.getElem?_setIfInBounds_ne (hplace rfl hget'), htoken]⟩
  | cancel hget' => exact ⟨hj, by rw [Array.getElem?_setIfInBounds_ne (hplace rfl hget'), htoken]⟩
  | isCancelled => exact ⟨hj, htoken⟩

/-- A handle stays with its token. -/
theorem Tracks.origin_step (h : Tracks log p) {o : Operation} {a : Answer} {p' : Pool}
    (hstep : Step p o a p') {y s : Nat} (hy : origin? log y = some s) :
    origin? ((o, a) :: log) y = some s := by
  have hne : y ≠ p.handles.size := Nat.ne_of_lt (h.lt_of_origin hy).1
  cases hstep with
  | new | share => exact (if_neg hne).trans hy
  | poll | cancel | isCancelled => exact hy

/-- An operation can be done as long as its handle is there. -/
theorem Tracks.exists_step_iff (h : Tracks log p) {o : Operation} :
    (∃ a p', Step p o a p') ↔ ∀ x, o.handle? = some x → ∃ r, origin? log x = some r := by
  constructor
  · rintro ⟨a, p', hstep⟩ x hx
    cases hstep with
    | new => cases hx
    | share hget | poll hget | cancel hget | isCancelled hget =>
      cases hx
      obtain ⟨r, hr, -⟩ := h.origin_of_get hget
      exact ⟨r, hr⟩
  · intro hhandle
    have hget : ∀ x, o.handle? = some x → ∃ token, p.get x = .ok token := fun x hx => by
      obtain ⟨r, hr⟩ := hhandle x hx
      obtain ⟨i, budget, -, hget, -⟩ := h.exists_get hr
      exact ⟨_, hget⟩
    cases o with
    | new budget => exact ⟨_, _, .new budget⟩
    | share x => exact (hget x rfl).elim fun _ hget => ⟨_, _, .share hget⟩
    | poll x => exact (hget x rfl).elim fun _ hget => ⟨_, _, .poll hget rfl⟩
    | cancel x => exact (hget x rfl).elim fun _ hget => ⟨_, _, .cancel hget⟩
    | isCancelled x => exact (hget x rfl).elim fun _ hget => ⟨_, _, .isCancelled hget⟩

end

/-! ## Runs -/

theorem tracks_run {operations : List Operation} {log : List Event} {p : Pool}
    (h : run operations = .ok (log, p)) : Tracks log p := by
  refine foldlM_inv (P := fun s => Tracks s.1 s.2) (fun o _ s s' hs hs' => ?_) Tracks.empty h
  obtain ⟨⟨a, p'⟩, ho, hret⟩ := bind_eq_ok.1 hs'
  cases hret
  exact hs.step (apply_eq_ok_iff.1 ho)

/-- The log holds what was done. -/
theorem operations_run {operations : List Operation} {log : List Event} {p : Pool}
    (h : run operations = .ok (log, p)) : log.map Prod.fst = operations.reverse := by
  have hfold : ∀ s : List Event × Pool, operations.foldlM record s = .ok (log, p) →
      log.map Prod.fst = operations.reverse ++ s.1.map Prod.fst := by
    clear h
    induction operations with
    | nil =>
      intro s hs
      cases hs
      rfl
    | cons o rest ih =>
      intro s hs
      rw [List.foldlM_cons] at hs
      obtain ⟨s', hs', hrest⟩ := bind_eq_ok.1 hs
      obtain ⟨⟨a, p'⟩, -, hret⟩ := bind_eq_ok.1 hs'
      cases hret
      rw [ih _ hrest, List.reverse_cons, List.append_assoc]
      rfl
  simpa using hfold _ h

/-- How a handle answers whose token has the given budget and went through the given events: it
grants a poll as long as nothing has ended the token and fewer polls were granted than the budget
allows, it is cancelled once something has ended the token, and what is left of the budget and what
was granted add up to the budget. -/
structure Obeys (p : Pool) (x : Nat) (budget : Option Nat) (events : List Event) : Prop where
  poll : ∃ granted p', p.poll x = .ok (granted, p') ∧ (granted = true ↔ Grants budget events)
  isCancelled : ∃ cancelled, p.isCancelled x = .ok cancelled ∧
    (cancelled = true ↔ ∃ e ∈ events, isEnd e = true)
  left : ∃ i token, p.get x = .ok (i, token) ∧ (budget = none → token.budget = none) ∧
    ∀ k, budget = some k → ∃ left, token.budget = some left ∧ left + events.countP isGrant = k

theorem obeys_tokenOf {p : Pool} {x i : Nat} {budget : Option Nat} {events : List Event}
    (hget : p.get x = .ok (i, tokenOf budget events)) (h : Affords budget events) :
    Obeys p x budget events where
  poll := by
    obtain ⟨granted, hpoll, hgrants, -⟩ := poll_tokenOf h x
    exact ⟨granted, _, poll_eq_ok hget hpoll, hgrants⟩
  isCancelled := by
    refine ⟨(tokenOf budget events).cancelled, ?_, cancelled_tokenOf⟩
    rw [Pool.isCancelled, hget]
    rfl
  left := by
    refine ⟨i, _, hget, ?_, ?_⟩
    · rintro rfl
      rfl
    · rintro k rfl
      exact ⟨k - events.countP isGrant, rfl, Nat.sub_add_cancel (h k rfl)⟩

/-- Whatever is done with any number of tokens, through however many handles: an operation can be done
if its handle was made, a handle stays with its token, and it answers as the token's budget and the
events of this token alone say, for nothing that is done with another token changes it. -/
theorem run_obeys {operations : List Operation} {log : List Event} {p : Pool}
    (h : run operations = .ok (log, p)) :
    log.map Prod.fst = operations.reverse ∧
    (∀ o : Operation, (∃ a p', o.apply p = .ok (a, p')) ↔
      ∀ x, o.handle? = some x → ∃ r, origin? log x = some r) ∧
    ∀ x r, origin? log x = some r →
      (∃ budget, (∀ b, (.new b, .handle r) ∈ log ↔ b = budget) ∧
        Obeys p x budget (eventsOf log r)) ∧
      ∀ (o : Operation) a p', o.apply p = .ok (a, p') →
        origin? ((o, a) :: log) x = some r ∧
        ((∀ y, o.handle? = some y → origin? log y ≠ some r) → p'.get x = p.get x) := by
  have htracks := tracks_run h
  refine ⟨operations_run h, fun o => ?_, fun x r hx => ⟨?_, fun o a p' ho => ?_⟩⟩
  · simp only [apply_eq_ok_iff]
    exact htracks.exists_step_iff
  · obtain ⟨i, budget, -, hget, hbudget, haffords⟩ := htracks.exists_get hx
    exact ⟨budget, hbudget, obeys_tokenOf hget haffords⟩
  · have hstep := apply_eq_ok_iff.1 ho
    exact ⟨htracks.origin_step hstep hx, htracks.get_step hstep hx⟩

/-- Two polls through two handles use up a budget of two, so a third one is refused and both handles are
cancelled, while another token goes on. -/
theorem run_obeys_two :
    ∃ log p, run [.new (some 2), .share 0, .poll 0, .poll 1, .poll 0, .new none, .poll 2] =
        .ok (log, p) ∧
      (origin? log 1 = some 0 ∧ ∃ cancelled, p.isCancelled 1 = .ok cancelled ∧ cancelled = true) ∧
      (origin? log 2 = some 2 ∧ ∃ granted p', p.poll 2 = .ok (granted, p') ∧ granted = true) := by
  obtain ⟨log, p, h, horigin, hended, hother, hnew, hevents⟩ : ∃ log p,
      run [.new (some 2), .share 0, .poll 0, .poll 1, .poll 0, .new none, .poll 2] = .ok (log, p) ∧
      origin? log 1 = some 0 ∧ (.poll 0, .granted false) ∈ eventsOf log 0 ∧
      origin? log 2 = some 2 ∧ (.new none, .handle 2) ∈ log ∧
      eventsOf log 2 = [(.poll 2, .granted true)] :=
    ⟨_, _, rfl, rfl, by decide, rfl, by decide, rfl⟩
  obtain ⟨-, -, hobeys⟩ := run_obeys h
  refine ⟨log, p, h, ⟨horigin, ?_⟩, hother, ?_⟩
  · obtain ⟨⟨budget, -, hfirst⟩, -⟩ := hobeys 1 0 horigin
    obtain ⟨cancelled, hcancelled, hiff⟩ := hfirst.isCancelled
    exact ⟨cancelled, hcancelled, hiff.2 ⟨_, hended, rfl⟩⟩
  · obtain ⟨⟨budget, hbudget, hsecond⟩, -⟩ := hobeys 2 2 hother
    obtain ⟨granted, p', hpoll, hiff⟩ := hsecond.poll
    obtain rfl := (hbudget none).1 hnew
    refine ⟨granted, p', hpoll, hiff.2 ⟨?_, nofun⟩⟩
    rw [hevents]
    decide

end Pool

end Nonassoc.Token
