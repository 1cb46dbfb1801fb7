import Nonassoc.Proofs.Walk

/-!
# Polls

`Polls stopped f n`: the computation `f`, which hands a token on, makes `n` polls. A budget of `n`
polls or more gives the result of an unlimited token and leaves the rest of the budget; a smaller one
stops the computation. `Grows log n`: a list that is kept on the way is complete with `n` polls, and
more polls only add to its end.

Computations that follow each other add their polls up (`Polls.bind`, `Grows.bind`). So a walk whose
visits make fixed numbers of polls makes a fixed number, and its finished visits grow
(`Walk.polls_forEach`). `Walk.forEach_finished` tells what the state has to do with them. A walk that
does not poll is taken like the list of its items (`Walk.forEach_ofList`).

`Run.Outlasts r r'`: the run `r'` gets at least as far as `r`. If it does so at every visit, then it
does so for a whole walk, and finishes at least as many visits (`Walk.forEach_outlasts`).
-/

namespace Nonassoc

/-! ## Computations that poll -/

section
variable {ρ ρ' β : Type}

/-- The computation makes `n` polls, and is stopped if it is granted fewer. -/
structure Polls (stopped : ρ → Prop) (f : Token → ρ × Token) (n : Nat) : Prop where
  unlimited : (f .unlimited).2 = .unlimited
  enough : ∀ k, n ≤ k → f (.ofBudget (some k)) = ((f .unlimited).1, .ofBudget (some (k - n)))
  short : ∀ k < n, stopped (f (.ofBudget (some k))).1

/-- The list is complete after `n` polls, and grows until then. -/
structure Grows (log : Token → List β) (n : Nat) : Prop where
  enough : ∀ k, n ≤ k → log (.ofBudget (some k)) = log .unlimited
  mono : ∀ k k', k ≤ k' → log (.ofBudget (some k)) <+: log (.ofBudget (some k'))

variable {stopped : ρ → Prop} {stopped' : ρ' → Prop} {f : Token → ρ × Token}
  {g : ρ → Token → ρ' × Token} {n m : Nat}

namespace Polls

theorem pure (r : ρ) : Polls stopped (fun t => (r, t)) 0 :=
  ⟨rfl, fun _ _ => rfl, fun _ h => absurd h (Nat.not_lt_zero _)⟩

theorem congr {f' : Token → ρ × Token} (hf : Polls stopped f n) (h : ∀ t, f' t = f t) :
    Polls stopped f' n := by
  rwa [show f' = f from funext h]

theorem map (hf : Polls stopped f n) (g : ρ → ρ') (hg : ∀ r, stopped r → stopped' (g r)) :
    Polls stopped' (fun t => (g (f t).1, (f t).2)) n :=
  ⟨hf.unlimited, fun k hk => by rw [hf.enough k hk], fun k hk => hg _ (hf.short k hk)⟩

/-- The polls of computations that follow each other. -/
theorem bind (hf : Polls stopped f n) (hg : Polls stopped' (g (f .unlimited).1) m)
    (hstop : ∀ r t, stopped r → stopped' (g r t).1) :
    Polls stopped' (fun t => g (f t).1 (f t).2) (n + m) where
  unlimited := by rw [hf.unlimited, hg.unlimited]
  enough k hk := by
    rw [hf.enough k (by omega), hg.enough _ (by omega), hf.unlimited, Nat.sub_sub]
  short k hk := by
    by_cases hn : k < n
    · exact hstop _ _ (hf.short k hn)
    · rw [hf.enough k (by omega)]
      exact hg.short _ (by omega)

/-- One more poll comes first. -/
theorem poll (hf : Polls stopped f n) {r : ρ} (hr : stopped r) :
    Polls stopped (fun t => if t.poll.1 then f t.poll.2 else (r, t.poll.2)) (n + 1) where
  unlimited := hf.unlimited
  enough
    | 0, hk => absurd hk (Nat.not_succ_le_zero n)
    | k + 1, hk => by
      rw [Nat.succ_sub_succ]
      exact hf.enough k (Nat.le_of_succ_le_succ hk)
  short
    | 0, _ => hr
    | k + 1, hk => hf.short k (Nat.lt_of_succ_lt_succ hk)

end Polls

namespace Grows

theorem nil : Grows (fun _ => ([] : List β)) n := ⟨fun _ _ => rfl, fun _ _ _ => List.prefix_rfl⟩

theorem congr {log log' : Token → List β} (hlog : Grows log n) (h : ∀ t, log' t = log t) :
    Grows log' n := by
  rwa [show log' = log from funext h]

theorem map {β' : Type} {log : Token → List β} (hlog : Grows log n) (g : β → β') :
    Grows (fun t => (log t).map g) n :=
  ⟨fun k hk => by rw [hlog.enough k hk], fun k k' hk => (hlog.mono k k' hk).map g⟩

/-- What is kept for a result, unless the computation is stopped. -/
theorem ofResult (hf : Polls stopped f n) (log : ρ → List β) (hlog : ∀ r, stopped r → log r = []) :
    Grows (fun t => log (f t).1) n where
  enough k hk := by rw [hf.enough k hk]
  mono k k' hk := by
    by_cases hn : k < n
    · rw [hlog _ (hf.short k hn)]
      exact List.nil_prefix
    · have heq : (f (.ofBudget (some k))).1 = (f (.ofBudget (some k'))).1 := by
        rw [hf.enough k (by omega), hf.enough k' (by omega)]
      exact heq ▸ List.prefix_rfl

/-- What computations keep that follow each other. -/
theorem bind {log : Token → List β} (log' : ρ → Token → List β) (hf : Polls stopped f n)
    (hlog : Grows log n) (hlog' : Grows (log' (f .unlimited).1) m)
    (hstop : ∀ r t, stopped r → log' r t = []) :
    Grows (fun t => log t ++ log' (f t).1 (f t).2) (n + m) where
  enough k hk := by
    rw [hlog.enough k (by omega), hf.enough k (by omega), hlog'.enough _ (by omega), hf.unlimited]
  mono k k' hk := by
    by_cases hn : k < n
    · rw [hstop _ _ (hf.short k hn), List.append_nil]
      exact (hlog.mono k k' hk).trans (List.prefix_append _ _)
    · rw [hlog.enough k (by omega), hlog.enough k' (by omega), hf.enough k (by omega),
        hf.enough k' (by omega)]
      exact (List.prefix_append_right_inj _).2 (hlog'.mono _ _ (Nat.sub_le_sub_right hk n))

theorem poll {log : Token → List β} (hlog : Grows log n) :
    Grows (fun t => if t.poll.1 then log t.poll.2 else []) (n + 1) where
  enough
    | 0, hk => absurd hk (Nat.not_succ_le_zero n)
    | k + 1, hk => hlog.enough k (Nat.le_of_succ_le_succ hk)
  mono
    | 0, _, _ => List.nil_prefix
    | k + 1, 0, hk => absurd hk (Nat.not_succ_le_zero k)
    | k + 1, k' + 1, hk => hlog.mono k k' (Nat.le_of_succ_le_succ hk)

end Grows

end

/-- The second token grants at least as many polls as the first, and both grant a limited number. -/
def Token.AtMost (t t' : Token) : Prop :=
  ∃ k k', k ≤ k' ∧ t = .ofBudget (some k) ∧ t' = .ofBudget (some k')

/-! ## Walks -/

namespace Walk

variable {α σ τ : Type}

namespace Run

/-- A run as a result with a token. -/
def split (r : Run σ) : (Except Failure Unit × σ) × Token := ((r.result, r.state), r.token)

/-- The token ended the run. -/
def Stopped (r : Except Failure Unit × σ) : Prop := r.1 = .error .cancelled

theorem stopped_iff {r : Except Failure Unit × σ} : Stopped r ↔ r.1 = .error .cancelled := Iff.rfl

/-- The run makes `n` polls. -/
def Polls (f : Token → Run σ) (n : Nat) : Prop := Nonassoc.Polls Stopped (fun t => (f t).split) n

theorem Polls.pure (r : Except Failure Unit) (s : σ) : Polls (fun t => ⟨r, t, s⟩) 0 :=
  Nonassoc.Polls.pure (r, s)

end Run

/-- The items whose visits succeed when a walk is taken. -/
def finished (visitor : α → Token → σ → Run σ) : Walk α → Token → σ → List α
  | done, _, _ => []
  | fail _, _, _ => []
  | visit a, t, s =>
    match (visitor a t s).result with
    | .ok () => [a]
    | .error _ => []
  | poll rest, t, s => if t.poll.1 then finished visitor (rest ()) t.poll.2 s else []
  | fork v w, t, s =>
    let run := forEach visitor v t s
    finished visitor v t s ++
      match run.result with
      | .ok () => finished visitor (w ()) run.token run.state
      | .error _ => []

variable {visitor : α → Token → σ → Run σ}

theorem forEach_poll (rest : Unit → Walk α) (t : Token) (s : σ) :
    forEach visitor (poll rest) t s =
      if t.poll.1 then forEach visitor (rest ()) t.poll.2 s
      else ⟨.error .cancelled, t.poll.2, s⟩ := by
  simp only [forEach]
  rcases t.poll with ⟨_ | _, t⟩ <;> rfl

theorem forEach_fork (v : Walk α) (w : Unit → Walk α) (t : Token) (s : σ) :
    forEach visitor (fork v w) t s =
      match (forEach visitor v t s).result with
      | .ok () => forEach visitor (w ()) (forEach visitor v t s).token (forEach visitor v t s).state
      | .error _ => forEach visitor v t s := by
  simp only [forEach]
  rcases forEach visitor v t s with ⟨_ | _, t, s⟩ <;> rfl

/-- A walk makes a fixed number of polls if each visit does, and the more of them are granted, the
more visits succeed. -/
theorem polls_forEach (h : ∀ a s, ∃ n, Run.Polls (visitor a · s) n) (w : Walk α) (s : σ) :
    ∃ n, Run.Polls (forEach visitor w · s) n ∧ Grows (finished visitor w · s) n := by
  induction w generalizing s with
  | done => exact ⟨0, .pure (.ok ()) s, .nil⟩
  | fail e => exact ⟨0, .pure (.error e) s, .nil⟩
  | visit a =>
    obtain ⟨n, hn⟩ := h a s
    let log : Except Failure Unit × σ → List α := fun r =>
      match r.1 with
      | .ok () => [a]
      | .error _ => []
    refine ⟨n, hn, Grows.ofResult hn log fun r hr => ?_⟩
    simp only [log, Run.stopped_iff.1 hr]
  | poll rest ih =>
    obtain ⟨n, hpolls, hgrows⟩ := ih () s
    refine ⟨n + 1, (hpolls.poll (r := (.error .cancelled, s)) rfl).congr fun t => ?_, hgrows.poll⟩
    simp only [forEach_poll]
    split <;> rfl
  | fork v w hv hw =>
    -- the second branch is taken from where the first one ends, unless that one fails
    let next : Except Failure Unit × σ → Token → (Except Failure Unit × σ) × Token := fun r t =>
      match r.1 with
      | .ok () => (forEach visitor (w ()) t r.2).split
      | .error _ => (r, t)
    let more : Except Failure Unit × σ → Token → List α := fun r t =>
      match r.1 with
      | .ok () => finished visitor (w ()) t r.2
      | .error _ => []
    obtain ⟨n, hpolls, hgrows⟩ := hv s
    obtain ⟨m, hpolls', hgrows'⟩ : ∃ m, Nonassoc.Polls Run.Stopped
        (next (forEach visitor v .unlimited s).split.1) m ∧
        Grows (more (forEach visitor v .unlimited s).split.1) m := by
      simp only [next, more, Run.split]
      cases (forEach visitor v .unlimited s).result with
      | ok u => exact hw () _
      | error e => exact ⟨0, .pure _, .nil⟩
    refine ⟨n + m, (hpolls.bind (g := next) hpolls' fun r t hr => ?_).congr fun t => ?_,
      (hgrows.bind more hpolls hgrows' fun r t hr => ?_).congr fun t => ?_⟩
    · simp only [next, Run.stopped_iff.1 hr]
      exact hr
    · simp only [forEach_fork, next, Run.split]
      cases hr : (forEach visitor v t s).result with
      | ok u => rfl
      | error e => simp only [hr]
    · simp only [more, Run.stopped_iff.1 hr]
    · simp only [finished, more, Run.split]

/-- A walk that is taken to its end has visited all its items. -/
theorem finished_eq_toList {w : Walk α} {t : Token} {s : σ}
    (h : (forEach visitor w t s).result = .ok ()) : finished visitor w t s = w.toList := by
  induction w generalizing t s with
  | done => rfl
  | fail e => cases h
  | visit a =>
    rw [forEach] at h
    simp only [finished, h, toList]
  | poll rest ih =>
    rw [forEach_poll] at h
    rw [finished]
    split at h
    · rename_i hpoll
      rw [if_pos hpoll]
      exact ih () h
    · cases h
  | fork v w hv hw =>
    have hf := failure?_of_forEach h
    rw [forEach_fork] at h
    cases hr : (forEach visitor v t s).result with
    | ok u =>
      rw [hr] at h
      simp only [finished, hr]
      rw [hv hr, hw () h, toList_fork w (failure?_of_forEach hr)]
    | error e =>
      rw [hr] at h
      rw [h] at hr
      cases hr

/-- What holds of a state and the items visited so far: `Q` as long as all visits succeed, `P`
however the walk ends. -/
theorem forEach_finished (visitor : α → Token → σ → Run σ) {Q P : σ → List α → Prop}
    (hQ : ∀ s l, Q s l → P s l)
    (hok : ∀ a t s l, Q s l → (visitor a t s).result = .ok () →
      Q (visitor a t s).state (l ++ [a]))
    (herror : ∀ a t s l e, Q s l → (visitor a t s).result = .error e → P (visitor a t s).state l)
    (w : Walk α) (t : Token) {s : σ} {l : List α} (hs : Q s l) :
    P (forEach visitor w t s).state (l ++ finished visitor w t s) ∧
      ((forEach visitor w t s).result = .ok () →
        Q (forEach visitor w t s).state (l ++ finished visitor w t s)) := by
  induction w generalizing t s l with
  | done =>
    rw [finished, List.append_nil]
    exact ⟨hQ _ _ hs, fun _ => hs⟩
  | fail e =>
    rw [finished, List.append_nil]
    exact ⟨hQ _ _ hs, fun _ => hs⟩
  | visit a =>
    simp only [forEach, finished]
    cases hr : (visitor a t s).result with
    | ok u =>
      have h := hok a t s l hs hr
      exact ⟨hQ _ _ h, fun _ => h⟩
    | error e =>
      rw [List.append_nil]
      exact ⟨herror a t s l e hs hr, fun h => by cases h⟩
  | poll rest ih =>
    rw [forEach_poll, finished]
    split
    · exact ih () _ hs
    · rw [List.append_nil]
      exact ⟨hQ _ _ hs, fun h => by cases h⟩
  | fork v w hv hw =>
    obtain ⟨hP, hQv⟩ := hv t hs
    rw [forEach_fork, finished]
    cases hr : (forEach visitor v t s).result with
    | ok u =>
      rw [← List.append_assoc]
      exact hw () _ (hQv hr)
    | error e =>
      simp only [hr, List.append_nil]
      exact ⟨hP, fun h => by cases h⟩

/-! ## Walks that do not poll -/

/-- The items of a list in order. -/
def ofList : List α → Walk α
  | [] => done
  | a :: l => fork (visit a) fun _ => ofList l

theorem forEach_ofList_cons (a : α) (l : List α) (t : Token) (s : σ) :
    forEach visitor (ofList (a :: l)) t s =
      match (visitor a t s).result with
      | .ok () => forEach visitor (ofList l) (visitor a t s).token (visitor a t s).state
      | .error _ => visitor a t s :=
  forEach_fork (visit a) (fun _ => ofList l) t s

theorem forEach_ofList_append (l l' : List α) (t : Token) (s : σ) :
    forEach visitor (ofList (l ++ l')) t s =
      match (forEach visitor (ofList l) t s).result with
      | .ok () => forEach visitor (ofList l') (forEach visitor (ofList l) t s).token
          (forEach visitor (ofList l) t s).state
      | .error _ => forEach visitor (ofList l) t s := by
  induction l generalizing t s with
  | nil => rfl
  | cons a l ih =>
    rw [List.cons_append, forEach_ofList_cons, forEach_ofList_cons]
    cases hr : (visitor a t s).result with
    | ok u => exact ih _ _
    | error e => simp only [hr]

/-- A walk that neither polls nor fails is taken like the list of its items. -/
theorem forEach_ofList {w : Walk α} (hf : w.failure? = none) (hp : w.polls = 0) (t : Token) (s : σ) :
    forEach visitor (ofList w.toList) t s = forEach visitor w t s := by
  induction w generalizing t s with
  | done => rfl
  | fail e => cases hf
  | visit a =>
    rw [toList_visit, forEach_ofList_cons, forEach]
    rcases visitor a t s with ⟨_ | _, t', s'⟩ <;> rfl
  | poll rest => cases hp
  | fork v w hv hw =>
    have hfv := failure?_of_fork hf
    rw [failure?_fork w hfv] at hf
    simp only [polls, hfv, Nat.add_eq_zero_iff] at hp
    rw [toList_fork w hfv, forEach_ofList_append, forEach_fork, hv hfv hp.1]
    simp only [hw () hf hp.2]

/-! ## Runs that get further -/

/-- The second run gets at least as far as the first: if that one succeeds, so does it, with the same
state and at least as many polls left. -/
def Run.Outlasts (r r' : Run σ) : Prop :=
  r.result = .ok () → r'.result = .ok () ∧ r'.state = r.state ∧ r.token.AtMost r'.token

/-- If the second run gets further at every visit, it gets further on a walk, and finishes the visits
that the first one finishes. -/
theorem forEach_outlasts {visitor' : α → Token → σ → Run σ}
    (h : ∀ a t t' s, t.AtMost t' → (visitor a t s).Outlasts (visitor' a t' s)) (w : Walk α)
    {t t' : Token} (ht : t.AtMost t') (s : σ) :
    (forEach visitor w t s).Outlasts (forEach visitor' w t' s) ∧
      finished visitor w t s <+: finished visitor' w t' s := by
  induction w generalizing t t' s with
  | done => exact ⟨fun _ => ⟨rfl, rfl, ht⟩, List.prefix_rfl⟩
  | fail e => exact ⟨fun h => (by cases h), List.prefix_rfl⟩
  | visit a =>
    have hvisit := h a t t' s ht
    refine ⟨hvisit, ?_⟩
    simp only [finished]
    cases hr : (visitor a t s).result with
    | ok u =>
      simp only [(hvisit hr).1, List.prefix_rfl]
    | error e => exact List.nil_prefix
  | poll rest ih =>
    rw [forEach_poll, forEach_poll, finished, finished]
    obtain ⟨k, k', hk, rfl, rfl⟩ := ht
    cases k with
    | zero => exact ⟨fun h => (by cases h), List.nil_prefix⟩
    | succ k =>
      obtain ⟨k', rfl⟩ : ∃ n, k' = n + 1 := ⟨k' - 1, by omega⟩
      exact ih () ⟨k, k', Nat.le_of_succ_le_succ hk, rfl, rfl⟩ s
  | fork v w hv hw =>
    obtain ⟨hrun, hinitial⟩ := hv ht s
    rw [forEach_fork, forEach_fork, finished, finished]
    cases hr : (forEach visitor v t s).result with
    | ok u =>
      obtain ⟨hr', hstate, htoken⟩ := hrun hr
      obtain ⟨hrun', hinitial'⟩ := hw () htoken (forEach visitor v t s).state
      simp only [hr', hstate]
      refine ⟨hrun', ?_⟩
      rw [finished_eq_toList hr, finished_eq_toList hr']
      exact (List.prefix_append_right_inj _).2 hinitial'
    | error e =>
      refine ⟨fun h => ?_, ?_⟩
      · cases hr.symm.trans h
      · rw [List.append_nil]
        exact hinitial.trans (List.prefix_append _ _)

end Walk

end Nonassoc
