import Mathlib.Algebra.GroupWithZero.Nat
import Mathlib.Data.List.Basic
import Nonassoc.Proofs.Results
import Nonassoc.Walk

/-!
# Taking a walk

`Yields w l`: the walk `w` does not fail and its items are `l`. Each builder has a lemma that says
what it yields, so that a search is described without unfolding `toList` and `failure?`.

The other statements are about `Walk.forEach`:

* `forEach_inv`: what every visit keeps holds at the end, however the walk ends;
* `forEach_failsOnly`: an error is that of a visit or of the walk, or the token ended the walk;
* `forEach_sameUnless`: visits with the same ends make runs with the same end;
* `forEach_similar`: visits with the same results, which keep tokens and states related, make such
  runs;
* `foldlM_of_forEach`, `foldl_of_forEach`, `forEach_all`, `forEach_adds`: a walk that was taken to its
  end has visited all its items, in order;
* `forEach_granted`, `forEach_unlimited`: with a token that grants every poll and a visitor that never
  fails, a walk is taken to its end, unless it fails itself.
-/

namespace Nonassoc.Walk

variable {α β γ ε σ σ' τ : Type}

/-- The walk does not fail, and its items are `l`. -/
structure Yields (w : Walk α) (l : List α) : Prop where
  failure? : w.failure? = none
  toList : w.toList = l

namespace Yields

theorem done : Yields (done : Walk α) [] := ⟨rfl, rfl⟩

theorem visit (a : α) : Yields (visit a) [a] := ⟨rfl, rfl⟩

theorem poll {rest : Unit → Walk α} {l : List α} (h : Yields (rest ()) l) :
    Yields (poll rest) l :=
  ⟨h.failure?, h.toList⟩

theorem attempt {wrap : ε → Failure} {x : Except ε β} {b : β} {next : β → Walk α} {l : List α}
    (hx : x = .ok b) (h : Yields (next b) l) : Yields (attempt wrap x next) l := by
  rw [hx]
  exact h

theorem choose {l : List β} {next : β → Walk α} {f : β → List α}
    (h : ∀ b ∈ l, Yields (next b) (f b)) : Yields (choose l next) (l.flatMap f) := by
  have hf : ∀ b ∈ l, (next b).failure? = none := fun b hb => (h b hb).failure?
  refine ⟨failure?_choose hf, ?_⟩
  rw [toList_choose hf]
  exact List.flatMap_congr fun b hb => (h b hb).toList

theorem chooseFrom {first count : Nat} {next : Nat → Walk α} {f : Nat → List α}
    (h : ∀ i ∈ List.range' first count, Yields (next i) (f i)) :
    Yields (chooseFrom first count next) ((List.range' first count).flatMap f) := by
  rw [chooseFrom_eq_choose]
  exact choose h

theorem filter {w : Walk α} {l : List α} (p : α → Bool) (h : Yields w l) :
    Yields (w.filter p) (l.filter p) :=
  ⟨by rw [failure?_filter, h.failure?], by rw [toList_filter, h.toList]⟩

/-- A search that goes on only under a condition, without which there would be nothing to find. -/
theorem ite {c : Prop} [Decidable c] {w : Walk α} {l : List α} (h : c → Yields w l)
    (hn : ¬ c → l = []) : Yields (if c then w else .done) l := by
  split
  · exact h ‹_›
  · rw [hn ‹_›]
    exact .done

theorem congr {w : Walk α} {l m : List α} (h : Yields w l) (e : l = m) : Yields w m := e ▸ h

end Yields

theorem polls_choose {l : List β} {next : β → Walk α} (h : ∀ b ∈ l, (next b).polls = 0) :
    (Walk.choose l next).polls = 0 := by
  fun_induction Walk.choose l next with
  | case1 => rfl
  | case2 b next => exact h b (by simp)
  | case3 b c rest next ih =>
    rw [List.forall_mem_cons] at h
    simp only [polls, h.1, ih h.2]
    split <;> rfl

/-! ## Taking a walk to any end -/

/-- A walk that fails is never taken to its end. -/
theorem failure?_of_forEach {visitor : α → Token → σ → Run σ} {w : Walk α} {t : Token} {s : σ}
    (h : (forEach visitor w t s).result = .ok ()) : w.failure? = none := by
  induction w generalizing t s with
  | done => rfl
  | fail e => cases h
  | visit a => rfl
  | poll rest ih =>
    simp only [forEach] at h
    split at h
    · exact ih () h
    · cases h
  | fork v w hv hw =>
    simp only [forEach] at h
    split at h
    · rename_i t' s' he
      have hf : v.failure? = none := hv (by rw [he])
      rw [failure?_fork w hf]
      exact hw () h
    · cases h

theorem failure?_of_fork {v : Walk α} {w : Unit → Walk α} (h : (fork v w).failure? = none) :
    v.failure? = none := by
  simp only [failure?] at h
  split at h
  · cases h
  · assumption

theorem mem_toList_fork {v : Walk α} (w : Unit → Walk α) {a : α} (h : a ∈ v.toList) :
    a ∈ (fork v w).toList := by
  simp only [toList]
  split
  · exact h
  · exact List.mem_append_left _ h

/-- What a visit to each of the items keeps, a walk keeps. -/
theorem forEach_inv {visitor : α → Token → σ → Run σ} {w : Walk α} {P : σ → Prop}
    (h : ∀ a ∈ w.toList, ∀ t s, P s → P (visitor a t s).state) (t : Token) (s : σ) (hs : P s) :
    P (forEach visitor w t s).state := by
  induction w generalizing t s with
  | done => exact hs
  | fail e => exact hs
  | visit a => exact h a (by simp) t s hs
  | poll rest ih =>
    simp only [forEach]
    split
    · exact ih () h _ _ hs
    · exact hs
  | fork v w hv hw =>
    have hP := hv (fun a ha => h a (mem_toList_fork w ha)) t s hs
    simp only [forEach]
    split
    · -- the second branch is reached only if the first one does not fail
      rename_i t' s' he
      have hf : v.failure? = none := failure?_of_forEach (by rw [he])
      rw [he] at hP
      rw [toList_fork w hf] at h
      exact hw () (fun a ha => h a (List.mem_append_right _ ha)) _ _ hP
    · rename_i e t' s' he
      rw [he] at hP
      exact hP

/-- A run that was started with the token `t` fails with an error in `P`, unless the token ends it,
and is cancelled then. A token that grants every poll is handed on as it is. -/
structure Run.FailsOnly (P : Failure → Prop) (t : Token) (r : Run σ) : Prop where
  token : t = .unlimited → r.token = .unlimited
  error : ∀ e, r.result = .error e → P e ∨ e = .cancelled ∧ r.token.cancelled = true

/-- The state at the end does not matter. -/
theorem Run.FailsOnly.congr {P : Failure → Prop} {t : Token} {r : Run σ} (h : r.FailsOnly P t)
    {r' : Run τ} (hr : r'.result = r.result) (ht : r'.token = r.token) : r'.FailsOnly P t :=
  ⟨fun hu => ht.trans (h.token hu), fun e he => ht ▸ h.error e (hr.symm.trans he)⟩

/-- An error is that of a visit, or of the walk itself, unless the token ends the walk. -/
theorem forEach_failsOnly {visitor : α → Token → σ → Run σ} {w : Walk α} {P : Failure → Prop}
    (hw : ∀ e, w.failure? = some e → P e)
    (h : ∀ a ∈ w.toList, ∀ t s, (visitor a t s).FailsOnly P t) (t : Token) (s : σ) :
    (forEach visitor w t s).FailsOnly P t := by
  induction w generalizing t s with
  | done => exact ⟨id, nofun⟩
  | fail f => exact ⟨id, fun e he => .inl (hw e (by cases he; rfl))⟩
  | visit a => exact h a (by simp) t s
  | poll rest ih =>
    simp only [forEach]
    split
    · rename_i t' hpoll
      have hrest := ih () hw h t' s
      have ht : t = .unlimited → t' = .unlimited := by
        rintro rfl
        cases hpoll
        rfl
      exact ⟨hrest.token ∘ ht, hrest.error⟩
    · rename_i t' hpoll
      have ht : t ≠ .unlimited := by
        rintro rfl
        cases hpoll
      exact ⟨fun hu => absurd hu ht,
        fun e he => .inr ⟨by cases he; rfl, Token.cancelled_of_poll hpoll⟩⟩
  | fork v w hv hw' =>
    have hfirst := hv (fun f hf => hw f (by simp [failure?, hf]))
      (fun a ha => h a (mem_toList_fork w ha)) t s
    simp only [forEach]
    split
    · -- the second branch is taken with the token that the first one hands on
      rename_i t' s' hok
      rw [hok] at hfirst
      have hf : v.failure? = none := failure?_of_forEach (by rw [hok])
      rw [toList_fork w hf] at h
      rw [failure?_fork w hf] at hw
      have hsecond := hw' () hw (fun a ha => h a (List.mem_append_right _ ha)) t' s'
      exact ⟨hsecond.token ∘ hfirst.token, hsecond.error⟩
    · rename_i herror
      rw [herror] at hfirst
      exact hfirst

/-- The same end, unless the first run fails with an error in `E`. -/
def Run.SameUnless (E : Failure → Prop) (r r' : Run σ) : Prop :=
  (∀ e, E e → r.result ≠ .error e) → r' = r

/-- Where the visits to all items have the same end, so have the walks. -/
theorem forEach_sameUnless {visitor visitor' : α → Token → σ → Run σ} {w : Walk α}
    {E : Failure → Prop}
    (h : ∀ a ∈ w.toList, ∀ t s, (visitor a t s).SameUnless E (visitor' a t s)) (t : Token) (s : σ) :
    (forEach visitor w t s).SameUnless E (forEach visitor' w t s) := by
  intro hE
  induction w generalizing t s with
  | done => rfl
  | fail e => rfl
  | visit a => exact h a (by simp) t s hE
  | poll rest ih =>
    simp only [forEach] at hE ⊢
    split
    · rename_i t' ht
      rw [ht] at hE
      exact ih () h t' s hE
    · rfl
  | fork v w hv hw =>
    have hEv : ∀ e, E e → (forEach visitor v t s).result ≠ .error e := by
      intro e he hr
      refine hE e he ?_
      simp only [forEach]
      split
      · rename_i hok
        rw [hok] at hr
        cases hr
      · rename_i herror
        rw [herror] at hr
        exact hr
    have hsame := hv (fun a ha => h a (mem_toList_fork w ha)) t s hEv
    simp only [forEach] at hE ⊢
    rw [hsame]
    split
    · rename_i t' s' hok
      rw [hok] at hE
      have hf : v.failure? = none := failure?_of_forEach (by rw [hok])
      rw [toList_fork w hf] at h
      exact hw () (fun a ha => h a (List.mem_append_right _ ha)) t' s' hE
    · rfl

/-- The same result, with related tokens and related states. -/
structure Run.Similar (T : Token → Token → Prop) (R : σ → σ' → Prop) (r : Run σ) (r' : Run σ') :
    Prop where
  result : r'.result = r.result
  token : T r.token r'.token
  state : R r.state r'.state

/-- Where the visits to all items are similar, so are the walks. -/
theorem forEach_similar {T : Token → Token → Prop} {R : σ → σ' → Prop}
    {visitor : α → Token → σ → Run σ} {visitor' : α → Token → σ' → Run σ'} {w : Walk α}
    (hpoll : ∀ t t', T t t' → t'.poll.1 = t.poll.1 ∧ T t.poll.2 t'.poll.2)
    (h : ∀ a ∈ w.toList, ∀ t t' s s', T t t' → R s s' →
      (visitor a t s).Similar T R (visitor' a t' s')) {t t' : Token} {s : σ} {s' : σ'}
    (ht : T t t') (hs : R s s') :
    (forEach visitor w t s).Similar T R (forEach visitor' w t' s') := by
  induction w generalizing t t' s s' with
  | done => exact ⟨rfl, ht, hs⟩
  | fail e => exact ⟨rfl, ht, hs⟩
  | visit a => exact h a (by simp) t t' s s' ht hs
  | poll rest ih =>
    obtain ⟨hgranted, htoken⟩ := hpoll t t' ht
    simp only [forEach]
    rcases hp : t.poll with ⟨_ | _, u⟩ <;> rcases hp' : t'.poll with ⟨_ | _, u'⟩ <;>
      simp only [hp, hp'] at hgranted htoken
    · exact ⟨rfl, htoken, hs⟩
    · cases hgranted
    · cases hgranted
    · exact ih () h htoken hs
  | fork v w hv hw =>
    obtain ⟨hresult, htoken, hstate⟩ := hv (fun a ha => h a (mem_toList_fork w ha)) ht hs
    simp only [forEach]
    rcases hr : forEach visitor v t s with ⟨_ | _, u, x⟩ <;>
      rcases hr' : forEach visitor' v t' s' with ⟨_ | _, u', x'⟩ <;>
      simp only [hr, hr'] at hresult htoken hstate
    · cases hresult
      exact ⟨rfl, htoken, hstate⟩
    · cases hresult
    · cases hresult
    · -- the second branches are taken only if the first ones do not fail
      have hf : v.failure? = none := failure?_of_forEach (by rw [hr])
      rw [toList_fork w hf] at h
      exact hw () (fun a ha => h a (List.mem_append_right _ ha)) htoken hstate

/-! ## Taking a walk to its end -/

/-- If every visit that succeeds acts on a view of the state as `step` does, then a walk that is
taken to its end acts on it as all steps in order. -/
theorem foldlM_of_forEach (visitor : α → Token → σ → Run σ) (view : σ → τ)
    (step : τ → α → Except Failure τ)
    (hstep : ∀ a t s, (visitor a t s).result = .ok () →
      step (view s) a = .ok (view (visitor a t s).state))
    {w : Walk α} {t : Token} {s : σ} (h : (forEach visitor w t s).result = .ok ()) :
    w.toList.foldlM step (view s) = .ok (view (forEach visitor w t s).state) := by
  induction w generalizing t s with
  | done => rfl
  | fail e => cases h
  | visit a =>
    simp only [toList, forEach, List.foldlM_cons, List.foldlM_nil, bind_pure] at h ⊢
    exact hstep a t s h
  | poll rest ih =>
    simp only [forEach] at h ⊢
    split at h
    · exact ih () h
    · cases h
  | fork v w hv hw =>
    have hf := failure?_of_forEach h
    simp only [forEach] at h ⊢
    split at h
    · rename_i t' s' he
      have hr : (forEach visitor v t s).result = .ok () := by rw [he]
      have hv' := hv hr
      rw [he] at hv'
      rw [toList_fork w (failure?_of_forEach hr), List.foldlM_append, hv']
      exact hw () h
    · cases h

/-- What each visit that succeeds adds to a number adds up over a walk that is taken to its end. -/
theorem forEach_adds {visitor : α → Token → σ → Run σ} (value : σ → Nat) (added : α → Nat)
    (h : ∀ a t s, (visitor a t s).result = .ok () →
      value (visitor a t s).state = value s + added a) {w : Walk α} {t : Token} {s : σ}
    (hr : (forEach visitor w t s).result = .ok ()) :
    value (forEach visitor w t s).state = value s + (w.toList.map added).sum := by
  let step : Nat → α → Except Failure Nat := fun n a => .ok (n + added a)
  have hstep : ∀ a ∈ w.toList, ∀ n n', True → step n a = .ok n' →
      True ∧ id n' = id n + added a := by
    intro a _ n n' _ hn
    cases hn
    exact ⟨trivial, rfl⟩
  have hfold := foldlM_of_forEach visitor value step (fun a t s hr => by rw [h a t s hr]) hr
  exact (foldlM_add (G := Nat) (P := fun _ => True) hstep trivial hfold).2

/-- If every visit that succeeds changes the state as `f` does, then a walk that is taken to its end
folds `f` over its items. -/
theorem foldl_of_forEach {visitor : α → Token → σ → Run σ} {f : σ → α → σ}
    (hf : ∀ a t s, (visitor a t s).result = .ok () → (visitor a t s).state = f s a) {w : Walk α}
    {t : Token} {s : σ} (h : (forEach visitor w t s).result = .ok ()) :
    (forEach visitor w t s).state = w.toList.foldl f s := by
  let step : σ → α → Except Failure σ := fun s a => pure (f s a)
  have hfold : w.toList.foldlM step s = .ok (forEach visitor w t s).state :=
    foldlM_of_forEach visitor id step (fun a t s hr => congrArg Except.ok (hf a t s hr).symm) h
  have hpure : w.toList.foldlM step s = .ok (w.toList.foldl f s) := List.foldlM_pure
  rw [hpure] at hfold
  exact (Except.ok.inj hfold).symm

/-- If a visit that succeeds makes sure of something for its item, and later visits keep it, then a
walk that is taken to its end makes sure of it for all its items. -/
theorem forEach_all {visitor : α → Token → σ → Run σ} {Q : α → σ → Prop}
    (hvisit : ∀ a t s, (visitor a t s).result = .ok () → Q a (visitor a t s).state)
    (hkeep : ∀ a b t s, Q a s → Q a (visitor b t s).state) {w : Walk α} {t : Token} {s : σ}
    (h : (forEach visitor w t s).result = .ok ()) :
    ∀ a ∈ w.toList, Q a (forEach visitor w t s).state := by
  induction w generalizing t s with
  | done => exact nofun
  | fail e => cases h
  | visit a =>
    intro b hb
    obtain rfl := List.mem_singleton.1 hb
    exact hvisit b t s h
  | poll rest ih =>
    simp only [forEach] at h ⊢
    split at h
    · exact ih () h
    · cases h
  | fork v w hv hw =>
    simp only [forEach] at h ⊢
    split at h
    · rename_i t' s' he
      have hr : (forEach visitor v t s).result = .ok () := by rw [he]
      have hv' := hv hr
      rw [he] at hv'
      rw [toList_fork w (failure?_of_forEach hr)]
      intro a ha
      rcases List.mem_append.1 ha with ha | ha
      · exact forEach_inv (fun b _ => hkeep a b) _ _ (hv' a ha)
      · exact hw () h a ha
    · cases h

/-- How a walk ends if neither a visit nor the token ends it. -/
def ending (w : Walk α) : Except Failure Unit :=
  match w.failure? with
  | some e => .error e
  | none => .ok ()

theorem ending_eq_ok_iff {w : Walk α} : w.ending = .ok () ↔ w.failure? = none := by
  unfold ending
  split <;> simp_all

/-- A second branch is reached if the first one does not fail by itself. -/
theorem ending_fork_of_ok {v : Walk α} (w : Unit → Walk α) (h : v.ending = .ok ()) :
    (fork v w).ending = (w ()).ending ∧ (fork v w).toList = v.toList ++ (w ()).toList := by
  rw [ending_eq_ok_iff] at h
  rw [ending, failure?_fork w h, toList_fork w h]
  exact ⟨rfl, rfl⟩

theorem ending_fork_of_error {v : Walk α} (w : Unit → Walk α) {e : Failure}
    (h : v.ending = .error e) :
    (fork v w).ending = .error e ∧ (fork v w).toList = v.toList := by
  rw [← h]
  unfold ending at h ⊢
  cases hv : v.failure? with
  | none => simp [hv] at h
  | some e' => simp [failure?, toList, hv]

/-- With a token that grants every poll and a visitor that never fails, only a failure of its own ends
a walk. -/
theorem forEach_granted {visitor : α → Token → σ → Run σ} {f : σ → α → σ} {w : Walk α}
    (h : ∀ a ∈ w.toList, ∀ s, visitor a .unlimited s = ⟨.ok (), .unlimited, f s a⟩) (s : σ) :
    forEach visitor w .unlimited s = ⟨w.ending, .unlimited, w.toList.foldl f s⟩ := by
  induction w generalizing s with
  | done => rfl
  | fail e => rfl
  | visit a => exact h a (by simp) s
  | poll rest ih => exact ih () h s
  | fork v w hv hw =>
    simp only [forEach]
    rw [hv fun a ha => h a (mem_toList_fork w ha)]
    cases hend : v.ending with
    | ok u =>
      obtain ⟨he, hl⟩ := ending_fork_of_ok w hend
      rw [hl] at h
      rw [he, hl, List.foldl_append]
      exact hw () (fun a ha => h a (List.mem_append_right _ ha)) _
    | error e =>
      obtain ⟨he, hl⟩ := ending_fork_of_error w hend
      rw [he, hl]

theorem forEach_unlimited {visitor : α → Token → σ → Run σ} {f : σ → α → σ} {w : Walk α}
    (hw : w.failure? = none)
    (h : ∀ a ∈ w.toList, ∀ s, visitor a .unlimited s = ⟨.ok (), .unlimited, f s a⟩) (s : σ) :
    forEach visitor w .unlimited s = ⟨.ok (), .unlimited, w.toList.foldl f s⟩ := by
  rw [forEach_granted h, ending_eq_ok_iff.2 hw]

/-- With such a token and visits that succeed and give it back, a walk that does not fail is taken
to its end. -/
theorem forEach_finishes (visitor : α → Token → σ → Run σ) {w : Walk α} (hw : w.failure? = none)
    (h : ∀ a ∈ w.toList, ∀ s,
      (visitor a .unlimited s).result = .ok () ∧ (visitor a .unlimited s).token = .unlimited)
    (s : σ) : (forEach visitor w .unlimited s).result = .ok () ∧
      (forEach visitor w .unlimited s).token = .unlimited := by
  rw [forEach_unlimited (f := fun s a => (visitor a .unlimited s).state) hw (fun a ha s => ?_) s]
  · exact ⟨rfl, rfl⟩
  · obtain ⟨hr, ht⟩ := h a ha s
    calc visitor a .unlimited s
        = ⟨(visitor a .unlimited s).result, (visitor a .unlimited s).token,
            (visitor a .unlimited s).state⟩ := rfl
      _ = ⟨.ok (), .unlimited, (visitor a .unlimited s).state⟩ := by rw [hr, ht]

end Nonassoc.Walk
