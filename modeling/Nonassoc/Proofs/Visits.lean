import Nonassoc.Proofs.Polls

/-!
# What a walk gives its visitor

`Walk.Traverses w l e`: if no visit fails and the token refuses no poll, then the visitor is given
`l`, in order, and the walk ends with `e`. This holds of every walk with its items and with its own
failure, if it has one (`traverses`). `Visits` leaves the end open, so that only the items matter
(`visits_iff`); a walk `Enumerates` what it `Yields`, and then comes to its end.

`Walk.tally` adds up a number for each item while the walk is taken; it is the sum over the items
(`tally_eq_sum`).
-/

namespace Nonassoc.Walk

variable {α σ : Type}

/-- If no visit fails and the token refuses no poll, the visitor is given the items `l`, in order, and
the walk ends with `e`. A token that grants every poll is handed on as it is; any other token has
refused a poll only if it is cancelled at the end. -/
structure Traverses (w : Walk α) (l : List α) (e : Except Failure Unit) : Prop where
  unlimited : ∀ {σ : Type} (f : σ → α → σ) (visitor : α → Token → σ → Run σ),
    (∀ a s, visitor a .unlimited s = ⟨.ok (), .unlimited, f s a⟩) →
      ∀ s, w.forEach visitor .unlimited s = ⟨e, .unlimited, l.foldl f s⟩
  steady : ∀ {σ : Type} (f : σ → α → σ) (visitor : α → Token → σ → Run σ),
    (∀ a t s, (visitor a t s).result = .ok () ∧ (visitor a t s).state = f s a) →
      ∀ t s, (w.forEach visitor t s).token.cancelled = false →
        (w.forEach visitor t s).result = e ∧ (w.forEach visitor t s).state = l.foldl f s

/-- If no visit fails and the token refuses no poll, the visitor is given the items `l`, in order. -/
def Visits (w : Walk α) (l : List α) : Prop := ∃ e, w.Traverses l e

/-- If no visit fails and the token refuses no poll, the visitor is given the items `l`, in order, and
the walk comes to its end. -/
def Enumerates (w : Walk α) (l : List α) : Prop := w.Traverses l (.ok ())

/-- A walk whose token has refused no poll in the end. -/
theorem forEach_steady {visitor : α → Token → σ → Run σ} {f : σ → α → σ}
    (h : ∀ a t s, (visitor a t s).result = .ok () ∧ (visitor a t s).state = f s a) (w : Walk α)
    (t : Token) (s : σ) (hc : (w.forEach visitor t s).token.cancelled = false) :
    (w.forEach visitor t s).result = w.ending ∧
      (w.forEach visitor t s).state = w.toList.foldl f s := by
  induction w generalizing t s with
  | done => exact ⟨rfl, rfl⟩
  | fail e => exact ⟨rfl, rfl⟩
  | visit a => exact h a t s
  | poll rest ih =>
    rw [forEach_poll] at hc ⊢
    split at hc
    · rename_i hpoll
      rw [if_pos hpoll]
      exact ih () _ _ hc
    · rename_i hpoll
      have hrefused : t.poll = (false, t.poll.2) := Prod.ext (Bool.eq_false_iff.2 hpoll) rfl
      cases (Token.cancelled_of_poll hrefused).symm.trans hc
  | fork v w hv hw =>
    rw [forEach_fork] at hc ⊢
    cases hr : (forEach visitor v t s).result with
    | ok u =>
      -- whatever a visit makes of the token, this branch has come to its end
      have hstate := foldl_of_forEach (fun a t s _ => (h a t s).2) hr
      obtain ⟨he, hl⟩ := ending_fork_of_ok w (ending_eq_ok_iff.2 (failure?_of_forEach hr))
      rw [hr] at hc
      rw [he, hl, List.foldl_append, ← hstate]
      exact hw () _ _ hc
    | error e =>
      rw [hr] at hc
      obtain ⟨hresult, hstate⟩ := hv t s hc
      obtain ⟨he, hl⟩ := ending_fork_of_error w (hresult.symm.trans hr)
      rw [he, hl]
      exact ⟨hr, hstate⟩

theorem traverses (w : Walk α) : w.Traverses w.toList w.ending where
  unlimited _ _ h s := forEach_granted (fun a _ => h a) s
  steady _ _ h t s hc := forEach_steady h w t s hc

/-- A walk visits its items and nothing else. -/
theorem visits_iff {w : Walk α} {l : List α} : w.Visits l ↔ l = w.toList := by
  refine ⟨fun h => ?_, fun hl => ⟨w.ending, hl ▸ w.traverses⟩⟩
  obtain ⟨e, h⟩ := h
  -- a visitor that writes down what it is given
  let visitor : α → Token → List α → Run (List α) := fun a t s => ⟨.ok (), t, a :: s⟩
  have hvisitor := h.unlimited (fun s a => a :: s) visitor (fun _ _ => rfl) []
  rw [w.traverses.unlimited (fun s a => a :: s) visitor (fun _ _ => rfl) []] at hvisitor
  simpa using (congrArg Run.state hvisitor).symm

theorem visits_toList (w : Walk α) : w.Visits w.toList := visits_iff.2 rfl

theorem Yields.enumerates {w : Walk α} {l : List α} (h : Yields w l) : w.Enumerates l := by
  have ht := w.traverses
  rwa [h.toList, ending, h.failure?] at ht

/-- The sum of a number for each item, added up while the walk is taken with a token that grants
every poll. -/
def tally (value : α → Nat) (w : Walk α) : Nat :=
  (w.forEach (fun a t n => ⟨.ok (), t, n + value a⟩) .unlimited 0).state

theorem tally_eq_sum (value : α → Nat) (w : Walk α) : w.tally value = (w.toList.map value).sum := by
  rw [tally, forEach_granted (f := fun n a => n + value a) fun _ _ _ => rfl, List.sum_eq_foldl,
    List.foldl_map]

theorem tally_one (w : Walk α) : w.tally (fun _ => 1) = w.toList.length := by
  rw [tally_eq_sum, List.map_const', List.sum_replicate_nat, Nat.mul_one]

end Nonassoc.Walk
