import Mathlib.Algebra.BigOperators.Group.List.Defs
import Mathlib.Data.List.Forall2
import Mathlib.Data.List.Perm.Basic

/-!
# Computations that may fail

What it means that a computation made of several steps succeeds: every step does, and its results
are put together. What every step of a fold keeps and adds, the fold keeps and adds up
(`foldlM_add`); a fold comes to its end if each step succeeds where those before it have led
(`exists_foldlM`). `SameUnless E` compares two computations: they have the same result, unless the first
one ends with an error in `E`; steps with the same results make folds with the same result. `Alike R`
compares them up to a relation between their results, and no error differs from another one.
-/

namespace Nonassoc

variable {α β γ ε : Type}

theorem bind_eq_ok {x : Except ε α} {f : α → Except ε β} {r : β} :
    (x >>= f) = .ok r ↔ ∃ a, x = .ok a ∧ f a = .ok r := by
  cases x with
  | error e => exact ⟨nofun, nofun⟩
  | ok a => exact ⟨fun h => ⟨a, rfl, h⟩, fun ⟨_, h, hf⟩ => by cases h; exact hf⟩

theorem mapError_eq_ok {ε' : Type} {x : Except ε α} {f : ε → ε'} {r : α} :
    x.mapError f = .ok r ↔ x = .ok r := by
  cases x <;> simp [Except.mapError]

theorem bind_eq_error {x : Except ε α} {f : α → Except ε β} {e : ε} :
    (x >>= f) = .error e ↔ x = .error e ∨ ∃ a, x = .ok a ∧ f a = .error e := by
  cases x with
  | error e' =>
    refine ⟨fun h => .inl (by cases h; rfl), fun h => ?_⟩
    rcases h with h | ⟨_, h, _⟩
    · cases h
      rfl
    · cases h
  | ok a =>
    refine ⟨fun h => .inr ⟨a, rfl, h⟩, fun h => ?_⟩
    rcases h with h | ⟨_, h, hf⟩
    · cases h
    · cases h
      exact hf

theorem mapError_eq_error {ε' : Type} {x : Except ε α} {f : ε → ε'} {e : ε'} :
    x.mapError f = .error e ↔ ∃ e', x = .error e' ∧ f e' = e := by
  cases x <;> simp [Except.mapError]

theorem mapM_eq_ok {l : List α} {f : α → Except ε β} {r : List β} :
    l.mapM f = .ok r ↔ List.Forall₂ (fun a b => f a = .ok b) l r := by
  induction l generalizing r with
  | nil =>
    rw [List.mapM_nil, List.forall₂_nil_left_iff]
    exact ⟨fun h => (Except.ok.inj h).symm, fun h => by rw [h]; rfl⟩
  | cons a l ih =>
    rw [List.mapM_cons, bind_eq_ok, List.forall₂_cons_left_iff]
    refine ⟨fun hm => ?_, fun hm => ?_⟩
    · obtain ⟨b, hb, h⟩ := hm
      obtain ⟨bs, hbs, h⟩ := bind_eq_ok.1 h
      exact ⟨b, bs, hb, ih.1 hbs, (Except.ok.inj h).symm⟩
    · obtain ⟨b, bs, hb, hbs, rfl⟩ := hm
      exact ⟨b, hb, bind_eq_ok.2 ⟨bs, ih.2 hbs, rfl⟩⟩

theorem mapM_eq_some {f : α → Option β} {l : List α} {r : List β} :
    l.mapM f = some r ↔ List.Forall₂ (fun a b => f a = some b) l r := by
  induction l generalizing r with
  | nil =>
    rw [List.mapM_nil, List.forall₂_nil_left_iff]
    exact Option.some_inj.trans eq_comm
  | cons a l ih =>
    simp only [List.mapM_cons, List.forall₂_cons_left_iff, Option.bind_eq_bind,
      Option.bind_eq_some_iff, ih]
    constructor
    · rintro ⟨b, hb, bs, hbs, h⟩
      exact ⟨b, bs, hb, hbs, (Option.some.inj h).symm⟩
    · rintro ⟨b, bs, hb, hbs, rfl⟩
      exact ⟨b, hb, bs, hbs, rfl⟩

theorem mapM_eq_ok_map {l : List α} {f : α → Except ε β} {g : α → β}
    (h : ∀ a ∈ l, f a = .ok (g a)) : l.mapM f = .ok (l.map g) :=
  mapM_eq_ok.2 (List.forall₂_map_right_iff.2 (List.forall₂_same.2 h))

theorem mapM_congr {l : List α} {f g : α → Except ε β} (h : ∀ a ∈ l, f a = g a) :
    l.mapM f = l.mapM g := by
  induction l with
  | nil => rfl
  | cons a l ih =>
    obtain ⟨ha, hl⟩ := List.forall_mem_cons.1 h
    rw [List.mapM_cons, List.mapM_cons, ha, ih hl]

theorem mapM_map (f : α → Except ε β) (g : β → γ) (l : List α) :
    l.mapM (fun a => g <$> f a) = List.map g <$> l.mapM f := by
  induction l with
  | nil => rfl
  | cons a l ih =>
    rw [List.mapM_cons, List.mapM_cons, ih]
    simp only [map_bind, bind_map_left, map_pure, List.map_cons]

/-- Results that are joined one after the other. -/
theorem foldlM_append_eq_ok {f : α → Except ε (List β)} {l : List α} {init r : List β} :
    l.foldlM (fun acc a => do return acc ++ (← f a)) init = .ok r ↔
      ∃ rs, List.Forall₂ (fun a b => f a = .ok b) l rs ∧ r = init ++ rs.flatten := by
  induction l generalizing init with
  | nil =>
    simp only [List.foldlM_nil, List.forall₂_nil_left_iff, exists_eq_left, List.flatten_nil,
      List.append_nil]
    exact ⟨fun h => (Except.ok.inj h).symm, fun h => h ▸ rfl⟩
  | cons a l ih =>
    simp only [List.foldlM_cons, bind_eq_ok, List.forall₂_cons_left_iff]
    refine ⟨fun hm => ?_, fun hm => ?_⟩
    · obtain ⟨acc, ⟨b, hb, hacc⟩, hr⟩ := hm
      cases hacc
      obtain ⟨rs, hrs, rfl⟩ := ih.1 hr
      exact ⟨b :: rs, ⟨b, rs, hb, hrs, rfl⟩, by rw [List.flatten_cons, List.append_assoc]⟩
    · obtain ⟨_, ⟨b, rs, hb, hrs, rfl⟩, rfl⟩ := hm
      refine ⟨init ++ b, ⟨b, hb, rfl⟩, ih.2 ⟨rs, hrs, ?_⟩⟩
      rw [List.flatten_cons, List.append_assoc]

theorem exists_of_forall₂ {R : α → β → Prop} {l : List α} {rs : List β} (h : List.Forall₂ R l rs)
    {a : α} (ha : a ∈ l) : ∃ r ∈ rs, R a r := by
  induction h with
  | nil => cases ha
  | cons hr _ ih =>
    rcases List.mem_cons.1 ha with rfl | ha
    · exact ⟨_, List.mem_cons_self, hr⟩
    · obtain ⟨r, hmem, hr⟩ := ih ha
      exact ⟨r, List.mem_cons_of_mem _ hmem, hr⟩

/-- What is in a joined result comes from one of its parts. -/
theorem exists_of_mem_flatten {R : α → List β → Prop} {l : List α} {rs : List (List β)}
    (h : List.Forall₂ R l rs) {b : β} (hb : b ∈ rs.flatten) :
    ∃ a ∈ l, ∃ r, R a r ∧ b ∈ r := by
  induction h with
  | nil => cases hb
  | cons hr _ ih =>
    rw [List.flatten_cons, List.mem_append] at hb
    rcases hb with hb | hb
    · exact ⟨_, List.mem_cons_self, _, hr, hb⟩
    · obtain ⟨a, ha, r, hr', hbr⟩ := ih hb
      exact ⟨a, List.mem_cons_of_mem _ ha, r, hr', hbr⟩

/-- The error of a fold is that of a step. -/
theorem exists_of_foldlM_eq_error {f : β → α → Except ε β} {l : List α} {b : β} {e : ε}
    (h : l.foldlM f b = .error e) : ∃ a ∈ l, ∃ b, f b a = .error e := by
  induction l generalizing b with
  | nil => cases h
  | cons a l ih =>
    rw [List.foldlM_cons, bind_eq_error] at h
    rcases h with h | ⟨b', -, h⟩
    · exact ⟨a, List.mem_cons_self, b, h⟩
    · obtain ⟨x, hx, hf⟩ := ih h
      exact ⟨x, List.mem_cons_of_mem _ hx, hf⟩

/-- A fold whose steps fail whatever has come before fails at the first of them. -/
theorem foldlM_eq_error_iff {f : β → α → Except ε β} {bad : α → ε → Prop}
    (h : ∀ b a e, f b a = .error e ↔ bad a e) {l : List α} {b : β} {e : ε} :
    l.foldlM f b = .error e ↔
      ∃ before a after, l = before ++ a :: after ∧ (∀ x ∈ before, ∀ e, ¬ bad x e) ∧ bad a e := by
  induction l generalizing b with
  | nil => simp [pure, Except.pure]
  | cons c l ih =>
    rw [List.foldlM_cons, bind_eq_error, h]
    constructor
    · rintro (hc | ⟨b', hb', hl⟩)
      · exact ⟨[], c, l, rfl, nofun, hc⟩
      · obtain ⟨before, a, after, rfl, hbefore, ha⟩ := ih.1 hl
        refine ⟨c :: before, a, after, rfl, List.forall_mem_cons.2 ⟨fun e he => ?_, hbefore⟩, ha⟩
        cases hb'.symm.trans ((h b c e).2 he)
    · rintro ⟨before, a, after, hl, hbefore, ha⟩
      cases before with
      | nil =>
        cases hl
        exact .inl ha
      | cons d before =>
        cases hl
        rw [List.forall_mem_cons] at hbefore
        cases hc : f b c with
        | error e' => exact absurd ((h b c e').1 hc) (hbefore.1 e')
        | ok b' => exact .inr ⟨b', rfl, ih.2 ⟨before, a, after, rfl, hbefore.2, ha⟩⟩

/-- A fold whose steps fail whatever has come before fails exactly if one of them does. -/
theorem exists_foldlM_eq_error_iff {f : β → α → Except ε β} {bad : α → ε → Prop}
    (h : ∀ b a e, f b a = .error e ↔ bad a e) {l : List α} {b : β} :
    (∃ e, l.foldlM f b = .error e) ↔ ∃ a ∈ l, ∃ e, bad a e := by
  constructor
  · rintro ⟨e, he⟩
    obtain ⟨a, ha, b', hb'⟩ := exists_of_foldlM_eq_error he
    exact ⟨a, ha, e, (h b' a e).1 hb'⟩
  · rintro ⟨a, ha, e, he⟩
    induction l generalizing b with
    | nil => cases ha
    | cons c l ih =>
      simp only [List.foldlM_cons, bind_eq_error]
      cases hc : f b c with
      | error e' => exact ⟨e', .inl rfl⟩
      | ok b' =>
        have ha : a ∈ l := (List.mem_cons.1 ha).resolve_left fun hac => by
          cases hc.symm.trans ((h b c e).2 (hac ▸ he))
        obtain ⟨e', he'⟩ := ih (b := b') ha
        exact ⟨e', .inr ⟨b', rfl, he'⟩⟩

/-- The error of a list of computations is that of one of them. -/
theorem exists_of_mapM_eq_error {f : α → Except ε β} {l : List α} {e : ε}
    (h : l.mapM f = .error e) : ∃ a ∈ l, f a = .error e := by
  induction l with
  | nil => cases h
  | cons a l ih =>
    rw [List.mapM_cons, bind_eq_error] at h
    rcases h with h | ⟨b, -, h⟩
    · exact ⟨a, List.mem_cons_self, h⟩
    · rcases bind_eq_error.1 h with h | ⟨bs, -, h⟩
      · obtain ⟨x, hx, hf⟩ := ih h
        exact ⟨x, List.mem_cons_of_mem _ hx, hf⟩
      · cases h

theorem foldlM_inv {f : β → α → Except ε β} {P : β → Prop} {l : List α}
    (h : ∀ a ∈ l, ∀ s s', P s → f s a = .ok s' → P s') {s r : β} (hs : P s)
    (hr : l.foldlM f s = .ok r) : P r := by
  induction l generalizing s with
  | nil =>
    cases hr
    exact hs
  | cons a l ih =>
    rw [List.forall_mem_cons] at h
    rw [List.foldlM_cons, bind_eq_ok] at hr
    obtain ⟨s', hs', hr⟩ := hr
    exact ih h.2 (h.1 s s' hs hs') hr

/-- A fold comes to its end if every step succeeds where the steps before it have led. -/
theorem exists_foldlM {f : β → α → Except ε β} {P : List α → β → Prop} {l : List α}
    (h : ∀ done a rest, done ++ a :: rest = l → ∀ s, P done s →
      ∃ s', f s a = .ok s' ∧ P (done ++ [a]) s') {s : β} (hs : P [] s) :
    ∃ s', l.foldlM f s = .ok s' ∧ P l s' := by
  have hrest : ∀ rest done, done ++ rest = l → ∀ s, P done s →
      ∃ s', rest.foldlM f s = .ok s' ∧ P l s' := by
    intro rest
    induction rest with
    | nil => exact fun done hl s hs => ⟨s, rfl, by rwa [← hl, List.append_nil]⟩
    | cons a rest ih =>
      intro done hl s hs
      obtain ⟨s', hs', hP⟩ := h done a rest hl s hs
      obtain ⟨r, hr, hPr⟩ := ih (done ++ [a]) (by rw [List.append_assoc, ← hl]; rfl) s' hP
      exact ⟨r, by rw [List.foldlM_cons, hs']; exact hr, hPr⟩
  exact hrest l [] rfl s hs

/-- A fold whose steps keep a property of the state and add to a value of it. -/
theorem foldlM_add {G : Type} [AddMonoid G] {f : β → α → Except ε β} {P : β → Prop} {value : β → G}
    {w : α → G} {l : List α}
    (h : ∀ a ∈ l, ∀ s s', P s → f s a = .ok s' → P s' ∧ value s' = value s + w a) {s r : β}
    (hs : P s) (hr : l.foldlM f s = .ok r) : P r ∧ value r = value s + (l.map w).sum := by
  induction l generalizing s with
  | nil =>
    cases hr
    exact ⟨hs, by simp⟩
  | cons a l ih =>
    rw [List.forall_mem_cons] at h
    rw [List.foldlM_cons, bind_eq_ok] at hr
    obtain ⟨s', hs', hr⟩ := hr
    obtain ⟨hP, hvalue⟩ := h.1 s s' hs hs'
    obtain ⟨hPr, hr⟩ := ih h.2 hP hr
    refine ⟨hPr, ?_⟩
    rw [hr, hvalue, List.map_cons, List.sum_cons, add_assoc]

/-! ## Same results -/

/-- The same result, unless the first one is an error in `E`. -/
def SameUnless (E : ε → Prop) (x x' : Except ε α) : Prop := (∀ e, E e → x ≠ .error e) → x' = x

namespace SameUnless

variable {ε' : Type} {E : ε → Prop}

theorem refl (x : Except ε α) : SameUnless E x x := fun _ => rfl

theorem error {e : ε} (h : E e) (x : Except ε α) : SameUnless E (.error e) x :=
  fun hE => absurd rfl (hE e h)

theorem bind {x x' : Except ε α} {f f' : α → Except ε β} (hx : SameUnless E x x')
    (hf : ∀ a, x = .ok a → SameUnless E (f a) (f' a)) : SameUnless E (x >>= f) (x' >>= f') := by
  intro hE
  have hx' : x' = x := hx fun e he h => hE e he (by rw [h]; rfl)
  subst hx'
  cases x' with
  | error e => rfl
  | ok a => exact hf a rfl hE

theorem mapError {x x' : Except ε α} {g : ε → ε'} {E : ε' → Prop}
    (h : SameUnless (fun e => E (g e)) x x') : SameUnless E (x.mapError g) (x'.mapError g) := by
  intro hE
  rw [h fun e he hx => hE (g e) he (by rw [hx]; rfl)]

theorem foldlM {f f' : β → α → Except ε β} {l : List α}
    (h : ∀ a ∈ l, ∀ b, SameUnless E (f b a) (f' b a)) (b : β) :
    SameUnless E (l.foldlM f b) (l.foldlM f' b) := by
  induction l generalizing b with
  | nil => exact refl _
  | cons a l ih =>
    rw [List.forall_mem_cons] at h
    rw [List.foldlM_cons, List.foldlM_cons]
    exact (h.1 b).bind fun b' _ => ih h.2 b'

theorem mapM {f f' : α → Except ε β} {l : List α} (h : ∀ a ∈ l, SameUnless E (f a) (f' a)) :
    SameUnless E (l.mapM f) (l.mapM f') := by
  induction l with
  | nil => exact refl _
  | cons a l ih =>
    rw [List.forall_mem_cons] at h
    rw [List.mapM_cons, List.mapM_cons]
    exact h.1.bind fun _ _ => (ih h.2).bind fun _ _ => refl _

end SameUnless

/-! ## Alike results -/

/-- Both computations fail, or neither does and their results are related. -/
inductive Alike {ε' : Type} (R : α → β → Prop) : Except ε α → Except ε' β → Prop
  | ok {a : α} {b : β} : R a b → Alike R (.ok a) (.ok b)
  | error (e : ε) (e' : ε') : Alike R (.error e) (.error e')

namespace Alike

variable {ε' α' β' : Type} {R : α → β → Prop} {x : Except ε α} {y : Except ε' β}

theorem map {S : α' → β' → Prop} {f : α → α'} {g : β → β'} (h : Alike R x y)
    (hS : ∀ a b, R a b → S (f a) (g b)) : Alike S (x.map f) (y.map g) := by
  cases h with
  | ok hR => exact .ok (hS _ _ hR)
  | error e e' => exact .error e e'

theorem trans {S : β → γ → Prop} {T : α → γ → Prop} {ε'' : Type} {z : Except ε'' γ} (h : Alike R x y)
    (h' : Alike S y z) (hT : ∀ a b c, R a b → S b c → T a c) : Alike T x z := by
  cases h with
  | ok hR =>
    cases h' with
    | ok hS => exact .ok (hT _ _ _ hR hS)
  | error e e' =>
    cases h' with
    | error _ e'' => exact .error e e''

theorem swap (h : Alike R x y) : Alike (fun b a => R a b) y x := by
  cases h with
  | ok hR => exact .ok hR
  | error e e' => exact .error e' e

end Alike

/-- The same computations in another order. -/
theorem alike_mapM {f : α → Except ε β} {l l' : List α} (h : l.Perm l') :
    Alike List.Perm (l.mapM f) (l'.mapM f) := by
  cases hl : l.mapM f with
  | ok rs =>
    obtain ⟨rs', hrs', hperm⟩ := List.perm_comp_forall₂ h.symm (mapM_eq_ok.1 hl)
    rw [mapM_eq_ok.2 hrs']
    exact .ok hperm.symm
  | error e =>
    obtain ⟨a, ha, he⟩ := exists_of_mapM_eq_error hl
    cases hl' : l'.mapM f with
    | ok rs =>
      obtain ⟨b, -, hb⟩ := exists_of_forall₂ (mapM_eq_ok.1 hl') (h.mem_iff.1 ha)
      cases hb.symm.trans he
    | error e' => exact .error e e'

end Nonassoc
