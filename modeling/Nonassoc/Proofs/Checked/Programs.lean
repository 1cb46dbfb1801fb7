import Mathlib.Data.List.Basic
import Nonassoc.Walk

/-!
# Searches on memory

A search keeps what it has built so far in memory, changes it as it goes down and puts it back as it
comes up again, and every index and every sum on the way is one that has to be allowed. A `Program`
is such a search: it works on a memory, and on the state of the visitor that it calls. Where an index
is outside a list, or a sum leaves its machine word, it ends with a fault.

`Takes K visitor p w`: started on a memory in `K`, the program `p` does to the token and to the
visitor's state what taking the walk `w` does, and leaves a memory in `K`. Every way to build programs
has a lemma, so that a search on memory is shown to be a walk by following its definition.
-/

namespace Nonassoc.Checked

open Walk (Run)

variable {α β : Type}

/-! ## Words and lists -/

/-- The sum of two machine words, which has to be one. -/
def addWord (a b : Nat) : Except Failure Nat :=
  if a + b ≤ maximalCount then .ok (a + b) else .error (.fault .arithmetic)

/-- The difference of two machine words, which must not be negative. -/
def subWord (a b : Nat) : Except Failure Nat :=
  if b ≤ a then .ok (a - b) else .error (.fault .arithmetic)

/-- The product of two machine words, which has to be one. -/
def mulWord (a b : Nat) : Except Failure Nat :=
  if a * b ≤ maximalCount then .ok (a * b) else .error (.fault .arithmetic)

/-- The quotient of two machine words, rounded up; the second one must not be zero. -/
def divideUp (a b : Nat) : Except Failure Nat :=
  if b = 0 then .error (.fault .arithmetic)
  else .ok (if a % b = 0 then a / b else a / b + 1)

/-- The sum of machine words, all partial sums of which have to be words. -/
def sumWords (l : List Nat) : Except Failure Nat := l.foldlM addWord 0

/-- The sum of two bytes, which has to be one. -/
def addByte (a b : UInt8) : Except Failure UInt8 :=
  match addByte? a b with
  | some c => .ok c
  | none => .error (.fault .arithmetic)

/-- The difference of two bytes, which must not be negative. -/
def subByte (a b : UInt8) : Except Failure UInt8 :=
  match subByte? a b with
  | some c => .ok c
  | none => .error (.fault .arithmetic)

/-- An entry of a list, which has to be there. -/
def cell (l : List α) (i : Nat) : Except Failure α :=
  match l[i]? with
  | some a => .ok a
  | none => .error (.fault .index)

/-- Changes an entry of a list, which has to be there. -/
def change (l : List α) (i : Nat) (f : α → Except Failure α) : Except Failure (List α) := do
  return l.set i (← f (← cell l i))

theorem addWord_eq_ok {a b : Nat} (h : a + b ≤ maximalCount) : addWord a b = .ok (a + b) :=
  if_pos h

theorem subWord_eq_ok {a b : Nat} (h : b ≤ a) : subWord a b = .ok (a - b) := if_pos h

theorem mulWord_eq_ok {a b : Nat} (h : a * b ≤ maximalCount) : mulWord a b = .ok (a * b) :=
  if_pos h

theorem divideUp_eq_ok {a b : Nat} (h : 0 < b) : divideUp a b = .ok ((a + b - 1) / b) := by
  rw [divideUp, if_neg (Nat.pos_iff_ne_zero.1 h)]
  have hdiv := Nat.div_add_mod a b
  have hlt := Nat.mod_lt a h
  split
  · have hsplit : a + b - 1 = b * (a / b) + (b - 1) := by omega
    rw [hsplit, Nat.mul_add_div h, Nat.div_eq_of_lt (a := b - 1) (by omega), Nat.add_zero]
  · have hsplit : a + b - 1 = b * (a / b + 1) + (a % b - 1) := by
      rw [Nat.mul_add]
      omega
    rw [hsplit, Nat.mul_add_div h, Nat.div_eq_of_lt (a := a % b - 1) (by omega), Nat.add_zero]

theorem foldlM_addWord {l : List Nat} {n : Nat} (h : n + total l ≤ maximalCount) :
    l.foldlM addWord n = .ok (n + total l) := by
  induction l generalizing n with
  | nil => rfl
  | cons a l ih =>
    rw [total_cons, ← Nat.add_assoc] at h
    rw [List.foldlM_cons, addWord_eq_ok (Nat.le_trans (Nat.le_add_right ..) h)]
    exact (ih h).trans (by rw [total_cons, Nat.add_assoc])

theorem sumWords_eq_ok {l : List Nat} (h : total l ≤ maximalCount) :
    sumWords l = .ok (total l) := by
  rw [sumWords, foldlM_addWord (by rwa [Nat.zero_add]), Nat.zero_add]

theorem cell_eq_ok {l : List α} {i : Nat} {a : α} (h : l[i]? = some a) : cell l i = .ok a := by
  rw [cell, h]

theorem cell_append (l l' : List α) (a : α) : cell (l ++ a :: l') l.length = .ok a :=
  cell_eq_ok (by simp)

theorem change_eq_ok {l : List α} {i : Nat} {a b : α} {f : α → Except Failure α}
    (ha : l[i]? = some a) (h : f a = .ok b) : change l i f = .ok (l.set i b) := by
  rw [change, cell_eq_ok ha]
  show (do return l.set i (← f a)) = _
  rw [h]
  rfl

/-- Changing the entry behind `l` leaves the others as they are. -/
theorem change_append (l l' : List α) {a b : α} {f : α → Except Failure α} (h : f a = .ok b) :
    change (l ++ a :: l') l.length f = .ok (l ++ b :: l') := by
  rw [change_eq_ok (by simp) h, List.set_append_right _ _ (Nat.le_refl _), Nat.sub_self,
    List.set_cons_zero]

/-! ## Programs -/

/-- A search on a memory `μ` that changes the state `σ` of a visitor. -/
def Program (μ σ : Type) := Token → μ → σ → Run (μ × σ)

namespace Program

variable {μ σ : Type}

/-- Does nothing. -/
def skip : Program μ σ := fun t m s => ⟨.ok (), t, (m, s)⟩

/-- Ends the search with an error. -/
def stop (e : Failure) : Program μ σ := fun t m s => ⟨.error e, t, (m, s)⟩

/-- Polls the token, and goes on if the poll is granted. -/
def poll (p : Program μ σ) : Program μ σ := fun t m s =>
  match t.poll with
  | (true, t) => p t m s
  | (false, t) => ⟨.error .cancelled, t, (m, s)⟩

/-- Goes on with the second program unless the first one ends with an error. -/
def andThen (p q : Program μ σ) : Program μ σ := fun t m s =>
  match p t m s with
  | ⟨.ok (), t, (m, s)⟩ => q t m s
  | ⟨.error e, t, ms⟩ => ⟨.error e, t, ms⟩

/-- Computes something from the memory, and goes on with it. -/
def check (x : μ → Except Failure β) (next : β → Program μ σ) : Program μ σ := fun t m s =>
  match x m with
  | .ok b => next b t m s
  | .error e => ⟨.error e, t, (m, s)⟩

/-- Changes the memory before a program and, however that ends, after it. -/
def between (enter leave : μ → Except Failure μ) (p : Program μ σ) : Program μ σ := fun t m s =>
  match enter m with
  | .error e => ⟨.error e, t, (m, s)⟩
  | .ok m =>
    let run := p t m s
    match leave run.state.1 with
    | .ok m => ⟨run.result, run.token, (m, run.state.2)⟩
    | .error e => ⟨.error e, run.token, run.state⟩

/-- Does the same for every entry of a list, until an error ends it. -/
def each : List β → (β → Program μ σ) → Program μ σ
  | [], _ => skip
  | b :: rest, p => (p b).andThen (each rest p)

theorem each_map {γ : Type} (l : List γ) (f : γ → β) (p : β → Program μ σ) :
    each (l.map f) p = each l fun c => p (f c) := by
  induction l with
  | nil => rfl
  | cons c l ih => exact congrArg ((p (f c)).andThen) ih

/-- Calls the visitor, which sees the memory. -/
def visit (visitor : μ → Token → σ → Run σ) : Program μ σ := fun t m s =>
  let run := visitor m t s
  ⟨run.result, run.token, (m, run.state)⟩

/-- Starts a program on a memory, which is given up in the end. -/
def start (p : Program μ σ) (m : μ) (t : Token) (s : σ) : Run σ :=
  let run := p t m s
  ⟨run.result, run.token, run.state.2⟩

/-! ## Programs that take walks -/

/-- A run of a program that is one of a walk, with a memory in `K` at the end. -/
structure Follows (K : μ → Prop) (run : Run (μ × σ)) (walk : Run σ) : Prop where
  result : run.result = walk.result
  token : run.token = walk.token
  state : run.state.2 = walk.state
  memory : K run.state.1

/-- Started on a memory in `K`, the program takes the walk and leaves a memory in `K`. -/
def Takes (K : μ → Prop) (visitor : α → Token → σ → Run σ) (p : Program μ σ) (w : Walk α) : Prop :=
  ∀ t m s, K m → Follows K (p t m s) (w.forEach visitor t s)

namespace Takes

variable {K K' : μ → Prop} {visitor : α → Token → σ → Run σ} {p q : Program μ σ} {w : Walk α}

theorem skip : Takes K visitor skip .done := fun _ _ _ hm => ⟨rfl, rfl, rfl, hm⟩

theorem poll {rest : Unit → Walk α} (h : Takes K visitor p (rest ())) :
    Takes K visitor p.poll (.poll rest) := by
  intro t m s hm
  rw [Program.poll, Walk.forEach]
  match t.poll with
  | (true, t) => exact h t m s hm
  | (false, t) => exact ⟨rfl, rfl, rfl, hm⟩

theorem andThen {rest : Unit → Walk α} (hp : Takes K visitor p w)
    (hq : Takes K visitor q (rest ())) : Takes K visitor (p.andThen q) (.fork w rest) := by
  intro t m s hm
  have h := hp t m s hm
  rw [Program.andThen, Walk.forEach]
  generalize p t m s = run at h ⊢
  generalize w.forEach visitor t s = walk at h ⊢
  obtain ⟨result, t', m', s'⟩ := run
  obtain ⟨_, _, _⟩ := walk
  obtain ⟨rfl, rfl, rfl, hmemory⟩ := h
  cases result with
  | ok => exact hq t' m' s' hmemory
  | error e => exact ⟨rfl, rfl, rfl, hmemory⟩

/-- The program for the first entry of a list, and then one for the others. -/
theorem choose_cons {b : β} {rest : List β} {next : β → Walk α} (hp : Takes K visitor p (next b))
    (hq : Takes K visitor q (.choose rest next)) :
    Takes K visitor (p.andThen q) (.choose (b :: rest) next) := by
  cases rest with
  | nil =>
    intro t m s hm
    have h := hp t m s hm
    rw [Program.andThen]
    generalize p t m s = run at h ⊢
    obtain ⟨result, t', m', s'⟩ := run
    cases result with
    | ok =>
      obtain ⟨hresult, htoken, hstate, hmemory⟩ := h
      obtain ⟨hresult', htoken', hstate', hmemory'⟩ := hq t' m' s' hmemory
      exact ⟨hresult'.trans hresult, htoken'.trans htoken, hstate'.trans hstate, hmemory'⟩
    | error e => exact h
  | cons c rest => exact andThen hp hq

theorem each {l : List β} {body : β → Program μ σ} {next : β → Walk α}
    (h : ∀ b ∈ l, Takes K visitor (body b) (next b)) :
    Takes K visitor (each l body) (.choose l next) := by
  induction l with
  | nil => exact skip
  | cons b rest ih =>
    exact choose_cons (h b List.mem_cons_self) (ih fun c hc => h c (List.mem_cons_of_mem _ hc))

theorem check {x : μ → Except Failure β} {b : β} {next : β → Program μ σ}
    (hx : ∀ m, K m → x m = .ok b) (h : Takes K visitor (next b) w) :
    Takes K visitor (check x next) w := by
  intro t m s hm
  rw [Program.check, hx m hm]
  exact h t m s hm

/-- What a program computes, a walk attempts. -/
theorem attempt {ε : Type} {wrap : ε → Failure} {x : Except ε β} {y : μ → Except Failure β}
    {next : β → Program μ σ} {rest : β → Walk α} (hy : ∀ m, K m → y m = x.mapError wrap)
    (h : ∀ b, x = .ok b → Takes K visitor (next b) (rest b)) :
    Takes K visitor (Program.check y next) (.attempt wrap x rest) := by
  intro t m s hm
  rw [Program.check, hy m hm]
  cases x with
  | ok b => exact h b rfl t m s hm
  | error e => exact ⟨rfl, rfl, rfl, hm⟩

theorem between {enter leave : μ → Except Failure μ}
    (henter : ∀ m, K m → ∃ m', enter m = .ok m' ∧ K' m')
    (hleave : ∀ m, K' m → ∃ m', leave m = .ok m' ∧ K m') (h : Takes K' visitor p w) :
    Takes K visitor (between enter leave p) w := by
  intro t m s hm
  obtain ⟨m', hm', hK'⟩ := henter m hm
  obtain ⟨hresult, htoken, hstate, hmemory⟩ := h t m' s hK'
  obtain ⟨m'', hm'', hK⟩ := hleave _ hmemory
  simp only [Program.between, hm', hm'']
  exact ⟨hresult, htoken, hstate, hK⟩

theorem visit {visitor' : μ → Token → σ → Run σ} {a : α}
    (h : ∀ m, K m → ∀ t s, visitor' m t s = visitor a t s) :
    Takes K visitor (visit visitor') (.visit a) := by
  intro t m s hm
  rw [Program.visit, h m hm t s]
  exact ⟨rfl, rfl, rfl, hm⟩

theorem start (h : Takes K visitor p w) {m : μ} (hm : K m) (t : Token) (s : σ) :
    p.start m t s = w.forEach visitor t s := by
  obtain ⟨hresult, htoken, hstate, -⟩ := h t m s hm
  rw [Program.start, hresult, htoken, hstate]

end Takes

end Program

end Nonassoc.Checked
