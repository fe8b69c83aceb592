import Mathlib.Tactic.Common

/-!
# Programs over atomic actions

A `Prog` is a sequential program whose only effects are atomic actions: each action is answered by
a value, on which the rest of the program may depend, and the program ends with a value or an
error. Programs are ordinary monadic code (`do` blocks, `Prog.fail`), so a function of an
asynchronous source reads as it does there, with one action for each critical section and for each
exchange with the outside.

A `Machine` says what the actions do to a state and what the outside world contributes to each.
`Exec` is the run of a program to its end with nobody else acting. A `Contract` is a proof rule for
the points in between: it carries a ghost value along the actions of one program, states what the
program may rely on before each action, and is checked once for each program (`Contract.Obeys`),
piece by piece (`Contract.obeys_bind`).
-/

namespace Lib

/-- A program over the actions `A`, answered in `Ret`, that ends with an `α` or an error `ε`. -/
inductive Prog (A : Type) (Ret : A → Type) (ε α : Type) : Type where
  | ret (r : Except ε α)
  | act (a : A) (k : Ret a → Prog A Ret ε α)

/-- An occurrence of an action: the action with the answer it got. -/
abbrev Occ {A : Type} (Ret : A → Type) := Σ a, Ret a

section
variable {A : Type} {Ret : A → Type} {ε α β σ : Type}

namespace Prog

/-- Sequential composition: an error ends the whole. -/
def bind : Prog A Ret ε α → (α → Prog A Ret ε β) → Prog A Ret ε β
  | .ret (.ok x), f => f x
  | .ret (.error e), _ => .ret (.error e)
  | .act a k, f => .act a fun r => (k r).bind f

instance : Monad (Prog A Ret ε) where
  pure x := .ret (.ok x)
  bind := Prog.bind

/-- End with an error. -/
def fail (e : ε) : Prog A Ret ε α := .ret (.error e)

/-- End with a result that may be an error (the `?` operator on a value). -/
def ofExcept (r : Except ε α) : Prog A Ret ε α := .ret r

/-- The value of an option, an error if there is none (`ok_or_else(..)?`). -/
def okOr (o : Option α) (e : ε) : Prog A Ret ε α :=
  match o with
  | some x => .ret (.ok x)
  | none => .ret (.error e)

/-- One action, its answer the result. -/
def perform (a : A) : Prog A Ret ε (Ret a) := .act a fun r => .ret (.ok r)

/-- Run a program and go on with how it ended (a `match` on a `Result`). -/
def onResult {ε' : Type} : Prog A Ret ε α → (Except ε α → Prog A Ret ε' β) → Prog A Ret ε' β
  | .ret r, f => f r
  | .act a k, f => .act a fun x => (k x).onResult f

theorem pure_eq (x : α) : (pure x : Prog A Ret ε α) = .ret (.ok x) := rfl

@[simp] theorem ok_bind (x : α) (f : α → Prog A Ret ε β) :
    (.ret (.ok x) >>= f : Prog A Ret ε β) = f x := rfl

@[simp] theorem error_bind (e : ε) (f : α → Prog A Ret ε β) :
    (.ret (.error e) >>= f : Prog A Ret ε β) = .ret (.error e) := rfl

@[simp] theorem act_bind (a : A) (k : Ret a → Prog A Ret ε α) (f : α → Prog A Ret ε β) :
    (.act a k >>= f : Prog A Ret ε β) = .act a fun r => k r >>= f := rfl

theorem bind_assoc {γ : Type} (p : Prog A Ret ε α) (f : α → Prog A Ret ε β)
    (g : β → Prog A Ret ε γ) : (p >>= f) >>= g = p >>= fun x => f x >>= g := by
  induction p with
  | ret r => cases r <;> rfl
  | act a k ih =>
    rw [act_bind, act_bind, act_bind]
    exact congrArg (Prog.act a) (funext ih)

theorem bind_pure (p : Prog A Ret ε α) : (p >>= pure) = p := by
  induction p with
  | ret r => cases r <;> rfl
  | act a k ih =>
    rw [act_bind]
    exact congrArg (Prog.act a) (funext ih)

@[simp] theorem perform_bind (a : A) (f : Ret a → Prog A Ret ε β) :
    (perform a >>= f : Prog A Ret ε β) = .act a f := rfl

end Prog

/-! ## Running a program alone -/

/-- What the actions do. A value of `World` is what the outside contributes to one execution of an
action, and `ready a s` says whether `a` can be executed in `s` (a lock may be held). -/
structure Machine (A : Type) (Ret : A → Type) (σ : Type) where
  World : Type
  ready : A → σ → Bool
  run : (a : A) → World → σ → Ret a × σ

/-- The action `a`, executed in `s`, is answered by `r` and leaves `s'`. -/
def Machine.Step (M : Machine A Ret σ) (a : A) (s : σ) (r : Ret a) (s' : σ) : Prop :=
  M.ready a s = true ∧ ∃ w, M.run a w s = (r, s')

/-- The program, run alone from `s`, performs the occurrences `es`, ends with `res` and leaves
`s'`. -/
inductive Exec (M : Machine A Ret σ) :
    Prog A Ret ε α → σ → List (Occ Ret) → Except ε α → σ → Prop where
  | ret {r : Except ε α} {s : σ} : Exec M (.ret r) s [] r s
  | act {a : A} {k : Ret a → Prog A Ret ε α} {s s₁ s' : σ} {r : Ret a} {es : List (Occ Ret)}
      {res : Except ε α} (h : M.Step a s r s₁) (hk : Exec M (k r) s₁ es res s') :
      Exec M (.act a k) s (⟨a, r⟩ :: es) res s'

variable {M : Machine A Ret σ} {s s' : σ} {es : List (Occ Ret)}

@[simp] theorem exec_ret_iff {r res : Except ε α} :
    Exec M (.ret r) s es res s' ↔ es = [] ∧ res = r ∧ s' = s := by
  constructor
  · rintro ⟨⟩
    exact ⟨rfl, rfl, rfl⟩
  · rintro ⟨rfl, rfl, rfl⟩
    exact .ret

theorem exec_act_iff {a : A} {k : Ret a → Prog A Ret ε α} {res : Except ε α} :
    Exec M (.act a k) s es res s' ↔
      ∃ r s₁ es', M.Step a s r s₁ ∧ es = ⟨a, r⟩ :: es' ∧ Exec M (k r) s₁ es' res s' := by
  constructor
  · intro h
    cases h with
    | act hst hk => exact ⟨_, _, _, hst, rfl, hk⟩
  · rintro ⟨r, s₁, es', h, rfl, hk⟩
    exact .act h hk

theorem exec_perform_bind_iff {a : A} {f : Ret a → Prog A Ret ε α} {res : Except ε α} :
    Exec M (Prog.perform a >>= f) s es res s' ↔
      ∃ r s₁ es', M.Step a s r s₁ ∧ es = ⟨a, r⟩ :: es' ∧ Exec M (f r) s₁ es' res s' :=
  exec_act_iff

/-- An action that does the same whatever the outside contributes. -/
theorem exec_perform_bind_of_run {a : A} {f : Ret a → Prog A Ret ε β} {res : Except ε β} {r : Ret a}
    {s₁ : σ} (hx : Exec M (Prog.perform a >>= f) s es res s') (hrun : ∀ w, M.run a w s = (r, s₁)) :
    ∃ es', es = ⟨a, r⟩ :: es' ∧ Exec M (f r) s₁ es' res s' := by
  obtain ⟨r', s₂, es', ⟨-, w, hw⟩, rfl, hk⟩ := exec_perform_bind_iff.1 hx
  rw [hrun w] at hw
  cases hw
  exact ⟨es', rfl, hk⟩

/-- A composition ends in its first part's error, or runs the second part from where the first
ended. -/
theorem exec_bind_iff {p : Prog A Ret ε α} {f : α → Prog A Ret ε β} {res : Except ε β} :
    Exec M (p >>= f) s es res s' ↔
      (∃ e, res = .error e ∧ Exec M p s es (.error e) s') ∨
      ∃ x s₁ es₁ es₂, Exec M p s es₁ (.ok x) s₁ ∧ Exec M (f x) s₁ es₂ res s' ∧
        es = es₁ ++ es₂ := by
  induction p generalizing s es with
  | ret r =>
    cases r with
    | ok x =>
      rw [Prog.ok_bind]
      constructor
      · exact fun h => .inr ⟨x, s, [], es, .ret, h, rfl⟩
      · rintro (⟨e, -, h⟩ | ⟨x', s₁, es₁, es₂, h, hf, rfl⟩)
        · simp at h
        · obtain ⟨rfl, hx, rfl⟩ := exec_ret_iff.1 h
          cases hx
          exact hf
    | error e =>
      rw [Prog.error_bind]
      constructor
      · intro h
        obtain ⟨rfl, rfl, rfl⟩ := exec_ret_iff.1 h
        exact .inl ⟨e, rfl, .ret⟩
      · rintro (⟨e', rfl, h⟩ | ⟨x, s₁, es₁, es₂, h, -, -⟩)
        · obtain ⟨rfl, he, rfl⟩ := exec_ret_iff.1 h
          cases he
          exact .ret
        · simp at h
  | act a k ih =>
    rw [Prog.act_bind]
    constructor
    · intro h
      obtain ⟨r, s₁, es', hst, rfl, hk⟩ := exec_act_iff.1 h
      rcases (ih r).1 hk with ⟨e, rfl, he⟩ | ⟨x, s₂, es₁, es₂, h1, h2, rfl⟩
      · exact .inl ⟨e, rfl, .act hst he⟩
      · exact .inr ⟨x, s₂, _, es₂, .act hst h1, h2, rfl⟩
    · rintro (⟨e, rfl, h⟩ | ⟨x, s₂, es₁, es₂, h, hf, rfl⟩)
      · obtain ⟨r, s₁, es', hst, rfl, hk⟩ := exec_act_iff.1 h
        exact .act hst ((ih r).2 (.inl ⟨e, rfl, hk⟩))
      · obtain ⟨r, s₁, es', hst, rfl, hk⟩ := exec_act_iff.1 h
        exact .act hst ((ih r).2 (.inr ⟨x, s₂, _, es₂, hk, hf, rfl⟩))

/-- A composition that ends with a value ran both parts. -/
theorem exec_bind_ok {p : Prog A Ret ε α} {f : α → Prog A Ret ε β} {out : β}
    (hx : Exec M (p >>= f) s es (.ok out) s') :
    ∃ x s₁ es₁ es₂, Exec M p s es₁ (.ok x) s₁ ∧ Exec M (f x) s₁ es₂ (.ok out) s' ∧
      es = es₁ ++ es₂ := by
  rcases exec_bind_iff.1 hx with ⟨e, he, -⟩ | h
  · cases he
  · exact h

/-- A composition that only changes the value ends as its first part does. -/
theorem exec_onResult_iff {ε' : Type} {p : Prog A Ret ε α} {f : Except ε α → Prog A Ret ε' β}
    {res : Except ε' β} :
    Exec M (p.onResult f) s es res s' ↔
      ∃ r s₁ es₁ es₂, Exec M p s es₁ r s₁ ∧ Exec M (f r) s₁ es₂ res s' ∧ es = es₁ ++ es₂ := by
  induction p generalizing s es with
  | ret r =>
    constructor
    · exact fun h => ⟨r, s, [], es, .ret, h, rfl⟩
    · rintro ⟨r', s₁, es₁, es₂, h, hf, rfl⟩
      obtain ⟨rfl, rfl, rfl⟩ := exec_ret_iff.1 h
      exact hf
  | act a k ih =>
    constructor
    · intro h
      obtain ⟨x, s₁, es', hst, rfl, hk⟩ := exec_act_iff.1 h
      obtain ⟨r, s₂, es₁, es₂, h₁, h₂, rfl⟩ := (ih x).1 hk
      exact ⟨r, s₂, ⟨a, x⟩ :: es₁, es₂, .act hst h₁, h₂, rfl⟩
    · rintro ⟨r, s₂, es₁, es₂, h₁, h₂, rfl⟩
      obtain ⟨x, s₁, es', hst, rfl, hk⟩ := exec_act_iff.1 h₁
      exact .act hst ((ih x).2 ⟨r, s₂, es', es₂, hk, h₂, rfl⟩)

theorem exec_map_iff {p : Prog A Ret ε α} {f : α → β} {res : Except ε β} :
    Exec M (do return f (← p)) s es res s' ↔ ∃ r, Exec M p s es r s' ∧ res = r.map f := by
  rw [exec_bind_iff]
  constructor
  · rintro (⟨e, rfl, h⟩ | ⟨x, s₁, es₁, es₂, h, hf, rfl⟩)
    · exact ⟨.error e, h, rfl⟩
    · obtain ⟨rfl, rfl, rfl⟩ := exec_ret_iff.1 hf
      exact ⟨.ok x, by rwa [List.append_nil], rfl⟩
  · rintro ⟨r, h, rfl⟩
    cases r with
    | error e => exact .inl ⟨e, rfl, h⟩
    | ok x => exact .inr ⟨x, s', es, [], h, .ret, (List.append_nil es).symm⟩

/-- The program, run alone from `s`, can end with `res` and leave `s'`. -/
def Machine.Can (M : Machine A Ret σ) (p : Prog A Ret ε α) (s : σ) (res : Except ε α) (s' : σ) :
    Prop := ∃ es, Exec M p s es res s'

theorem Machine.can_ret (M : Machine A Ret σ) (r : Except ε α) (s : σ) :
    M.Can (.ret r : Prog A Ret ε α) s r s := ⟨[], .ret⟩

/-- An action that is answered by `r`, and what comes after it. -/
theorem Machine.can_perform_bind {a : A} {f : Ret a → Prog A Ret ε β} {res : Except ε β} {r : Ret a}
    {s₁ : σ} (w : M.World) (hready : M.ready a s = true) (hrun : M.run a w s = (r, s₁))
    (hf : M.Can (f r) s₁ res s') : M.Can (Prog.perform a >>= f) s res s' := by
  obtain ⟨es, hf⟩ := hf
  exact ⟨_, .act ⟨hready, w, hrun⟩ hf⟩

theorem Machine.can_bind {p : Prog A Ret ε α} {f : α → Prog A Ret ε β} {x : α} {s₁ : σ}
    {res : Except ε β} (hp : M.Can p s (.ok x) s₁) (hf : M.Can (f x) s₁ res s') :
    M.Can (p >>= f) s res s' := by
  obtain ⟨es₁, hp⟩ := hp
  obtain ⟨es₂, hf⟩ := hf
  exact ⟨_, exec_bind_iff.2 (.inr ⟨x, s₁, es₁, es₂, hp, hf, rfl⟩)⟩

theorem Machine.can_bind_error {p : Prog A Ret ε α} {f : α → Prog A Ret ε β} {e : ε}
    (hp : M.Can p s (.error e) s') : M.Can (p >>= f) s (.error e) s' := by
  obtain ⟨es, hp⟩ := hp
  exact ⟨es, exec_bind_iff.2 (.inl ⟨e, rfl, hp⟩)⟩

end

/-! ## Which actions a program performs -/

section
variable {A : Type} {Ret : A → Type} {ε α β : Type} {P Q : A → Prop}

/-- Every action the program can perform satisfies `P`. -/
def Prog.Only (P : A → Prop) : Prog A Ret ε α → Prop
  | .ret _ => True
  | .act a k => P a ∧ ∀ r, (k r).Only P

@[simp] theorem Prog.only_ret {r : Except ε α} : (.ret r : Prog A Ret ε α).Only P := trivial

@[simp] theorem Prog.only_act {a : A} {k : Ret a → Prog A Ret ε α} :
    (.act a k : Prog A Ret ε α).Only P ↔ P a ∧ ∀ r, (k r).Only P := Iff.rfl

theorem Prog.only_perform {a : A} (h : P a) : (perform a : Prog A Ret ε (Ret a)).Only P :=
  ⟨h, fun _ => trivial⟩

theorem Prog.Only.bind {p : Prog A Ret ε α} {f : α → Prog A Ret ε β} (hp : p.Only P)
    (hf : ∀ x, (f x).Only P) : (p >>= f).Only P := by
  induction p with
  | ret r =>
    cases r with
    | ok x => exact hf x
    | error e => trivial
  | act a k ih => exact ⟨hp.1, fun r => ih r (hp.2 r)⟩

theorem Prog.Only.onResult {ε' : Type} {p : Prog A Ret ε α} {f : Except ε α → Prog A Ret ε' β}
    (hp : p.Only P) (hf : ∀ r, (f r).Only P) : (p.onResult f).Only P := by
  induction p with
  | ret r => exact hf r
  | act a k ih => exact ⟨hp.1, fun r => ih r (hp.2 r)⟩

theorem Prog.only_of_forall (h : ∀ a, P a) (p : Prog A Ret ε α) : p.Only P := by
  induction p with
  | ret r => trivial
  | act a k ih => exact ⟨h a, ih⟩

theorem Prog.Only.mono {p : Prog A Ret ε α} (h : p.Only P) (himp : ∀ a, P a → Q a) :
    p.Only Q := by
  induction p with
  | ret r => trivial
  | act a k ih => exact ⟨himp a h.1, fun r => ih r (h.2 r)⟩

end

section
variable {A : Type} {Ret : A → Type} {ε α σ : Type} {M : Machine A Ret σ} {P : A → Prop}

/-- What every action of a program keeps, the whole run keeps. -/
theorem Exec.invariant {p : Prog A Ret ε α} {s s' : σ} {es : List (Occ Ret)} {res : Except ε α}
    (h : Exec M p s es res s') (hp : p.Only P) {I : σ → Prop} (h₀ : I s)
    (hstep : ∀ (a : A) (r : Ret a) (s s' : σ), P a → (⟨a, r⟩ : Occ Ret) ∈ es →
      M.Step a s r s' → I s → I s') : I s' := by
  induction h with
  | ret => exact h₀
  | act hst _ ih =>
    exact ih (hp.2 _) (hstep _ _ _ _ hp.1 (List.mem_cons_self ..) hst h₀)
      fun a r s s' ha he => hstep a r s s' ha (List.mem_cons_of_mem _ he)

/-- Every action of the run is one the program can perform. -/
theorem Exec.only {p : Prog A Ret ε α} {s s' : σ} {es : List (Occ Ret)} {res : Except ε α}
    (h : Exec M p s es res s') (hp : p.Only P) : ∀ e ∈ es, P e.1 := by
  induction h with
  | ret => simp
  | act hst _ ih => exact List.forall_mem_cons.2 ⟨hp.1, ih (hp.2 _)⟩

/-- The occurrences lead from one state to the other, and each of them satisfies `Q` in the state it
happens in. -/
inductive Trace (M : Machine A Ret σ) (Q : σ → Occ Ret → Prop) : σ → List (Occ Ret) → σ → Prop where
  | nil {s : σ} : Trace M Q s [] s
  | cons {a : A} {r : Ret a} {s s₁ s' : σ} {es : List (Occ Ret)} (h : M.Step a s r s₁)
      (hq : Q s ⟨a, r⟩) (ht : Trace M Q s₁ es s') : Trace M Q s (⟨a, r⟩ :: es) s'

section
variable {Q Q' : σ → Occ Ret → Prop} {s s₁ s' : σ} {es es₁ es₂ : List (Occ Ret)}

theorem Trace.append (h : Trace M Q s es₁ s₁) (h' : Trace M Q s₁ es₂ s') :
    Trace M Q s (es₁ ++ es₂) s' := by
  induction h with
  | nil => exact h'
  | cons hst hq _ ih => exact .cons hst hq (ih h')

theorem Trace.mono (h : Trace M Q s es s') (himp : ∀ s e, Q s e → Q' s e) : Trace M Q' s es s' := by
  induction h with
  | nil => exact .nil
  | cons hst hq _ ih => exact .cons hst (himp _ _ hq) ih

/-- A run is a trace of what holds of all its occurrences. -/
theorem Exec.trace_of_mem {p : Prog A Ret ε α} {res : Except ε α} (h : Exec M p s es res s')
    (hq : ∀ s, ∀ e ∈ es, Q s e) : Trace M Q s es s' := by
  induction h with
  | ret => exact .nil
  | act hst _ ih =>
    exact .cons hst (hq _ _ (List.mem_cons_self ..)) (ih fun s e he => hq s e (List.mem_cons_of_mem _ he))

end

/-- A run for another machine that can do the same steps. -/
theorem Exec.of_step {M' : Machine A Ret σ} {p : Prog A Ret ε α} {s s' : σ} {es : List (Occ Ret)}
    {res : Except ε α} (h : Exec M p s es res s')
    (hstep : ∀ (a : A) (r : Ret a) (s s' : σ), M.Step a s r s' → M'.Step a s r s') :
    Exec M' p s es res s' := by
  induction h with
  | ret => exact .ret
  | act hst _ ih => exact .act (hstep _ _ _ _ hst) ih

/-- After the occurrences `es`, the program run alone from `s` stands at the rest `q`, in `s'`. -/
inductive Reaches (M : Machine A Ret σ) :
    Prog A Ret ε α → σ → List (Occ Ret) → Prog A Ret ε α → σ → Prop where
  | here {p : Prog A Ret ε α} {s : σ} : Reaches M p s [] p s
  | act {a : A} {k : Ret a → Prog A Ret ε α} {q : Prog A Ret ε α} {s s₁ s' : σ} {r : Ret a}
      {es : List (Occ Ret)} (h : M.Step a s r s₁) (hk : Reaches M (k r) s₁ es q s') :
      Reaches M (.act a k) s (⟨a, r⟩ :: es) q s'

section
variable {β : Type} {s s₁ s' : σ} {es es₁ : List (Occ Ret)} {a : A}

/-- The rest of a program performs only what the program performs. -/
theorem Reaches.only {p q : Prog A Ret ε α} (h : Reaches M p s es q s') (hp : p.Only P) : q.Only P := by
  induction h with
  | here => exact hp
  | act _ _ ih => exact ih (hp.2 _)

/-- A program at an action that its first part does not perform has run the first part. -/
theorem Reaches.bind {p : Prog A Ret ε α} {f : α → Prog A Ret ε β} {k : Ret a → Prog A Ret ε β}
    (h : Reaches M (p >>= f) s es (.act a k) s') (hp : p.Only P) (ha : ¬ P a) :
    ∃ x s₁ es₁ es₂, Exec M p s es₁ (.ok x) s₁ ∧ Reaches M (f x) s₁ es₂ (.act a k) s' ∧
      es = es₁ ++ es₂ := by
  induction p generalizing s es with
  | ret r =>
    cases r with
    | ok x => exact ⟨x, s, [], es, .ret, h, rfl⟩
    | error e => cases h
  | act b l ih =>
    rw [Prog.act_bind] at h
    cases h with
    | here => exact absurd hp.1 ha
    | act hst hk =>
      obtain ⟨x, s₁, es₁, es₂, h₁, h₂, rfl⟩ := ih _ hk (hp.2 _)
      exact ⟨x, s₁, _, es₂, .act hst h₁, h₂, rfl⟩

/-- A program that performs an action only at its start stands at it only there. -/
theorem Reaches.start {b : A} {k : Ret a → Prog A Ret ε α} {l : Ret b → Prog A Ret ε α}
    (h : Reaches M (.act b l) s es (.act a k) s') (hl : ∀ r, (l r).Only P) (ha : ¬ P a) :
    es = [] ∧ s' = s ∧ Prog.act b l = .act a k := by
  cases h with
  | here => exact ⟨rfl, rfl, rfl⟩
  | act _ hk => exact absurd (hk.only (hl _)).1 ha

/-- A run that ends has reached each of its rests. -/
theorem Exec.reaches {p : Prog A Ret ε α} {f : α → Prog A Ret ε β} {x : α} (h : Exec M p s es (.ok x) s') :
    Reaches M (p >>= f) s es (f x) s' := by
  generalize hres : (Except.ok x : Except ε α) = res at h
  induction h with
  | ret =>
    subst hres
    exact .here
  | act hst _ ih => exact .act hst (ih hres)

end

/-- Run a program, the outside contributing `w` to each action. -/
def Machine.exec (M : Machine A Ret σ) (w : M.World) :
    Prog A Ret ε α → σ → Option (List (Occ Ret) × Except ε α × σ)
  | .ret r, s => some ([], r, s)
  | .act a k, s =>
    if M.ready a s then
      let (r, s₁) := M.run a w s
      (M.exec w (k r) s₁).map fun x => (⟨a, r⟩ :: x.1, x.2)
    else none

theorem Machine.exec_sound {w : M.World} {p : Prog A Ret ε α} {s : σ}
    {x : List (Occ Ret) × Except ε α × σ} (h : M.exec w p s = some x) :
    Exec M p s x.1 x.2.1 x.2.2 := by
  induction p generalizing s x with
  | ret r =>
    cases h
    exact .ret
  | act a k ih =>
    simp only [Machine.exec] at h
    split at h
    · next hready =>
      obtain ⟨y, hy, rfl⟩ := Option.map_eq_some_iff.1 h
      exact .act ⟨hready, w, rfl⟩ (ih _ hy)
    · cases h

/-- The machine, the outside contributing what the state asks for. -/
def Machine.under (M : Machine A Ret σ) (w : σ → M.World) : Machine A Ret σ :=
  ⟨Unit, M.ready, fun a _ s => M.run a (w s) s⟩

theorem Machine.step_of_under {w : σ → M.World} {a : A} {r : Ret a} {s s' : σ}
    (h : (M.under w).Step a s r s') : M.Step a s r s' := by
  obtain ⟨hready, _, hrun⟩ := h
  exact ⟨hready, w s, hrun⟩

/-- A program whose actions are always ready runs to its end whatever the outside does. -/
theorem Machine.exists_exec_under (M : Machine A Ret σ) (hready : ∀ a s, M.ready a s = true) (w : σ → M.World)
    (p : Prog A Ret ε α) (s : σ) : ∃ es res s', Exec (M.under w) p s es res s' := by
  induction p generalizing s with
  | ret r => exact ⟨[], r, s, .ret⟩
  | act a k ih =>
    obtain ⟨es, res, s', hx⟩ := ih (M.run a (w s) s).1 (M.run a (w s) s).2
    exact ⟨_, res, s', .act ⟨hready a s, (), rfl⟩ hx⟩

end

/-! ## Contracts -/

/-- A thread-local proof rule with a ghost value in `G`: what holds before an action (`pre`), which
answers are considered (`allow`), and what the ghost value is after it (`next`). -/
structure Contract (A : Type) (Ret : A → Type) (G : Type) where
  pre : G → A → Prop
  allow : G → (a : A) → Ret a → Prop
  next : G → (a : A) → Ret a → G

namespace Contract

variable {A : Type} {Ret : A → Type} {ε α β G : Type}

/-- The program, started at the ghost value, keeps `pre` before each of its actions, for all
allowed answers, and ends in `post`. -/
def Obeys (C : Contract A Ret G) (post : Except ε α → G → Prop) :
    Prog A Ret ε α → G → Prop
  | .ret r, g => post r g
  | .act a k, g => C.pre g a ∧ ∀ r, C.allow g a r → C.Obeys post (k r) (C.next g a r)

variable {C : Contract A Ret G} {post post' : Except ε α → G → Prop} {g : G}

@[simp] theorem obeys_ret {r : Except ε α} : C.Obeys post (.ret r) g ↔ post r g := Iff.rfl

@[simp] theorem obeys_act {a : A} {k : Ret a → Prog A Ret ε α} :
    C.Obeys post (.act a k) g ↔
      C.pre g a ∧ ∀ r, C.allow g a r → C.Obeys post (k r) (C.next g a r) := Iff.rfl

theorem Obeys.mono {p : Prog A Ret ε α} (h : C.Obeys post p g)
    (himp : ∀ r g, post r g → post' r g) : C.Obeys post' p g := by
  induction p generalizing g with
  | ret r => exact himp r g h
  | act a k ih => exact ⟨h.1, fun r hr => ih r (h.2 r hr)⟩

/-- A composition obeys a contract when its first part does and its second part does from every
ghost value the first can end in. -/
theorem obeys_bind {p : Prog A Ret ε α} {f : α → Prog A Ret ε β}
    {post : Except ε β → G → Prop} :
    C.Obeys post (p >>= f) g ↔
      C.Obeys (fun r g => match r with
        | .ok x => C.Obeys post (f x) g
        | .error e => post (.error e) g) p g := by
  induction p generalizing g with
  | ret r => cases r <;> rfl
  | act a k ih => exact and_congr_right fun _ => forall₂_congr fun r _ => ih r

/-- A composition on the result of its first part. -/
theorem obeys_onResult {ε' : Type} {p : Prog A Ret ε α} {f : Except ε α → Prog A Ret ε' β}
    {post : Except ε' β → G → Prop} :
    C.Obeys post (p.onResult f) g ↔ C.Obeys (fun r g => C.Obeys post (f r) g) p g := by
  induction p generalizing g with
  | ret r => rfl
  | act a k ih => exact and_congr_right fun _ => forall₂_congr fun r _ => ih r

@[simp] theorem obeys_perform {a : A} {post : Except ε (Ret a) → G → Prop} :
    C.Obeys post (Prog.perform a) g ↔
      C.pre g a ∧ ∀ r, C.allow g a r → post (.ok r) (C.next g a r) := Iff.rfl

theorem obeys_perform_bind {a : A} {f : Ret a → Prog A Ret ε α} :
    C.Obeys post (Prog.perform a >>= f) g ↔
      C.pre g a ∧ ∀ r, C.allow g a r → C.Obeys post (f r) (C.next g a r) := Iff.rfl

@[simp] theorem obeys_pure {x : α} : C.Obeys post (pure x) g ↔ post (.ok x) g := Iff.rfl

@[simp] theorem obeys_fail {e : ε} : C.Obeys post (Prog.fail e) g ↔ post (.error e) g := Iff.rfl

@[simp] theorem obeys_ofExcept {r : Except ε α} :
    C.Obeys post (Prog.ofExcept r) g ↔ post r g := Iff.rfl

/-- The ghost value after the occurrences. -/
def after (C : Contract A Ret G) : G → List (Occ Ret) → G
  | g, [] => g
  | g, e :: es => C.after (C.next g e.1 e.2) es

/-- Every occurrence has what it needs, and answers within what is considered. -/
def Keeps (C : Contract A Ret G) : G → List (Occ Ret) → Prop
  | _, [] => True
  | g, e :: es => C.pre g e.1 ∧ (C.allow g e.1 e.2 → C.Keeps (C.next g e.1 e.2) es)

/-- What a contract says about a run of its program: `pre` before each action, and `post` in the
end. -/
theorem Obeys.exec {σ : Type} {M : Machine A Ret σ} {p : Prog A Ret ε α} {s s' : σ}
    {es : List (Occ Ret)} {res : Except ε α} (h : C.Obeys post p g) (hx : Exec M p s es res s')
    (hallow : ∀ g a r, C.allow g a r) : C.Keeps g es ∧ post res (C.after g es) := by
  induction hx generalizing g with
  | ret => exact ⟨trivial, h⟩
  | act _ _ ih =>
    obtain ⟨hkeeps, hpost⟩ := ih (h.2 _ (hallow ..))
    exact ⟨⟨h.1, fun _ => hkeeps⟩, hpost⟩

/-- **The rule for invariants of a run under a contract.** A property of the ghost value, the state
and the occurrences still to come is kept by the whole run when each action keeps it under the
contract's precondition. -/
theorem Obeys.run {σ : Type} {M : Machine A Ret σ} {p : Prog A Ret ε α} {s s' : σ}
    {es : List (Occ Ret)} {res : Except ε α} {I : G → σ → List (Occ Ret) → Prop}
    (h : C.Obeys post p g) (hx : Exec M p s es res s') (h₀ : I g s es)
    (hstep : ∀ g a r s s' es, C.pre g a → M.Step a s r s' → I g s (⟨a, r⟩ :: es) →
      C.allow g a r ∧ I (C.next g a r) s' es) : ∃ g', post res g' ∧ I g' s' [] := by
  induction hx generalizing g with
  | ret => exact ⟨g, h, h₀⟩
  | act hst _ ih =>
    obtain ⟨hallow, hnext⟩ := hstep _ _ _ _ _ _ h.1 hst h₀
    exact ih (h.2 _ hallow) hnext

/-- A contract that asks for nothing is obeyed. -/
theorem obeys_of_forall {p : Prog A Ret ε α} (hpre : ∀ g a, C.pre g a) (hpost : ∀ r g, post r g) :
    C.Obeys post p g := by
  induction p generalizing g with
  | ret r => exact hpost r g
  | act a k ih => exact ⟨hpre g a, fun r _ => ih r⟩

/-- A program whose actions keep a property of the ghost value, and need no more of it, obeys. -/
theorem obeys_of_only_of_inv {P : A → Prop} {J : G → Prop} {p : Prog A Ret ε α} (hp : p.Only P)
    (h₀ : J g) (hpre : ∀ g a, J g → P a → C.pre g a) (hnext : ∀ g a r, J g → P a → J (C.next g a r))
    (hpost : ∀ r g, J g → post r g) : C.Obeys post p g := by
  induction p generalizing g with
  | ret r => exact hpost r g h₀
  | act a k ih => exact ⟨hpre g a h₀ hp.1, fun r _ => ih r (hp.2 r) (hnext g a r h₀ hp.1)⟩

/-- A first part that keeps a property of the ghost value can be skipped. -/
theorem obeys_bind_of_inv {P : A → Prop} {J : G → Prop} {p : Prog A Ret ε α} {f : α → Prog A Ret ε β}
    {post : Except ε β → G → Prop} (hp : p.Only P) (h₀ : J g) (hpre : ∀ g a, J g → P a → C.pre g a)
    (hnext : ∀ g a r, J g → P a → J (C.next g a r)) (herr : ∀ e g, J g → post (.error e) g)
    (hf : ∀ x g, J g → C.Obeys post (f x) g) : C.Obeys post (p >>= f) g := by
  refine obeys_bind.2 (obeys_of_only_of_inv hp h₀ hpre hnext fun r g hg => ?_)
  cases r with
  | ok x => exact hf x g hg
  | error e => exact herr e g hg

/-- A program whose actions leave the ghost value where it is, and need nothing of it, obeys. -/
theorem obeys_of_only {P : A → Prop} {p : Prog A Ret ε α} (hp : p.Only P)
    (hpre : ∀ a, P a → C.pre g a) (hnext : ∀ a r, P a → C.next g a r = g)
    (hpost : ∀ r, post r g) : C.Obeys post p g :=
  obeys_of_only_of_inv hp (J := fun g' => g' = g) rfl (fun _ a h ha => h ▸ hpre a ha)
    (fun _ a r h ha => h ▸ hnext a r ha) fun r _ h => h ▸ hpost r

/-- A first part that leaves the ghost value where it is can be skipped. -/
theorem obeys_bind_of_only {P : A → Prop} {p : Prog A Ret ε α} {f : α → Prog A Ret ε β}
    {post : Except ε β → G → Prop} (hp : p.Only P) (hpre : ∀ a, P a → C.pre g a)
    (hnext : ∀ a r, P a → C.next g a r = g) (herr : ∀ e, post (.error e) g)
    (hf : ∀ x, C.Obeys post (f x) g) : C.Obeys post (p >>= f) g :=
  obeys_bind_of_inv hp (J := fun g' => g' = g) rfl (fun _ a h ha => h ▸ hpre a ha)
    (fun _ a r h ha => h ▸ hnext a r ha) (fun e _ h => h ▸ herr e) fun x _ h => h ▸ hf x

end Contract

end Lib
