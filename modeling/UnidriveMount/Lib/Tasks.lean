import UnidriveMount.Lib.Program

/-!
# A task beside a program

A runtime runs a program, and beside it a task that the program has spawned. Whenever both can go on it is
asked whose turn it is, and when the program has ended the task can go on until the runtime stops it
(`Runtime.blockOn`).

A contract of the program alone is carried over to the two of them by a relation between the ghost values
of the one and of the other: the program's actions keep it, and so do the task's, which leave the ghost
value of the program where it is (`Contract.Carries`, `Contract.Obeys.blockOn`).
-/

namespace Lib

section
variable {A : Type} {Ret : A → Type} {ε ε' α β : Type}

/-- What a runtime goes by: which action spawns the task, the action that asks whose turn it is, and which
of its answers mean the task. -/
structure Runtime (A : Type) (Ret : A → Type) : Type where
  spawns : A → Bool
  turn : A
  toTask : Ret turn → Bool

namespace Runtime

variable (R : Runtime A Ret)

/-- The program has ended with `r`. The task can go on until it is stopped. -/
def drain (r : Except ε α) : Prog A Ret ε' β → Prog A Ret ε α
  | .ret _ => .ret r
  | .act b l => .act R.turn fun x => if R.toTask x then .act b fun y => drain r (l y) else .ret r

/-- The program is before the action `a`, and goes on with `next` after it. -/
def await (a : A) (next : Ret a → Prog A Ret ε' β → Prog A Ret ε α) : Prog A Ret ε' β → Prog A Ret ε α
  | .ret res => .act a fun x => next x (.ret res)
  | .act b l => .act R.turn fun x =>
    if R.toTask x then .act b fun y => await a next (l y) else .act a fun x => next x (.act b l)

/-- The program beside the task. -/
def beside : Prog A Ret ε α → Prog A Ret ε' β → Prog A Ret ε α
  | .ret r => R.drain r
  | .act a k => R.await a fun x => beside (k x)

/-- The program, and from where it spawns it the task. -/
def blockOn (task : Prog A Ret ε' β) : Prog A Ret ε α → Prog A Ret ε α
  | .ret r => .ret r
  | .act a k => .act a fun x => if R.spawns a then R.beside (k x) task else blockOn task (k x)

end Runtime

/-! ## Contracts -/

variable {G G' : Type} {C : Contract A Ret G} {C' : Contract A Ret G'} {S : G → G' → Prop}
  {P Q : A → Prop} {R : Runtime A Ret} {g : G} {g' : G'} {post : Except ε α → G → Prop}
  {post' : Except ε α → G' → Prop} {task : Prog A Ret ε' β}

/-- The contract `C` of a program carries over to `C'`, for the program and its task: the relation `S` of
their ghost values is kept by the actions `P` of the program, and by the actions `Q` of the task, which mean
nothing to `C`. -/
structure Contract.Carries (C : Contract A Ret G) (C' : Contract A Ret G') (S : G → G' → Prop)
    (P Q : A → Prop) : Prop where
  own : ∀ {g : G} {g' : G'} {a : A}, S g g' → P a → C.pre g a →
    C'.pre g' a ∧ ∀ r, C.allow g a r ∧ S (C.next g a r) (C'.next g' a r)
  aside : ∀ {g : G} {g' : G'} {b : A}, S g g' → Q b → C'.pre g' b ∧ ∀ r, S g (C'.next g' b r)

/-- Actions that mean nothing to a contract can be done beside a program that keeps it. -/
theorem Contract.carries_of_aside (hallow : ∀ g a r, C.allow g a r)
    (h : ∀ g b, Q b → C.pre g b ∧ ∀ r, C.next g b r = g) : C.Carries C (fun g g' => g = g') P Q where
  own hS _ hpre := hS ▸ ⟨hpre, fun _ => ⟨hallow .., rfl⟩⟩
  aside hS hb := hS ▸ ⟨(h _ _ hb).1, fun r => ((h _ _ hb).2 r).symm⟩

namespace Contract.Carries

theorem drain (h : C.Carries C' S P Q) (hturn : Q R.turn) {r : Except ε α}
    (htask : task.Only Q) (hS : S g g') (hpost : ∀ g', S g g' → post' r g') :
    C'.Obeys post' (R.drain r task) g' := by
  induction task generalizing g' with
  | ret _ => exact hpost g' hS
  | act b l ih =>
    refine ⟨(h.aside hS hturn).1, fun x _ => ?_⟩
    have hS := (h.aside hS hturn).2 x
    dsimp only
    split
    · exact ⟨(h.aside hS htask.1).1, fun y _ => ih y (htask.2 y) ((h.aside hS htask.1).2 y)⟩
    · exact hpost _ hS

/-- The program's next action comes when it is its turn; before that the task goes on. -/
theorem await (h : C.Carries C' S P Q) (hturn : Q R.turn) {a : A} (ha : P a) (hpre : C.pre g a)
    {next : Ret a → Prog A Ret ε' β → Prog A Ret ε α} (htask : task.Only Q) (hS : S g g')
    (hnext : ∀ x (task : Prog A Ret ε' β) g', C.allow g a x → task.Only Q → S (C.next g a x) g' →
      C'.Obeys post' (next x task) g') : C'.Obeys post' (R.await a next task) g' := by
  have hgo : ∀ (task : Prog A Ret ε' β) g', task.Only Q → S g g' →
      C'.Obeys post' (.act a fun x => next x task) g' := by
    intro task g' htask hS
    obtain ⟨hpre', hS'⟩ := h.own hS ha hpre
    exact ⟨hpre', fun x _ => hnext x task _ (hS' x).1 htask (hS' x).2⟩
  induction task generalizing g' with
  | ret res => exact hgo _ _ htask hS
  | act b l ih =>
    refine ⟨(h.aside hS hturn).1, fun x _ => ?_⟩
    have hS := (h.aside hS hturn).2 x
    dsimp only
    split
    · exact ⟨(h.aside hS htask.1).1, fun y _ => ih y (htask.2 y) ((h.aside hS htask.1).2 y)⟩
    · exact hgo _ _ htask hS

theorem beside (h : C.Carries C' S P Q) (hturn : Q R.turn) {p : Prog A Ret ε α} (hp : C.Obeys post p g)
    (hown : p.Only P) (htask : task.Only Q) (hS : S g g')
    (hpost : ∀ r g g', S g g' → post r g → post' r g') : C'.Obeys post' (R.beside p task) g' := by
  induction p generalizing g g' task with
  | ret r => exact h.drain hturn htask hS fun g' hS => hpost r g g' hS hp
  | act a k ih =>
    refine h.await hturn hown.1 hp.1 htask hS fun x task g' hallow htask hS => ?_
    exact ih x (hp.2 x hallow) (hown.2 x) htask hS

end Contract.Carries

/-- **The rule for a program and its task.** What the program keeps alone it keeps beside the task. -/
theorem Contract.Obeys.blockOn {p : Prog A Ret ε α} (hp : C.Obeys post p g) (h : C.Carries C' S P Q)
    (hturn : Q R.turn) (hown : p.Only P) (htask : task.Only Q) (hS : S g g')
    (hpost : ∀ r g g', S g g' → post r g → post' r g') : C'.Obeys post' (R.blockOn task p) g' := by
  induction p generalizing g g' with
  | ret r => exact hpost r g g' hS hp
  | act a k ih =>
    obtain ⟨hpre, hS'⟩ := h.own hS hown.1 hp.1
    refine ⟨hpre, fun x _ => ?_⟩
    obtain ⟨hallow, hS⟩ := hS' x
    dsimp only
    split
    · exact h.beside hturn (hp.2 x hallow) (hown.2 x) htask hS hpost
    · exact ih x (hp.2 x hallow) (hown.2 x) hS

end

end Lib
