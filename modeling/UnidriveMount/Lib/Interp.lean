import UnidriveMount.Lib.Program

/-!
# Programs over programs

A program whose actions are themselves programs over smaller actions. `Prog.interp` replaces each
action by the program that implements it; a run of the result is a path of the upper program, whose
actions are answered by runs of their implementations (`exec_interp`). What a contract says about the
upper program it says about all its paths (`Contract.Obeys.path`).
-/

namespace Lib

section
variable {A B : Type} {Ret : A → Type} {Ret' : B → Type} {ε α σ : Type}

/-- The program with each action replaced by its implementation. -/
def Prog.interp (h : (b : B) → Prog A Ret ε (Ret' b)) : Prog B Ret' ε α → Prog A Ret ε α
  | .ret r => .ret r
  | .act b k => h b >>= fun x => (k x).interp h

/-- The program can be answered by these occurrences, and then ends with a result or is about to
perform an action. -/
inductive Prog.Path : Prog B Ret' ε α → List (Occ Ret') → Except ε α ⊕ B → Prop where
  | ret (r : Except ε α) : Path (.ret r) [] (.inl r)
  | next (b : B) (k : Ret' b → Prog B Ret' ε α) : Path (.act b k) [] (.inr b)
  | act {b : B} {k : Ret' b → Prog B Ret' ε α} {x : Ret' b} {us : List (Occ Ret')}
      {o : Except ε α ⊕ B} (h : Path (k x) us o) : Path (.act b k) (⟨b, x⟩ :: us) o

/-- The occurrences `us` of the upper actions are runs of their implementations, which performed the
occurrences `es` and led from one state to the other; each run satisfies `Q`. -/
inductive Realizes (M : Machine A Ret σ) (h : (b : B) → Prog A Ret ε (Ret' b))
    (Q : σ → Occ Ret' → σ → Prop) : σ → List (Occ Ret') → List (Occ Ret) → σ → Prop where
  | nil {s : σ} : Realizes M h Q s [] [] s
  | cons {b : B} {x : Ret' b} {s s₁ s' : σ} {us : List (Occ Ret')} {es₁ es₂ : List (Occ Ret)}
      (hx : Exec M (h b) s es₁ (.ok x) s₁) (hq : Q s ⟨b, x⟩ s₁) (ht : Realizes M h Q s₁ us es₂ s') :
      Realizes M h Q s (⟨b, x⟩ :: us) (es₁ ++ es₂) s'

variable {M : Machine A Ret σ} {h : (b : B) → Prog A Ret ε (Ret' b)} {s s' : σ}
  {es : List (Occ Ret)} {us : List (Occ Ret')}

/-- **A run of an interpreted program** realizes a path of the program, to its end or up to an action
whose implementation failed. -/
theorem exec_interp {p : Prog B Ret' ε α} {res : Except ε α} (hx : Exec M (p.interp h) s es res s') :
    ∃ us es₁ es₂ s₁ o, es = es₁ ++ es₂ ∧ Realizes M h (fun _ _ _ => True) s us es₁ s₁ ∧
      p.Path us o ∧ (o = .inl res ∧ es₂ = [] ∧ s' = s₁ ∨
        ∃ b e, o = .inr b ∧ res = .error e ∧ Exec M (h b) s₁ es₂ (.error e) s') := by
  induction p generalizing s es with
  | ret r =>
    obtain ⟨rfl, rfl, rfl⟩ := exec_ret_iff.1 hx
    exact ⟨[], [], [], s', .inl res, rfl, .nil, .ret res, .inl ⟨rfl, rfl, rfl⟩⟩
  | act b k ih =>
    rcases exec_bind_iff.1 hx with ⟨e, rfl, he⟩ | ⟨x, s₁, es₁, es₂, h₁, h₂, rfl⟩
    · exact ⟨[], [], es, s, .inr b, rfl, .nil, .next b k, .inr ⟨b, e, rfl, rfl, he⟩⟩
    · obtain ⟨us, es₃, es₄, s₂, o, rfl, hreal, hpath, hend⟩ := ih x h₂
      exact ⟨⟨b, x⟩ :: us, es₁ ++ es₃, es₄, s₂, o, (List.append_assoc ..).symm,
        .cons h₁ trivial hreal, .act hpath, hend⟩

/-- An interpreted program performs what the implementations perform. -/
theorem Prog.only_interp {P : A → Prop} (hP : ∀ b, (h b).Only P) (p : Prog B Ret' ε α) :
    (p.interp h).Only P := by
  induction p with
  | ret r => trivial
  | act b k ih => exact .bind (hP b) ih

/-- What a contract says about a path of its program: `pre` before each action, also before the one
that comes next, and `post` at the end. -/
theorem Contract.Obeys.path {G : Type} {C : Contract B Ret' G} {post : Except ε α → G → Prop} {g : G}
    {p : Prog B Ret' ε α} {o : Except ε α ⊕ B} (hobeys : C.Obeys post p g) (hp : p.Path us o)
    (hallow : ∀ g b x, C.allow g b x) :
    C.Keeps g us ∧ o.elim (fun r => post r (C.after g us)) (fun b => C.pre (C.after g us) b) := by
  induction hp generalizing g with
  | ret r => exact ⟨trivial, hobeys⟩
  | next b k => exact ⟨trivial, hobeys.1⟩
  | act _ ih =>
    obtain ⟨hkeeps, hend⟩ := ih (hobeys.2 _ (hallow ..))
    exact ⟨⟨hobeys.1, fun _ => hkeeps⟩, hend⟩

end

end Lib
