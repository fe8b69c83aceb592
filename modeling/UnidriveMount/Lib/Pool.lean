import UnidriveMount.Lib.Program
import Mathlib.Logic.Function.Basic

/-!
# Interleaved runs of a service

A `Service` answers requests: each request is served by a program over the actions of one machine.
A configuration holds the machine's state, the programs in progress, and the log of everything that
happened: which requests started, which actions were executed with which answers, which requests
returned with what. Any number of requests are in progress at once, and a step executes one action
of any of them, so the runs of a configuration are all interleavings of the programs at the
granularity of their actions.

`Run ok` restricts the runs to steps that `ok` admits. `Run.invariant` is the induction rule. A
contract that every program obeys (`Honours`) gives the rule `Run.invariant_of_contract`, in which
the case of an action knows the contract's precondition at the ghost value of its thread; the ghost
value is computed from the log (`ghost`), so it can occur in the invariant.
-/

namespace Lib

section
variable {A : Type} {Ret : A → Type} {σ ε O ρ G : Type}

/-- A machine, and for each request the program that serves it. -/
structure Service (A : Type) (Ret : A → Type) (σ ε O ρ : Type) where
  machine : Machine A Ret σ
  prog : O → Prog A Ret ε ρ

/-- What the log records. `t` identifies the request. -/
inductive Event (Ret : A → Type) (ε O ρ : Type) : Type where
  | started (t : Nat) (o : O)
  | acted (t : Nat) (a : A) (r : Ret a)
  | returned (t : Nat) (o : O) (res : Except ε ρ)

/-- The request an event belongs to. -/
def Event.tid : Event Ret ε O ρ → Nat
  | .started t _ => t
  | .acted t _ _ => t
  | .returned t _ _ => t

/-- The machine's state, the requests in progress with the rest of their programs, and the log. -/
structure Config (Ret : A → Type) (σ ε O ρ : Type) where
  st : σ
  live : Nat → Option (O × Prog A Ret ε ρ)
  log : List (Event Ret ε O ρ)

/-- No request is in progress. -/
def Config.Quiet (c : Config Ret σ ε O ρ) : Prop := ∀ t, c.live t = none

/-- The configuration in which nothing has happened yet. -/
def Config.initial (s : σ) : Config Ret σ ε O ρ := ⟨s, fun _ => none, []⟩

/-- The configuration after the start of request `t`. -/
def Config.start (c : Config Ret σ ε O ρ) (t : Nat) (o : O) (p : Prog A Ret ε ρ) :
    Config Ret σ ε O ρ :=
  ⟨c.st, Function.update c.live t (some (o, p)), c.log ++ [.started t o]⟩

/-- The configuration after an action of request `t`. -/
def Config.act (c : Config Ret σ ε O ρ) (t : Nat) (o : O) (a : A) (r : Ret a)
    (p : Prog A Ret ε ρ) (s : σ) : Config Ret σ ε O ρ :=
  ⟨s, Function.update c.live t (some (o, p)), c.log ++ [.acted t a r]⟩

/-- The configuration after the end of request `t`. -/
def Config.finish (c : Config Ret σ ε O ρ) (t : Nat) (o : O) (res : Except ε ρ) :
    Config Ret σ ε O ρ :=
  ⟨c.st, Function.update c.live t none, c.log ++ [.returned t o res]⟩

section
variable (c : Config Ret σ ε O ρ) (t u : Nat) (o : O) (a : A) (r : Ret a) (p : Prog A Ret ε ρ)
  (s : σ) (res : Except ε ρ)

@[simp] theorem Config.initial_live : (Config.initial s : Config Ret σ ε O ρ).live u = none := rfl

@[simp] theorem Config.start_live :
    (c.start t o p).live u = if u = t then some (o, p) else c.live u := Function.update_apply ..

@[simp] theorem Config.act_live :
    (c.act t o a r p s).live u = if u = t then some (o, p) else c.live u :=
  Function.update_apply ..

@[simp] theorem Config.finish_live :
    (c.finish t o res).live u = if u = t then none else c.live u := Function.update_apply ..

@[simp] theorem Config.initial_st : (Config.initial s : Config Ret σ ε O ρ).st = s := rfl

@[simp] theorem Config.start_st : (c.start t o p).st = c.st := rfl

@[simp] theorem Config.act_st : (c.act t o a r p s).st = s := rfl

@[simp] theorem Config.finish_st : (c.finish t o res).st = c.st := rfl

@[simp] theorem Config.initial_log : (Config.initial s : Config Ret σ ε O ρ).log = [] := rfl

@[simp] theorem Config.start_log : (c.start t o p).log = c.log ++ [.started t o] := rfl

@[simp] theorem Config.act_log : (c.act t o a r p s).log = c.log ++ [.acted t a r] := rfl

@[simp] theorem Config.finish_log : (c.finish t o res).log = c.log ++ [.returned t o res] := rfl

end

/-- One step: a request with a new identity starts, a request in progress executes its next action,
or a request whose program has ended returns. -/
inductive Service.Step (S : Service A Ret σ ε O ρ) :
    Config Ret σ ε O ρ → Event Ret ε O ρ → Config Ret σ ε O ρ → Prop where
  | start {c : Config Ret σ ε O ρ} {t : Nat} {o : O} (hfresh : ∀ e ∈ c.log, e.tid ≠ t)
      (hlive : c.live t = none) : S.Step c (.started t o) (c.start t o (S.prog o))
  | act {c : Config Ret σ ε O ρ} {t : Nat} {o : O} {a : A} {k : Ret a → Prog A Ret ε ρ}
      {r : Ret a} {s : σ} (hlive : c.live t = some (o, .act a k))
      (hst : S.machine.Step a c.st r s) : S.Step c (.acted t a r) (c.act t o a r (k r) s)
  | finish {c : Config Ret σ ε O ρ} {t : Nat} {o : O} {res : Except ε ρ}
      (hlive : c.live t = some (o, .ret res)) : S.Step c (.returned t o res) (c.finish t o res)

/-- The configurations reachable from `c₀` by steps that `ok` admits. -/
inductive Service.Run (S : Service A Ret σ ε O ρ)
    (ok : Config Ret σ ε O ρ → Event Ret ε O ρ → Prop) (c₀ : Config Ret σ ε O ρ) :
    Config Ret σ ε O ρ → Prop where
  | refl : S.Run ok c₀ c₀
  | step {c c' : Config Ret σ ε O ρ} {e : Event Ret ε O ρ} (h : S.Run ok c₀ c)
      (hst : S.Step c e c') (hok : ok c e) : S.Run ok c₀ c'

variable {S : Service A Ret σ ε O ρ} {ok ok' : Config Ret σ ε O ρ → Event Ret ε O ρ → Prop}
  {c₀ c c' : Config Ret σ ε O ρ}

/-- The induction rule for runs. -/
theorem Service.Run.invariant {I : Config Ret σ ε O ρ → Prop} (h : S.Run ok c₀ c) (h₀ : I c₀)
    (hstep : ∀ c e c', S.Run ok c₀ c → I c → S.Step c e c' → ok c e → I c') : I c := by
  induction h with
  | refl => exact h₀
  | step h hst hok ih => exact hstep _ _ _ h ih hst hok

theorem Service.Run.mono (h : S.Run ok c₀ c) (himp : ∀ c e, ok c e → ok' c e) :
    S.Run ok' c₀ c := by
  induction h with
  | refl => exact .refl
  | step _ hst hok ih => exact .step ih hst (himp _ _ hok)

theorem Service.Run.trans {c₁ : Config Ret σ ε O ρ} (h : S.Run ok c₀ c₁) (h' : S.Run ok c₁ c) :
    S.Run ok c₀ c := by
  induction h' with
  | refl => exact h
  | step _ hst hok ih => exact .step ih hst hok

/-- A step appends its event to the log. -/
theorem Service.Step.log_eq {e : Event Ret ε O ρ} (h : S.Step c e c') : c'.log = c.log ++ [e] := by
  cases h <;> rfl

/-- The log only grows. -/
theorem Service.Run.log_prefix (h : S.Run ok c₀ c) : c₀.log <+: c.log := by
  induction h with
  | refl => exact List.prefix_rfl
  | step _ hst _ ih =>
    rw [hst.log_eq]
    exact ih.trans (List.prefix_append ..)

/-! ## The occurrences of one request -/

/-- The actions of request `t` in the log, with their answers. -/
def occs (t : Nat) : List (Event Ret ε O ρ) → List (Occ Ret)
  | [] => []
  | .acted u a r :: l => if u = t then ⟨a, r⟩ :: occs t l else occs t l
  | .started .. :: l | .returned .. :: l => occs t l

theorem occs_append (t : Nat) (l l' : List (Event Ret ε O ρ)) :
    occs t (l ++ l') = occs t l ++ occs t l' := by
  induction l with
  | nil => rfl
  | cons e l ih =>
    cases e with
    | acted u a r => by_cases h : u = t <;> simp [occs, h, ih]
    | started | returned => exact ih

@[simp] theorem occs_snoc_started (t u : Nat) (l : List (Event Ret ε O ρ)) (o : O) :
    occs t (l ++ [.started u o]) = occs t l := by simp [occs_append, occs]

@[simp] theorem occs_snoc_returned (t u : Nat) (l : List (Event Ret ε O ρ)) (o : O)
    (res : Except ε ρ) : occs t (l ++ [.returned u o res]) = occs t l := by
  simp [occs_append, occs]

@[simp] theorem occs_snoc_acted_self (t : Nat) (l : List (Event Ret ε O ρ)) (a : A) (r : Ret a) :
    occs t (l ++ [.acted t a r]) = occs t l ++ [⟨a, r⟩] := by simp [occs_append, occs]

theorem occs_snoc_acted_ne {t u : Nat} (h : u ≠ t) (l : List (Event Ret ε O ρ)) (a : A)
    (r : Ret a) : occs t (l ++ [.acted u a r]) = occs t l := by simp [occs_append, occs, h]

/-- A request that is not in the log has no occurrence. -/
theorem occs_eq_nil {t : Nat} {l : List (Event Ret ε O ρ)} (h : ∀ e ∈ l, e.tid ≠ t) :
    occs t l = [] := by
  induction l with
  | nil => rfl
  | cons e l ih =>
    have ih := ih fun e he => h e (List.mem_cons_of_mem _ he)
    cases e with
    | acted u a r =>
      have hu : u ≠ t := h (.acted u a r) (List.mem_cons_self ..)
      simpa [occs, hu] using ih
    | started | returned => exact ih

/-- An action of a request is in the log. -/
theorem mem_of_mem_occs {t : Nat} {l : List (Event Ret ε O ρ)} {e : Occ Ret} (h : e ∈ occs t l) :
    .acted t e.1 e.2 ∈ l := by
  induction l with
  | nil => cases h
  | cons e' l ih =>
    cases e' with
    | started | returned => exact List.mem_cons_of_mem _ (ih h)
    | acted u a r =>
      rw [occs] at h
      split at h
      · next hu =>
        subst hu
        rcases List.mem_cons.1 h with rfl | h
        · exact List.mem_cons_self ..
        · exact List.mem_cons_of_mem _ (ih h)
      · exact List.mem_cons_of_mem _ (ih h)

/-- The occurrences of a request around one of them. -/
theorem occs_split {t m : Nat} {l : List (Event Ret ε O ρ)} {a : A} {r : Ret a}
    (hm : l[m]? = some (.acted t a r)) :
    occs t l = occs t (l.take m) ++ ⟨a, r⟩ :: occs t (l.drop (m + 1)) := by
  obtain ⟨hlt, hget⟩ := List.getElem?_eq_some_iff.1 hm
  conv_lhs => rw [← List.take_append_drop m l, List.drop_eq_getElem_cons hlt, hget]
  simp [occs_append, occs]

/-- The entry of an occurrence, by what the request did before. -/
theorem getElem?_of_occs {t : Nat} {l : List (Event Ret ε O ρ)} {es es' : List (Occ Ret)} {e : Occ Ret}
    (h : occs t l = es ++ e :: es') : ∃ m, l[m]? = some (.acted t e.1 e.2) ∧ occs t (l.take m) = es := by
  induction l generalizing es with
  | nil => simp [occs] at h
  | cons e' l ih =>
    have keep : ∀ es₁, occs t l = es₁ ++ e :: es' →
        (∀ m, occs t ((e' :: l).take (m + 1)) = es ↔ occs t (l.take m) = es₁) →
        ∃ m, (e' :: l)[m]? = some (.acted t e.1 e.2) ∧ occs t ((e' :: l).take m) = es := by
      intro es₁ hocc hiff
      obtain ⟨m, hm, hes⟩ := ih hocc
      exact ⟨m + 1, hm, (hiff m).2 hes⟩
    cases e' with
    | started | returned => exact keep es h fun _ => Iff.rfl
    | acted u a r =>
      by_cases hu : u = t
      · subst hu
        rw [occs, if_pos rfl] at h
        cases es with
        | nil =>
          cases h
          exact ⟨0, rfl, rfl⟩
        | cons e₁ es =>
          obtain ⟨rfl, hocc⟩ := List.cons.inj h
          exact keep es hocc fun m => by simp [occs]
      · rw [occs, if_neg hu] at h
        exact keep es h fun m => by simp [occs, hu]

/-! ## Ghost values -/

/-- The ghost value of request `t` after the log, from the value `g` at its start. -/
def Contract.ghost (C : Contract A Ret G) (g : G) (t : Nat) (l : List (Event Ret ε O ρ)) : G :=
  (occs t l).foldl (fun g e => C.next g e.1 e.2) g

variable {C : Contract A Ret G} {g : G} {t u : Nat} {l : List (Event Ret ε O ρ)}

@[simp] theorem Contract.ghost_snoc_started (o : O) :
    C.ghost g t (l ++ [.started u o]) = C.ghost g t l := by simp [Contract.ghost]

@[simp] theorem Contract.ghost_snoc_returned (o : O) (res : Except ε ρ) :
    C.ghost g t (l ++ [.returned u o res]) = C.ghost g t l := by simp [Contract.ghost]

@[simp] theorem Contract.ghost_snoc_acted_self (a : A) (r : Ret a) :
    C.ghost g t (l ++ [.acted t a r]) = C.next (C.ghost g t l) a r := by
  simp [Contract.ghost, List.foldl_append]

theorem Contract.ghost_snoc_acted_ne (h : u ≠ t) (a : A) (r : Ret a) :
    C.ghost g t (l ++ [.acted u a r]) = C.ghost g t l := by
  simp [Contract.ghost, occs_snoc_acted_ne h]

theorem Contract.ghost_eq_init (h : ∀ e ∈ l, e.tid ≠ t) : C.ghost g t l = g := by
  simp [Contract.ghost, occs_eq_nil h]

/-- The contract that asks for nothing and keeps what the request did. -/
def Contract.history : Contract A Ret (List (Occ Ret)) where
  pre _ _ := True
  allow _ _ _ := True
  next es a r := es ++ [⟨a, r⟩]

theorem Contract.history_ghost (es : List (Occ Ret)) :
    Contract.history.ghost es t l = es ++ occs t l := by
  unfold Contract.ghost
  generalize occs t l = es'
  induction es' generalizing es with
  | nil => simp
  | cons e es' ih =>
    rw [List.foldl_cons, ih]
    simp [Contract.history]

/-- What was done is not forgotten. -/
theorem Contract.history_obeys (p : Prog A Ret ε ρ) (es : List (Occ Ret)) :
    Contract.history.Obeys (fun _ es' => es <+: es') p es := by
  induction p generalizing es with
  | ret r => exact List.prefix_rfl
  | act a k ih =>
    refine ⟨trivial, fun r _ => (ih r (es ++ [⟨a, r⟩])).mono fun _ es' hes => ?_⟩
    exact (List.prefix_append ..).trans hes

/-- What the contract `C` says about the whole history of a program that keeps it. -/
theorem Contract.Obeys.history {C : Contract A Ret G} {post : Except ε ρ → G → Prop} {p : Prog A Ret ε ρ}
    {g : G} (h : C.Obeys post p g) (hallow : ∀ g a r, C.allow g a r) (es₀ : List (Occ Ret)) :
    Contract.history.Obeys
      (fun res es' => ∃ es, es' = es₀ ++ es ∧ C.Keeps g es ∧ post res (C.after g es)) p es₀ := by
  induction p generalizing g es₀ with
  | ret r => exact ⟨[], (List.append_nil es₀).symm, trivial, h⟩
  | act a k ih =>
    refine ⟨trivial, fun r _ => (ih r (h.2 r (hallow ..)) (es₀ ++ [⟨a, r⟩])).mono ?_⟩
    rintro res _ ⟨es, rfl, hkeeps, hpost⟩
    exact ⟨⟨a, r⟩ :: es, List.append_assoc .., ⟨h.1, fun _ => hkeeps⟩, hpost⟩

/-- Every request's program obeys the contract from the ghost value `init o` on. -/
def Service.Honours (S : Service A Ret σ ε O ρ) (C : Contract A Ret G) (init : O → G)
    (post : O → Except ε ρ → G → Prop) : Prop :=
  ∀ o, C.Obeys (post o) (S.prog o) (init o)

variable {init : O → G} {post : O → Except ε ρ → G → Prop}

/-- The steps of a run answer actions as the contract allows. -/
def Admits (ok : Config Ret σ ε O ρ → Event Ret ε O ρ → Prop) (C : Contract A Ret G)
    (init : O → G) : Prop :=
  ∀ c t a r o p, ok c (.acted t a r) → c.live t = some (o, p) →
    C.allow (C.ghost (init o) t c.log) a r

/-- The rest of a program in progress obeys the contract at the thread's ghost value. -/
theorem Service.Run.obeys (hon : S.Honours C init post) (hadm : Admits ok C init) {s₀ : σ}
    (h : S.Run ok (.initial s₀) c) {t : Nat} {o : O} {p : Prog A Ret ε ρ}
    (hlive : c.live t = some (o, p)) : C.Obeys (post o) p (C.ghost (init o) t c.log) := by
  induction h generalizing t o p with
  | refl => cases hlive
  | step _ hst hok ih =>
    cases hst with
    | @start u o' hfresh hnone =>
      rw [Config.start_log, Contract.ghost_snoc_started]
      rw [Config.start_live] at hlive
      split at hlive
      · next hu =>
        subst hu
        cases hlive
        rw [Contract.ghost_eq_init hfresh]
        exact hon o
      · exact ih hlive
    | @act u o' a k r s hl hst =>
      rw [Config.act_live] at hlive
      split at hlive
      · next hu =>
        subst hu
        cases hlive
        rw [Config.act_log, Contract.ghost_snoc_acted_self]
        exact (ih hl).2 r (hadm _ t a r o _ hok hl)
      · next hu =>
        rw [Config.act_log, Contract.ghost_snoc_acted_ne (Ne.symm hu)]
        exact ih hlive
    | @finish u o' res hl =>
      rw [Config.finish_log, Contract.ghost_snoc_returned]
      rw [Config.finish_live] at hlive
      split at hlive
      · cases hlive
      · exact ih hlive

/-- **The rule for invariants of interleaved runs.** A property of configurations that holds at the
beginning, and that is kept by the start of a request, by one action of any request under the
contract's precondition at its ghost value, and by a return under the contract's postcondition,
holds of every configuration a run reaches. -/
theorem Service.Run.invariant_of_contract (hon : S.Honours C init post)
    (hadm : Admits ok C init) {s₀ : σ} {I : Config Ret σ ε O ρ → Prop}
    (h : S.Run ok (.initial s₀) c) (h₀ : I (.initial s₀))
    (hstart : ∀ c t o, S.Run ok (.initial s₀) c → I c → (∀ e ∈ c.log, e.tid ≠ t) →
      c.live t = none → ok c (.started t o) → I (c.start t o (S.prog o)))
    (hact : ∀ c t o a k r s, S.Run ok (.initial s₀) c → I c → c.live t = some (o, .act a k) →
      C.pre (C.ghost (init o) t c.log) a → ok c (.acted t a r) → S.machine.Step a c.st r s →
      I (c.act t o a r (k r) s))
    (hfinish : ∀ c t o res, S.Run ok (.initial s₀) c → I c → c.live t = some (o, .ret res) →
      post o res (C.ghost (init o) t c.log) → ok c (.returned t o res) → I (c.finish t o res)) :
    I c := by
  refine h.invariant h₀ fun c e c' hrun hI hst hok => ?_
  cases hst with
  | start hfresh hnone => exact hstart c _ _ hrun hI hfresh hnone hok
  | act hl hst => exact hact c _ _ _ _ _ _ hrun hI hl (hrun.obeys hon hadm hl).1 hok hst
  | finish hl => exact hfinish c _ _ _ hrun hI hl (hrun.obeys hon hadm hl) hok

/-- The rest of a program in progress performs only what the program performs. -/
theorem Service.Run.only {P : O → A → Prop} (hp : ∀ o, (S.prog o).Only (P o)) {s₀ : σ}
    (h : S.Run ok (.initial s₀) c) {t : Nat} {o : O} {p : Prog A Ret ε ρ}
    (hlive : c.live t = some (o, p)) : p.Only (P o) := by
  induction h generalizing t o p with
  | refl => cases hlive
  | step _ hst _ ih =>
    cases hst with
    | start =>
      rw [Config.start_live] at hlive
      split at hlive
      · cases hlive
        exact hp _
      · exact ih hlive
    | act hl _ =>
      rw [Config.act_live] at hlive
      split at hlive
      · cases hlive
        exact (ih hl).2 _
      · exact ih hlive
    | finish hl =>
      rw [Config.finish_live] at hlive
      split at hlive
      · cases hlive
      · exact ih hlive

/-! ## Positions in the log -/

/-- The log keeps what it has. -/
theorem Service.Step.getElem?_log {e e' : Event Ret ε O ρ} {i : Nat} (h : S.Step c e c')
    (hi : c.log[i]? = some e') : c'.log[i]? = some e' := by
  rw [h.log_eq, List.getElem?_append_left (List.getElem?_eq_some_iff.1 hi).1]
  exact hi

/-- The entries of an extended log: the old ones and the new one at the end. -/
theorem getElem?_snoc_iff {γ : Type} {l : List γ} {x y : γ} {i : Nat} :
    (l ++ [x])[i]? = some y ↔ l[i]? = some y ∨ (i = l.length ∧ y = x) := by
  rcases Nat.lt_trichotomy i l.length with h | h | h
  · rw [List.getElem?_append_left h]
    exact ⟨.inl, fun h' => h'.resolve_right fun h'' => absurd h''.1 (Nat.ne_of_lt h)⟩
  · subst h
    simp [eq_comm]
  · rw [List.getElem?_eq_none (by simp; omega), List.getElem?_eq_none (by omega)]
    simp [Nat.ne_of_gt h]

theorem getElem?_snoc {γ : Type} {l : List γ} {y : γ} {i : Nat} (x : γ) (h : l[i]? = some y) :
    (l ++ [x])[i]? = some y := getElem?_snoc_iff.2 (.inl h)

theorem getElem?_snoc_self {γ : Type} (l : List γ) (x : γ) : (l ++ [x])[l.length]? = some x :=
  getElem?_snoc_iff.2 (.inr ⟨rfl, rfl⟩)

theorem getElem?_lt {γ : Type} {l : List γ} {y : γ} {i : Nat} (h : l[i]? = some y) :
    i < l.length := (List.getElem?_eq_some_iff.1 h).1

theorem getElem?_of_take {γ : Type} {l : List γ} {y : γ} {i n : Nat}
    (h : (l.take n)[i]? = some y) : l[i]? = some y := by
  have hi : i < n := by
    have := getElem?_lt h
    rw [List.length_take] at this
    omega
  rwa [List.getElem?_take_of_lt hi] at h

/-- A request starts only once. -/
theorem Service.Run.started_unique {s₀ : σ} (h : S.Run ok (.initial s₀) c) {t i j : Nat} {o o' : O}
    (hi : c.log[i]? = some (.started t o)) (hj : c.log[j]? = some (.started t o')) :
    i = j ∧ o = o' := by
  induction h with
  | refl => simp at hi
  | @step c c' e _ hst hok ih =>
    rw [hst.log_eq] at hi hj
    rcases getElem?_snoc_iff.1 hi with hi' | ⟨rfl, hi'⟩ <;>
      rcases getElem?_snoc_iff.1 hj with hj' | ⟨rfl, hj'⟩
    · exact ih hi' hj'
    · subst hj'
      cases hst with
      | start hfresh => exact absurd rfl (hfresh _ (List.mem_of_getElem? hi'))
    · subst hi'
      cases hst with
      | start hfresh => exact absurd rfl (hfresh _ (List.mem_of_getElem? hj'))
    · cases hi'.trans hj'.symm
      exact ⟨rfl, rfl⟩

/-- A request in progress has started. -/
theorem Service.Run.started_of_live {s₀ : σ} (h : S.Run ok (.initial s₀) c) {t : Nat} {o : O}
    {p : Prog A Ret ε ρ} (hlive : c.live t = some (o, p)) :
    ∃ i : Nat, c.log[i]? = some (.started t o) := by
  induction h generalizing o p with
  | refl => simp at hlive
  | @step c c' e _ hst hok ih =>
    have keep : (∃ i : Nat, c.log[i]? = some (.started t o)) →
        ∃ i : Nat, c'.log[i]? = some (.started t o) := fun ⟨i, hi⟩ => ⟨i, hst.getElem?_log hi⟩
    cases hst with
    | start hfresh hnone =>
      rw [Config.start_live] at hlive
      split at hlive
      · next h =>
        cases hlive
        exact ⟨c.log.length, getElem?_snoc_iff.2 (.inr ⟨rfl, h ▸ rfl⟩)⟩
      · exact keep (ih hlive)
    | act hl hm =>
      rw [Config.act_live] at hlive
      split at hlive
      · next h =>
        subst h
        cases hlive
        exact keep (ih hl)
      · exact keep (ih hlive)
    | finish hl =>
      rw [Config.finish_live] at hlive
      split at hlive
      · cases hlive
      · exact keep (ih hlive)

/-- Every entry of the log is a step of the run, from a configuration whose log is what came
before. -/
theorem Service.Run.step_of_getElem? {s₀ : σ} (h : S.Run ok (.initial s₀) c) {i : Nat}
    {e : Event Ret ε O ρ} (hi : c.log[i]? = some e) :
    ∃ c₁ c₂, S.Run ok (.initial s₀) c₁ ∧ S.Step c₁ e c₂ ∧ ok c₁ e ∧ c₁.log = c.log.take i := by
  induction h with
  | refl => simp at hi
  | @step c c' e' hrun hst hok ih =>
    rw [hst.log_eq] at hi ⊢
    rcases getElem?_snoc_iff.1 hi with hold | ⟨rfl, rfl⟩
    · obtain ⟨c₁, c₂, hrun', hst', hok', hlog⟩ := ih hold
      refine ⟨c₁, c₂, hrun', hst', hok', hlog.trans ?_⟩
      rw [List.take_append_of_le_length (Nat.le_of_lt (getElem?_lt hold))]
    · exact ⟨c, c', hrun, hst, hok, by simp⟩

/-- A request in progress has not returned. -/
theorem Service.Run.not_returned_of_live {s₀ : σ} (h : S.Run ok (.initial s₀) c) {t : Nat} {o : O}
    {p : Prog A Ret ε ρ} (hlive : c.live t = some (o, p)) {o' : O} {res : Except ε ρ} :
    .returned t o' res ∉ c.log := by
  induction h generalizing o p with
  | refl => exact List.not_mem_nil
  | @step c c' e _ hst hok ih =>
    rw [hst.log_eq]
    intro hmem
    rcases List.mem_append.1 hmem with hold | hnew
    · cases hst with
      | start hfresh hnone =>
        rw [Config.start_live] at hlive
        split at hlive
        · next h => exact hfresh _ hold h
        · exact ih hlive hold
      | act hl hm =>
        rw [Config.act_live] at hlive
        split at hlive
        · next h =>
          subst h
          exact ih hl hold
        · exact ih hlive hold
      | finish hl =>
        rw [Config.finish_live] at hlive
        split at hlive
        · cases hlive
        · exact ih hlive hold
    · cases List.mem_singleton.1 hnew
      cases hst with
      | finish hl =>
        rw [Config.finish_live, if_pos rfl] at hlive
        cases hlive

/-- A request does nothing after it has returned. -/
theorem Service.Run.le_returned {s₀ : σ} (h : S.Run ok (.initial s₀) c) {t i j : Nat} {o : O}
    {res : Except ε ρ} {e : Event Ret ε O ρ} (hi : c.log[i]? = some (.returned t o res))
    (hj : c.log[j]? = some e) (he : e.tid = t) : j ≤ i := by
  by_contra hij
  obtain ⟨c₁, c₂, hrun, hst, -, hlog⟩ := h.step_of_getElem? hj
  have hmem : .returned t o res ∈ c₁.log := by
    rw [hlog]
    exact List.mem_of_getElem? ((List.getElem?_take_of_lt (by omega)).trans hi)
  subst he
  cases hst with
  | start hfresh => exact hfresh _ hmem rfl
  | act hlive | finish hlive => exact hrun.not_returned_of_live hlive hmem

/-- A run passes through every step that its log has recorded since it began. -/
theorem Service.Run.through (h : S.Run ok c₀ c) {i : Nat} {e : Event Ret ε O ρ}
    (hi : c.log[i]? = some e) (hlen : c₀.log.length ≤ i) :
    ∃ c₁ c₂, S.Run ok c₀ c₁ ∧ S.Step c₁ e c₂ ∧ S.Run ok c₂ c ∧ c₁.log = c.log.take i := by
  induction h with
  | refl => exact absurd (getElem?_lt hi) (Nat.not_lt.2 hlen)
  | @step c c' e' hrun hst hok ih =>
    rw [hst.log_eq] at hi ⊢
    rcases getElem?_snoc_iff.1 hi with hold | ⟨rfl, rfl⟩
    · obtain ⟨c₁, c₂, hrun₁, hst₁, hrun₂, hlog⟩ := ih hold
      refine ⟨c₁, c₂, hrun₁, hst₁, hrun₂.step hst hok, hlog.trans ?_⟩
      rw [List.take_append_of_le_length (Nat.le_of_lt (getElem?_lt hold))]
    · exact ⟨c, c', hrun, hst, .refl, by simp⟩

/-- A request that has started is in progress or has returned. -/
theorem Service.Run.returned_of_not_live {s₀ : σ} (h : S.Run ok (.initial s₀) c) {t : Nat} {o : O}
    (hstart : .started t o ∈ c.log) (hlive : c.live t = none) :
    ∃ o' res, .returned t o' res ∈ c.log := by
  induction h with
  | refl => cases hstart
  | @step c c' e _ hst hok ih =>
    rw [hst.log_eq] at hstart ⊢
    have keep : c.live t = none → .started t o ∈ c.log →
        ∃ o' res, .returned t o' res ∈ c.log ++ [e] := by
      intro hl hs
      obtain ⟨o', res, hmem⟩ := ih hs hl
      exact ⟨o', res, List.mem_append_left _ hmem⟩
    rcases List.mem_append.1 hstart with hold | hnew
    · cases hst with
      | start hfresh hnone =>
        rw [Config.start_live] at hlive
        split at hlive
        · cases hlive
        · exact keep hlive hold
      | act hl hm =>
        rw [Config.act_live] at hlive
        split at hlive
        · cases hlive
        · exact keep hlive hold
      | @finish u o' res hl =>
        rw [Config.finish_live] at hlive
        split at hlive
        · next h =>
          subst h
          exact ⟨o', res, by simp⟩
        · exact keep hlive hold
    · cases List.mem_singleton.1 hnew
      cases hst with
      | start hfresh hnone =>
        rw [Config.start_live, if_pos rfl] at hlive
        cases hlive

/-- A request has started before it returns. -/
theorem Service.Run.started_of_returned {s₀ : σ} (h : S.Run ok (.initial s₀) c) {t i : Nat} {o : O}
    {res : Except ε ρ} (hi : c.log[i]? = some (.returned t o res)) :
    ∃ q, q < i ∧ c.log[q]? = some (.started t o) := by
  obtain ⟨c₁, c₂, hrun, hst, -, hlog⟩ := h.step_of_getElem? hi
  cases hst with
  | finish hlive =>
    obtain ⟨q, hq⟩ := hrun.started_of_live hlive
    rw [hlog] at hq
    have hlt := getElem?_lt hq
    rw [List.length_take] at hlt
    exact ⟨q, by omega, getElem?_of_take hq⟩

/-- A request has started before it acts. -/
theorem Service.Run.started_lt_acted {s₀ : σ} (h : S.Run ok (.initial s₀) c) {t i q : Nat} {o : O}
    {a : A} {r : Ret a} (hi : c.log[i]? = some (.acted t a r))
    (hq : c.log[q]? = some (.started t o)) : q < i := by
  obtain ⟨c₁, c₂, hrun, hst, -, hlog⟩ := h.step_of_getElem? hi
  cases hst with
  | act hlive hm =>
    obtain ⟨s, hs⟩ := hrun.started_of_live hlive
    rw [hlog] at hs
    obtain ⟨rfl, -⟩ := h.started_unique hq (getElem?_of_take hs)
    have := getElem?_lt hs
    rw [List.length_take] at this
    omega

/-- Every action in the log was done by a request in progress, under the contract's
precondition. -/
theorem Service.Run.pre_of_acted (hon : S.Honours C init post) (hadm : Admits ok C init) {s₀ : σ}
    (h : S.Run ok (.initial s₀) c) {t i q : Nat} {o : O} {a : A} {r : Ret a}
    (hi : c.log[i]? = some (.acted t a r)) (hq : c.log[q]? = some (.started t o)) :
    C.pre (C.ghost (init o) t (c.log.take i)) a := by
  obtain ⟨c₁, c₂, hrun, hst, -, hlog⟩ := h.step_of_getElem? hi
  cases hst with
  | act hlive hm =>
    obtain ⟨s, hs⟩ := hrun.started_of_live hlive
    rw [hlog] at hs
    obtain ⟨-, rfl⟩ := h.started_unique hq (getElem?_of_take hs)
    rw [← hlog]
    exact (hrun.obeys hon hadm hlive).1

/-- Every return in the log was made under the contract's postcondition. -/
theorem Service.Run.post_of_returned (hon : S.Honours C init post) (hadm : Admits ok C init)
    {s₀ : σ} (h : S.Run ok (.initial s₀) c) {t i : Nat} {o : O} {res : Except ε ρ}
    (hi : c.log[i]? = some (.returned t o res)) :
    post o res (C.ghost (init o) t (c.log.take i)) := by
  obtain ⟨c₁, c₂, hrun, hst, -, hlog⟩ := h.step_of_getElem? hi
  cases hst with
  | finish hlive =>
    rw [← hlog]
    exact hrun.obeys hon hadm hlive

/-- What a request that returned has done. -/
theorem Service.Run.history_of_returned {post : O → Except ε ρ → List (Occ Ret) → Prop}
    (hon : S.Honours Contract.history (fun _ => []) post) {s₀ : σ}
    (h : S.Run ok (.initial s₀) c) {t i : Nat} {o : O} {res : Except ε ρ}
    (hi : c.log[i]? = some (.returned t o res)) : post o res (occs t (c.log.take i)) := by
  have hpost := h.post_of_returned hon (fun _ _ _ _ _ _ _ _ => trivial) hi
  rwa [Contract.history_ghost] at hpost

/-! ## Scheduled runs -/

/-- A choice of the scheduler: start a request, execute the next action of a request with the
outside contributing `w`, or let a request return. -/
inductive Move (W O : Type) : Type where
  | start (t : Nat) (o : O)
  | act (t : Nat) (w : W)
  | finish (t : Nat)

/-- What the choice leads to, if it can be made. -/
def Service.move (S : Service A Ret σ ε O ρ) (c : Config Ret σ ε O ρ) :
    Move S.machine.World O → Option (Event Ret ε O ρ × Config Ret σ ε O ρ)
  | .start t o =>
    if (c.live t).isNone && c.log.all (fun e => e.tid != t) then
      some (.started t o, c.start t o (S.prog o))
    else none
  | .act t w =>
    match c.live t with
    | some (o, .act a k) =>
      if S.machine.ready a c.st then
        let (r, s) := S.machine.run a w c.st
        some (.acted t a r, c.act t o a r (k r) s)
      else none
    | _ => none
  | .finish t =>
    match c.live t with
    | some (o, .ret res) => some (.returned t o res, c.finish t o res)
    | _ => none

theorem Service.step_of_move {m : Move S.machine.World O} {e : Event Ret ε O ρ}
    (h : S.move c m = some (e, c')) : S.Step c e c' := by
  cases m with
  | start t o =>
    simp only [Service.move, Option.ite_none_right_eq_some, Bool.and_eq_true, List.all_eq_true,
      Option.isNone_iff_eq_none, bne_iff_ne, Option.some.injEq, Prod.mk.injEq] at h
    obtain ⟨⟨hlive, hlog⟩, rfl, rfl⟩ := h
    exact .start hlog hlive
  | act t w =>
    simp only [Service.move] at h
    split at h
    · next o a k hlive =>
      split at h
      · next hready =>
        cases h
        exact .act hlive ⟨hready, w, rfl⟩
      · cases h
    · cases h
  | finish t =>
    simp only [Service.move] at h
    split at h
    · next o res hlive =>
      cases h
      exact .finish hlive
    · cases h

theorem Service.event_of_start {t : Nat} {o : O} {e : Event Ret ε O ρ}
    (h : S.move c (.start t o) = some (e, c')) : e = .started t o := by
  simp only [Service.move] at h
  split at h <;> cases h
  rfl

theorem Service.event_of_act {t : Nat} {w : S.machine.World} {e : Event Ret ε O ρ}
    (h : S.move c (.act t w) = some (e, c')) : ∃ a r, e = .acted t a r := by
  simp only [Service.move] at h
  split at h
  · split at h <;> cases h
    exact ⟨_, _, rfl⟩
  · cases h

theorem Service.event_of_finish {t : Nat} {e : Event Ret ε O ρ}
    (h : S.move c (.finish t) = some (e, c')) : ∃ o res, e = .returned t o res := by
  simp only [Service.move] at h
  split at h <;> cases h
  exact ⟨_, _, rfl⟩

/-- All the choices of a schedule, as long as they can be made and `ok` admits them. -/
def Service.play (S : Service A Ret σ ε O ρ)
    (ok : Config Ret σ ε O ρ → Event Ret ε O ρ → Bool) :
    List (Move S.machine.World O) → Config Ret σ ε O ρ → Option (Config Ret σ ε O ρ)
  | [], c => some c
  | m :: ms, c =>
    match S.move c m with
    | some (e, c') => if ok c e then S.play ok ms c' else none
    | none => none

/-- A schedule leads along a run. -/
theorem Service.run_of_play {okb : Config Ret σ ε O ρ → Event Ret ε O ρ → Bool}
    {ms : List (Move S.machine.World O)} (h₀ : S.Run ok c₀ c) (h : S.play okb ms c = some c')
    (hok : ∀ c e, S.Run ok c₀ c → okb c e = true → ok c e) : S.Run ok c₀ c' := by
  induction ms generalizing c with
  | nil =>
    cases h
    exact h₀
  | cons m ms ih =>
    simp only [Service.play] at h
    split at h
    · next e c₁ hm =>
      split at h
      · next he => exact ih (h₀.step (step_of_move hm) (hok _ _ h₀ he)) h
      · cases h
    · cases h

end

end Lib
