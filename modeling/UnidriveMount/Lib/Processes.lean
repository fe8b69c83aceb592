import UnidriveMount.Lib.Pool

/-!
# Processes that can be killed

A `Host` is a machine on which processes run. An action knows which process performs it, and when a process
is gone the system takes back what it held (`reap`). A process runs a program, and it can be killed before
any of its actions: in the runs of `Host.service` any number of processes are in progress at once, and each
of them can be killed at any time.

A contract gives each process that is there a ghost value (`ghosts`). `Host.invariant` is the induction rule:
a relation between the host's state, the ghost values and the log is kept when a process starts, acts, is
gone, and has returned.
-/

namespace Lib

section
variable {A : Type} {Ret : A → Type} {σ ε O ρ G : Type}

/-- The actions of processes: an action of the process `pid`, or its end. -/
inductive ProcAct (A : Type) : Type where
  | act (pid : Nat) (a : A)
  | exit (pid : Nat)

/-- A process that is killed before an action gets no answer. -/
abbrev ProcAct.Answer (Ret : A → Type) : ProcAct A → Type
  | act _ a => Option (Ret a)
  | exit _ => Unit

/-- What the actions of a process do, and what the system does when it is gone. -/
structure Host (A : Type) (Ret : A → Type) (σ : Type) where
  World : Type
  run : Nat → (a : A) → World → σ → Ret a × σ
  reap : Nat → σ → σ

/-- The program of the process `pid`, whose result is none if it is killed. -/
def Prog.process (pid : Nat) : Prog A Ret ε ρ → Prog (ProcAct A) (ProcAct.Answer Ret) ε (Option ρ)
  | .ret r => .act (.exit pid) fun _ => .ret (r.map some)
  | .act a k => .act (.act pid a) fun
    | some x => (k x).process pid
    | none => .ret (.ok none)

namespace Host

variable (H : Host A Ret σ)

/-- The machine of the processes. The outside decides whether the process is killed. -/
def machine : Machine (ProcAct A) (ProcAct.Answer Ret) σ where
  World := Option H.World
  ready _ _ := true
  run
    | .act pid a, some w, s => (some (H.run pid a w s).1, (H.run pid a w s).2)
    | .act pid _, none, s => (none, H.reap pid s)
    | .exit pid, _, s => ((), H.reap pid s)

/-- Processes that run programs. -/
def service (prog : O → Prog A Ret ε ρ) :
    Service (ProcAct A) (ProcAct.Answer Ret) σ ε (Nat × O) (Option ρ) :=
  ⟨H.machine, fun o => (prog o.2).process o.1⟩

end Host

/-- A process has the number under which it was started. -/
def OwnPid (_ : Config (ProcAct.Answer Ret) σ ε (Nat × O) (Option ρ)) :
    Event (ProcAct.Answer Ret) ε (Nat × O) (Option ρ) → Prop
  | .started t o => o.1 = t
  | .acted .. | .returned .. => True

instance (c : Config (ProcAct.Answer Ret) σ ε (Nat × O) (Option ρ))
    (e : Event (ProcAct.Answer Ret) ε (Nat × O) (Option ρ)) : Decidable (OwnPid c e) := by
  cases e <;> unfold OwnPid <;> infer_instance

/-- The process `t` is gone: it has ended, or it was killed. -/
def Gone (t : Nat) (e : Event (ProcAct.Answer Ret) ε (Nat × O) (Option ρ)) : Prop :=
  e = .acted t (.exit t) () ∨ ∃ a, e = .acted t (.act t a) none

theorem not_gone_started (t u : Nat) (o : Nat × O) :
    ¬ Gone t (.started u o : Event (ProcAct.Answer Ret) ε (Nat × O) (Option ρ)) := by
  rintro (h | ⟨a, h⟩) <;> cases h

theorem not_gone_answered (t u : Nat) (a : A) (x : Ret a) :
    ¬ Gone t (.acted u (.act u a) (some x) : Event (ProcAct.Answer Ret) ε (Nat × O) (Option ρ)) := by
  rintro (h | ⟨a, h⟩) <;> cases h

/-! ## Contracts of processes -/

/-- The contract of a process whose program has the contract `C`: its number, and the ghost value of its
program as long as it is there. -/
def Contract.process (C : Contract A Ret G) :
    Contract (ProcAct A) (ProcAct.Answer Ret) (Nat × Option G) where
  pre g
    | .act pid a => pid = g.1 ∧ ∃ g', g.2 = some g' ∧ C.pre g' a
    | .exit pid => pid = g.1 ∧ ∃ g', g.2 = some g'
  allow _ _ _ := True
  next g
    | .act _ a, some x => (g.1, g.2.map fun g' => C.next g' a x)
    | .act _ _, none | .exit _, _ => (g.1, none)

section
variable {C : Contract A Ret G} {init : O → G} {prog : O → Prog A Ret ε ρ}
  {post : O → Except ε ρ → G → Prop}

/-- A program that obeys its contract makes a process that does. -/
theorem Contract.Obeys.process (hallow : ∀ g a r, C.allow g a r) {post : Except ε ρ → G → Prop}
    {p : Prog A Ret ε ρ} {g : G} (h : C.Obeys post p g) (pid : Nat) :
    C.process.Obeys (fun _ g => g.2 = none) (p.process pid) (pid, some g) := by
  induction p generalizing g with
  | ret r => exact ⟨⟨rfl, g, rfl⟩, fun _ _ => rfl⟩
  | act a k ih =>
    rw [Prog.process, obeys_act]
    refine ⟨⟨rfl, g, rfl, h.1⟩, fun r _ => ?_⟩
    cases r with
    | some x => exact ih x (h.2 x (hallow ..))
    | none => rfl

/-- The contract that keeps what the request has done, and asks for `P` of it before each action. -/
def Contract.past (P : O → List (Occ Ret) → A → Prop) : Contract A Ret (O × List (Occ Ret)) where
  pre g a := P g.1 g.2 a
  allow _ _ _ := True
  next g a r := (g.1, g.2 ++ [⟨a, r⟩])

theorem Contract.past_ghost {P : O → List (Occ Ret) → A → Prop} (o : O) (es : List (Occ Ret)) (t : Nat)
    (l : List (Event Ret ε O ρ)) : (Contract.past P).ghost (o, es) t l = (o, es ++ occs t l) := by
  unfold Contract.ghost
  generalize occs t l = es'
  induction es' generalizing es with
  | nil => simp
  | cons e es' ih =>
    have hnext : (Contract.past P).next (o, es) e.1 e.2 = (o, es ++ [e]) := rfl
    rw [List.foldl_cons, hnext, ih]
    simp

/-- The request that a process serves. -/
def requestOf (t : Nat) (l : List (Event (ProcAct.Answer Ret) ε (Nat × O) (Option ρ))) : Option O :=
  l.findSome? fun
    | .started u o => if u = t then some o.2 else none
    | .acted .. | .returned .. => none

/-- The ghost values of the processes that are there. -/
def Contract.ghosts (C : Contract A Ret G) (init : O → G)
    (l : List (Event (ProcAct.Answer Ret) ε (Nat × O) (Option ρ))) (t : Nat) : Option G :=
  (requestOf t l).bind fun o => (C.process.ghost (t, some (init o)) t l).2

variable {l : List (Event (ProcAct.Answer Ret) ε (Nat × O) (Option ρ))} {t : Nat}

theorem requestOf_eq_none (h : ∀ e ∈ l, e.tid ≠ t) : requestOf t l = none := by
  refine List.findSome?_eq_none_iff.2 fun e he => ?_
  cases e with
  | started u o => exact if_neg (h _ he)
  | acted | returned => rfl

@[simp] theorem requestOf_snoc_started (u : Nat) (o : Nat × O) :
    requestOf t (l ++ [.started u o]) = (requestOf t l).or (if u = t then some o.2 else none) := by
  rw [requestOf, List.findSome?_append, ← requestOf]
  by_cases h : u = t <;> simp [h]

@[simp] theorem requestOf_snoc_acted (u : Nat) (a : ProcAct A) (r : a.Answer Ret) :
    requestOf t (l ++ [.acted u a r]) = requestOf t l := by
  rw [requestOf, List.findSome?_append, ← requestOf]
  simp

@[simp] theorem requestOf_snoc_returned (u : Nat) (o : Nat × O) (res : Except ε (Option ρ)) :
    requestOf t (l ++ [.returned u o res]) = requestOf t l := by
  rw [requestOf, List.findSome?_append, ← requestOf]
  simp

theorem mem_of_requestOf {o : O} (h : requestOf t l = some o) : ∃ o', o'.2 = o ∧ .started t o' ∈ l := by
  obtain ⟨e, he, heq⟩ := List.exists_of_findSome?_eq_some h
  cases e with
  | started u o' =>
    dsimp only at heq
    split at heq
    · next hu =>
      cases heq
      exact ⟨o', rfl, hu ▸ he⟩
    · cases heq
  | acted | returned => cases heq

theorem requestOf_of_mem {o : Nat × O} (h : .started t o ∈ l) : ∃ o', requestOf t l = some o' := by
  cases hreq : requestOf t l with
  | some o' => exact ⟨o', rfl⟩
  | none =>
    have := List.findSome?_eq_none_iff.1 hreq _ h
    simp at this

namespace Contract

theorem ghosts_started (hfresh : ∀ e ∈ l, e.tid ≠ t) (o : Nat × O) :
    C.ghosts init (l ++ [.started t o]) = Function.update (C.ghosts init l) t (some (init o.2)) := by
  funext u
  simp only [ghosts, requestOf_snoc_started, ghost_snoc_started, Function.update_apply]
  split
  · next h =>
    subst h
    simp [requestOf_eq_none hfresh, ghost_eq_init hfresh]
  · next h => simp [Ne.symm h]

theorem ghosts_returned (o : Nat × O) (res : Except ε (Option ρ)) :
    C.ghosts init (l ++ [.returned t o res]) = C.ghosts init l := by
  funext u
  simp only [ghosts, requestOf_snoc_returned, ghost_snoc_returned]

theorem ghosts_acted {a : ProcAct A} {r : a.Answer Ret} {o : O} (hreq : requestOf t l = some o) :
    C.ghosts init (l ++ [.acted t a r]) = Function.update (C.ghosts init l) t
      (C.process.next (C.process.ghost (t, some (init o)) t l) a r).2 := by
  funext u
  simp only [ghosts, requestOf_snoc_acted, Function.update_apply]
  split
  · next h =>
    subst h
    simp [hreq]
  · next h => simp only [ghost_snoc_acted_ne (Ne.symm h)]

theorem ghosts_eq {o : O} (hreq : requestOf t l = some o) :
    C.ghosts init l t = (C.process.ghost (t, some (init o)) t l).2 := by
  rw [ghosts, hreq, Option.bind_some]

end Contract

/-! ## Runs -/

namespace Host

variable {H : Host A Ret σ} {s₀ : σ}
  {c : Config (ProcAct.Answer Ret) σ ε (Nat × O) (Option ρ)}

theorem honours (hon : ∀ o, C.Obeys (post o) (prog o) (init o)) (hallow : ∀ g a r, C.allow g a r) :
    (H.service prog).Honours C.process (fun o => (o.1, some (init o.2))) fun _ _ g => g.2 = none :=
  fun o => (hon o.2).process hallow o.1

/-- A process that is in the log under its number serves the request with which it was started. -/
theorem requestOf_of_started (h : (H.service prog).Run OwnPid (.initial s₀) c) {o : Nat × O}
    (ho : .started t o ∈ c.log) : o.1 = t ∧ requestOf t c.log = some o.2 := by
  obtain ⟨i, hi⟩ := List.mem_iff_getElem?.1 ho
  obtain ⟨c₁, c₂, -, -, hown, -⟩ := h.step_of_getElem? hi
  obtain ⟨o', hreq⟩ := requestOf_of_mem ho
  obtain ⟨o'', rfl, ho''⟩ := mem_of_requestOf hreq
  obtain ⟨j, hj⟩ := List.mem_iff_getElem?.1 ho''
  obtain ⟨-, rfl⟩ := h.started_unique hi hj
  exact ⟨hown, hreq⟩

/-- The ghost value of a process in progress, and what its program is about to do. -/
theorem ghost_of_live (hon : ∀ o, C.Obeys (post o) (prog o) (init o)) (hallow : ∀ g a r, C.allow g a r)
    (h : (H.service prog).Run OwnPid (.initial s₀) c) {o : Nat × O}
    {p : Prog (ProcAct A) (ProcAct.Answer Ret) ε (Option ρ)} (hlive : c.live t = some (o, p)) :
    requestOf t c.log = some o.2 ∧
      C.process.Obeys (fun _ g => g.2 = none) p (C.process.ghost (t, some (init o.2)) t c.log) := by
  obtain ⟨i, hi⟩ := h.started_of_live hlive
  obtain ⟨rfl, hreq⟩ := requestOf_of_started h (List.mem_of_getElem? hi)
  exact ⟨hreq, h.obeys (honours hon hallow) (fun _ _ _ _ _ _ _ _ => trivial) hlive⟩

/-- The number of a process does not change. -/
theorem ghost_pid (g : Nat × Option G) (t : Nat)
    (l : List (Event (ProcAct.Answer Ret) ε (Nat × O) (Option ρ))) : (C.process.ghost g t l).1 = g.1 := by
  unfold Contract.ghost
  generalize occs t l = es
  induction es generalizing g with
  | nil => rfl
  | cons e es ih =>
    rw [List.foldl_cons, ih]
    obtain ⟨a, r⟩ := e
    cases a with
    | act pid a => cases r <;> rfl
    | exit pid => rfl

/-- **The induction rule for processes.** A relation between the host's state, the ghost values and the log
that holds at the beginning is kept by a run when it is kept by the start of a process, by an action, by the
end of a process, killed or not, and by a return. -/
theorem invariant {I : σ → (Nat → Option G) →
      List (Event (ProcAct.Answer Ret) ε (Nat × O) (Option ρ)) → Prop}
    (hon : ∀ o, C.Obeys (post o) (prog o) (init o)) (hallow : ∀ g a r, C.allow g a r)
    (h₀ : I s₀ (fun _ => none) [])
    (hstart : ∀ s γ l t o, I s γ l → (∀ e ∈ l, e.tid ≠ t) → γ t = none →
      I s (Function.update γ t (some (init o))) (l ++ [.started t (t, o)]))
    (hact : ∀ s γ l t g a w, I s γ l → γ t = some g → C.pre g a →
      I (H.run t a w s).2 (Function.update γ t (some (C.next g a (H.run t a w s).1)))
        (l ++ [.acted t (.act t a) (some (H.run t a w s).1)]))
    (hgone : ∀ s γ l t g e, I s γ l → γ t = some g → Gone t e →
      I (H.reap t s) (Function.update γ t none) (l ++ [e]))
    (hreturned : ∀ s γ l t o res, I s γ l → I s γ (l ++ [.returned t o res]))
    (h : (H.service prog).Run OwnPid (.initial s₀) c) : I c.st (C.ghosts init c.log) c.log := by
  refine Service.Run.invariant (I := fun c => I c.st (C.ghosts init c.log) c.log) h h₀
    fun c e c' hrun hI hst hown => ?_
  cases hst with
  | @start t o hfresh hnone =>
    obtain ⟨pid, o⟩ := o
    obtain rfl : pid = t := hown
    rw [Config.start_log, Config.start_st, Contract.ghosts_started hfresh]
    refine hstart _ _ _ _ _ hI hfresh ?_
    rw [Contract.ghosts, requestOf_eq_none hfresh, Option.bind_none]
  | @act t o a k r s hlive hst =>
    obtain ⟨hreq, hobeys⟩ := ghost_of_live hon hallow hrun hlive
    have hghost : C.ghosts init c.log t = _ := Contract.ghosts_eq hreq
    have hpid := ghost_pid (C := C) (t, some (init o.2)) t c.log
    have hpre := (Contract.obeys_act.1 hobeys).1
    obtain ⟨-, w, hstep⟩ := hst
    rw [Config.act_log, Config.act_st, Contract.ghosts_acted hreq]
    generalize C.process.ghost (t, some (init o.2)) t c.log = g at hghost hpid hpre
    obtain ⟨pid, g⟩ := g
    obtain rfl : pid = t := hpid
    cases a with
    | act pid' a =>
      obtain ⟨rfl, g', rfl, hpre⟩ := hpre
      cases w with
      | some w =>
        cases hstep
        exact hact _ _ _ _ _ _ w hI hghost hpre
      | none =>
        cases hstep
        exact hgone _ _ _ _ _ _ hI hghost (.inr ⟨a, rfl⟩)
    | exit pid' =>
      obtain ⟨rfl, g', rfl⟩ := hpre
      cases hstep
      exact hgone _ _ _ _ _ _ hI hghost (.inl rfl)
  | @finish t o res hlive =>
    rw [Config.finish_log, Config.finish_st, Contract.ghosts_returned]
    exact hreturned _ _ _ _ _ _ hI

/-- An action of the process, as it is recorded. -/
def answered (pid : Nat) (e : Occ Ret) : Occ (ProcAct.Answer Ret) := ⟨.act pid e.1, some e.2⟩

/-- What a process has done when it ends by itself is what its program has done, and the end. -/
theorem history_process {post : Except ε ρ → List (Occ Ret) → Prop} {p : Prog A Ret ε ρ}
    {es : List (Occ Ret)} (h : Contract.history.Obeys post p es) (pid : Nat) :
    Contract.history.Obeys (fun res es' => ∀ x, res = .ok (some x) →
        ∃ es₁, post (.ok x) es₁ ∧ es' = es₁.map (answered pid) ++ [⟨.exit pid, ()⟩])
      (p.process pid) (es.map (answered pid)) := by
  induction p generalizing es with
  | ret r =>
    refine ⟨trivial, fun _ _ x hx => ?_⟩
    cases r with
    | ok y =>
      cases hx
      exact ⟨es, h, rfl⟩
    | error e => cases hx
  | act a k ih =>
    rw [Prog.process, Contract.obeys_act]
    refine ⟨trivial, fun r _ => ?_⟩
    cases r with
    | some x =>
      have hnext : Contract.history.next (es.map (answered pid)) (.act pid a) (some x) =
          (Contract.history.next es a x).map (answered pid) := by
        simp [Contract.history, answered]
      rw [hnext]
      exact ih x (h.2 x trivial)
    | none =>
      intro x hx
      cases hx

/-- What a process that ended by itself has done. -/
theorem history_of_returned {post : O → Except ε ρ → List (Occ Ret) → Prop}
    (hon : ∀ o, Contract.history.Obeys (post o) (prog o) [])
    (h : (H.service prog).Run OwnPid (.initial s₀) c) {i : Nat} {o : Nat × O} {x : ρ}
    (hi : c.log[i]? = some (.returned t o (.ok (some x)))) :
    ∃ es, post o.2 (.ok x) es ∧ occs t (c.log.take i) = es.map (answered t) ++ [⟨.exit t, ()⟩] := by
  obtain ⟨q, -, hq⟩ := h.started_of_returned hi
  obtain ⟨rfl, -⟩ := requestOf_of_started h (List.mem_of_getElem? hq)
  exact h.history_of_returned (fun o => history_process (hon o.2) o.1) hi x rfl

/-- What an action of the log was done with. -/
theorem pre_of_acted (hon : ∀ o, C.Obeys (post o) (prog o) (init o)) (hallow : ∀ g a r, C.allow g a r)
    (h : (H.service prog).Run OwnPid (.initial s₀) c) {i pid : Nat} {a : A} {r : Option (Ret a)}
    (hi : c.log[i]? = some (.acted t (.act pid a) r)) :
    ∃ c₁ g, (H.service prog).Run OwnPid (.initial s₀) c₁ ∧ c₁.log = c.log.take i ∧
      C.ghosts init c₁.log t = some g ∧ C.pre g a ∧ pid = t ∧
      ∀ x, r = some x → ∃ w, (H.run t a w c₁.st).1 = x := by
  obtain ⟨c₁, c₂, hrun, hst, -, hlog⟩ := h.step_of_getElem? hi
  cases hst with
  | @act _ o _ k _ s hlive hst =>
    obtain ⟨hreq, hobeys⟩ := ghost_of_live hon hallow hrun hlive
    obtain ⟨hpid, g, hg, hpre⟩ := (Contract.obeys_act.1 hobeys).1
    rw [ghost_pid] at hpid
    refine ⟨c₁, g, hrun, hlog, (Contract.ghosts_eq hreq).trans hg, hpre, hpid, ?_⟩
    rintro x rfl
    obtain ⟨-, w, hstep⟩ := hst
    obtain rfl : pid = t := hpid
    cases w with
    | some w =>
      cases hstep
      exact ⟨w, rfl⟩
    | none => cases hstep

/-! ### What a process has done before -/

section
variable {P : O → List (Occ Ret) → A → Prop}

/-- What the process needs to have done before an action, its program needing `P`. -/
def Past (P : O → List (Occ Ret) → A → Prop) (o : Nat × O) (es : List (Occ (ProcAct.Answer Ret))) :
    ProcAct A → Prop
  | .act pid a => pid = o.1 ∧ ∃ es₀, P o.2 es₀ a ∧ es = es₀.map (answered pid)
  | .exit _ => True

/-- A program that has done what it needs makes a process that has. -/
theorem past_process {o : O} {p : Prog A Ret ε ρ} {es : List (Occ Ret)}
    (h : (Contract.past P).Obeys (fun _ _ => True) p (o, es)) (pid : Nat) :
    (Contract.past (Past P)).Obeys (fun _ _ => True) (p.process pid) ((pid, o), es.map (answered pid)) := by
  induction p generalizing es with
  | ret r => exact ⟨trivial, fun _ _ => trivial⟩
  | act a k ih =>
    rw [Prog.process, Contract.obeys_act]
    refine ⟨⟨rfl, es, h.1, rfl⟩, fun r _ => ?_⟩
    cases r with
    | some x =>
      have hnext : (Contract.past (Past P)).next ((pid, o), es.map (answered pid)) (.act pid a) (some x) =
          ((pid, o), List.map (answered pid) (es ++ [⟨a, x⟩])) := by
        simp [Contract.past, answered]
      rw [hnext]
      exact ih x (h.2 x trivial)
    | none => trivial

/-- **What a process has done before an action of the log.** -/
theorem past_of_acted (hon : ∀ o, (Contract.past P).Obeys (fun _ _ => True) (prog o) (o, []))
    (h : (H.service prog).Run OwnPid (.initial s₀) c) {i q pid : Nat} {o : O} {a : A} {r : Option (Ret a)}
    (hq : c.log[q]? = some (.started t (t, o))) (hi : c.log[i]? = some (.acted t (.act pid a) r)) :
    ∃ es, P o es a ∧ occs t (c.log.take i) = es.map (answered t) := by
  have hhon : (H.service prog).Honours (Contract.past (Past P)) (fun o => (o, [])) fun _ _ _ => True :=
    fun o => past_process (hon o.2) o.1
  have hpre := h.pre_of_acted hhon (fun _ _ _ _ _ _ _ _ => trivial) hi hq
  rw [Contract.past_ghost] at hpre
  obtain ⟨rfl, es, hes, hoccs⟩ := hpre
  exact ⟨es, hes, hoccs⟩

end

end Host

end

end

end Lib
