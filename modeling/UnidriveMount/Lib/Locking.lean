import UnidriveMount.Lib.Pool
import Mathlib.Logic.Hydra
import Mathlib.Data.Finset.Image

/-!
# Requests that wait for locks

A service whose actions are critical sections: an action is executed while its request has certain
locks, which it takes one after the other (`Locking`). Here the taking of a lock is a step of its own,
so requests wait for each other, and each of them may have taken some of the locks of its next action
while it waits for the rest (`Service.LockRun`). Without these steps a run is a run of the service
(`Service.LockRun.run`), so what holds of all runs of the service holds here.

When every action takes its locks in one order, when programs keep to it (`Locking.contract`), and when
an action that has its locks can be executed, no request waits forever: whatever the scheduler does,
all requests in progress return (`Service.LockRun.allReturn`). That some step is always possible follows
along the order of the locks (`LockSound.advance_of_held`); that the steps come to an end follows from the
programs becoming smaller, one multiset of programs after the other.
-/

namespace Lib

section
variable {A : Type} {Ret : A → Type} {σ ε O ρ L : Type}

/-- Which locks are held while an action is executed, in the order in which they are taken, and which
of them the request keeps for its next action. -/
structure Locking (A L : Type) [LT L] where
  needs : A → List L
  keeps : A → List L
  ascending : ∀ a, (needs a).Pairwise (· < ·)
  keeps_sub : ∀ a, keeps a ⊆ needs a

/-- The contract of a program that takes its locks in order: what it has kept comes first among the
locks of its next action. -/
def Locking.contract [LT L] (K : Locking A L) : Contract A Ret (List L) where
  pre kept a := kept <+: K.needs a
  allow _ _ _ := True
  next _ a _ := K.keeps a

/-- Every program takes its locks in order, and has none in the end. -/
def Service.TakesInOrder [LT L] (S : Service A Ret σ ε O ρ) (K : Locking A L) : Prop :=
  S.Honours K.contract (fun _ => []) fun _ _ kept => kept = []

/-! ## Runs -/

/-- A configuration with the locks that each request has. -/
structure LockConfig (Ret : A → Type) (σ ε O ρ L : Type) where
  conf : Config Ret σ ε O ρ
  held : Nat → List L

/-- One step of a request in progress: it takes the next lock of its next action, if nobody has it; it
executes the action, if it has all its locks; or it returns. -/
inductive Service.Advance [LT L] (S : Service A Ret σ ε O ρ) (K : Locking A L) :
    LockConfig Ret σ ε O ρ L → Option (Event Ret ε O ρ) → LockConfig Ret σ ε O ρ L → Prop where
  | take {c : LockConfig Ret σ ε O ρ L} {t : Nat} {o : O} {a : A} {k : Ret a → Prog A Ret ε ρ} {l : L}
      {rest : List L} (hlive : c.conf.live t = some (o, .act a k))
      (hneeds : K.needs a = c.held t ++ l :: rest) (hfree : ∀ u, l ∉ c.held u) :
      S.Advance K c none ⟨c.conf, Function.update c.held t (c.held t ++ [l])⟩
  | act {c : LockConfig Ret σ ε O ρ L} {t : Nat} {o : O} {a : A} {k : Ret a → Prog A Ret ε ρ} {r : Ret a}
      {s : σ} (hlive : c.conf.live t = some (o, .act a k)) (hall : c.held t = K.needs a)
      (hst : S.machine.Step a c.conf.st r s) :
      S.Advance K c (some (.acted t a r))
        ⟨c.conf.act t o a r (k r) s, Function.update c.held t (K.keeps a)⟩
  | finish {c : LockConfig Ret σ ε O ρ L} {t : Nat} {o : O} {res : Except ε ρ}
      (hlive : c.conf.live t = some (o, .ret res)) :
      S.Advance K c (some (.returned t o res)) ⟨c.conf.finish t o res, c.held⟩

/-- The configurations reachable from the state `s₀`: requests start, and those in progress advance. -/
inductive Service.LockRun [LT L] (S : Service A Ret σ ε O ρ) (K : Locking A L) (s₀ : σ) :
    LockConfig Ret σ ε O ρ L → Prop where
  | initial : S.LockRun K s₀ ⟨.initial s₀, fun _ => []⟩
  | start {c : LockConfig Ret σ ε O ρ L} {t : Nat} {o : O} (h : S.LockRun K s₀ c)
      (hfresh : ∀ e ∈ c.conf.log, e.tid ≠ t) (hlive : c.conf.live t = none) :
      S.LockRun K s₀ ⟨c.conf.start t o (S.prog o), c.held⟩
  | advance {c c' : LockConfig Ret σ ε O ρ L} {e : Option (Event Ret ε O ρ)} (h : S.LockRun K s₀ c)
      (hadv : S.Advance K c e c') : S.LockRun K s₀ c'

/-- However the requests in progress are scheduled, they are never stuck and all of them return. -/
inductive Service.AllReturn [LT L] (S : Service A Ret σ ε O ρ) (K : Locking A L) :
    LockConfig Ret σ ε O ρ L → Prop where
  | intro {c : LockConfig Ret σ ε O ρ L} (hcan : ¬ c.conf.Quiet → ∃ e c', S.Advance K c e c')
      (hall : ∀ e c', S.Advance K c e c' → S.AllReturn K c') : S.AllReturn K c

/-- An action that has its locks can be executed. -/
def Service.Able [LT L] (S : Service A Ret σ ε O ρ) (K : Locking A L) (s₀ : σ) : Prop :=
  ∀ c t o a k, S.LockRun K s₀ c → c.conf.live t = some (o, .act a k) → c.held t = K.needs a →
    ∃ r s, S.machine.Step a c.conf.st r s

section
variable [LT L] {S : Service A Ret σ ε O ρ} {K : Locking A L} {s₀ : σ}
  {c c' : LockConfig Ret σ ε O ρ L} {e : Option (Event Ret ε O ρ)}

/-- A step that is not the taking of a lock is a step of the service. -/
theorem Service.Advance.step (h : S.Advance K c e c') :
    c'.conf = c.conf ∧ e = none ∨ ∃ e', e = some e' ∧ S.Step c.conf e' c'.conf := by
  cases h with
  | take => exact .inl ⟨rfl, rfl⟩
  | act hlive _ hst => exact .inr ⟨_, rfl, .act hlive hst⟩
  | finish hlive => exact .inr ⟨_, rfl, .finish hlive⟩

/-- **A run with locks is a run of the service.** -/
theorem Service.LockRun.run (h : S.LockRun K s₀ c) :
    S.Run (fun _ _ => True) (.initial s₀) c.conf := by
  induction h with
  | initial => exact .refl
  | start _ hfresh hlive ih => exact ih.step (.start hfresh hlive) trivial
  | advance _ hadv ih =>
    rcases hadv.step with ⟨heq, -⟩ | ⟨e, -, hst⟩
    · rw [heq]
      exact ih
    · exact ih.step hst trivial

end

/-! ## Who has which lock -/

/-- What a program has kept, what it has taken for its next action, and what that needs. -/
def Locking.Between [LT L] (K : Locking A L) (kept held : List L) : Prog A Ret ε ρ → Prop
  | .ret _ => kept = [] ∧ held = []
  | .act a _ => kept <+: held ∧ held <+: K.needs a

/-- Every request in progress has some of the locks of its next action, with what it has kept; nobody
else has any lock, and no lock is had twice. -/
structure LockSound [LT L] (K : Locking A L) (c : LockConfig Ret σ ε O ρ L) : Prop where
  idle : ∀ t, c.conf.live t = none → c.held t = []
  between : ∀ t o p, c.conf.live t = some (o, p) →
    K.Between (K.contract.ghost [] t c.conf.log) (c.held t) p
  exclusive : ∀ t u l, l ∈ c.held t → l ∈ c.held u → t = u

namespace LockSound

section
variable [LT L] {S : Service A Ret σ ε O ρ} {K : Locking A L} {s₀ : σ} {c c' : LockConfig Ret σ ε O ρ L}
  {t u : Nat} {o : O}

/-- A program that obeys, and has exactly what it has kept, is between two actions. -/
theorem between_of_obeys {p : Prog A Ret ε ρ} {kept : List L}
    (h : K.contract.Obeys (fun _ kept => kept = []) p kept) : K.Between kept kept p := by
  cases p with
  | ret r => exact ⟨h, h⟩
  | act a k => exact ⟨List.prefix_rfl, h.1⟩

theorem take {a : A} {k : Ret a → Prog A Ret ε ρ} {l : L} {rest : List L} (h : LockSound K c)
    (hlive : c.conf.live t = some (o, .act a k)) (hneeds : K.needs a = c.held t ++ l :: rest)
    (hfree : ∀ u, l ∉ c.held u) :
    LockSound K ⟨c.conf, Function.update c.held t (c.held t ++ [l])⟩ := by
  constructor
  · intro u hu
    have hut : u ≠ t := by
      rintro rfl
      simp [hlive] at hu
    simpa [hut] using h.idle u hu
  · intro u o' p hu
    by_cases hut : u = t
    · subst hut
      cases hlive.symm.trans hu
      obtain ⟨hkept, -⟩ := h.between u o _ hlive
      simp only [Function.update_self]
      refine ⟨hkept.trans (List.prefix_append ..), ?_⟩
      rw [hneeds]
      exact ⟨rest, by simp⟩
    · simpa [hut] using h.between u o' p hu
  · intro u v m hu hv
    have only : ∀ w, m ∈ Function.update c.held t (c.held t ++ [l]) w →
        m ∈ c.held w ∨ w = t ∧ m = l := by
      intro w hw
      by_cases hwt : w = t
      · subst hwt
        simpa using hw
      · simp [hwt] at hw
        exact .inl hw
    rcases only u hu with hu' | ⟨hut, hm⟩
    · rcases only v hv with hv' | ⟨-, hm⟩
      · exact h.exclusive u v m hu' hv'
      · exact absurd (hm ▸ hu') (hfree u)
    · rcases only v hv with hv' | ⟨hvt, -⟩
      · exact absurd (hm ▸ hv') (hfree v)
      · rw [hut, hvt]

theorem act {a : A} {k : Ret a → Prog A Ret ε ρ} {r : Ret a} {s : σ} (h : LockSound K c)
    (hlive : c.conf.live t = some (o, .act a k)) (hall : c.held t = K.needs a)
    (hobeys : K.contract.Obeys (fun _ kept => kept = []) (k r) (K.keeps a)) :
    LockSound K ⟨c.conf.act t o a r (k r) s, Function.update c.held t (K.keeps a)⟩ := by
  constructor
  · intro u hu
    have hut : u ≠ t := by
      rintro rfl
      simp at hu
    simp only [Config.act_live, hut, if_false] at hu
    simpa [hut] using h.idle u hu
  · intro u o' p hu
    by_cases hut : u = t
    · subst hut
      simp only [Config.act_live, if_true] at hu
      cases hu
      simp only [Config.act_log, Contract.ghost_snoc_acted_self, Function.update_self]
      exact between_of_obeys hobeys
    · simp only [Config.act_live, hut, if_false] at hu
      simp only [Config.act_log, Contract.ghost_snoc_acted_ne (Ne.symm hut)]
      simpa [hut] using h.between u o' p hu
  · intro u v m hu hv
    have only : ∀ w, m ∈ Function.update c.held t (K.keeps a) w → m ∈ c.held w := by
      intro w hw
      by_cases hwt : w = t
      · subst hwt
        rw [Function.update_self] at hw
        rw [hall]
        exact K.keeps_sub a hw
      · simpa [hwt] using hw
    exact h.exclusive u v m (only u hu) (only v hv)

theorem finish {res : Except ε ρ} (h : LockSound K c) (hlive : c.conf.live t = some (o, .ret res)) :
    LockSound K ⟨c.conf.finish t o res, c.held⟩ := by
  constructor
  · intro u hu
    by_cases hut : u = t
    · subst hut
      exact (h.between u o _ hlive).2
    · simp only [Config.finish_live, hut, if_false] at hu
      exact h.idle u hu
  · intro u o' p hu
    have hut : u ≠ t := by
      rintro rfl
      simp at hu
    simp only [Config.finish_live, hut, if_false] at hu
    simpa using h.between u o' p hu
  · exact h.exclusive

theorem start (h : LockSound K c) (hfresh : ∀ e ∈ c.conf.log, e.tid ≠ t) (hnone : c.conf.live t = none)
    (hobeys : K.contract.Obeys (fun _ kept => kept = []) (S.prog o) []) :
    LockSound K ⟨c.conf.start t o (S.prog o), c.held⟩ := by
  constructor
  · intro u hu
    have hut : u ≠ t := by
      rintro rfl
      simp at hu
    simp only [Config.start_live, hut, if_false] at hu
    exact h.idle u hu
  · intro u o' p hu
    by_cases hut : u = t
    · subst hut
      simp only [Config.start_live, if_true] at hu
      cases hu
      simp only [Config.start_log, Contract.ghost_snoc_started, Contract.ghost_eq_init hfresh,
        h.idle u hnone]
      exact between_of_obeys hobeys
    · simp only [Config.start_live, hut, if_false] at hu
      simpa using h.between u o' p hu
  · exact h.exclusive

/-- **Every reachable configuration is sound**, when the programs take their locks in order. -/
theorem of_run (hon : S.TakesInOrder K) (h : S.LockRun K s₀ c) : LockSound K c := by
  induction h with
  | initial => exact ⟨fun _ _ => rfl, nofun, nofun⟩
  | @start c t o _ hfresh hlive ih => exact ih.start hfresh hlive (hon o)
  | @advance c c' e hrun hadv ih =>
    cases hadv with
    | take hlive hneeds hfree => exact ih.take hlive hneeds hfree
    | act hlive hall hst =>
      have hobeys := hrun.run.obeys hon (fun _ _ _ _ _ _ _ _ => trivial) hlive
      exact ih.act hlive hall (hobeys.2 _ trivial)
    | finish hlive => exact ih.finish hlive

/-- Who has a lock is about to execute an action that needs it. -/
theorem of_mem (h : LockSound K c) {l : L} (hl : l ∈ c.held t) :
    ∃ o a k, c.conf.live t = some (o, .act a k) ∧ c.held t <+: K.needs a := by
  cases hlive : c.conf.live t with
  | none => simp [h.idle t hlive] at hl
  | some x =>
    obtain ⟨o, p⟩ := x
    have hb := h.between t o p hlive
    cases p with
    | ret r => simp [hb.2] at hl
    | act a k => exact ⟨o, a, k, rfl, hb.2⟩

end

end LockSound

/-! ## The same runs -/

section
variable [Preorder L] {S : Service A Ret σ ε O ρ} {K : Locking A L} {s₀ : σ} {t : Nat} {o : O} {a : A}
  {k : Ret a → Prog A Ret ε ρ}

/-- A request can take all locks of its next action when nobody has those it misses. -/
theorem Service.LockRun.takeAll {missing : List L} : ∀ {c : LockConfig Ret σ ε O ρ L}, S.LockRun K s₀ c →
    c.conf.live t = some (o, .act a k) → K.needs a = c.held t ++ missing →
    (∀ l ∈ missing, ∀ u, l ∉ c.held u) →
    S.LockRun K s₀ ⟨c.conf, Function.update c.held t (K.needs a)⟩ := by
  induction missing with
  | nil =>
    intro c h _ hneeds _
    have hheld : Function.update c.held t (K.needs a) = c.held := by
      rw [hneeds, List.append_nil, Function.update_eq_self]
    rw [hheld]
    exact h
  | cons l missing ih =>
    intro c h hlive hneeds hfree
    have hstep := h.advance (.take hlive hneeds (hfree l (List.mem_cons_self ..)))
    have hasc := K.ascending a
    rw [hneeds, List.pairwise_append, List.pairwise_cons] at hasc
    have hrest := ih hstep hlive (by simp [hneeds]) fun m hm u hu => by
      by_cases hut : u = t
      · subst hut
        simp only [Function.update_self, List.mem_append, List.mem_singleton] at hu
        rcases hu with hu | rfl
        · exact hfree m (List.mem_cons_of_mem _ hm) u hu
        · exact lt_irrefl _ (hasc.2.1.1 m hm)
      · simp only [Function.update_of_ne hut] at hu
        exact hfree m (List.mem_cons_of_mem _ hm) u hu
    simpa using hrest

/-- **The locks take no run away**: when an action that can be executed needs no lock that another
request has kept, every run of the service is one with locks. -/
theorem Service.Run.lockRun (hon : S.TakesInOrder K)
    (hfree : ∀ {d : Config Ret σ ε O ρ} {t u : Nat} {o : O} {a : A} {k : Ret a → Prog A Ret ε ρ} {r : Ret a}
      {s : σ} {l : L}, S.Run (fun _ _ => True) (.initial s₀) d → d.live t = some (o, .act a k) →
      S.machine.Step a d.st r s → l ∈ K.needs a → l ∈ K.contract.ghost [] u d.log → u = t)
    {d : Config Ret σ ε O ρ} (h : S.Run (fun _ _ => True) (.initial s₀) d) :
    S.LockRun K s₀ ⟨d, fun t => K.contract.ghost [] t d.log⟩ := by
  induction h with
  | refl => exact .initial
  | @step d d' e hrun hst _ ih =>
    cases hst with
    | @start t o hfresh hlive =>
      have hghost : (fun u => K.contract.ghost [] u (d.start t o (S.prog o)).log) =
          fun u => K.contract.ghost [] u d.log := by
        funext u
        simp
      rw [hghost]
      exact ih.start hfresh hlive
    | @act t o a k r s hlive hst =>
      have hobeys := hrun.obeys hon (fun _ _ _ _ _ _ _ _ => trivial) hlive
      obtain ⟨missing, hmissing⟩ := hobeys.1
      have hasc := K.ascending a
      rw [← hmissing, List.pairwise_append] at hasc
      have hall := ih.takeAll hlive hmissing.symm fun l hl u hu => by
        have hneeds : l ∈ K.needs a := hmissing ▸ List.mem_append_right _ hl
        obtain rfl := hfree hrun hlive hst hneeds hu
        exact lt_irrefl _ (hasc.2.2 l hu l hl)
      have hact := hall.advance (.act hlive (by simp) hst)
      have hghost : (fun u => K.contract.ghost [] u (d.act t o a r (k r) s).log) =
          Function.update (fun u => K.contract.ghost [] u d.log) t (K.keeps a) := by
        funext u
        by_cases hut : u = t
        · subst hut
          simp [Locking.contract]
        · simp [hut, Contract.ghost_snoc_acted_ne (Ne.symm hut)]
      rw [hghost]
      simpa using hact
    | @finish t o res hlive =>
      have hghost : (fun u => K.contract.ghost [] u (d.finish t o res).log) =
          fun u => K.contract.ghost [] u d.log := by
        funext u
        simp
      rw [hghost]
      exact ih.advance (.finish hlive)

end

/-! ## Some step is possible -/

namespace LockSound

section
variable [LT L] {S : Service A Ret σ ε O ρ} {K : Locking A L} {s₀ : σ} {c : LockConfig Ret σ ε O ρ L}
  {t : Nat} {o : O} {a : A} {k : Ret a → Prog A Ret ε ρ}

/-- A request that has all locks of its next action executes it; one that does not takes the next one,
or that lock is had by somebody. -/
theorem advance_or_waits (hable : S.Able K s₀) (hrun : S.LockRun K s₀ c)
    (hlive : c.conf.live t = some (o, .act a k)) (hheld : c.held t <+: K.needs a) :
    (∃ e c', S.Advance K c e c') ∨ ∃ l rest u, K.needs a = c.held t ++ l :: rest ∧ l ∈ c.held u := by
  obtain ⟨missing, hmissing⟩ := hheld
  cases missing with
  | nil =>
    have hall : c.held t = K.needs a := by simpa using hmissing
    obtain ⟨r, s, hst⟩ := hable c t o a k hrun hlive hall
    exact .inl ⟨_, _, .act hlive hall hst⟩
  | cons l rest =>
    by_cases hfree : ∀ u, l ∉ c.held u
    · exact .inl ⟨_, _, .take hlive hmissing.symm hfree⟩
    · simp only [not_forall, not_not] at hfree
      obtain ⟨u, hu⟩ := hfree
      exact .inr ⟨l, rest, u, hmissing.symm, hu⟩

end

section
variable [LinearOrder L] [WellFoundedGT L] {S : Service A Ret σ ε O ρ} {K : Locking A L} {s₀ : σ}
  {c : LockConfig Ret σ ε O ρ L}

/-- If a lock is had by somebody, some step is possible: who waits for a lock has only lower ones, and
there is no endless ascent. -/
theorem advance_of_held (hsound : LockSound K c) (hable : S.Able K s₀) (hrun : S.LockRun K s₀ c)
    (l : L) : ∀ t, l ∈ c.held t → ∃ e c', S.Advance K c e c' := by
  induction l using WellFoundedGT.induction with
  | ind l ih =>
    intro t hl
    obtain ⟨o, a, k, hlive, hheld⟩ := hsound.of_mem hl
    rcases advance_or_waits hable hrun hlive hheld with hadv | ⟨m, rest, u, hneeds, hu⟩
    · exact hadv
    · have hasc := K.ascending a
      rw [hneeds, List.pairwise_append] at hasc
      exact ih m (hasc.2.2 l hl m (List.mem_cons_self ..)) u hu

/-- **No deadlock**: as long as a request is in progress, some step is possible. -/
theorem advance (hsound : LockSound K c) (hable : S.Able K s₀) (hrun : S.LockRun K s₀ c)
    (hbusy : ¬ c.conf.Quiet) : ∃ e c', S.Advance K c e c' := by
  simp only [Config.Quiet, not_forall] at hbusy
  obtain ⟨t, ht⟩ := hbusy
  obtain ⟨⟨o, p⟩, hlive⟩ := Option.ne_none_iff_exists'.1 ht
  cases p with
  | ret r => exact ⟨_, _, .finish hlive⟩
  | act a k =>
    rcases advance_or_waits hable hrun hlive (hsound.between t o _ hlive).2 with hadv | ⟨l, _, u, -, hu⟩
    · exact hadv
    · exact hsound.advance_of_held hable hrun l u hu

end

end LockSound

/-! ## The steps come to an end -/

/-- What can become of a request in progress by an action, or by its return. -/
inductive Prog.Below : Option (O × Prog A Ret ε ρ) → Option (O × Prog A Ret ε ρ) → Prop where
  | act (o : O) (a : A) (k : Ret a → Prog A Ret ε ρ) (r : Ret a) :
      Below (some (o, k r)) (some (o, .act a k))
  | ret (o : O) (res : Except ε ρ) : Below none (some (o, .ret res))

theorem Prog.below_wf : WellFounded (Prog.Below : Option (O × Prog A Ret ε ρ) → _ → Prop) := by
  have hnone : Acc Prog.Below (none : Option (O × Prog A Ret ε ρ)) := ⟨_, fun _ h => nomatch h⟩
  refine ⟨fun x => ?_⟩
  cases x with
  | none => exact hnone
  | some x =>
    obtain ⟨o, p⟩ := x
    induction p with
    | ret r =>
      refine ⟨_, fun y hy => ?_⟩
      cases hy
      exact hnone
    | act a k ih =>
      refine ⟨_, fun y hy => ?_⟩
      cases hy with
      | act _ _ _ r => exact ih r

section
variable [LT L] {S : Service A Ret σ ε O ρ} {K : Locking A L} {s₀ : σ} {c c' : LockConfig Ret σ ε O ρ L}

/-- How many locks the request has yet to take for its next action. -/
def LockConfig.missing (K : Locking A L) (c : LockConfig Ret σ ε O ρ L) (t : Nat) : Nat :=
  match c.conf.live t with
  | some (_, .act a _) => (K.needs a).length - (c.held t).length
  | _ => 0

/-- What is left of a request: its program, and the locks to take. -/
def LockConfig.left (K : Locking A L) (c : LockConfig Ret σ ε O ρ L) (t : Nat) :
    Option (O × Prog A Ret ε ρ) × Nat := (c.conf.live t, c.missing K t)

/-- A step leaves less of one request, and as much of the others. -/
theorem Service.Advance.left_lt {e : Option (Event Ret ε O ρ)} (h : S.Advance K c e c') :
    ∃ t, c.conf.live t ≠ none ∧ Prod.Lex Prog.Below (· < ·) (c'.left K t) (c.left K t) ∧
      ∀ u, u ≠ t → c'.left K u = c.left K u := by
  cases h with
  | @take t o a k l rest hlive hneeds hfree =>
    refine ⟨t, by simp [hlive], ?_, ?_⟩
    · simp only [LockConfig.left, LockConfig.missing, hlive, Function.update_self]
      refine Prod.Lex.right _ ?_
      simp [hneeds]
      omega
    · intro u hut
      simp [LockConfig.left, LockConfig.missing, hut]
  | @act t o a k r s hlive hall hst =>
    refine ⟨t, by simp [hlive], ?_, ?_⟩
    · simp only [LockConfig.left, Config.act_live, if_true, hlive]
      exact Prod.Lex.left _ _ (.act o a k r)
    · intro u hut
      simp [LockConfig.left, LockConfig.missing, hut]
  | @finish t o res hlive =>
    refine ⟨t, by simp [hlive], ?_, ?_⟩
    · simp only [LockConfig.left, Config.finish_live, if_true, hlive]
      exact Prod.Lex.left _ _ (.ret o res)
    · intro u hut
      simp [LockConfig.left, LockConfig.missing, hut]

/-- What is left of some requests. -/
def LockConfig.leftOf (K : Locking A L) (T : Finset Nat) (c : LockConfig Ret σ ε O ρ L) :
    Multiset (Option (O × Prog A Ret ε ρ) × Nat) := T.val.map (c.left K)

/-- A step makes what is left of the requests smaller, if the requests in progress are among them. -/
theorem Service.Advance.leftOf_lt {e : Option (Event Ret ε O ρ)} (h : S.Advance K c e c')
    {T : Finset Nat} (hT : ∀ t, c.conf.live t ≠ none → t ∈ T) :
    Relation.CutExpand (Prod.Lex Prog.Below (· < ·)) (c'.leftOf K T) (c.leftOf K T) := by
  obtain ⟨t, hlive, hlt, hrest⟩ := h.left_lt
  have hcons : T.val = t ::ₘ T.val.erase t := (Multiset.cons_erase (hT t hlive)).symm
  have hothers : (T.val.erase t).map (c'.left K) = (T.val.erase t).map (c.left K) := by
    refine Multiset.map_congr rfl fun u hu => hrest u ?_
    rintro rfl
    exact Multiset.Nodup.notMem_erase T.nodup hu
  rw [LockConfig.leftOf, LockConfig.leftOf, hcons, Multiset.map_cons, Multiset.map_cons, hothers,
    ← Multiset.singleton_add, ← Multiset.singleton_add]
  exact Relation.cutExpand_single_add hlt _

/-- A step starts no request. -/
theorem Service.Advance.live_sub {e : Option (Event Ret ε O ρ)} (h : S.Advance K c e c') {u : Nat}
    (hu : c'.conf.live u ≠ none) : c.conf.live u ≠ none := by
  cases h with
  | take => exact hu
  | @act t o a k r s hlive =>
    by_cases hut : u = t
    · simp [hut, hlive]
    · simpa [hut] using hu
  | @finish t o res hlive =>
    by_cases hut : u = t
    · simp [hut, hlive]
    · simpa [hut] using hu

/-- When all requests return, the requests in progress can be brought to their ends. -/
theorem Service.AllReturn.quiet (h : S.AllReturn K c) (hrun : S.LockRun K s₀ c) :
    ∃ c', S.LockRun K s₀ c' ∧ c'.conf.Quiet := by
  induction h with
  | @intro c hcan _ ih =>
    by_cases hquiet : c.conf.Quiet
    · exact ⟨c, hrun, hquiet⟩
    · obtain ⟨e, c', hadv⟩ := hcan hquiet
      exact ih e c' hadv (hrun.advance hadv)

end

section
variable [LinearOrder L] [WellFoundedGT L] {S : Service A Ret σ ε O ρ} {K : Locking A L} {s₀ : σ}
  {c c' : LockConfig Ret σ ε O ρ L}

/-- **All requests return**: from every reachable configuration, and whatever the scheduler does, the
requests in progress are never stuck, and after finitely many steps none is left. -/
theorem Service.LockRun.allReturn (hon : S.TakesInOrder K) (hable : S.Able K s₀)
    (h : S.LockRun K s₀ c) : S.AllReturn K c := by
  obtain ⟨T, hT⟩ : ∃ T : Finset Nat, ∀ t, c.conf.live t ≠ none → t ∈ T := by
    refine ⟨(c.conf.log.map Event.tid).toFinset, fun t ht => ?_⟩
    obtain ⟨⟨o, p⟩, hlive⟩ := Option.ne_none_iff_exists'.1 ht
    obtain ⟨i, hi⟩ := h.run.started_of_live hlive
    exact List.mem_toFinset.2 (List.mem_map.2 ⟨_, List.mem_of_getElem? hi, rfl⟩)
  have hbelow : WellFounded (Prog.Below : Option (O × Prog A Ret ε ρ) → _ → Prop) := Prog.below_wf
  have hwf := (hbelow.prod_lex Nat.lt_wfRel.wf).cutExpand
  generalize hm : c.leftOf K T = m
  induction m using hwf.induction generalizing c with
  | _ m ih =>
    refine .intro ((LockSound.of_run hon h).advance hable h) fun e c' hadv => ?_
    refine ih _ ?_ (h.advance hadv) (fun t ht => hT t (hadv.live_sub ht)) rfl
    rw [← hm]
    exact hadv.leftOf_lt hT

end

end

end Lib
