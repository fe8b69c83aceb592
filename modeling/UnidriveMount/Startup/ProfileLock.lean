import UnidriveMount.Startup.Run
import UnidriveMount.Ipc.Attempts

/-!
# One mount for each profile

A process that was given a lock file does what needs it only while it has the file locked (`GuardsLock`): it
replays the uploads, mounts and waits between the `flock` that succeeds and the end of `run_async`. The
host's lock table agrees with what the processes have done (`LockTable`), also when they are killed. So
what the lock is there for is done by one process at a time (`profile_lock_exclusive`), only under the lock
(`profile_lock_guards`), and a process that ends by itself has given the lock back
(`profile_lock_given_back`). The subscription goes on after that, up to the end of the runtime; it sends no
verb.
-/

namespace UnidriveMount

open Lib
open Lib.Prog (only_perform)

/-! ## What is done under the lock -/

/-- The actions for which the lock is there: the requests of the recovery, and the mount. -/
def RunAct.Guarded : RunAct → Prop
  | net a => ¬ a.Connects
  | readCache _ | mount _ | signal _ | stopReason | unmount => True
  | print _ | eprint _ | osrelease | geteuid | buildRuntime | openFile _ | flock _ | closeFile _ | spawn
  | view _ | turn => False

/-- The action has nothing to do with the lock file. -/
def RunAct.SparesLock : RunAct → Prop
  | openFile _ | flock _ | closeFile _ => False
  | _ => True

/-- What a process may still do when it has given its lock back: report its error, and what happens aside. -/
def RunAct.Lingers : RunAct → Prop
  | eprint _ => True
  | a => a.Aside

/-- How far a process is with its lock: it was given none, it was given a path, the file is open, the file
is locked, it is unlocked again. -/
inductive LockPhase : Type where
  | free
  | unlocked (path : Str)
  | opened (path : Str) (file : Nat)
  | holding (path : Str) (file : Nat)
  | released
  deriving DecidableEq, Repr

/-- In this phase the process may do what the lock is there for. -/
def LockPhase.Serves : LockPhase → Prop
  | free | holding .. => True
  | unlocked _ | opened .. | released => False

/-- In this phase the process has no file locked. -/
def LockPhase.Unheld : LockPhase → Prop
  | holding .. => False
  | free | unlocked _ | opened .. | released => True

/-- The phase in which a process that was asked for this begins. -/
def Cli.lockPhase (cli : Cli) : LockPhase :=
  match cli.lock with
  | some path => .unlocked path
  | none => .free

/-- The phase in which a process begins. -/
def Launch.lockPhase (build : Build) (o : Launch) : LockPhase :=
  match parseArgs build o.environment o.argv with
  | .ok cli => cli.lockPhase
  | .error _ => .free

/-- The phase after an action. -/
def LockPhase.next : LockPhase → (a : RunAct) → a.Ret → LockPhase
  | unlocked path, .openFile _, .ok file => opened path file
  | opened path _, .flock file, .ok () => holding path file
  | holding .., .closeFile _, _ => released
  | g, _, _ => g

/-- What a process does in which phase. -/
def GuardsLock : Contract RunAct RunAct.Ret LockPhase where
  pre g a :=
    match g, a with
    | _, .turn => True
    | _, .view a => a.SendsNoVerb
    | .released, .eprint _ => True
    | .released, _ => False
    | g, .openFile path => g = .unlocked path
    | g, .flock file => ∃ path, g = .opened path file
    | g, .closeFile file => ∃ path, g = .holding path file
    | g, a => a.Guarded → g.Serves
  allow _ _ _ := True
  next := LockPhase.next

section
variable {g : LockPhase} {a : RunAct}

theorem next_of_sparesLock (ha : a.SparesLock) (r : a.Ret) : g.next a r = g := by
  cases a <;> first | exact ha.elim | (cases g <;> rfl)

/-- An action that the lock is not there for. -/
theorem pre_of_not_guarded (ha : a.SparesLock) (hown : a.own = true) (hguarded : ¬ a.Guarded)
    (hg : g ≠ .released) : GuardsLock.pre g a := by
  cases g <;> cases a <;>
    first
    | exact absurd rfl hg
    | exact ha.elim
    | exact absurd hown Bool.false_ne_true
    | exact fun h => absurd h hguarded

theorem pre_of_serves (ha : a.Works) (hg : g.Serves) : GuardsLock.pre g a := by
  cases g <;> cases a <;> first | exact hg.elim | exact ha.elim | exact fun _ => trivial

theorem pre_of_aside (ha : a.Aside) : GuardsLock.pre g a := by
  cases g <;> cases a <;> first | exact ha | exact ha.elim

theorem RunAct.Works.sparesLock (ha : a.Works) : a.SparesLock := by
  cases a <;> first | exact ha.elim | trivial

theorem RunAct.Aside.sparesLock (ha : a.Aside) : a.SparesLock := by
  cases a <;> first | exact ha.elim | trivial

theorem lingers_of_pre (h : GuardsLock.pre .released a) : a.Lingers := by
  cases a <;> first | exact h.elim | exact h

theorem pre_openFile {path : Str} (h : GuardsLock.pre g (.openFile path)) : g = .unlocked path := by
  cases g <;> first | exact h | exact h.elim

theorem pre_flock {file : Nat} (h : GuardsLock.pre g (.flock file)) : ∃ path, g = .opened path file := by
  cases g <;> first | exact h | exact h.elim

theorem pre_closeFile {file : Nat} (h : GuardsLock.pre g (.closeFile file)) :
    ∃ path, g = .holding path file := by
  cases g <;> first | exact h | exact h.elim

/-- What the lock is there for is done in a phase in which it may be done. -/
theorem serves_of_pre (h : GuardsLock.pre g a) (ha : a.Guarded) : g.Serves := by
  cases g <;> cases a <;> first | exact ha.elim | exact h.elim | exact h ha

theorem pre_eprint (g : LockPhase) (line : ErrorLine) : GuardsLock.pre g (.eprint line) := by
  cases g <;> first | trivial | exact fun h => h.elim

end

/-! ## The program -/

theorem awaitListener_connects (env : NetEnv) (auth : IpcAuth) (interval budget start n : Nat) :
    (awaitListener env auth interval budget start n).Only NetAct.Connects := by
  induction n with
  | zero => trivial
  | succ n ih =>
    refine .onResult (openConn_connects ⟨env, some auth, interval, budget⟩) fun r => ?_
    split
    · next kind =>
      split
      · refine .bind (only_perform trivial) fun time => ?_
        split
        · exact .bind (only_perform trivial) fun _ => ih
        · trivial
      · trivial
    · trivial

theorem connectAuthAtStartup_connects (env : NetEnv) (auth : IpcAuth) (interval budget : Nat) :
    (connectAuthAtStartup env auth interval budget).Only NetAct.Connects :=
  .bind (only_perform trivial) fun start => awaitListener_connects env auth interval budget start env.fuel

section
variable {ε α β : Type} {P : RunAct → Prop}

/-- A program of the client that only connects, in a phase in which that may be done. -/
theorem onClient_obeys {g : LockPhase} {post : Except ε β → LockPhase → Prop}
    {f : Except Stop α → RunProg ε β} {p : NetProg α} (hp : p.Only NetAct.Connects) (hg : g ≠ .released)
    (hf : ∀ r, GuardsLock.Obeys post (f r) g) : GuardsLock.Obeys post (onClient f p) g := by
  refine obeys_onClient_of_inv (J := fun g' => g' = g) hp rfl ?_ ?_ ?_
  · rintro _ a rfl ha
    exact pre_of_not_guarded trivial rfl (fun h => h ha) hg
  · rintro _ a r rfl -
    exact next_of_sparesLock (a := .net a) trivial r
  · rintro r _ rfl
    exact hf r

end

/-- The work of a process, while it may serve. -/
theorem obeys_of_serves {ε α : Type} {g : LockPhase} {p : RunProg ε α} (hp : p.Only RunAct.Works)
    (hg : g.Serves) : GuardsLock.Obeys (fun _ g' => g' = g) p g :=
  Contract.obeys_of_only hp (fun _ ha => pre_of_serves ha hg)
    (fun _ r ha => next_of_sparesLock ha.sparesLock r) fun _ => rfl

theorem Cli.lockPhase_ne_released (cli : Cli) : cli.lockPhase ≠ .released := by
  unfold Cli.lockPhase
  split <;> nofun

theorem Cli.lockPhase_unheld (cli : Cli) : cli.lockPhase.Unheld := by
  unfold Cli.lockPhase
  split <;> trivial

/-- `run_async` has given the lock back at its end. -/
theorem runAsync_obeys (env : NetEnv) (cli : Cli) :
    GuardsLock.Obeys (fun _ g => g.Unheld) (runAsync env cli) cli.lockPhase := by
  refine onClient_obeys (connectAuthAtStartup_connects ..) cli.lockPhase_ne_released fun r => ?_
  split
  · next conn =>
    rw [Cli.lockPhase]
    cases hlock : cli.lock with
    | none =>
      refine (obeys_of_serves (g := .free) (recoverAndMount_works env cli conn) trivial).mono ?_
      rintro _ _ rfl
      trivial
    | some path =>
      refine Contract.obeys_bind.2 ?_
      refine Contract.obeys_perform_bind.2 ⟨rfl, fun r _ => ?_⟩
      cases r with
      | error kind => trivial
      | ok file =>
        refine Contract.obeys_perform_bind.2 ⟨⟨path, rfl⟩, fun r _ => ?_⟩
        match r with
        | .error .wouldBlock | .error (.other kind) => trivial
        | .ok () =>
          refine Contract.obeys_onResult.2 ?_
          refine (obeys_of_serves (g := .holding path file) (recoverAndMount_works env cli conn)
            trivial).mono ?_
          rintro res g rfl
          exact ⟨⟨path, rfl⟩, fun _ _ => trivial⟩
  · exact cli.lockPhase_unheld
  · exact cli.lockPhase_unheld

theorem exitWith_obeys (line : ErrorLine) (code : Nat) {g : LockPhase} (hg : g.Unheld) :
    GuardsLock.Obeys (fun _ g => g.Unheld) (exitWith line code) g := by
  refine Contract.obeys_perform_bind.2 ⟨pre_eprint g line, fun r _ => ?_⟩
  have hnext : GuardsLock.next g (.eprint line) r = g := next_of_sparesLock (a := .eprint line) trivial r
  rw [hnext]
  exact hg

theorem mainTask_obeys (env : NetEnv) (cli : Cli) :
    GuardsLock.Obeys (fun _ g => g.Unheld) (mainTask env cli) cli.lockPhase := by
  refine Contract.obeys_onResult.2 ((runAsync_obeys env cli).mono fun res g hg => ?_)
  split
  · exact hg
  · exact hg
  · exact exitWith_obeys _ _ hg

/-- Every process guards its lock. -/
theorem runWithArgv_obeys (build : Build) (env : NetEnv) (o : Launch) :
    GuardsLock.Obeys (fun _ g => g.Unheld) (runWithArgv build env o) (o.lockPhase build) := by
  unfold runWithArgv Launch.lockPhase
  cases parseArgs build o.environment o.argv with
  | error e =>
    cases e with
    | usage msg => exact exitWith_obeys _ _ trivial
    | help msg | version msg => exact ⟨fun h => h.elim, fun _ _ => trivial⟩
  | ok cli =>
    have hearly : ∀ {a : RunAct}, a.SparesLock → a.own = true → ¬ a.Guarded →
        GuardsLock.pre cli.lockPhase a :=
      fun ha hown hguarded => pre_of_not_guarded ha hown hguarded cli.lockPhase_ne_released
    have hnext : ∀ {a : RunAct} (r : a.Ret), a.SparesLock → GuardsLock.next cli.lockPhase a r = cli.lockPhase :=
      fun r ha => next_of_sparesLock ha r
    refine Contract.obeys_perform_bind.2 ⟨hearly trivial rfl id, fun r _ => ?_⟩
    rw [hnext r trivial]
    split
    · exact exitWith_obeys _ _ cli.lockPhase_unheld
    refine Contract.obeys_perform_bind.2 ⟨hearly trivial rfl id, fun r _ => ?_⟩
    rw [hnext r trivial]
    split
    · exact exitWith_obeys _ _ cli.lockPhase_unheld
    refine Contract.obeys_perform_bind.2 ⟨hearly trivial rfl id, fun r _ => ?_⟩
    rw [hnext r trivial]
    split
    · exact exitWith_obeys _ _ cli.lockPhase_unheld
    exact obeys_blockOn_of_aside (mainTask_obeys env cli) (fun _ _ _ => trivial) fun g a ha =>
      ⟨pre_of_aside ha, fun r => next_of_sparesLock ha.sparesLock r⟩

/-! ## The lock table -/

/-- What happens to the processes. -/
abbrev RunEvent := Event (ProcAct.Answer RunAct.Ret) Unit (Nat × Launch) (Option Nat)

/-- The process opens a lock file. -/
def openedBy (t : Nat) (path : Str) (file : Nat) : RunEvent :=
  .acted t (.act t (.openFile path)) (some (.ok file))

/-- The process locks a file. -/
def lockedBy (t file : Nat) : RunEvent := .acted t (.act t (.flock file)) (some (.ok ()))

/-- A process that was given a path is in this phase, by what is in the log. -/
inductive LockPhase.Since (t : Nat) (path : Str) (l : List RunEvent) : LockPhase → Prop where
  | unlocked : Since t path l (.unlocked path)
  | opened {file : Nat} (h : openedBy t path file ∈ l) : Since t path l (.opened path file)
  | holding {file i j : Nat} (hi : l[i]? = some (openedBy t path file))
      (hj : l[j]? = some (lockedBy t file)) (hij : i < j) : Since t path l (.holding path file)
  | released : Since t path l .released

/-- The table of the locked files, the phases of the processes and the log agree. -/
structure LockTable (build : Build) (s : HostState) (γ : Nat → Option LockPhase) (l : List RunEvent) :
    Prop where
  holder : ∀ {file t : Nat}, s.holders file = some t ↔ ∃ path, γ t = some (.holding path file)
  -- who has locked a file holds it, or has unlocked it, or is gone
  locked : ∀ {file t : Nat}, lockedBy t file ∈ l →
    (∃ path, γ t = some (.holding path file)) ∨ γ t = some .released ∨ γ t = none
  -- and does not hold it any more when it has been locked again
  order : ∀ {file t u i j : Nat}, l[i]? = some (lockedBy t file) → l[j]? = some (lockedBy u file) →
    i < j → γ t = some .released ∨ γ t = none
  since : ∀ {t : Nat} {o : Launch} {path : Str} {g : LockPhase}, .started t (t, o) ∈ l →
    o.lockPhase build = .unlocked path → γ t = some g → g.Since t path l

theorem LockPhase.Since.snoc {t : Nat} {path : Str} {l : List RunEvent} {g : LockPhase}
    (h : g.Since t path l) (e : RunEvent) : g.Since t path (l ++ [e]) := by
  cases h with
  | unlocked => exact .unlocked
  | opened h => exact .opened (List.mem_append_left _ h)
  | holding hi hj hij => exact .holding (getElem?_snoc e hi) (getElem?_snoc e hj) hij
  | released => exact .released

theorem Launch.lockPhase_cases (build : Build) (o : Launch) :
    o.lockPhase build = .free ∨ ∃ path, o.lockPhase build = .unlocked path := by
  unfold Launch.lockPhase Cli.lockPhase
  split
  · split
    · exact .inr ⟨_, rfl⟩
    · exact .inl rfl
  · exact .inl rfl

namespace LockTable

variable {build : Build} {s s' : HostState} {γ γ' : Nat → Option LockPhase} {l : List RunEvent}
  {e : RunEvent} {t : Nat} {path : Str} {file : Nat}

/-- A process that is not yet so far has locked nothing. -/
theorem not_locked (h : LockTable build s γ l) {g : LockPhase} (hg : γ t = some g)
    (hholding : ∀ path file, g ≠ .holding path file) (hreleased : g ≠ .released) : lockedBy t file ∉ l := by
  intro hmem
  rcases h.locked hmem with ⟨path, hheld⟩ | hheld | hheld
  · cases hg.symm.trans hheld
    exact hholding _ _ rfl
  · cases hg.symm.trans hheld
    exact hreleased rfl
  · cases hg.symm.trans hheld

/-- A step in which no file is locked. A process that had locked one stays as it is, or unlocks it, or is
gone. -/
theorem step (h : LockTable build s γ l) (he : ∀ t file, e ≠ lockedBy t file)
    (hholder : ∀ file t, s'.holders file = some t ↔ ∃ path, γ' t = some (.holding path file))
    (hlater : ∀ t file, lockedBy t file ∈ l → γ' t = γ t ∨ γ' t = some .released ∨ γ' t = none)
    (hsince : ∀ t o path g, .started t (t, o) ∈ l ++ [e] → o.lockPhase build = .unlocked path →
      γ' t = some g → g.Since t path (l ++ [e])) : LockTable build s' γ' (l ++ [e]) where
  holder := hholder _ _
  locked {file t} hmem := by
    rcases List.mem_append.1 hmem with hmem | hmem
    · rcases hlater _ _ hmem with heq | hreleased
      · rw [heq]
        exact h.locked hmem
      · exact .inr hreleased
    · exact absurd (List.mem_singleton.1 hmem).symm (he _ _)
  order {file t u i j} hi hj hij := by
    rcases getElem?_snoc_iff.1 hj with hj | ⟨-, hj⟩
    · rcases getElem?_snoc_iff.1 hi with hi | ⟨-, hi⟩
      · rcases hlater _ _ (List.mem_of_getElem? hi) with heq | hreleased
        · rw [heq]
          exact h.order hi hj hij
        · exact hreleased
      · exact absurd hi.symm (he _ _)
    · exact absurd hj.symm (he _ _)
  since := hsince _ _ _ _

/-- A step that changes nothing of it. -/
theorem idle (h : LockTable build s γ l) (he : ∀ t file, e ≠ lockedBy t file)
    (hstart : ∀ t o, e ≠ .started t o) (hs : s'.holders = s.holders) : LockTable build s' γ (l ++ [e]) := by
  refine h.step he (fun file t => ?_) (fun _ _ _ => .inl rfl) fun t o path g hmem hpath hg => ?_
  · rw [hs]
    exact h.holder
  · rcases List.mem_append.1 hmem with hmem | hmem
    · exact (h.since hmem hpath hg).snoc e
    · exact absurd (List.mem_singleton.1 hmem).symm (hstart _ _)

theorem start (h : LockTable build s γ l) (hfresh : ∀ e ∈ l, e.tid ≠ t) (hnone : γ t = none) (o : Launch) :
    LockTable build s (Function.update γ t (some (o.lockPhase build))) (l ++ [.started t (t, o)]) := by
  refine h.step nofun (fun file u => ?_) (fun u file hmem => ?_) fun u o' path g hmem hpath hg => ?_
  · rw [h.holder, Function.update_apply]
    split
    · next hu =>
      subst hu
      rcases o.lockPhase_cases build with hphase | ⟨path, hphase⟩ <;> simp [hnone, hphase]
    · rfl
  · have hu : u ≠ t := hfresh _ hmem
    exact .inl (Function.update_of_ne hu ..)
  · rcases List.mem_append.1 hmem with hmem | hmem
    · have hu : u ≠ t := hfresh _ hmem
      rw [Function.update_of_ne hu] at hg
      exact (h.since hmem hpath hg).snoc _
    · cases List.mem_singleton.1 hmem
      rw [Function.update_self, hpath] at hg
      cases hg
      exact .unlocked

theorem gone (h : LockTable build s γ l) (he : Gone t e) :
    LockTable build (s.reap t) (Function.update γ t none) (l ++ [e]) := by
  have hlocked : ∀ u file, e ≠ lockedBy u file := by
    rintro u file rfl
    exact not_gone_answered _ _ _ _ he
  have hstarted : ∀ u o, e ≠ .started u o := by
    rintro u o rfl
    exact not_gone_started _ _ _ he
  refine h.step hlocked (fun file u => ?_) (fun u file _ => ?_) fun u o path g hmem hpath hg => ?_
  · simp only [HostState.reap, Function.update_apply]
    split
    · next hheld =>
      split
      · simp
      · next hu =>
        constructor
        · nofun
        · intro hg
          cases hheld.symm.trans (h.holder.2 hg)
          exact absurd rfl hu
    · next hheld =>
      split
      · next hu =>
        subst hu
        simp [hheld]
      · exact h.holder
  · rw [Function.update_apply]
    split
    · exact .inr (.inr rfl)
    · exact .inl rfl
  · rw [Function.update_apply] at hg
    split at hg
    · cases hg
    · rcases List.mem_append.1 hmem with hmem | hmem
      · exact (h.since hmem hpath hg).snoc e
      · exact absurd (List.mem_singleton.1 hmem).symm (hstarted _ _)

theorem openFile (h : LockTable build s γ l) (hg : γ t = some (.unlocked path))
    (r : Except IoErrorKind Nat) :
    LockTable build s (Function.update γ t (some ((LockPhase.unlocked path).next (.openFile path) r)))
      (l ++ [.acted t (.act t (.openFile path)) (some r)]) := by
  have hnot : ∀ file, lockedBy t file ∉ l := fun file => h.not_locked hg nofun nofun
  cases r with
  | error kind =>
    have hsame : Function.update γ t (some (.unlocked path)) = γ := by rw [← hg, Function.update_eq_self]
    exact hsame.symm ▸ h.idle nofun nofun rfl
  | ok file =>
    refine h.step nofun (fun file' u => ?_) (fun u file' hmem => ?_) fun u o path' g hmem hpath hg' => ?_
    · rw [h.holder, Function.update_apply]
      split
      · next hu =>
        subst hu
        simp [hg, LockPhase.next]
      · rfl
    · left
      rw [Function.update_of_ne]
      rintro rfl
      exact hnot _ hmem
    · rcases List.mem_append.1 hmem with hold | hnew
      · rw [Function.update_apply] at hg'
        split at hg'
        · next hu =>
          subst hu
          cases hg'
          cases h.since hold hpath hg
          exact .opened (List.mem_append_right _ (List.mem_singleton_self _))
        · exact (h.since hold hpath hg').snoc _
      · cases List.mem_singleton.1 hnew

theorem closeFile (h : LockTable build s γ l) (hg : γ t = some (.holding path file)) :
    LockTable build (s.close t file) (Function.update γ t (some .released))
      (l ++ [.acted t (.act t (.closeFile file)) (some ())]) := by
  have hheld : s.holders file = some t := h.holder.2 ⟨path, hg⟩
  refine h.step nofun (fun file' u => ?_) (fun u file' _ => ?_) fun u o path' g hmem hpath hg' => ?_
  · rw [HostState.close, if_pos hheld]
    simp only [Function.update_apply]
    split
    · next hfile =>
      subst hfile
      split
      · simp
      · next hu =>
        constructor
        · nofun
        · intro hg'
          cases hheld.symm.trans (h.holder.2 hg')
          exact absurd rfl hu
    · next hfile =>
      split
      · next hu =>
        subst hu
        rw [h.holder, hg]
        simp [Ne.symm hfile]
      · exact h.holder
  · rw [Function.update_apply]
    split
    · exact .inr (.inl rfl)
    · exact .inl rfl
  · rcases List.mem_append.1 hmem with hmem | hmem
    · rw [Function.update_apply] at hg'
      split at hg'
      · cases hg'
        exact .released
      · exact (h.since hmem hpath hg').snoc _
    · cases List.mem_singleton.1 hmem

theorem flock (h : LockTable build s γ l) (hg : γ t = some (.opened path file)) (w : RunWorld) :
    LockTable build (s.flock t file w).2
      (Function.update γ t (some ((LockPhase.opened path file).next (.flock file) (s.flock t file w).1)))
      (l ++ [.acted t (.act t (.flock file)) (some (s.flock t file w).1)]) := by
  have hnot : ∀ file, lockedBy t file ∉ l := fun file => h.not_locked hg nofun nofun
  have hfails : ∀ e, LockTable build s
      (Function.update γ t (some ((LockPhase.opened path file).next (.flock file) (.error e))))
      (l ++ [.acted t (.act t (.flock file)) (some (.error e))]) := by
    intro e
    have hsame : Function.update γ t (some (.opened path file)) = γ := by rw [← hg, Function.update_eq_self]
    exact hsame.symm ▸ h.idle nofun nofun rfl
  unfold HostState.flock
  cases hfree : s.holders file with
  | some u => exact hfails .wouldBlock
  | none =>
    cases w.flock with
    | error e => exact hfails e
    | ok =>
      have hother : ∀ {u : Nat}, ¬ ∃ path, γ u = some (.holding path file) := by
        intro u hu
        cases hfree.symm.trans (h.holder.2 hu)
      have hne : ∀ {u file' : Nat}, lockedBy u file' ∈ l → u ≠ t := by
        rintro u file' hmem rfl
        exact hnot _ hmem
      constructor
      · intro file' u
        simp only [Function.update_apply, LockPhase.next]
        by_cases hu : u = t <;> by_cases hfile : file' = file
        · simp [hu, hfile]
        · subst hu
          simp [hfile, Ne.symm hfile, h.holder, hg]
        · subst hfile
          simpa [hu, Ne.symm hu] using hother
        · simpa [hu, hfile] using h.holder
      · intro file' u hmem
        rcases List.mem_append.1 hmem with hmem | hmem
        · rw [Function.update_of_ne (hne hmem)]
          exact h.locked hmem
        · cases List.mem_singleton.1 hmem
          exact .inl ⟨path, Function.update_self ..⟩
      · intro file' u v i j hi hj hij
        rcases getElem?_snoc_iff.1 hi with hi | ⟨rfl, -⟩
        · have hmem := List.mem_of_getElem? hi
          rw [Function.update_of_ne (hne hmem)]
          rcases getElem?_snoc_iff.1 hj with hj | ⟨-, hj⟩
          · exact h.order hi hj hij
          · cases hj
            exact (h.locked hmem).resolve_left hother
        · have hlt := getElem?_lt hj
          rw [List.length_append, List.length_singleton] at hlt
          omega
      · intro u o path' g hmem hpath hg'
        rcases List.mem_append.1 hmem with hold | hnew
        · rw [Function.update_apply] at hg'
          split at hg'
          · next hu =>
            subst hu
            cases hg'
            cases h.since hold hpath hg with
            | opened hopened =>
              obtain ⟨i, hi⟩ := List.mem_iff_getElem?.1 hopened
              exact .holding (getElem?_snoc _ hi) (getElem?_snoc_self ..) (getElem?_lt hi)
          · exact (h.since hold hpath hg').snoc _
        · cases List.mem_singleton.1 hnew

end LockTable

/-! ## Runs -/

theorem run_holders {serde : Serde} {daemon : Daemon} {t : Nat} {a : RunAct} (ha : a.SparesLock)
    (w : RunWorld) (s : HostState) : (a.run serde daemon t w s).2.holders = s.holders := by
  cases a <;> first | exact ha.elim | rfl

section
variable {build : Build} {env : NetEnv} {daemon : Daemon}
  {c : Config (ProcAct.Answer RunAct.Ret) HostState Unit (Nat × Launch) (Option Nat)}

/-- The lock table is right in every run. -/
theorem lockTable_of_run (h : (mountProcesses build env daemon).Run OwnPid (.initial .new) c) :
    LockTable build c.st (GuardsLock.ghosts (Launch.lockPhase build) c.log) c.log := by
  refine Host.invariant (runWithArgv_obeys build env) (fun _ _ _ => trivial) ?_ ?_ ?_ ?_ ?_ h
  · exact ⟨by simp [HostState.new], nofun, nofun, nofun⟩
  · exact fun s γ l t o h hfresh hnone => h.start hfresh hnone o
  · intro s γ l t g a w h hg hpre
    by_cases ha : a.SparesLock
    · have hsame : Function.update γ t (some (GuardsLock.next g a (a.run env.serde daemon t w s).1)) = γ := by
        rw [show GuardsLock.next g a _ = g from next_of_sparesLock ha _, ← hg, Function.update_eq_self]
      have hlocked : ∀ u file, (.acted t (.act t a) (some (a.run env.serde daemon t w s).1) : RunEvent) ≠
          lockedBy u file := by
        cases a <;> first | exact ha.elim | nofun
      exact hsame.symm ▸ h.idle hlocked nofun (run_holders ha w s)
    · cases a with
      | openFile path =>
        obtain rfl := pre_openFile hpre
        exact h.openFile hg w.openFile
      | flock file =>
        obtain ⟨path, rfl⟩ := pre_flock hpre
        exact h.flock hg w
      | closeFile file =>
        obtain ⟨path, rfl⟩ := pre_closeFile hpre
        exact h.closeFile hg
      | _ => exact absurd trivial ha
  · exact fun s γ l t g e h _ he => h.gone he
  · exact fun s γ l t o res h => h.idle nofun nofun rfl

end

/-! ## A run -/

/-- A mount with a lock file and a token. -/
def Launch.sample : Launch where
  argv := ["unidrive-mount".toList, "--mount".toList, "/m".toList, "--ipc".toList, "/s".toList,
    "--cache".toList, "/r".toList, "--lock".toList, "/l".toList, "--ipc-token-file".toList, "/t".toList,
    "--profile".toList, "p1".toList]
  environment := ⟨none, none⟩

/-- A release. -/
def Build.sample : Build := ⟨"1.0.0".toList, [], false, true⟩

/-- A cache folder with a file that was modified before the daemon's last upload of it, and one that was
modified after that. -/
def CacheRoot.sample : CacheRoot where
  path := [.ofStr ['r']]
  readable := true
  entries := [(.ofStr ['a'], .file true (some 4000000)), (.ofStr ['b'], .file true (some 6000000))]
  distinct := by
    refine .dir (by decide) fun e he => ?_
    rcases List.mem_pair.1 he with rfl | rfl <;> exact .file

/-- An outside in which everything succeeds. The task goes on only when it is told to. -/
def RunWorld.sample (turn : Bool) : RunWorld where
  net := .vector
  osrelease := some "6.9.0".toList
  euid := 1000
  runtime := .ok ()
  openFile := .ok 7
  flock := .ok ()
  cache := some .sample
  mount := .ok ()
  signal := .ok ()
  stopReason := .signal
  unmount := .ok ()
  turn := turn

/-- A process mounts, is told to stop, and gives its lock back. Then a second one does what the first did,
and the subscription of the first goes on before that ends. -/
def twoMounts : List (Move (Option RunWorld) (Nat × Launch)) :=
  [.start 0 (0, .sample)] ++ List.replicate 63 (.act 0 (some (.sample false))) ++
    [.start 1 (1, .sample)] ++ List.replicate 53 (.act 1 (some (.sample false))) ++
    List.replicate 2 (.act 0 (some (.sample true))) ++ List.replicate 2 (.act 0 (some (.sample false))) ++
    [.finish 0]

/-- What the entry launches. -/
def RunEvent.launched : RunEvent → Option (Nat × Nat × Launch)
  | .started t o => some (t, o)
  | _ => none

/-- What the entry locks. -/
def RunEvent.locked : RunEvent → Option (Nat × Nat)
  | .acted t (.act u (.flock file)) (some (.ok ())) => if t = u then some (t, file) else none
  | _ => none

/-- What the entry mounts. -/
def RunEvent.mounted : RunEvent → Option (Nat × Str)
  | .acted t (.act u (.mount path)) (some (.ok ())) => if t = u then some (t, path) else none
  | _ => none

/-- What the entry does for the subscription. -/
def RunEvent.viewed : RunEvent → Option (Nat × NetAct)
  | .acted t (.act u (.view a)) (some _) => if t = u then some (t, a) else none
  | _ => none

/-- The exit code of the entry. -/
def RunEvent.exited : RunEvent → Option (Nat × (Nat × Launch) × Nat)
  | .returned t o (.ok (some code)) => some (t, o, code)
  | _ => none

theorem RunEvent.eq_of_locked {e : RunEvent} {t file : Nat} (h : e.locked = some (t, file)) :
    e = lockedBy t file := by
  unfold RunEvent.locked at h
  split at h
  · split at h <;> cases h
    next hu =>
    subst hu
    rfl
  · cases h

theorem RunEvent.eq_of_launched {e : RunEvent} {t : Nat} {o : Nat × Launch}
    (h : e.launched = some (t, o)) : e = .started t o := by
  unfold RunEvent.launched at h
  split at h <;> cases h
  rfl

theorem RunEvent.eq_of_mounted {e : RunEvent} {t : Nat} {path : Str} (h : e.mounted = some (t, path)) :
    e = .acted t (.act t (.mount path)) (some (.ok ())) := by
  unfold RunEvent.mounted at h
  split at h
  · split at h <;> cases h
    next hu =>
    subst hu
    rfl
  · cases h

theorem RunEvent.eq_of_viewed {e : RunEvent} {t : Nat} {a : NetAct} (h : e.viewed = some (t, a)) :
    ∃ x, e = .acted t (.act t (.view a)) (some x) := by
  unfold RunEvent.viewed at h
  split at h
  · next x =>
    split at h <;> cases h
    next hu =>
    subst hu
    exact ⟨x, rfl⟩
  · cases h

theorem RunEvent.eq_of_exited {e : RunEvent} {t code : Nat} {o : Nat × Launch}
    (h : e.exited = some (t, o, code)) : e = .returned t o (.ok (some code)) := by
  unfold RunEvent.exited at h
  split at h <;> cases h
  rfl

/-- The run of the two processes: each locks the file and mounts, and the subscription of the first is
there when the second has mounted. -/
theorem exists_twoMounts :
    ∃ c x, (mountProcesses .sample (.vector 4) anyDaemon).Run OwnPid (.initial .new) c ∧
      c.log[0]? = some (.started 0 (0, .sample)) ∧ c.log[19]? = some (lockedBy 0 7) ∧
      c.log[53]? = some (.acted 0 (.act 0 (.mount "/m".toList)) (some (.ok ()))) ∧
      c.log[83]? = some (lockedBy 1 7) ∧
      c.log[119]? = some (.acted 0 (.act 0 (.view .connect)) (some x)) ∧
      c.log[122]? = some (.returned 0 (0, .sample) (.ok (some exOk))) := by
  have hrun : ((mountProcesses .sample (.vector 4) anyDaemon).play
      (fun c e => decide (OwnPid c e)) twoMounts (.initial .new)).any (fun c =>
        (c.log[0]?.bind RunEvent.launched) = some (0, 0, .sample) &&
        (c.log[19]?.bind RunEvent.locked) = some (0, 7) &&
        (c.log[53]?.bind RunEvent.mounted) = some (0, "/m".toList) &&
        (c.log[83]?.bind RunEvent.locked) = some (1, 7) &&
        (c.log[119]?.bind RunEvent.viewed) = some (0, .connect) &&
        (c.log[122]?.bind RunEvent.exited) = some (0, (0, .sample), exOk)) = true := by
    decide +kernel
  simp only [Option.any_eq_true, Bool.and_eq_true, decide_eq_true_eq, Option.bind_eq_some_iff] at hrun
  obtain ⟨c, hplay, ⟨⟨⟨⟨⟨e, h, he⟩, e₁, h₁, he₁⟩, e₂, h₂, he₂⟩, e₃, h₃, he₃⟩, e₄, h₄, he₄⟩, e₅, h₅, he₅⟩ :=
    hrun
  obtain ⟨x, rfl⟩ := RunEvent.eq_of_viewed he₄
  refine ⟨c, x, Service.run_of_play .refl hplay fun _ _ _ hown => of_decide_eq_true hown, ?_, ?_, ?_, ?_, h₄, ?_⟩
  · rw [h, RunEvent.eq_of_launched he]
  · rw [h₁, RunEvent.eq_of_locked he₁]
  · rw [h₂, RunEvent.eq_of_mounted he₂]
  · rw [h₃, RunEvent.eq_of_locked he₃]
  · rw [h₅, RunEvent.eq_of_exited he₅]

section
variable {build : Build} {env : NetEnv} {daemon : Daemon}
  {c : Config (ProcAct.Answer RunAct.Ret) HostState Unit (Nat × Launch) (Option Nat)}

/-- **One process at a time works under a lock file.** When a process locks a file that another process has
locked before, the other has done all that `run.rs` lets it do, except that it may still report its error,
and that its subscription may still be there, which sends no verb: whatever the interleaving, and whichever
processes were killed. -/
theorem profile_lock_exclusive (h : (mountProcesses build env daemon).Run OwnPid (.initial .new) c)
    {t u file i j m : Nat} (hi : c.log[i]? = some (lockedBy t file))
    (hj : c.log[j]? = some (lockedBy u file)) (hij : i < j) {a : RunAct} {x : a.Ret}
    (hm : c.log[m]? = some (.acted t (.act t a) (some x))) : m < j ∨ a.Lingers := by
  by_contra hcon
  obtain ⟨hjm, hlingers⟩ := not_or.1 hcon
  obtain ⟨c₁, g, hrun, hlog, hg, hpre, -, -⟩ :=
    Host.pre_of_acted (runWithArgv_obeys build env) (fun _ _ _ => trivial) h hm
  have htable := lockTable_of_run hrun
  have hi₁ : c₁.log[i]? = some (lockedBy t file) := by
    rw [hlog, List.getElem?_take_of_lt (by omega), hi]
  rcases Nat.eq_or_lt_of_le (Nat.not_lt.1 hjm) with rfl | hjm
  · -- the process itself would lock the file a second time
    cases hj.symm.trans hm
    obtain ⟨path, rfl⟩ := pre_flock hpre
    exact htable.not_locked hg nofun nofun (List.mem_of_getElem? hi₁)
  · have hj₁ : c₁.log[j]? = some (lockedBy u file) := by
      rw [hlog, List.getElem?_take_of_lt hjm, hj]
    rcases htable.order hi₁ hj₁ hij with hreleased | hnone
    · cases hg.symm.trans hreleased
      exact hlingers (lingers_of_pre hpre)
    · cases hg.symm.trans hnone

/-- The first of two processes connects for its subscription when the second has mounted, and does nothing
else after the second has locked the file. -/
theorem profile_lock_exclusive_twoMounts :
    ∃ c x, (mountProcesses .sample (.vector 4) anyDaemon).Run OwnPid (.initial .new) c ∧
      c.log[19]? = some (lockedBy 0 7) ∧ c.log[83]? = some (lockedBy 1 7) ∧
      c.log[119]? = some (.acted 0 (.act 0 (.view .connect)) (some x)) ∧
      ∀ (m : Nat) (a : RunAct) (x : a.Ret), c.log[m]? = some (.acted 0 (.act 0 a) (some x)) →
        m < 83 ∨ a.Lingers := by
  obtain ⟨c, x, hrun, -, hfirst, -, hsecond, hview, -⟩ := exists_twoMounts
  exact ⟨c, x, hrun, hfirst, hsecond, hview, fun m a x hm =>
    profile_lock_exclusive hrun hfirst hsecond (by decide) hm⟩

/-- **The lock comes first.** A process that was given a lock file replays nothing and mounts nothing before
it has opened and locked that file. -/
theorem profile_lock_guards (h : (mountProcesses build env daemon).Run OwnPid (.initial .new) c)
    {t q m : Nat} {o : Launch} {cli : Cli} {path : Str} (ho : c.log[q]? = some (.started t (t, o)))
    (hcli : parseArgs build o.environment o.argv = .ok cli) (hpath : cli.lock = some path)
    {a : RunAct} {r : Option a.Ret} (hm : c.log[m]? = some (.acted t (.act t a) r)) (ha : a.Guarded) :
    ∃ file i j, i < j ∧ j < m ∧ c.log[i]? = some (openedBy t path file) ∧
      c.log[j]? = some (lockedBy t file) := by
  obtain ⟨c₁, g, hrun, hlog, hg, hpre, -, -⟩ :=
    Host.pre_of_acted (runWithArgv_obeys build env) (fun _ _ _ => trivial) h hm
  have hqm : q < m := h.started_lt_acted hm ho
  have ho₁ : .started t (t, o) ∈ c₁.log := by
    rw [hlog]
    exact List.mem_of_getElem? ((List.getElem?_take_of_lt hqm).trans ho)
  have hphase : o.lockPhase build = .unlocked path := by
    rw [Launch.lockPhase, hcli]
    dsimp only
    rw [Cli.lockPhase, hpath]
  have hserves : g.Serves := serves_of_pre hpre ha
  cases (lockTable_of_run hrun).since ho₁ hphase hg with
  | @holding file i j hi hj hij =>
    rw [hlog] at hi hj
    have hjm := getElem?_lt hj
    rw [List.length_take] at hjm
    exact ⟨file, i, j, hij, by omega, getElem?_of_take hi, getElem?_of_take hj⟩
  | unlocked | opened | released => exact hserves.elim

/-- The first of two processes opens and locks its file before it mounts. -/
theorem profile_lock_guards_twoMounts :
    ∃ c, (mountProcesses .sample (.vector 4) anyDaemon).Run OwnPid (.initial .new) c ∧
      ∃ file i j, i < j ∧ j < 53 ∧ c.log[i]? = some (openedBy 0 "/l".toList file) ∧
        c.log[j]? = some (lockedBy 0 file) := by
  obtain ⟨c, -, hrun, hstart, -, hmount, -⟩ := exists_twoMounts
  have hcli : ∃ cli, parseArgs .sample Launch.sample.environment Launch.sample.argv = .ok cli ∧
      cli.lock = some "/l".toList := ⟨_, rfl, rfl⟩
  obtain ⟨cli, hcli, hpath⟩ := hcli
  exact ⟨c, hrun, profile_lock_guards hrun hstart hcli hpath hmount trivial⟩

end

/-! ## The lock is given back -/

/-- A process that has given its lock back only lingers. -/
theorem lingers_of_keeps {es : List (Occ RunAct.Ret)} (h : GuardsLock.Keeps .released es) :
    ∀ e ∈ es, e.1.Lingers := by
  induction es with
  | nil => nofun
  | cons e es ih =>
    rintro e' he'
    rcases List.mem_cons.1 he' with rfl | he'
    · exact lingers_of_pre h.1
    · exact ih (h.2 trivial) e' he'

/-- A process that holds its file, and ends without it, has closed it. Before that it leaves the lock file
alone. -/
theorem closed_of_keeps {path : Str} {file : Nat} {es : List (Occ RunAct.Ret)}
    (h : GuardsLock.Keeps (.holding path file) es)
    (hend : (GuardsLock.after (.holding path file) es).Unheld) :
    ∃ es₁ es₂, es = es₁ ++ ⟨.closeFile file, ()⟩ :: es₂ ∧ (∀ e ∈ es₁, e.1.SparesLock) ∧
      ∀ e ∈ es₂, e.1.Lingers := by
  induction es with
  | nil => exact hend.elim
  | cons e es ih =>
    obtain ⟨hpre, hkeeps⟩ := h
    obtain ⟨a, r⟩ := e
    by_cases ha : a.SparesLock
    · have hnext : GuardsLock.next (.holding path file) a r = .holding path file := next_of_sparesLock ha r
      obtain ⟨es₁, es₂, rfl, hspares, hlingers⟩ := ih (hnext ▸ hkeeps trivial) (hnext ▸ hend)
      exact ⟨⟨a, r⟩ :: es₁, es₂, rfl, List.forall_mem_cons.2 ⟨ha, hspares⟩, hlingers⟩
    · cases a with
      | closeFile file' =>
        obtain ⟨_, heq⟩ := pre_closeFile hpre
        cases heq
        exact ⟨[], es, rfl, nofun, lingers_of_keeps (hkeeps trivial)⟩
      | openFile => cases pre_openFile hpre
      | flock =>
        obtain ⟨_, heq⟩ := pre_flock hpre
        cases heq
      | _ => exact absurd trivial ha

/-- A process without a lock file leaves lock files alone. -/
theorem sparesLock_of_keeps {es : List (Occ RunAct.Ret)} (h : GuardsLock.Keeps .free es) :
    ∀ e ∈ es, e.1.SparesLock := by
  induction es with
  | nil => nofun
  | cons e es ih =>
    obtain ⟨hpre, hkeeps⟩ := h
    obtain ⟨a, r⟩ := e
    have ha : a.SparesLock := by
      cases a with
      | openFile => cases pre_openFile hpre
      | flock => cases (pre_flock hpre).choose_spec
      | closeFile => cases (pre_closeFile hpre).choose_spec
      | _ => trivial
    have hnext : GuardsLock.next .free a r = .free := next_of_sparesLock (g := .free) ha r
    exact List.forall_mem_cons.2 ⟨ha, ih (hnext ▸ hkeeps trivial)⟩

/-- What a process that locks a file does, from its beginning to its end. -/
theorem split_of_keeps {g : LockPhase} {file : Nat} {es : List (Occ RunAct.Ret)} (h : GuardsLock.Keeps g es)
    (hend : (GuardsLock.after g es).Unheld) (hg : ¬ g.Serves)
    (hlock : (⟨.flock file, .ok ()⟩ : Occ RunAct.Ret) ∈ es) :
    ∃ es₁ es₂ es₃, es = es₁ ++ ⟨.flock file, .ok ()⟩ :: (es₂ ++ ⟨.closeFile file, ()⟩ :: es₃) ∧
      (∀ e ∈ es₁, ¬ e.1.Guarded) ∧ (∀ e ∈ es₂, e.1.SparesLock) ∧ ∀ e ∈ es₃, e.1.Lingers := by
  induction es generalizing g with
  | nil => cases hlock
  | cons e es ih =>
    obtain ⟨hpre, hkeeps⟩ := h
    have hkeeps := hkeeps trivial
    have hguarded : ¬ e.1.Guarded := fun ha => hg (serves_of_pre hpre ha)
    -- an action after which the file is still to be locked
    have hlater : ¬ (GuardsLock.next g e.1 e.2).Serves → e ≠ ⟨.flock file, .ok ()⟩ →
        ∃ es₁ es₂ es₃, e :: es = es₁ ++ ⟨.flock file, .ok ()⟩ :: (es₂ ++ ⟨.closeFile file, ()⟩ :: es₃) ∧
          (∀ e ∈ es₁, ¬ e.1.Guarded) ∧ (∀ e ∈ es₂, e.1.SparesLock) ∧ ∀ e ∈ es₃, e.1.Lingers := by
      intro hnext hne
      obtain ⟨es₁, es₂, es₃, rfl, hearly, hspares, hlingers⟩ :=
        ih hkeeps hend hnext ((List.mem_cons.1 hlock).resolve_left hne.symm)
      exact ⟨e :: es₁, es₂, es₃, rfl, List.forall_mem_cons.2 ⟨hguarded, hearly⟩, hspares, hlingers⟩
    obtain ⟨a, r⟩ := e
    by_cases ha : a.SparesLock
    · refine hlater ?_ ?_
      · rwa [show GuardsLock.next g a r = g from next_of_sparesLock ha r]
      · rintro heq
        cases heq
        exact ha
    · cases a with
      | openFile path =>
        obtain rfl := pre_openFile hpre
        refine hlater ?_ nofun
        cases r <;> exact id
      | flock file' =>
        obtain ⟨path, rfl⟩ := pre_flock hpre
        match r with
        | .error e => exact hlater id nofun
        | .ok () =>
          obtain ⟨es₂, es₃, rfl, hspares, hlingers⟩ := closed_of_keeps hkeeps hend
          rcases List.mem_cons.1 hlock with heq | hlock
          · cases heq
            exact ⟨[], es₂, es₃, rfl, nofun, hspares, hlingers⟩
          · -- the file is not locked again
            rcases List.mem_append.1 hlock with hmem | hmem
            · exact (hspares _ hmem).elim
            · rcases List.mem_cons.1 hmem with heq | hmem
              · cases heq
              · exact (hlingers _ hmem).elim
      | closeFile =>
        obtain ⟨path, rfl⟩ := pre_closeFile hpre
        exact absurd trivial hg
      | _ => exact absurd trivial ha

section
variable {build : Build} {env : NetEnv} {daemon : Daemon}
  {c : Config (ProcAct.Answer RunAct.Ret) HostState Unit (Nat × Launch) (Option Nat)}

/-- **The lock is given back.** A process that has locked a file and ends by itself has closed that file:
nothing that the lock is there for came before the file was locked, what came between left the lock file
alone, and after it was closed came nothing but the error line and what happens aside. -/
theorem profile_lock_given_back (h : (mountProcesses build env daemon).Run OwnPid (.initial .new) c)
    {t i j file code : Nat} {o : Nat × Launch} (hj : c.log[j]? = some (lockedBy t file))
    (hi : c.log[i]? = some (.returned t o (.ok (some code)))) :
    ∃ es₁ es₂ es₃, occs t (c.log.take i) =
        (es₁ ++ ⟨.flock file, .ok ()⟩ :: (es₂ ++ ⟨.closeFile file, ()⟩ :: es₃)).map (Host.answered t) ++
          [⟨.exit t, ()⟩] ∧
      (∀ e ∈ es₁, ¬ e.1.Guarded) ∧ (∀ e ∈ es₂, e.1.SparesLock) ∧ ∀ e ∈ es₃, e.1.Lingers := by
  obtain ⟨es, ⟨_, rfl, hkeeps, hend⟩, hes⟩ :=
    Host.history_of_returned (fun o => (runWithArgv_obeys build env o).history (fun _ _ _ => trivial) []) h hi
  -- the locking is among what the process has done
  have hji : j < i := by
    refine lt_of_le_of_ne (h.le_returned hi hj rfl) ?_
    rintro rfl
    cases hj.symm.trans hi
  have hmem : (⟨.act t (.flock file), some (.ok ())⟩ : Occ (ProcAct.Answer RunAct.Ret)) ∈
      es.map (Host.answered t) ++ [⟨.exit t, ()⟩] := by
    rw [← hes, occs_split ((List.getElem?_take_of_lt hji).trans hj)]
    exact List.mem_append_right _ (List.mem_cons_self ..)
  have hlock : (⟨.flock file, .ok ()⟩ : Occ RunAct.Ret) ∈ es := by
    rcases List.mem_append.1 hmem with hmem | hmem
    · obtain ⟨⟨a, r⟩, he, heq⟩ := List.mem_map.1 hmem
      cases heq
      exact he
    · cases List.mem_singleton.1 hmem
  have hserves : ¬ (o.2.lockPhase build).Serves := by
    rcases o.2.lockPhase_cases build with hphase | ⟨path, hphase⟩
    · rw [hphase] at hkeeps
      exact (sparesLock_of_keeps hkeeps _ hlock).elim
    · rw [hphase]
      exact id
  obtain ⟨es₁, es₂, es₃, rfl, hsplit⟩ := split_of_keeps hkeeps hend hserves hlock
  exact ⟨es₁, es₂, es₃, hes, hsplit⟩

/-- The first of two processes gives its lock back before it ends. -/
theorem profile_lock_given_back_twoMounts :
    ∃ c es₁ es₂ es₃, (mountProcesses .sample (.vector 4) anyDaemon).Run OwnPid (.initial .new) c ∧
      occs 0 (c.log.take 122) =
        (es₁ ++ ⟨.flock 7, .ok ()⟩ :: (es₂ ++ ⟨.closeFile 7, ()⟩ :: es₃)).map (Host.answered 0) ++
          [⟨.exit 0, ()⟩] ∧
      ∀ e ∈ es₃, e.1.Lingers := by
  obtain ⟨c, -, hrun, -, hlock, -, -, -, hend⟩ := exists_twoMounts
  obtain ⟨es₁, es₂, es₃, hes, -, -, hlingers⟩ := profile_lock_given_back hrun hlock hend
  exact ⟨c, es₁, es₂, es₃, hrun, hes, hlingers⟩

end

end UnidriveMount
