import UnidriveMount.Startup.Cli
import UnidriveMount.Startup.KernelFloor
import UnidriveMount.Startup.Connect
import UnidriveMount.Recovery.Scanner
import UnidriveMount.Ipc.Handshake
import UnidriveMount.Lib.Processes
import UnidriveMount.Lib.Tasks

/-!
# The process

`run.rs` and `profile_lock.rs`: a process of the program reads its command line, checks the kernel and its
user, connects to the daemon, takes the profile's lock if it was given one, replays what a crash left,
connects again, subscribes to the daemon's events, mounts, and waits until it is told to stop or the session
ends. The subscription is a task of its own beside all that follows, up to the end of the runtime. What a
process does to the system are the actions `RunAct`; any number of processes run on one host, on which a
lock file has one holder at a time, and each can be killed at any time. The requests that the mounted session
serves are not among the actions.
-/

namespace UnidriveMount

open Lib
open Lib.Prog (fail ofExcept only_perform)

/-! ## Actions -/

/-- Why an attempt to lock a file fails. -/
inductive FlockError : Type where
  | wouldBlock
  | other (kind : IoErrorKind)
  deriving DecidableEq, Repr

/-- `ProfileLockError`. -/
inductive ProfileLockError : Type where
  | open (path : Str) (source : IoErrorKind)
  | held (path : Str)
  | flock (path : Str) (source : IoErrorKind)
  deriving DecidableEq, Repr

/-- How `run_async` fails, or that it goes on. -/
inductive RunError : Type where
  | connect (ipc : Str) (e : IpcError)
  | profileLock (e : ProfileLockError)
  | scanner (cache : Str)
  | mount (path : Str) (e : IoErrorKind)
  | signalHandler (e : IoErrorKind)
  | session (e : IoErrorKind)
  | unmount (e : IoErrorKind)
  | running
  deriving DecidableEq, Repr

/-- What is written to the standard error. -/
inductive ErrorLine : Type where
  | usage (msg : Str)
  | kernelFloor (e : KernelFloorError)
  | root
  | runtime (e : IoErrorKind)
  | run (e : RunError)
  deriving DecidableEq, Repr

/-- The signals that end the program. -/
inductive SignalKind : Type where
  | terminate
  | interrupt
  deriving DecidableEq, Repr

/-- `StopReason`. -/
inductive StopReason : Type where
  | sessionEnded (res : Except IoErrorKind Unit)
  | signal

/-- What a process asks of the system. -/
inductive RunAct : Type where
  | print (msg : Str)
  | eprint (line : ErrorLine)
  | osrelease
  | geteuid
  | buildRuntime
  | net (a : NetAct)
  | openFile (path : Str)
  | flock (file : Nat)
  | closeFile (file : Nat)
  | readCache (root : Str)
  | spawn
  | mount (path : Str)
  | signal (kind : SignalKind)
  | stopReason
  | unmount
  -- the task that was spawned, and the runtime
  | view (a : NetAct)
  | turn

/-- What an action answers. -/
abbrev RunAct.Ret : RunAct → Type
  | print _ | eprint _ | closeFile _ | spawn => Unit
  | osrelease => Option Str
  | geteuid => Nat
  | buildRuntime | mount _ | signal _ | unmount => Except IoErrorKind Unit
  | net a | view a => a.Ret
  | turn => Bool
  | openFile _ => Except IoErrorKind Nat
  | flock _ => Except FlockError Unit
  | readCache _ => Option CacheRoot
  | stopReason => StopReason

/-! ## The host -/

/-- What the host keeps for the processes: their connections, and which process has locked a file. -/
structure HostState : Type where
  nets : Nat → NetState
  holders : Nat → Option Nat

/-- No process has run. -/
def HostState.new : HostState := ⟨fun _ => .new, fun _ => none⟩

/-- What the outside contributes to an action. Others may have locked a file, too. -/
structure RunWorld : Type where
  net : NetWorld
  osrelease : Option Str
  euid : Nat
  runtime : Except IoErrorKind Unit
  openFile : Except IoErrorKind Nat
  flock : Except FlockError Unit
  cache : Option CacheRoot
  mount : Except IoErrorKind Unit
  signal : Except IoErrorKind Unit
  stopReason : StopReason
  unmount : Except IoErrorKind Unit
  -- whether it is the task's turn
  turn : Bool

/-- `flock(LOCK_EX | LOCK_NB)` by the process `pid`. -/
def HostState.flock (s : HostState) (pid file : Nat) (w : RunWorld) : Except FlockError Unit × HostState :=
  match s.holders file with
  | some _ => (.error .wouldBlock, s)
  | none =>
    match w.flock with
    | .ok () => (.ok (), { s with holders := Function.update s.holders file (some pid) })
    | .error e => (.error e, s)

/-- The file is closed by the process `pid`, which unlocks it. -/
def HostState.close (s : HostState) (pid file : Nat) : HostState :=
  if s.holders file = some pid then { s with holders := Function.update s.holders file none } else s

/-- The process `pid` is gone: its connections and files are closed. -/
def HostState.reap (pid : Nat) (s : HostState) : HostState where
  nets := Function.update s.nets pid .new
  holders file := if s.holders file = some pid then none else s.holders file

/-- A client's action of the process `pid`. -/
def HostState.client (serde : Serde) (daemon : Daemon) (pid : Nat) (a : NetAct) (w : NetWorld)
    (s : HostState) : a.Ret × HostState :=
  let (r, n) := a.run serde daemon w (s.nets pid)
  (r, { s with nets := Function.update s.nets pid n })

/-- The execution of an action of the process `pid`. What takes the events of the subscription always goes
on. -/
def RunAct.run (serde : Serde) (daemon : Daemon) (pid : Nat) :
    (a : RunAct) → RunWorld → HostState → a.Ret × HostState
  | print _, _, s | eprint _, _, s | spawn, _, s => ((), s)
  | osrelease, w, s => (w.osrelease, s)
  | geteuid, w, s => (w.euid, s)
  | buildRuntime, w, s => (w.runtime, s)
  | net a, w, s => s.client serde daemon pid a w.net
  | view a, w, s => s.client serde daemon pid a { w.net with goesOn := true }
  | openFile _, w, s => (w.openFile, s)
  | flock file, w, s => s.flock pid file w
  | closeFile file, _, s => ((), s.close pid file)
  | readCache _, w, s => (w.cache, s)
  | mount _, w, s => (w.mount, s)
  | signal _, w, s => (w.signal, s)
  | stopReason, w, s => (w.stopReason, s)
  | unmount, w, s => (w.unmount, s)
  | turn, w, s => (w.turn, s)

/-- The host on which the processes run. -/
def mountHost (serde : Serde) (daemon : Daemon) : Host RunAct RunAct.Ret HostState :=
  ⟨RunWorld, RunAct.run serde daemon, HostState.reap⟩

/-! ## Programs -/

/-- The programs of a process. -/
abbrev RunProg := Prog RunAct RunAct.Ret

/-- One action of a process. -/
abbrev performRun {ε : Type} (a : RunAct) : RunProg ε a.Ret := Prog.perform a

section
variable {ε α β : Type}

/-- A program of the client, and what follows on its end. -/
def onClient (f : Except Stop α → RunProg ε β) : NetProg α → RunProg ε β
  | .ret r => f r
  | .act a k => .act (.net a) fun x => onClient f (k x)

/-- `?` on a result of the client. -/
def client (ipc : Str) (p : NetProg α) (f : α → RunProg RunError β) : RunProg RunError β :=
  onClient (fun
    | .ok x => f x
    | .error (.failed e) => fail (.connect ipc e)
    | .error .running => fail .running) p

/-- The requests of the recovery, made on the connection `conn`, and what follows. -/
def onScan (env : NetEnv) (conn : Nat) (f : Except ScannerError α → RunProg RunError β) :
    ScanProg α → RunProg RunError β
  | .ret r => f r
  | .act verb k => onClient (fun
    | .ok reply => onScan env conn f (k (.ok reply))
    | .error (.failed e) => onScan env conn f (k (.error e))
    | .error .running => fail .running) (callVerb env.serde env.fuel conn verb)

end

/-- `ProfileLock::acquire`. -/
def acquire (path : Str) : RunProg RunError Nat := do
  match ← performRun (.openFile path) with
  | .error kind => fail (.profileLock (.open path kind))
  | .ok file =>
    match ← performRun (.flock file) with
    | .ok () => return file
    | .error .wouldBlock => fail (.profileLock (.held path))
    | .error (.other kind) => fail (.profileLock (.flock path kind))

/-- `?` on an operation of the system. -/
def orFail {α : Type} (e : IoErrorKind → RunError) : Except IoErrorKind α → RunProg RunError α
  | .ok x => pure x
  | .error kind => fail (e kind)

section
variable (env : NetEnv) (cli : Cli)

/-- `IpcAuth::new` of the command line's options. -/
def Cli.auth : IpcAuth := ⟨cli.ipcTokenFile, cli.profile.getD []⟩

/-- `run_async` from the mount on. -/
def mountAndWait : RunProg RunError Unit := do
  orFail (.mount cli.mount) (← performRun (.mount cli.mount))
  orFail .signalHandler (← performRun (.signal .terminate))
  orFail .signalHandler (← performRun (.signal .interrupt))
  match ← performRun .stopReason with
  | .sessionEnded res => orFail .session res
  | .signal => orFail .unmount (← performRun .unmount)

/-- `run_async` from the recovery on. -/
def recoverAndMount (conn : Nat) : RunProg RunError Unit := do
  let folder ← performRun (.readCache cli.cache)
  onScan env conn (fun
    | .error .walk => fail (.scanner cli.cache)
    | .ok _ => client cli.ipc
      (connectInner ⟨env, some cli.auth, defaultRetryInterval, defaultRetryBudget⟩)
      fun _ => do
        performRun .spawn
        mountAndWait cli) (scanAndReplay folder)

/-- `run_async`. The lock is given back at its end, however it ends. -/
def runAsync : RunProg RunError Unit :=
  client cli.ipc (connectAuthAtStartup env cli.auth startupConnectInterval startupConnectBudget)
    fun conn =>
      match cli.lock with
      | none => recoverAndMount env cli conn
      | some path => do
        let file ← acquire path
        (recoverAndMount env cli conn).onResult fun res => do
          performRun (.closeFile file)
          ofExcept res

/-- What the subscription does, as a task of the process. -/
def onTask {α : Type} : NetProg α → Prog RunAct RunAct.Ret Stop α
  | .ret r => .ret r
  | .act a k => .act (.view a) fun x => onTask (k x)

/-- The task that `run_async` spawns: what `keep_view_fresh` does to the system. The view that it keeps is in
the memory of the process. -/
def viewTask : Prog RunAct RunAct.Ret Stop Unit :=
  onTask (subscription env cli.auth defaultRetryInterval env.fuel)

end

/-- The runtime of a process. -/
def tokio : Runtime RunAct RunAct.Ret where
  spawns
    | .spawn => true
    | _ => false
  turn := .turn
  toTask first := first

/-- `EX_OK`. -/
def exOk : Nat := 0

/-- `EX_USAGE`. -/
def exUsage : Nat := 64

/-- `EX_CONFIG`. -/
def exConfig : Nat := 78

/-- `EX_GENERIC_FAILURE`. -/
def exGenericFailure : Nat := 1

/-- An error line, and the exit code. -/
def exitWith (line : ErrorLine) (code : Nat) : RunProg Unit Nat := do
  performRun (.eprint line)
  return code

/-- The future that `run_with_argv` blocks on. -/
def mainTask (env : NetEnv) (cli : Cli) : RunProg Unit Nat :=
  (runAsync env cli).onResult fun
    | .ok () => return exOk
    | .error .running => fail ()
    | .error e => exitWith (.run e) exGenericFailure

/-- What a process is started with. -/
structure Launch : Type where
  argv : List Str
  environment : Environment
  deriving DecidableEq, Repr

/-- `run_with_argv`. Its error is that the process goes on. -/
def runWithArgv (build : Build) (env : NetEnv) (o : Launch) : RunProg Unit Nat :=
  match parseArgs build o.environment o.argv with
  | .error (.help msg) | .error (.version msg) => do
    performRun (.print msg)
    return exOk
  | .error (.usage msg) => exitWith (.usage msg) exUsage
  | .ok cli => do
    match checkKernelFloor (← performRun .osrelease) with
    | .error e => exitWith (.kernelFloor e) exConfig
    | .ok () =>
      if (← performRun .geteuid) = 0 then exitWith .root exGenericFailure
      else
        match ← performRun .buildRuntime with
        | .error kind => exitWith (.runtime kind) exGenericFailure
        | .ok () => tokio.blockOn (viewTask env cli) (mainTask env cli)

/-- The processes of the program on one host. -/
def mountProcesses (build : Build) (env : NetEnv) (daemon : Daemon) :
    Service (ProcAct RunAct) (ProcAct.Answer RunAct.Ret) HostState Unit (Nat × Launch) (Option Nat) :=
  (mountHost env.serde daemon).service (runWithArgv build env)

/-! ## What the client's parts keep -/

section
variable {ε α β G : Type} {C : Contract RunAct RunAct.Ret G} {J : G → Prop} {g : G}

/-- A program of the client that keeps a property of the ghost value can be skipped. -/
theorem obeys_onClient_of_inv {P : NetAct → Prop} {post : Except ε β → G → Prop}
    {f : Except Stop α → RunProg ε β} {p : NetProg α} (hp : p.Only P) (h₀ : J g)
    (hpre : ∀ g a, J g → P a → C.pre g (.net a))
    (hnext : ∀ g (a : NetAct) (r : a.Ret), J g → P a → J (C.next g (.net a) r))
    (hf : ∀ r g, J g → C.Obeys post (f r) g) : C.Obeys post (onClient f p) g := by
  induction p generalizing g with
  | ret r => exact hf r g h₀
  | act a k ih => exact ⟨hpre g a h₀ hp.1, fun r _ => ih r (hp.2 r) (hnext g a r h₀ hp.1)⟩

/-- A property that every action of the client keeps. -/
theorem obeys_onClient_of_forall {post : Except ε β → G → Prop} {f : Except Stop α → RunProg ε β}
    (p : NetProg α) (h₀ : J g) (hpre : ∀ g a, J g → C.pre g (.net a))
    (hnext : ∀ g (a : NetAct) (r : a.Ret), J g → J (C.next g (.net a) r))
    (hf : ∀ r g, J g → C.Obeys post (f r) g) : C.Obeys post (onClient f p) g :=
  obeys_onClient_of_inv (P := fun _ => True) (Prog.only_of_forall (fun _ => trivial) p) h₀
    (fun g a hg _ => hpre g a hg) (fun g a r hg _ => hnext g a r hg) hf

/-- The requests of the recovery can be skipped in the same way. They go on after an error, unless the
process is still running. -/
theorem obeys_onScan_of_inv {env : NetEnv} {conn : Nat} {post : Except RunError β → G → Prop}
    {f : Except ScannerError α → RunProg RunError β} {p : ScanProg α} (h₀ : J g)
    (hpre : ∀ g a, J g → C.pre g (.net a))
    (hnext : ∀ g (a : NetAct) (r : a.Ret), J g → J (C.next g (.net a) r))
    (herr : ∀ g, J g → post (.error .running) g) (hf : ∀ r g, J g → C.Obeys post (f r) g) :
    C.Obeys post (onScan env conn f p) g := by
  induction p generalizing g with
  | ret r => exact hf r g h₀
  | act verb k ih =>
    rw [onScan]
    refine obeys_onClient_of_forall _ h₀ hpre hnext fun r g hg => ?_
    split
    · exact ih _ hg
    · exact ih _ hg
    · exact herr g hg

end

/-! ## Which actions are whose -/

/-- The action is one of `run.rs`, not of the task that it spawns, and not of the runtime. -/
def RunAct.own : RunAct → Bool
  | view _ | turn => false
  | _ => true

/-- The action sends no verb. -/
def NetAct.SendsNoVerb : NetAct → Prop
  | write _ (.request (.verb _)) => False
  | _ => True

/-- What happens beside `run.rs`: the runtime's turns, and the subscription, which sends no verb. -/
def RunAct.Aside : RunAct → Prop
  | turn => True
  | view a => a.SendsNoVerb
  | _ => False

/-- What the process does from the recovery to the unmount. -/
def RunAct.Works : RunAct → Prop
  | net _ | readCache _ | spawn | mount _ | signal _ | stopReason | unmount => True
  | _ => False

theorem RunAct.Works.own {a : RunAct} (ha : a.Works) : a.own = true := by
  cases a <;> first | exact ha.elim | rfl

theorem NetAct.Connects.sendsNoVerb {a : NetAct} (ha : a.Connects) : a.SendsNoVerb := by
  unfold NetAct.SendsNoVerb
  split
  · exact ha.elim
  · trivial

theorem SubAct.impl_sendsNoVerb (env : NetEnv) (auth : IpcAuth) (a : SubAct) :
    (a.impl env auth).Only NetAct.SendsNoVerb := by
  cases a with
  | connect =>
    refine resultOf_only (.mono (P := NetAct.Connects) ?_ fun _ => NetAct.Connects.sendsNoVerb)
    exact .bind (only_perform trivial) fun r => .bind (only_io r) fun conn =>
      .bind (authenticate_connects ..) fun _ => trivial
  | subscribe sub =>
    refine resultOf_only (Conversation.subscribe.only (fun a ha => ?_) fun req hreq a ha => ?_)
    · cases a <;> first | exact ha.elim | trivial
    · subst hreq
      unfold NetAct.SendsNoVerb
      split
      · cases ha.2
      · trivial
  | readLine sub =>
    refine resultOf_only (.bind ((readInboundLine_only ..).mono fun a ha => ?_) fun line => ?_)
    · cases a <;> first | exact ha.elim | trivial
    · cases line <;> trivial
  | event | sleep => exact only_perform trivial

section
variable {ε α β : Type} {P : RunAct → Prop}

theorem onTask_only {p : NetProg α} (hp : p.Only NetAct.SendsNoVerb) : (onTask p).Only RunAct.Aside := by
  induction p with
  | ret r => trivial
  | act a k ih => exact ⟨hp.1, fun x => ih x (hp.2 x)⟩

/-- The task stays aside. -/
theorem viewTask_aside (env : NetEnv) (cli : Cli) : (viewTask env cli).Only RunAct.Aside :=
  onTask_only (Prog.only_interp (SubAct.impl_sendsNoVerb env cli.auth) _)

theorem onClient_only {f : Except Stop α → RunProg ε β} (hP : ∀ a, P (.net a)) (hf : ∀ r, (f r).Only P)
    (p : NetProg α) : (onClient f p).Only P := by
  induction p with
  | ret r => exact hf r
  | act a k ih => exact ⟨hP a, ih⟩

theorem onScan_only {env : NetEnv} {conn : Nat} {f : Except ScannerError α → RunProg RunError β}
    (hP : ∀ a, P (.net a)) (hf : ∀ r, (f r).Only P) (p : ScanProg α) : (onScan env conn f p).Only P := by
  induction p with
  | ret r => exact hf r
  | act verb k ih =>
    rw [onScan]
    refine onClient_only hP (fun r => ?_) _
    split
    · exact ih _
    · exact ih _
    · trivial

theorem orFail_only (e : IoErrorKind → RunError) (r : Except IoErrorKind α) : (orFail e r).Only P := by
  cases r <;> trivial

end

theorem mountAndWait_works (cli : Cli) : (mountAndWait cli).Only RunAct.Works := by
  refine .bind (only_perform trivial) fun r => .bind (orFail_only ..) fun _ => ?_
  refine .bind (only_perform trivial) fun r => .bind (orFail_only ..) fun _ => ?_
  refine .bind (only_perform trivial) fun r => .bind (orFail_only ..) fun _ => ?_
  refine .bind (only_perform trivial) fun reason => ?_
  split
  · exact orFail_only ..
  · exact .bind (only_perform trivial) fun r => orFail_only ..

theorem recoverAndMount_works (env : NetEnv) (cli : Cli) (conn : Nat) :
    (recoverAndMount env cli conn).Only RunAct.Works := by
  refine .bind (only_perform trivial) fun folder => onScan_only (fun _ => trivial) (fun r => ?_) _
  split
  · trivial
  · refine onClient_only (fun _ => trivial) (fun r => ?_) _
    split
    · exact .bind (only_perform trivial) fun _ => mountAndWait_works cli
    · trivial
    · trivial

theorem runAsync_own (env : NetEnv) (cli : Cli) : (runAsync env cli).Only fun a => a.own = true := by
  have hworks : ∀ conn, (recoverAndMount env cli conn).Only fun a => a.own = true :=
    fun conn => (recoverAndMount_works env cli conn).mono fun _ => RunAct.Works.own
  refine onClient_only (fun _ => rfl) (fun r => ?_) _
  split
  · split
    · exact hworks _
    · refine .bind (.bind (only_perform rfl) fun r => ?_) fun file => ?_
      · split
        · trivial
        · refine .bind (only_perform rfl) fun r => ?_
          split <;> trivial
      · exact .onResult (hworks _) fun res => .bind (only_perform rfl) fun _ => trivial
  · trivial
  · trivial

/-- The program's actions are its own. -/
theorem mainTask_own (env : NetEnv) (cli : Cli) : (mainTask env cli).Only fun a => a.own = true := by
  refine .onResult (runAsync_own env cli) fun res => ?_
  split
  · trivial
  · trivial
  · exact .bind (only_perform rfl) fun _ => trivial

section
variable {G G' : Type} {C : Contract RunAct RunAct.Ret G} {C' : Contract RunAct RunAct.Ret G'}
  {S : G → G' → Prop} {g : G} {g' : G'} {env : NetEnv} {cli : Cli} {post : Except Unit Nat → G → Prop}
  {post' : Except Unit Nat → G' → Prop}

/-- What the program keeps alone it keeps beside the subscription. -/
theorem obeys_blockOn (hp : C.Obeys post (mainTask env cli) g)
    (h : C.Carries C' S (fun a => a.own = true) RunAct.Aside) (hS : S g g')
    (hpost : ∀ r g g', S g g' → post r g → post' r g') :
    C'.Obeys post' (tokio.blockOn (viewTask env cli) (mainTask env cli)) g' :=
  hp.blockOn h trivial (mainTask_own env cli) (viewTask_aside env cli) hS hpost

/-- What happens aside means nothing to the contract. -/
theorem obeys_blockOn_of_aside (hp : C.Obeys post (mainTask env cli) g) (hallow : ∀ g a r, C.allow g a r)
    (h : ∀ g a, a.Aside → C.pre g a ∧ ∀ r, C.next g a r = g) :
    C.Obeys post (tokio.blockOn (viewTask env cli) (mainTask env cli)) g :=
  obeys_blockOn hp (Contract.carries_of_aside hallow h) rfl fun _ _ _ hS hr => hS ▸ hr

end

end UnidriveMount
