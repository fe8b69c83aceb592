import UnidriveMount.Startup.ProfileLock
import UnidriveMount.Recovery.Replay
import UnidriveMount.Lib.Interp

/-!
# Recovery comes before the mount

A process that mounts has connected, has read its cache folder, and has gone through all of it: it has
asked about every file whose time of modification could be read, and has uploaded those that are due, one
call after the other on this first connection; then it has connected again, and has spawned its
subscription (`mounted_after_recovery`). What the subscription does before the mount comes in between.
-/

namespace UnidriveMount

open Lib
open Lib.Prog (ofExcept)

/-! ## What the recovery has done -/

/-- A client's action of a process, as it is recorded. -/
def netOcc (e : Occ NetAct.Ret) : Occ RunAct.Ret := ⟨.net e.1, e.2⟩

/-- The process has made the calls on the connection, one after the other. -/
inductive CalledOn (env : NetEnv) (conn : Nat) : List Answered → List (Occ RunAct.Ret) → Prop where
  | nil : CalledOn env conn [] []
  | cons {verb : Verb} {answer : Except IpcError verb.Reply} {call : List (Occ NetAct.Ret)}
      {calls : List Answered} {es : List (Occ RunAct.Ret)}
      (hcall : (callVerb env.serde env.fuel conn verb).Path call (.inl (answer.mapError .failed)))
      (hrest : CalledOn env conn calls es) : CalledOn env conn (⟨verb, answer⟩ :: calls) (call.map netOcc ++ es)

/-- The recovery of the folder, with what the process has done for it. -/
def Replayed (env : NetEnv) (conn : Nat) (es : List (Occ RunAct.Ret)) : Option CacheRoot → Prop
  | none => es = []
  | some root => ∃ files vs calls, collectFiles root = .ok files ∧ Replays (scanned root files) 0 vs calls ∧
    CalledOn env conn calls es

/-- The process has opened the connection at its start. -/
def Connected (env : NetEnv) (cli : Cli) (conn : Nat) (es : List (Occ RunAct.Ret)) : Prop :=
  ∃ (first : List (Occ NetAct.Ret)) (before after : List (Occ RunAct.Ret)),
    (connectAuthAtStartup env cli.auth startupConnectInterval startupConnectBudget).Path first
      (.inl (.ok conn)) ∧ es = before ++ first.map netOcc ++ after

/-- What `run.rs` has done when it mounts: it has connected, read the cache folder, recovered what was there,
connected again, and spawned the subscription. -/
def Recovered (build : Build) (env : NetEnv) (o : Launch) (path : Str) (es : List (Occ RunAct.Ret)) : Prop :=
  ∃ (cli : Cli) (folder : Option CacheRoot) (conn : Nat) (before during : List (Occ RunAct.Ret))
      (second : List (Occ NetAct.Ret)),
    parseArgs build o.environment o.argv = .ok cli ∧ path = cli.mount ∧
    es = before ++ [⟨.readCache cli.cache, folder⟩] ++ during ++ second.map netOcc ++ [⟨.spawn, ()⟩] ∧
    Connected env cli conn before ∧ Replayed env conn during folder ∧
    (connectInner ⟨env, some cli.auth, defaultRetryInterval, defaultRetryBudget⟩).Path second (.inl (.ok ()))

/-- The program mounts only when it has recovered. -/
def mountsRecovered (build : Build) (env : NetEnv) : Contract RunAct RunAct.Ret (Launch × List (Occ RunAct.Ret)) :=
  Contract.past fun o es a => ∀ path, a = .mount path → Recovered build env o path es

/-- What `run.rs` has done itself. -/
def ownOf (es : List (Occ RunAct.Ret)) : List (Occ RunAct.Ret) := es.filter fun e => e.1.own

theorem ownOf_snoc_of_own {es : List (Occ RunAct.Ret)} {a : RunAct} (r : a.Ret) (ha : a.own = true) :
    ownOf (es ++ [⟨a, r⟩]) = ownOf es ++ [⟨a, r⟩] := by
  simp [ownOf, List.filter_append, ha]

theorem ownOf_snoc_of_aside {es : List (Occ RunAct.Ret)} {a : RunAct} (r : a.Ret) (ha : a.Aside) :
    ownOf (es ++ [⟨a, r⟩]) = ownOf es := by
  have hown : a.own = false := by
    cases a <;> first | exact ha.elim | rfl
  simp [ownOf, List.filter_append, hown]

/-- A process mounts only when `run.rs` has recovered. -/
def OwnRecovered (build : Build) (env : NetEnv) (o : Launch) (es : List (Occ RunAct.Ret)) (a : RunAct) : Prop :=
  ∀ path, a = .mount path → Recovered build env o path (ownOf es)

theorem Connected.append {env : NetEnv} {cli : Cli} {conn : Nat} {es : List (Occ RunAct.Ret)}
    (h : Connected env cli conn es) (es' : List (Occ RunAct.Ret)) : Connected env cli conn (es ++ es') := by
  obtain ⟨first, before, after, hfirst, rfl⟩ := h
  exact ⟨first, before, after ++ es', hfirst, List.append_assoc ..⟩

/-! ## The programs -/

/-- The way of a scan is one that the daemon's answers make it go. -/
theorem exec_of_path {α : Type} {p : ScanProg α} {calls : List Answered} {res : Except ScannerError α}
    (h : p.Path calls (.inl res)) : Exec daemonMachine p () calls res () := by
  induction p generalizing calls with
  | ret r =>
    cases h
    exact .ret
  | act verb k ih =>
    cases h with
    | @act _ _ answer calls _ h =>
    let answers : daemonMachine.World := Function.update (fun _ => .error .busy) verb answer
    have hanswer : answers verb = answer := Function.update_self ..
    exact .act ⟨rfl, answers, congrArg (·, ()) hanswer⟩ (ih _ h)

section
variable {build : Build} {env : NetEnv} {o : Launch} {es : List (Occ RunAct.Ret)} {ε α β : Type}

/-- Anything else can be done at any time. -/
theorem recovered_perform_bind {a : RunAct} {f : a.Ret → RunProg ε α}
    {post : Except ε α → Launch × List (Occ RunAct.Ret) → Prop} (ha : ∀ path, a ≠ .mount path)
    (hf : ∀ r, (mountsRecovered build env).Obeys post (f r) (o, es ++ [⟨a, r⟩])) :
    (mountsRecovered build env).Obeys post (Prog.perform a >>= f) (o, es) :=
  Contract.obeys_perform_bind.2 ⟨fun path h => absurd h (ha path), fun r _ => hf r⟩

theorem recovered_onClient {f : Except Stop β → RunProg ε α} {p : NetProg β}
    {post : Except ε α → Launch × List (Occ RunAct.Ret) → Prop}
    (hf : ∀ r call, p.Path call (.inl r) →
      (mountsRecovered build env).Obeys post (f r) (o, es ++ call.map netOcc)) :
    (mountsRecovered build env).Obeys post (onClient f p) (o, es) := by
  induction p generalizing es with
  | ret r =>
    have h := hf r [] (.ret r)
    rwa [List.map_nil, List.append_nil] at h
  | act a k ih =>
    refine ⟨fun path h => (by cases h), fun x _ => ih x fun r call hcall => ?_⟩
    have h := hf r (⟨a, x⟩ :: call) (.act hcall)
    rwa [List.map_cons, List.append_cons] at h

/-- What follows a scan starts after its calls. -/
theorem recovered_onScan {conn : Nat} {f : Except ScannerError β → RunProg RunError α} {p : ScanProg β}
    {post : Except RunError α → Launch × List (Occ RunAct.Ret) → Prop} (herr : ∀ g, post (.error .running) g)
    (hf : ∀ r calls during, p.Path calls (.inl r) → CalledOn env conn calls during →
      (mountsRecovered build env).Obeys post (f r) (o, es ++ during)) :
    (mountsRecovered build env).Obeys post (onScan env conn f p) (o, es) := by
  induction p generalizing es with
  | ret r =>
    have h := hf r [] [] (.ret r) .nil
    rwa [List.append_nil] at h
  | act verb k ih =>
    rw [onScan]
    refine recovered_onClient fun r call hcall => ?_
    have hgoes : ∀ answer : Except IpcError verb.Reply, r = answer.mapError .failed →
        (mountsRecovered build env).Obeys post (onScan env conn f (k answer)) (o, es ++ call.map netOcc) := by
      rintro answer rfl
      refine ih answer fun r calls during hpath hcalled => ?_
      rw [List.append_assoc]
      exact hf r _ _ (.act hpath) (.cons hcall hcalled)
    split
    · exact hgoes _ rfl
    · exact hgoes _ rfl
    · exact herr _

theorem mountAndWait_recovered {cli : Cli} (hes : Recovered build env o cli.mount es) :
    (mountsRecovered build env).Obeys (fun _ _ => True) (mountAndWait cli) (o, es) := by
  refine Contract.obeys_perform_bind.2 ⟨fun path h => ?_, fun mounted _ => ?_⟩
  · cases h
    exact hes
  cases mounted with
  | error kind => trivial
  | ok =>
    refine recovered_perform_bind nofun fun r => ?_
    cases r with
    | error kind => trivial
    | ok =>
      refine recovered_perform_bind nofun fun r => ?_
      cases r with
      | error kind => trivial
      | ok =>
        refine recovered_perform_bind nofun fun reason => ?_
        cases reason with
        | sessionEnded res => cases res <;> trivial
        | signal =>
          refine recovered_perform_bind nofun fun r => ?_
          cases r <;> trivial

/-- The walk did not fail, and the calls are those of the loop over the files. -/
theorem recoverAndMount_recovered {cli : Cli} (hcli : parseArgs build o.environment o.argv = .ok cli)
    {conn : Nat} (hconn : Connected env cli conn es) :
    (mountsRecovered build env).Obeys (fun _ _ => True) (recoverAndMount env cli conn) (o, es) := by
  refine recovered_perform_bind nofun fun folder => ?_
  refine recovered_onScan (fun _ => trivial) fun r calls during hpath hcalled => ?_
  split
  · trivial
  · next n =>
    refine recovered_onClient fun r call hcall => ?_
    split
    · refine recovered_perform_bind nofun fun _ => mountAndWait_recovered
        ⟨cli, folder, conn, es, during, call, hcli, rfl, rfl, hconn, ?_, hcall⟩
      cases folder with
      | none =>
        cases hpath
        cases hcalled
        rfl
      | some root =>
        have hx : Exec daemonMachine (ofExcept (collectFiles root) >>= fun files => replayFiles root files 0 0)
            () calls (.ok n) () := exec_of_path hpath
        cases hfiles : collectFiles root with
        | error e =>
          rw [hfiles] at hx
          obtain ⟨-, hres, -⟩ := exec_ret_iff.1 hx
          cases hres
        | ok files =>
          rw [hfiles] at hx
          obtain ⟨vs, hvs, -⟩ := exec_replayFiles hx
          exact ⟨files, vs, calls, hfiles, hvs, hcalled⟩
    · trivial
    · trivial

theorem runAsync_recovered {cli : Cli} (hcli : parseArgs build o.environment o.argv = .ok cli)
    (es : List (Occ RunAct.Ret)) :
    (mountsRecovered build env).Obeys (fun _ _ => True) (runAsync env cli) (o, es) := by
  refine recovered_onClient fun r call hcall => ?_
  split
  · next conn =>
    have hconn : Connected env cli conn (es ++ call.map netOcc) :=
      ⟨call, es, [], hcall, (List.append_nil _).symm⟩
    split
    · exact recoverAndMount_recovered hcli hconn
    · refine Contract.obeys_bind.2 (recovered_perform_bind nofun fun r => ?_)
      split
      · trivial
      refine recovered_perform_bind nofun fun r => ?_
      split
      · refine Contract.obeys_onResult.2 (.mono (recoverAndMount_recovered hcli ?_) fun res g _ => ?_)
        · exact (hconn.append _).append _
        · exact ⟨nofun, fun _ _ => trivial⟩
      · trivial
      · trivial
  · trivial
  · trivial

theorem mainTask_recovered {cli : Cli} (hcli : parseArgs build o.environment o.argv = .ok cli)
    (es : List (Occ RunAct.Ret)) :
    (mountsRecovered build env).Obeys (fun _ _ => True) (mainTask env cli) (o, es) := by
  refine Contract.obeys_onResult.2 ((runAsync_recovered hcli _).mono fun res g _ => ?_)
  split
  · trivial
  · trivial
  · exact ⟨nofun, fun _ _ => trivial⟩

/-- What `run.rs` has done is not touched by what happens aside. -/
theorem mountsRecovered_carries : (mountsRecovered build env).Carries (Contract.past (OwnRecovered build env))
    (fun g g' => g'.1 = g.1 ∧ ownOf g'.2 = g.2) (fun a => a.own = true) RunAct.Aside where
  own := by
    rintro ⟨o, es⟩ ⟨_, es'⟩ a ⟨rfl, rfl⟩ ha hpre
    exact ⟨hpre, fun r => ⟨trivial, rfl, ownOf_snoc_of_own r ha⟩⟩
  aside := by
    rintro ⟨o, es⟩ ⟨_, es'⟩ b ⟨rfl, rfl⟩ hb
    refine ⟨fun path h => ?_, fun r => ⟨rfl, ownOf_snoc_of_aside r hb⟩⟩
    subst h
    exact hb.elim

/-- Every process recovers before it mounts. -/
theorem runWithArgv_recovered (build : Build) (env : NetEnv) (o : Launch) :
    (Contract.past (OwnRecovered build env)).Obeys (fun _ _ => True) (runWithArgv build env o) (o, []) := by
  have hexit : ∀ line code g,
      (Contract.past (OwnRecovered build env)).Obeys (fun _ _ => True) (exitWith line code) g :=
    fun _ _ _ => ⟨nofun, fun _ _ => trivial⟩
  unfold runWithArgv
  split
  · exact ⟨nofun, fun _ _ => trivial⟩
  · exact ⟨nofun, fun _ _ => trivial⟩
  · exact hexit ..
  · next cli hcli =>
    refine Contract.obeys_perform_bind.2 ⟨nofun, fun r _ => ?_⟩
    split
    · exact hexit ..
    refine Contract.obeys_perform_bind.2 ⟨nofun, fun r _ => ?_⟩
    split
    · exact hexit ..
    refine Contract.obeys_perform_bind.2 ⟨nofun, fun r _ => ?_⟩
    split
    · exact hexit ..
    exact obeys_blockOn (mainTask_recovered hcli _) mountsRecovered_carries ⟨rfl, rfl⟩ fun _ _ _ _ _ => trivial

end

/-- **Recovery comes before the mount.** Before a process mounts it has connected and read its cache folder,
the walk over it has not failed, and the process has made the calls of the recovery on this first
connection: it has asked for the watermark of every file whose time of modification could be read, and has
uploaded those that were due and no others. After that it has connected again, and has spawned its
subscription; there is nothing else that it has done itself since it read the folder. -/
theorem mounted_after_recovery {build : Build} {env : NetEnv} {daemon : Daemon}
    {c : Config (ProcAct.Answer RunAct.Ret) HostState Unit (Nat × Launch) (Option Nat)}
    (h : (mountProcesses build env daemon).Run OwnPid (.initial .new) c) {t q m : Nat} {o : Launch}
    {path : Str} {r : Option (Except IoErrorKind Unit)} (ho : c.log[q]? = some (.started t (t, o)))
    (hm : c.log[m]? = some (.acted t (.act t (.mount path)) r)) :
    ∃ es, Recovered build env o path (ownOf es) ∧ occs t (c.log.take m) = es.map (Host.answered t) := by
  obtain ⟨es, hes, hoccs⟩ := Host.past_of_acted (runWithArgv_recovered build env) h ho hm
  exact ⟨es, hes path rfl, hoccs⟩

/-- The first of two processes has recovered before it mounts: it has asked about both files of its folder,
and has uploaded one. -/
theorem mounted_after_recovery_twoMounts :
    ∃ c es, (mountProcesses .sample (.vector 4) anyDaemon).Run OwnPid (.initial .new) c ∧
      Recovered .sample (.vector 4) .sample "/m".toList (ownOf es) ∧
      occs 0 (c.log.take 53) = es.map (Host.answered 0) := by
  obtain ⟨c, -, hrun, hstart, -, hmount, -⟩ := exists_twoMounts
  obtain ⟨es, hes, hoccs⟩ := mounted_after_recovery hrun hstart hmount
  exact ⟨c, es, hrun, hes, hoccs⟩

end UnidriveMount
