import UnidriveMount.Startup.ProfileLock

/-!
# The order of a process

A process does what it does in the order of `run.rs`: it checks the kernel, the user and the runtime, opens
and locks the lock file, reads the cache folder and replays, spawns the subscription, mounts, listens for
the signals, waits, unmounts, unlocks, and reports an error. It does each of these at most once, but the
requests of the recovery, of which there can be many (`startup_in_order`). Its exit code says how far it
came (`exit_codes`).
-/

namespace UnidriveMount

open Lib
open Lib.Prog (only_perform)

/-! ## The steps -/

/-- The place of an action in the order. Printing comes instead of everything else; connecting has no
place, as it is done twice, nor has what the subscription does. -/
def RunAct.place : RunAct → Option Nat
  | print _ | osrelease => some 0
  | geteuid => some 1
  | buildRuntime => some 2
  | openFile _ => some 3
  | flock _ => some 4
  | readCache _ => some 5
  | net (.write _ (.request (.verb _))) => some 6
  | net _ => none
  | spawn => some 7
  | mount _ => some 8
  | signal .terminate => some 9
  | signal .interrupt => some 10
  | stopReason => some 11
  | unmount => some 12
  | closeFile _ => some 13
  | eprint _ => some 14
  | view _ | turn => none

/-- The first place that is still to come after an action at the place `k`. -/
def afterPlace (k : Nat) : Nat := if k = 6 then 6 else k + 1

/-- The places come in order: the ghost value is the first place that is still to come. -/
def InOrder : Contract RunAct RunAct.Ret Nat where
  pre g a := ∀ k, a.place = some k → g ≤ k
  allow _ _ _ := True
  next g a _ := (a.place.map afterPlace).getD g

section
variable {ε α β : Type} {g k : Nat} {post : Except ε α → Nat → Prop}

/-- An action at its place, and what comes after it. -/
theorem inOrder_perform_bind {a : RunAct} {f : a.Ret → RunProg ε α} (ha : a.place = some k) (hg : g ≤ k)
    (hf : ∀ r, InOrder.Obeys post (f r) (afterPlace k)) :
    InOrder.Obeys post (Prog.perform a >>= f) g := by
  refine Contract.obeys_perform_bind.2 ⟨fun k' hk' => ?_, fun r _ => ?_⟩
  · cases ha.symm.trans hk'
    exact hg
  · have hnext : InOrder.next g a r = afterPlace k := by simp [InOrder, ha]
    rw [hnext]
    exact hf r

theorem inOrder_orFail {e : IoErrorKind → RunError} {r : Except IoErrorKind α}
    {f : α → RunProg RunError β} {post : Except RunError β → Nat → Prop} (herr : ∀ e, post (.error e) g)
    (hf : ∀ x, InOrder.Obeys post (f x) g) : InOrder.Obeys post (orFail e r >>= f) g := by
  cases r with
  | ok x => exact hf x
  | error kind => exact herr _

/-- A program of the client that only connects. -/
theorem inOrder_connects {f : Except Stop β → RunProg ε α} {p : NetProg β} (hp : p.Only NetAct.Connects)
    (hf : ∀ r, InOrder.Obeys post (f r) g) : InOrder.Obeys post (onClient f p) g := by
  have hplace : ∀ a : NetAct, a.Connects → (RunAct.net a).place = none := by
    intro a ha
    unfold RunAct.place
    split <;> first | rfl | (next heq => cases heq; exact ha.elim) | (next heq => cases heq)
  refine obeys_onClient_of_inv (J := fun g' => g' = g) hp rfl ?_ ?_ ?_
  · intro _ a _ ha k hk
    cases (hplace a ha).symm.trans hk
  · rintro _ a r rfl ha
    simp [InOrder, hplace a ha]
  · rintro r _ rfl
    exact hf r

/-- An action of the client has the place of the recovery's requests, or none. -/
theorem place_net_cases (a : NetAct) : (RunAct.net a).place = none ∨ (RunAct.net a).place = some 6 := by
  unfold RunAct.place
  split <;> first | exact .inl rfl | exact .inr rfl | (next heq => cases heq)

theorem inOrder_net (a : NetAct) (hg : g ≤ 6) : InOrder.pre g (.net a) := by
  intro k hk
  rcases place_net_cases a with h | h <;> cases h.symm.trans hk
  exact hg

theorem inOrder_next_net (a : NetAct) (r : a.Ret) (hg : g ≤ 6) : InOrder.next g (.net a) r ≤ 6 := by
  rcases place_net_cases a with h | h <;> simp [InOrder, h, afterPlace, hg]

end

theorem mountAndWait_inOrder (cli : Cli) {g : Nat} (hg : g ≤ 8) :
    InOrder.Obeys (fun _ g => g ≤ 13) (mountAndWait cli) g := by
  refine inOrder_perform_bind rfl hg fun r => inOrder_orFail (fun _ => by decide) fun _ => ?_
  refine inOrder_perform_bind rfl (by decide) fun r => inOrder_orFail (fun _ => by decide) fun _ => ?_
  refine inOrder_perform_bind rfl (by decide) fun r => inOrder_orFail (fun _ => by decide) fun _ => ?_
  refine inOrder_perform_bind rfl (by decide) fun reason => ?_
  cases reason with
  | sessionEnded res =>
    cases res with
    | ok => exact (by decide : 12 ≤ 13)
    | error => exact (by decide : 12 ≤ 13)
  | signal =>
    refine inOrder_perform_bind rfl (by decide) fun r => ?_
    cases r with
    | ok => exact (by decide : 13 ≤ 13)
    | error => exact (by decide : 13 ≤ 13)

theorem recoverAndMount_inOrder (env : NetEnv) (cli : Cli) (conn : Nat) {g : Nat} (hg : g ≤ 5) :
    InOrder.Obeys (fun _ g => g ≤ 13) (recoverAndMount env cli conn) g := by
  have hle : ∀ g, g ≤ 6 → g ≤ 13 := by omega
  refine inOrder_perform_bind rfl hg fun folder => ?_
  refine obeys_onScan_of_inv (J := fun g => g ≤ 6) (by decide) (fun _ a => inOrder_net a)
    (fun _ a r => inOrder_next_net a r) hle fun r g hg => ?_
  split
  · exact hle g hg
  · refine obeys_onClient_of_forall (J := fun g => g ≤ 6) _ hg (fun _ a => inOrder_net a)
      (fun _ a r => inOrder_next_net a r) fun r g hg => ?_
    split
    · exact inOrder_perform_bind rfl (by omega) fun _ => mountAndWait_inOrder cli le_rfl
    · exact hle g hg
    · exact hle g hg

theorem runAsync_inOrder (env : NetEnv) (cli : Cli) {g : Nat} (hg : g ≤ 3) :
    InOrder.Obeys (fun _ g => g ≤ 14) (runAsync env cli) g := by
  refine inOrder_connects (connectAuthAtStartup_connects ..) fun r => ?_
  split
  · next conn =>
    split
    · exact (recoverAndMount_inOrder env cli conn (by omega)).mono fun _ _ h => by omega
    · refine Contract.obeys_bind.2 (inOrder_perform_bind rfl hg fun r => ?_)
      split
      · exact (by decide : 4 ≤ 14)
      · refine inOrder_perform_bind rfl (by decide) fun r => ?_
        split
        · refine Contract.obeys_onResult.2 ?_
          refine (recoverAndMount_inOrder env cli conn (by decide)).mono fun res g hg => ?_
          exact inOrder_perform_bind rfl hg fun _ => (by decide : 14 ≤ 14)
        · exact (by decide : 5 ≤ 14)
        · exact (by decide : 5 ≤ 14)
  · exact hg.trans (by decide)
  · exact hg.trans (by decide)

theorem exitWith_inOrder (line : ErrorLine) (code : Nat) {g : Nat} (hg : g ≤ 14) :
    InOrder.Obeys (fun _ _ => True) (exitWith line code) g :=
  inOrder_perform_bind rfl hg fun _ => trivial

theorem mainTask_inOrder (env : NetEnv) (cli : Cli) {g : Nat} (hg : g ≤ 3) :
    InOrder.Obeys (fun _ _ => True) (mainTask env cli) g := by
  refine Contract.obeys_onResult.2 ((runAsync_inOrder env cli hg).mono fun res g hg => ?_)
  split
  · trivial
  · trivial
  · exact exitWith_inOrder _ _ hg

/-- What happens aside has no place. -/
theorem inOrder_aside (g : Nat) {a : RunAct} (ha : a.Aside) :
    InOrder.pre g a ∧ ∀ r, InOrder.next g a r = g := by
  cases a <;> first | exact ha.elim | exact ⟨nofun, fun _ => rfl⟩

/-- Every process keeps the order. -/
theorem runWithArgv_inOrder (build : Build) (env : NetEnv) (o : Launch) :
    InOrder.Obeys (fun _ _ => True) (runWithArgv build env o) 0 := by
  unfold runWithArgv
  split
  · exact inOrder_perform_bind rfl le_rfl fun _ => trivial
  · exact inOrder_perform_bind rfl le_rfl fun _ => trivial
  · exact exitWith_inOrder _ _ (by decide)
  · next cli _ =>
    refine inOrder_perform_bind rfl le_rfl fun r => ?_
    split
    · exact exitWith_inOrder _ _ (by decide)
    refine inOrder_perform_bind rfl (by decide) fun r => ?_
    split
    · exact exitWith_inOrder _ _ (by decide)
    refine inOrder_perform_bind rfl (by decide) fun r => ?_
    split
    · exact exitWith_inOrder _ _ (by decide)
    exact obeys_blockOn_of_aside (mainTask_inOrder env cli le_rfl) (fun _ _ _ => trivial)
      fun g _ => inOrder_aside g

section
variable {build : Build} {env : NetEnv} {daemon : Daemon}
  {c : Config (ProcAct.Answer RunAct.Ret) HostState Unit (Nat × Launch) (Option Nat)}

/-- What a process has done lies before what is still to come. -/
theorem places_of_run (h : (mountProcesses build env daemon).Run OwnPid (.initial .new) c) {t k g : Nat}
    {a : RunAct} {x : a.Ret} (hmem : .acted t (.act t a) (some x) ∈ c.log) (ha : a.place = some k)
    (hg : InOrder.ghosts (fun _ => 0) c.log t = some g) : afterPlace k ≤ g := by
  have hI := Host.invariant (H := mountHost env.serde daemon) (I := fun _ γ (l : List RunEvent) =>
    ∀ t a (x : a.Ret) k g, .acted t (.act t a) (some x) ∈ l → a.place = some k → γ t = some g →
      afterPlace k ≤ g) (runWithArgv_inOrder build env) (fun _ _ _ => trivial) (fun _ _ _ _ _ => nofun)
      ?_ ?_ ?_ ?_ h
  · exact hI t a x k g hmem ha hg
  · intro s γ l t o hI hfresh _ u a x k g hmem ha hg
    rcases List.mem_append.1 hmem with hmem | hmem
    · have hu : u ≠ t := hfresh _ hmem
      rw [Function.update_of_ne hu] at hg
      exact hI u a x k g hmem ha hg
    · cases List.mem_singleton.1 hmem
  · intro s γ l t g b w hI hg hpre u a x k g' hmem ha hg'
    -- the first place still to come never moves back
    have hnext : g ≤ InOrder.next g b (b.run env.serde daemon t w s).1 := by
      cases hb : b.place with
      | none => simp [InOrder, hb]
      | some k =>
        have hk := hpre k hb
        simp only [InOrder, hb, afterPlace, Option.map_some, Option.getD_some]
        split <;> omega
    rcases List.mem_append.1 hmem with hold | hnew
    · rw [Function.update_apply] at hg'
      split at hg'
      · next hu =>
        subst hu
        cases hg'
        exact (hI u a x k g hold ha hg).trans hnext
      · exact hI u a x k g' hold ha hg'
    · cases List.mem_singleton.1 hnew
      rw [Function.update_self] at hg'
      cases hg'
      simp [InOrder, ha]
  · intro s γ l t g e hI _ hgone u a x k g' hmem ha hg'
    rcases List.mem_append.1 hmem with hmem | hmem
    · rw [Function.update_apply] at hg'
      split at hg'
      · cases hg'
      · exact hI u a x k g' hmem ha hg'
    · exact absurd hgone (List.mem_singleton.1 hmem ▸ not_gone_answered _ _ _ _)
  · intro s γ l t o res hI u a x k g hmem ha hg
    rcases List.mem_append.1 hmem with hmem | hmem
    · exact hI u a x k g hmem ha hg
    · cases List.mem_singleton.1 hmem

/-- **A process goes through its steps in order, once each.** Of two things it does at different times, the
later one has the later place; only the requests of the recovery share a place. -/
theorem startup_in_order (h : (mountProcesses build env daemon).Run OwnPid (.initial .new) c)
    {t m n i j : Nat} {a b : RunAct} {x : a.Ret} {r : Option b.Ret} (hmn : m < n)
    (hm : c.log[m]? = some (.acted t (.act t a) (some x))) (hn : c.log[n]? = some (.acted t (.act t b) r))
    (ha : a.place = some i) (hb : b.place = some j) : i < j ∨ i = 6 ∧ j = 6 := by
  obtain ⟨c₁, g, hrun, hlog, hg, hpre, -, -⟩ :=
    Host.pre_of_acted (runWithArgv_inOrder build env) (fun _ _ _ => trivial) h hn
  have hmem : .acted t (.act t a) (some x) ∈ c₁.log := by
    rw [hlog]
    exact List.mem_of_getElem? ((List.getElem?_take_of_lt hmn).trans hm)
  have hi := places_of_run hrun hmem ha hg
  have hj := hpre j hb
  unfold afterPlace at hi
  split at hi <;> omega

/-- What the first of two processes does before it mounts has its place before the mount. -/
theorem startup_in_order_twoMounts :
    ∃ c, (mountProcesses .sample (.vector 4) anyDaemon).Run OwnPid (.initial .new) c ∧
      c.log[19]? = some (lockedBy 0 7) ∧
      ∀ m < 53, ∀ (a : RunAct) (x : a.Ret) (i : Nat), c.log[m]? = some (.acted 0 (.act 0 a) (some x)) →
        a.place = some i → i < 8 := by
  obtain ⟨c, -, hrun, -, hlock, hmount, -⟩ := exists_twoMounts
  refine ⟨c, hrun, hlock, fun m hm a x i hacted hplace => ?_⟩
  rcases startup_in_order hrun hm hacted hmount hplace rfl with hlt | ⟨-, h⟩
  · exact hlt
  · cases h

end

/-! ## Exit codes -/

/-- The file system was mounted, and the session came to a good end. -/
def HasServed (path : Str) (es : List (Occ RunAct.Ret)) : Prop :=
  ⟨.mount path, .ok ()⟩ ∈ es ∧
    (⟨.stopReason, .sessionEnded (.ok ())⟩ ∈ es ∨ ⟨.unmount, .ok ()⟩ ∈ es)

/-- What a process that ended with the exit code has done. -/
def ExitMeans (build : Build) (o : Launch) (code : Nat) (es : List (Occ RunAct.Ret)) : Prop :=
  match parseArgs build o.environment o.argv with
  | .error (.help msg) | .error (.version msg) => code = exOk ∧ es = [⟨.print msg, ()⟩]
  | .error (.usage msg) => code = exUsage ∧ es = [⟨.eprint (.usage msg), ()⟩]
  | .ok cli =>
    code = exOk ∧ HasServed cli.mount es ∨
    code = exConfig ∧ (∃ release e, checkKernelFloor release = .error e ∧
      es = [⟨.osrelease, release⟩, ⟨.eprint (.kernelFloor e), ()⟩]) ∨
    code = exGenericFailure ∧ ∃ line, ⟨.eprint line, ()⟩ ∈ es

theorem HasServed.mono {path : Str} {es es' : List (Occ RunAct.Ret)} (h : HasServed path es)
    (hsub : es ⊆ es') : HasServed path es' :=
  ⟨hsub h.1, h.2.imp (@hsub _) (@hsub _)⟩

theorem history_onClient {ε α β : Type} {post : Except ε α → List (Occ RunAct.Ret) → Prop}
    {f : Except Stop β → RunProg ε α} (hf : ∀ r es, Contract.history.Obeys post (f r) es) (p : NetProg β)
    (es : List (Occ RunAct.Ret)) : Contract.history.Obeys post (onClient f p) es :=
  obeys_onClient_of_forall (J := fun _ => True) p trivial (fun _ _ _ => trivial)
    (fun _ _ _ _ => trivial) fun r es _ => hf r es

/-- If `run_async` returns ok the file system was mounted, and the session came to a good end. -/
def ServedIfOk (cli : Cli) (res : Except RunError Unit) (es : List (Occ RunAct.Ret)) : Prop :=
  res = .ok () → HasServed cli.mount es

theorem mountAndWait_history (cli : Cli) (es : List (Occ RunAct.Ret)) :
    Contract.history.Obeys (ServedIfOk cli) (mountAndWait cli) es := by
  have hfails : ∀ e es, ServedIfOk cli (.error e) es := fun _ _ => nofun
  refine Contract.obeys_perform_bind.2 ⟨trivial, fun mounted _ => ?_⟩
  cases mounted with
  | error kind => exact hfails _ _
  | ok =>
    refine Contract.obeys_perform_bind.2 ⟨trivial, fun r _ => ?_⟩
    cases r with
    | error kind => exact hfails _ _
    | ok =>
      refine Contract.obeys_perform_bind.2 ⟨trivial, fun r _ => ?_⟩
      cases r with
      | error kind => exact hfails _ _
      | ok =>
        refine Contract.obeys_perform_bind.2 ⟨trivial, fun reason _ => ?_⟩
        match reason with
        | .sessionEnded (.error kind) => exact hfails _ _
        | .sessionEnded (.ok ()) =>
          intro _
          simp [HasServed, Contract.history]
        | .signal =>
          refine Contract.obeys_perform_bind.2 ⟨trivial, fun r _ => ?_⟩
          cases r with
          | error kind => exact hfails _ _
          | ok =>
            intro _
            simp [HasServed, Contract.history]

theorem recoverAndMount_history (env : NetEnv) (cli : Cli) (conn : Nat) (es : List (Occ RunAct.Ret)) :
    Contract.history.Obeys (ServedIfOk cli) (recoverAndMount env cli conn) es := by
  refine Contract.obeys_perform_bind.2 ⟨trivial, fun folder _ => ?_⟩
  refine obeys_onScan_of_inv (J := fun _ => True) trivial (fun _ _ _ => trivial) (fun _ _ _ _ => trivial)
    (fun _ _ => nofun) fun r es _ => ?_
  split
  · nofun
  · refine history_onClient (fun r es => ?_) _ es
    split
    · exact Contract.obeys_perform_bind.2 ⟨trivial, fun _ _ => mountAndWait_history cli _⟩
    · nofun
    · nofun

theorem runAsync_history (env : NetEnv) (cli : Cli) (es : List (Occ RunAct.Ret)) :
    Contract.history.Obeys (ServedIfOk cli) (runAsync env cli) es := by
  refine history_onClient (fun r es => ?_) _ es
  split
  · next conn =>
    split
    · exact recoverAndMount_history env cli conn es
    · refine Contract.obeys_bind.2 ?_
      refine Contract.obeys_perform_bind.2 ⟨trivial, fun r _ => ?_⟩
      split
      · nofun
      refine Contract.obeys_perform_bind.2 ⟨trivial, fun r _ => ?_⟩
      split
      · refine Contract.obeys_onResult.2 ((recoverAndMount_history env cli conn _).mono fun res es h => ?_)
        exact ⟨trivial, fun _ _ hres => (h hres).mono (List.subset_append_left ..)⟩
      · nofun
      · nofun
  · nofun
  · nofun

theorem exitWith_history (line : ErrorLine) (code : Nat) (es : List (Occ RunAct.Ret)) :
    Contract.history.Obeys (fun res es' => ∀ c, res = .ok c → c = code ∧ es' = es ++ [⟨.eprint line, ()⟩])
      (exitWith line code) es :=
  ⟨trivial, fun _ _ _ hcode => ⟨(Except.ok.inj hcode).symm, rfl⟩⟩

/-- What is known of a process that has come to its runtime, by its exit code. -/
def EndMeans (cli : Cli) (res : Except Unit Nat) (es : List (Occ RunAct.Ret)) : Prop :=
  ∀ code, res = .ok code → code = exOk ∧ HasServed cli.mount es ∨
    code = exGenericFailure ∧ ∃ line, ⟨.eprint line, ()⟩ ∈ es

theorem exitWith_endMeans (cli : Cli) (line : ErrorLine) (es : List (Occ RunAct.Ret)) :
    Contract.history.Obeys (EndMeans cli) (exitWith line exGenericFailure) es := by
  refine (exitWith_history ..).mono fun res es' h code hcode => .inr ?_
  obtain ⟨rfl, rfl⟩ := h code hcode
  exact ⟨rfl, line, by simp⟩

theorem mainTask_history (env : NetEnv) (cli : Cli) (es : List (Occ RunAct.Ret)) :
    Contract.history.Obeys (EndMeans cli) (mainTask env cli) es := by
  refine Contract.obeys_onResult.2 ((runAsync_history env cli _).mono fun res es h => ?_)
  split
  · exact fun code hcode => .inl ⟨(Except.ok.inj hcode).symm, h rfl⟩
  · nofun
  · exact exitWith_endMeans ..

/-- What the program has done it has done beside the task, too. -/
theorem history_carries : Contract.Carries (Contract.history : Contract RunAct RunAct.Ret _)
    Contract.history (· ⊆ ·) (fun a => a.own = true) RunAct.Aside where
  own hsub _ _ := ⟨trivial, fun _ => ⟨trivial, List.append_subset.2
    ⟨List.Subset.trans hsub (List.subset_append_left ..), List.subset_append_right ..⟩⟩⟩
  aside hsub _ := ⟨trivial, fun _ => List.Subset.trans hsub (List.subset_append_left ..)⟩

/-- What a process has done by its exit code. -/
theorem runWithArgv_history (build : Build) (env : NetEnv) (o : Launch) :
    Contract.history.Obeys (fun res es => ∀ code, res = .ok code → ExitMeans build o code es)
      (runWithArgv build env o) [] := by
  unfold runWithArgv ExitMeans
  cases parseArgs build o.environment o.argv with
  | error e =>
    cases e with
    | help msg | version msg => exact ⟨trivial, fun _ _ _ hcode => ⟨(Except.ok.inj hcode).symm, rfl⟩⟩
    | usage msg => exact exitWith_history ..
  | ok cli =>
    have hmeans : ∀ res es, EndMeans cli res es → ∀ code, res = .ok code →
        code = exOk ∧ HasServed cli.mount es ∨
        code = exConfig ∧ (∃ release e, checkKernelFloor release = .error e ∧
          es = [⟨.osrelease, release⟩, ⟨.eprint (.kernelFloor e), ()⟩]) ∨
        code = exGenericFailure ∧ ∃ line, ⟨.eprint line, ()⟩ ∈ es :=
      fun res es h code hcode => (h code hcode).imp_right .inr
    dsimp only
    refine Contract.obeys_perform_bind.2 ⟨trivial, fun release _ => ?_⟩
    split
    · next e hfloor =>
      refine (exitWith_history (.kernelFloor e) exConfig _).mono fun res es' h code hcode => ?_
      obtain ⟨rfl, rfl⟩ := h code hcode
      exact .inr (.inl ⟨rfl, release, e, hfloor, rfl⟩)
    refine Contract.obeys_perform_bind.2 ⟨trivial, fun uid _ => ?_⟩
    split
    · exact (exitWith_endMeans cli _ _).mono hmeans
    refine Contract.obeys_perform_bind.2 ⟨trivial, fun r _ => ?_⟩
    split
    · exact (exitWith_endMeans cli _ _).mono hmeans
    refine obeys_blockOn (mainTask_history env cli _) history_carries (List.Subset.refl _) ?_
    intro res es es' hsub h
    refine hmeans res es' fun code hcode => ?_
    rcases h code hcode with ⟨rfl, hserved⟩ | ⟨rfl, line, hline⟩
    · exact .inl ⟨rfl, hserved.mono hsub⟩
    · exact .inr ⟨rfl, line, hsub hline⟩

/-- **The exit code says what the process has done.** A process that was asked for help or the version, or
that was asked wrongly, only prints, with 0 and with 64; otherwise 0 means that the file system was mounted
and the session came to a good end, 78 that nothing was done but to read the kernel's release, and 1 that an
error was reported. There is no other exit code. -/
theorem exit_codes {build : Build} {env : NetEnv} {daemon : Daemon}
    {c : Config (ProcAct.Answer RunAct.Ret) HostState Unit (Nat × Launch) (Option Nat)}
    (h : (mountProcesses build env daemon).Run OwnPid (.initial .new) c) {t i code : Nat} {o : Nat × Launch}
    (hi : c.log[i]? = some (.returned t o (.ok (some code)))) :
    ∃ es, ExitMeans build o.2 code es ∧
      occs t (c.log.take i) = es.map (Host.answered t) ++ [⟨.exit t, ()⟩] := by
  obtain ⟨es, hmeans, hes⟩ := Host.history_of_returned (runWithArgv_history build env) h hi
  exact ⟨es, hmeans code rfl, hes⟩

/-- The first of two processes exits with 0, and it has mounted. -/
theorem exit_codes_twoMounts :
    ∃ c es, (mountProcesses .sample (.vector 4) anyDaemon).Run OwnPid (.initial .new) c ∧
      HasServed "/m".toList es ∧ occs 0 (c.log.take 122) = es.map (Host.answered 0) ++ [⟨.exit 0, ()⟩] := by
  obtain ⟨c, -, hrun, -, -, -, -, -, hend⟩ := exists_twoMounts
  obtain ⟨es, hmeans, hes⟩ := exit_codes hrun hend
  have hcli : ∃ cli, parseArgs .sample Launch.sample.environment Launch.sample.argv = .ok cli ∧
      cli.mount = "/m".toList := ⟨_, rfl, rfl⟩
  obtain ⟨cli, hcli, hpath⟩ := hcli
  rw [ExitMeans, hcli] at hmeans
  rcases hmeans with ⟨-, hserved⟩ | ⟨hcode, -⟩ | ⟨hcode, -⟩
  · exact ⟨c, es, hrun, hpath ▸ hserved, hes⟩
  · cases hcode
  · cases hcode

end UnidriveMount
