import UnidriveMount.Fs.Ops
import UnidriveMount.Lib.Locking
import Mathlib.Data.Fintype.Card

/-!
# The locks of the filesystem

Which of the mutexes of `UnidriveFs` is held in each critical section. Most sections take one; taking over
a listing and applying a change event take the path map's and then the attribute cache's. The lock of
the client is held from the start of a call of the daemon to its reply, while the request takes no other.

So no two requests ever wait for each other, and every request returns, as long as the daemon answers
the calls it gets (`requests_return`). Since a section holds all the locks it needs while it is executed,
the runs in which locks are taken one by one are those of the atomic sections (`locks_transparent`).
-/

namespace UnidriveMount

open Lib

/-- The mutexes of `UnidriveFs`. -/
inductive Lock : Type where
  | ipc
  | quarantineWarned
  | paths
  | attrs
  | openHandles
  | rawNames
  deriving DecidableEq, Repr

/-- The place of a lock in the order in which locks are taken. -/
def Lock.rank : Lock → Fin 6
  | ipc => 0
  | quarantineWarned => 1
  | paths => 2
  | attrs => 3
  | openHandles => 4
  | rawNames => 5

theorem Lock.rank_injective : Function.Injective Lock.rank := by
  intro l m h
  cases l <;> cases m <;> first | rfl | cases h

instance : LinearOrder Lock := LinearOrder.lift' Lock.rank Lock.rank_injective

instance : Finite Lock := Finite.of_injective Lock.rank Lock.rank_injective

/-- The locks that are held while the action is executed, in the order in which they are taken. -/
def Act.needs : Act → List Lock
  | pathFor _ | pathForBoth .. | inodeFor _ | intern _ | forget _ | renamePaths .. => [.paths]
  | rawName _ | rawInsert .. | rawRemove _ | forgetRawNames _ | renameRawNames .. | cloneRawNames =>
    [.rawNames]
  | attrOf _ | hasAttr _ | attrInsert .. | attrRemove _ | attrEdit .. | attrOpened .. => [.attrs]
  | warnQuarantined _ => [.quarantineWarned]
  | insertListed _ | applyInvalidation .. => [.paths, .attrs]
  | handleInsert .. | handleRemove _ | handleRead .. | handleWrite .. | handleSetLen .. | handleClaim ..
  | handleRestore _ | followRenames .. | unsentPaths => [.openHandles]
  | call _ | reply _ => [.ipc]
  -- the counters are atomic, and files and the clock belong to the system
  | nextHandleId | nextFh | openFile .. | fileLen _ | setLen .. | removeFile _ | removeDirAll _ | nowMs => []

/-- The locks that are still held after the action. -/
def Act.keeps : Act → List Lock
  | call _ => [.ipc]
  | _ => []

/-- The locks of the filesystem's critical sections. -/
def fsLocking : Locking Act Lock where
  needs := Act.needs
  keeps := Act.keeps
  ascending a := by cases a <;> simp [Act.needs]; all_goals decide
  keeps_sub a := by cases a <;> simp [Act.needs, Act.keeps]

/-! ## Calls are made in one piece -/

/-- The action is no part of a call of the daemon. -/
def Act.Local : Act → Prop
  | call _ | reply _ => False
  | _ => True

/-- The program is put together from calls of the daemon and other actions. -/
inductive Composed {α : Type} : FsProg α → Prop where
  | ret (r : Except Errno α) : Composed (.ret r)
  | call (verb : Verb) {k : Except IpcError verb.Reply → FsProg α} (hk : ∀ r, Composed (k r)) :
      Composed (.act (.call verb) fun _ => .act (.reply verb) k)
  | act {a : Act} {k : a.Ret → FsProg α} (ha : a.Local) (hk : ∀ r, Composed (k r)) :
      Composed (.act a k)

namespace Composed

variable {α β : Type}

theorem bind {p : FsProg α} {f : α → FsProg β} (hp : Composed p) (hf : ∀ x, Composed (f x)) :
    Composed (p >>= f) := by
  induction hp with
  | ret r =>
    cases r with
    | ok x => exact hf x
    | error e => exact .ret _
  | call verb _ ih => exact .call verb ih
  | act ha _ ih => exact .act ha ih

theorem ipc (verb : Verb) : Composed (ipc verb) := .call verb fun _ => .ret _

theorem perform {a : Act} (ha : a.Local) : Composed (perform a) := .act ha fun _ => .ret _

/-- **The program of every request.** -/
theorem prog (nfc : Str → Str) (cacheRoot : Option Str) (o : Op) : Composed (o.prog nfc cacheRoot) := by
  -- the programs are taken apart as they are written: `bind`, `perform`, `ipc` and case splits
  cases o <;> unfold Op.prog <;> refine .bind ?_ fun _ => .ret _
  all_goals
    simp only [UnidriveMount.lookup, UnidriveMount.getattr, UnidriveMount.open, UnidriveMount.read,
      UnidriveMount.write, UnidriveMount.fsync, UnidriveMount.release, UnidriveMount.readdir,
      UnidriveMount.readdirplus, UnidriveMount.mkdir, UnidriveMount.unlink, UnidriveMount.rmdir,
      UnidriveMount.create, UnidriveMount.mknod, UnidriveMount.setattr, UnidriveMount.rename,
      UnidriveMount.apply, createInternal, getOrFetchAttr, refuseNfcCollision, populateFromList,
      visibleName, isCached, recordRawName, cachedEntry, openCacheFile, syncSize, publish, commitIfDirty,
      dotdotInode, forgetEntry, setattrSize, UnidriveMount.truncate, bareTruncateToZero,
      bareTruncateToSize]
    repeat' first
      | exact .ret _
      | exact ipc _
      | exact perform trivial
      | refine .bind ?_ fun _ => ?_
      | (unfold Prog.okOr; split)
      | (unfold mapErr; split)
      | split

/-- The locks are taken in order. -/
theorem obeys {p : FsProg α} (hp : Composed p) :
    fsLocking.contract.Obeys (fun _ kept => kept = []) p [] := by
  induction hp with
  | ret r => rfl
  | call verb _ ih =>
    exact ⟨List.nil_prefix, fun _ _ => ⟨List.prefix_rfl, fun r _ => ih r⟩⟩
  | @act a k ha _ ih =>
    refine ⟨List.nil_prefix, fun r _ => ?_⟩
    have hkeeps : a.keeps = [] := by cases a <;> first | rfl | exact ha.elim
    change fsLocking.contract.Obeys _ (k r) a.keeps
    rw [hkeeps]
    exact ih r

end Composed

/-- The rest of a program in progress: between two of its parts, or waiting for a reply. -/
inductive Underway {α : Type} : FsProg α → Prop where
  | composed {p : FsProg α} (h : Composed p) : Underway p
  | waiting (verb : Verb) {k : Except IpcError verb.Reply → FsProg α} (hk : ∀ r, Composed (k r)) :
      Underway (.act (.reply verb) k)

namespace Underway

variable {α : Type}

/-- After a call of the daemon the program waits for the reply. -/
theorem of_call {verb : Verb} {k : Unit → FsProg α} (h : Underway (.act (.call verb) k)) :
    ∃ k' : Except IpcError verb.Reply → FsProg α, k () = .act (.reply verb) k' ∧ ∀ r, Composed (k' r) := by
  cases h with
  | composed h =>
    cases h with
    | call _ hk => exact ⟨_, rfl, hk⟩
    | act ha _ => exact ha.elim

/-- After any other action it is between two parts. -/
theorem of_act {a : Act} {k : a.Ret → FsProg α} (h : Underway (.act a k)) (ha : ∀ verb, a ≠ .call verb)
    (r : a.Ret) : Composed (k r) := by
  cases h with
  | composed h =>
    cases h with
    | call verb _ => exact absurd rfl (ha verb)
    | act _ hk => exact hk r
  | waiting verb hk => exact hk r

end Underway

/-! ## One caller at a time -/

/-- An action that is no part of a call leaves the lock of the client as it is. -/
theorem ipcBusy_of_step {a : Act} {s s' : FsState} {r : a.Ret} (ha : a.Local)
    (h : fsMachine.Step a s r s') : s'.ipcBusy = s.ipcBusy := by
  have hlisted : ∀ (entries : List ListEntry) (s : FsState),
      (s.insertListed entries).2.ipcBusy = s.ipcBusy := by
    intro entries
    induction entries with
    | nil => exact fun _ => rfl
    | cons e entries ih => exact fun s => ih _
  obtain ⟨-, (w : World), (hrun : a.run w s = (r, s'))⟩ := h
  cases a with
  | call | reply => exact ha.elim
  | insertListed entries =>
    rw [show s' = (s.insertListed entries).2 from (congrArg Prod.snd hrun).symm]
    exact hlisted entries s
  | handleWrite | handleSetLen | handleClaim =>
    simp only [Act.run, FsState.handleWrite, FsState.handleSetLen, FsState.handleClaim] at hrun
    split at hrun <;> [skip; split at hrun] <;> cases hrun <;> rfl
  | attrOpened | openFile | setLen =>
    simp only [Act.run] at hrun
    split at hrun <;> cases hrun <;> rfl
  | removeFile path | removeDirAll path =>
    cases hrun
    split <;> rfl
  | _ => cases hrun; rfl

/-- The request is waiting for the reply to a call of the verb. -/
def FsConfig.WaitsFor (c : FsConfig) (t : Nat) (verb : Verb) : Prop :=
  ∃ o k, c.live t = some (o, .act (.reply verb) k)

section
variable {c : FsConfig} {t u : Nat} {o : Op} {verb verb' : Verb}

/-- A program between two of its parts waits for no reply. -/
theorem not_waits_of_composed {o' : Op} {p : FsProg Reply} (hp : Composed p)
    {k : Except IpcError verb.Reply → FsProg Reply} :
    (some (o, p) : Option (Op × FsProg Reply)) ≠ some (o', .act (.reply verb) k) := by
  intro h
  obtain ⟨-, rfl⟩ := Prod.mk.inj (Option.some.inj h)
  cases hp with
  | act ha _ => exact ha

theorem waitsFor_start {p : FsProg Reply} (hnone : c.live t = none) (hp : Composed p) :
    FsConfig.WaitsFor (c.start t o p) u verb ↔ FsConfig.WaitsFor c u verb := by
  unfold FsConfig.WaitsFor
  by_cases hut : u = t
  · subst hut
    simp [hnone, not_waits_of_composed hp]
  · simp [hut]

theorem waitsFor_finish {res : Except Errno Reply} (hlive : c.live t = some (o, .ret res)) :
    FsConfig.WaitsFor (c.finish t o res) u verb ↔ FsConfig.WaitsFor c u verb := by
  unfold FsConfig.WaitsFor
  by_cases hut : u = t
  · subst hut
    simp [hlive]
  · simp [hut]

/-- After an action that starts no call the request does not wait. -/
theorem waitsFor_act {a : Act} {r : a.Ret} {s : FsState} {p : FsProg Reply} (hp : Composed p) :
    FsConfig.WaitsFor (c.act t o a r p s) u verb ↔ u ≠ t ∧ FsConfig.WaitsFor c u verb := by
  unfold FsConfig.WaitsFor
  by_cases hut : u = t
  · subst hut
    simp [not_waits_of_composed hp]
  · simp [hut]

theorem waitsFor_call {s : FsState} {k : Except IpcError verb.Reply → FsProg Reply} :
    FsConfig.WaitsFor (c.act t o (.call verb) () (.act (.reply verb) k) s) u verb' ↔
      u = t ∧ verb' = verb ∨ u ≠ t ∧ FsConfig.WaitsFor c u verb' := by
  unfold FsConfig.WaitsFor
  by_cases hut : u = t
  · subst hut
    simp only [Config.act_live, if_true, true_and, ne_eq, not_true_eq_false, false_and, or_false]
    constructor
    · rintro ⟨o', k', hk⟩
      cases hk
      rfl
    · rintro rfl
      exact ⟨o, k, rfl⟩
  · simp [hut]

end

/-- The requests in progress are at some point of their programs. The lock of the client is taken
exactly while one of them waits for a reply, and that is the only one that has kept a lock. -/
structure OneCaller (c : FsConfig) : Prop where
  underway : ∀ t o p, c.live t = some (o, p) → Underway p
  busy : c.st.ipcBusy = true ↔ ∃ t verb, FsConfig.WaitsFor c t verb
  one : ∀ t u verb verb', FsConfig.WaitsFor c t verb → FsConfig.WaitsFor c u verb' → t = u
  kept : ∀ t verb, FsConfig.WaitsFor c t verb → fsLocking.contract.ghost [] t c.log = [Lock.ipc]
  free : ∀ t, (∀ verb, ¬ FsConfig.WaitsFor c t verb) → fsLocking.contract.ghost [] t c.log = []

namespace OneCaller

variable {c : FsConfig} {t : Nat} {o : Op}

/-- A step after which the same requests wait for replies, and the same locks are kept. -/
theorem of_waitsFor_iff {c' : FsConfig} (h : OneCaller c)
    (hunderway : ∀ t o p, c'.live t = some (o, p) → Underway p) (hst : c'.st.ipcBusy = c.st.ipcBusy)
    (hwaits : ∀ t verb, FsConfig.WaitsFor c' t verb ↔ FsConfig.WaitsFor c t verb)
    (hghost : ∀ t, fsLocking.contract.ghost [] t c'.log = fsLocking.contract.ghost [] t c.log) :
    OneCaller c' where
  underway := hunderway
  busy := by
    rw [hst, h.busy]
    exact exists_congr fun t => exists_congr fun verb => (hwaits t verb).symm
  one t u verb verb' ht hu := h.one t u verb verb' ((hwaits t verb).1 ht) ((hwaits u verb').1 hu)
  kept t verb ht := (hghost t).trans (h.kept t verb ((hwaits t verb).1 ht))
  free t ht := (hghost t).trans (h.free t fun verb h' => ht verb ((hwaits t verb).2 h'))

theorem start {p : FsProg Reply} (h : OneCaller c) (hnone : c.live t = none) (hp : Composed p) :
    OneCaller (c.start t o p) := by
  refine h.of_waitsFor_iff ?_ rfl (fun u verb => waitsFor_start hnone hp) fun u => by simp
  intro u o' q hu
  rw [Config.start_live] at hu
  split at hu
  · cases hu
    exact .composed hp
  · exact h.underway u o' q hu

theorem finish {res : Except Errno Reply} (h : OneCaller c) (hlive : c.live t = some (o, .ret res)) :
    OneCaller (c.finish t o res) := by
  refine h.of_waitsFor_iff ?_ rfl (fun u verb => waitsFor_finish hlive) fun u => by simp
  intro u o' q hu
  rw [Config.finish_live] at hu
  split at hu
  · cases hu
  · exact h.underway u o' q hu

theorem not_waits_of_local {a : Act} {k : a.Ret → FsProg Reply}
    (hlive : c.live t = some (o, .act a k)) (ha : a.Local) {verb : Verb} :
    ¬ FsConfig.WaitsFor c t verb := by
  rintro ⟨o', k', hk⟩
  cases hlive.symm.trans hk
  exact ha

/-- The rests of programs after an action. -/
theorem underway_act {a : Act} {r : a.Ret} {p : FsProg Reply} {s : FsState} (h : OneCaller c)
    (hp : Underway p) :
    ∀ u o' q, (c.act t o a r p s).live u = some (o', q) → Underway q := by
  intro u o' q hu
  rw [Config.act_live] at hu
  split at hu
  · cases hu
    exact hp
  · exact h.underway u o' q hu

/-- An action of a request that is no part of a call. -/
theorem act {a : Act} {k : a.Ret → FsProg Reply} {r : a.Ret} {s : FsState} (h : OneCaller c)
    (hlive : c.live t = some (o, .act a k)) (ha : a.Local) (hst : fsMachine.Step a c.st r s) :
    OneCaller (c.act t o a r (k r) s) := by
  have hp : Composed (k r) := (h.underway t o _ hlive).of_act (by rintro verb rfl; exact ha) r
  refine h.of_waitsFor_iff (h.underway_act (.composed hp)) (ipcBusy_of_step ha hst) ?_ ?_
  · intro u verb
    rw [waitsFor_act hp, and_iff_right_iff_imp]
    rintro hu rfl
    exact not_waits_of_local hlive ha hu
  · intro u
    by_cases hut : u = t
    · subst hut
      have hkeeps : a.keeps = [] := by cases a <;> first | rfl | exact ha.elim
      rw [Config.act_log, Contract.ghost_snoc_acted_self,
        h.free u fun verb => not_waits_of_local hlive ha]
      exact hkeeps
    · rw [Config.act_log, Contract.ghost_snoc_acted_ne (Ne.symm hut)]

/-- Nobody waits when a call is started. -/
theorem not_waits_of_call {verb : Verb} {s : FsState} (h : OneCaller c)
    (hst : fsMachine.Step (.call verb) c.st () s) (u : Nat) (verb' : Verb) :
    ¬ FsConfig.WaitsFor c u verb' := by
  intro hu
  have hidle : c.st.ipcBusy = false := by simpa [fsMachine, Act.ready] using hst.1
  simpa [hidle] using h.busy.2 ⟨u, verb', hu⟩

/-- The start of a call. -/
theorem call {verb : Verb} {k : Unit → FsProg Reply} {s : FsState} (h : OneCaller c)
    (hlive : c.live t = some (o, .act (.call verb) k)) (hst : fsMachine.Step (.call verb) c.st () s) :
    OneCaller (c.act t o (.call verb) () (k ()) s) := by
  have hnone := h.not_waits_of_call hst
  obtain ⟨k', hk', hrest⟩ := (h.underway t o _ hlive).of_call
  have hwaits : ∀ u verb', FsConfig.WaitsFor (c.act t o (.call verb) () (k ()) s) u verb' ↔
      u = t ∧ verb' = verb := by
    intro u verb'
    rw [hk', waitsFor_call]
    simp [hnone]
  have hbusy : s.ipcBusy = true := by
    obtain ⟨-, (w : World), hrun⟩ := hst
    exact (congrArg (fun x => x.2.ipcBusy) hrun).symm
  constructor
  · refine h.underway_act ?_
    rw [hk']
    exact .waiting verb hrest
  · simp [hwaits, hbusy]
  · intro u v verb' verb'' hu hv
    rw [((hwaits u verb').1 hu).1, ((hwaits v verb'').1 hv).1]
  · intro u verb' hu
    obtain ⟨rfl, -⟩ := (hwaits u verb').1 hu
    rw [Config.act_log, Contract.ghost_snoc_acted_self]
    rfl
  · intro u hu
    have hut : u ≠ t := fun heq => hu verb ((hwaits u verb).2 ⟨heq, rfl⟩)
    rw [Config.act_log, Contract.ghost_snoc_acted_ne (Ne.symm hut)]
    exact h.free u (hnone u)

/-- The end of a call. -/
theorem reply {verb : Verb} {k : Except IpcError verb.Reply → FsProg Reply}
    {r : Except IpcError verb.Reply} {s : FsState} (h : OneCaller c)
    (hlive : c.live t = some (o, .act (.reply verb) k)) (hst : fsMachine.Step (.reply verb) c.st r s) :
    OneCaller (c.act t o (.reply verb) r (k r) s) := by
  have hidle : s.ipcBusy = false := by
    obtain ⟨-, (w : World), hrun⟩ := hst
    exact (congrArg (fun x => x.2.ipcBusy) hrun).symm
  have hp : Composed (k r) := (h.underway t o _ hlive).of_act nofun r
  have hnone : ∀ u verb', ¬ FsConfig.WaitsFor (c.act t o (.reply verb) r (k r) s) u verb' := by
    intro u verb' hu
    obtain ⟨hut, hu⟩ := (waitsFor_act hp).1 hu
    exact hut (h.one u t verb' verb hu ⟨o, k, hlive⟩)
  constructor
  · exact h.underway_act (.composed hp)
  · simp [hidle, hnone]
  · exact fun u v verb' _ hu => absurd hu (hnone u verb')
  · exact fun u verb' hu => absurd hu (hnone u verb')
  · intro u _
    by_cases hut : u = t
    · subst hut
      rw [Config.act_log, Contract.ghost_snoc_acted_self]
      rfl
    · rw [Config.act_log, Contract.ghost_snoc_acted_ne (Ne.symm hut)]
      refine h.free u fun verb' hu => hut (h.one u t verb' verb hu ⟨o, k, hlive⟩)

end OneCaller

section
variable {nfc : Str → Str} {cacheRoot : Option Str} {disk : Disk}

/-- **Every reachable configuration has one caller at most.** -/
theorem run_oneCaller {ok : FsConfig → FsEvent → Prop} {c : FsConfig}
    (h : (fsService nfc cacheRoot).Run ok (.initial (.new disk)) c) : OneCaller c := by
  refine h.invariant (I := OneCaller) ?_ ?_
  · refine ⟨nofun, ?_, ?_, ?_, fun _ _ => rfl⟩ <;> simp [FsConfig.WaitsFor, FsState.new]
  · intro c e c' _ hI hst _
    cases hst with
    | start _ hnone => exact hI.start hnone (.prog nfc cacheRoot _)
    | @act t o a k r s hlive hst =>
      cases a with
      | call verb => exact hI.call hlive hst
      | reply verb => exact hI.reply hlive hst
      | _ => exact hI.act hlive trivial hst
    | finish hlive => exact hI.finish hlive

/-- Every request takes its locks in order. -/
theorem takesInOrder : (fsService nfc cacheRoot).TakesInOrder fsLocking :=
  fun o => (Composed.prog nfc cacheRoot o).obeys

/-- A section that has its locks can be executed: the lock of the client is free for a call, because who
waits for a reply has it. -/
theorem fs_able : (fsService nfc cacheRoot).Able fsLocking (.new disk) := by
  intro c t o a k hrun hlive hheld
  have hone := run_oneCaller hrun.run
  have hready : a.ready c.conf.st = true := by
    cases a with
    | call verb =>
      rw [Act.ready, Bool.not_eq_true']
      refine Bool.eq_false_iff.2 fun hbusy => ?_
      obtain ⟨u, verb', o', k', hlive'⟩ := hone.busy.1 hbusy
      have hsound := LockSound.of_run takesInOrder hrun
      have hkept := (hsound.between u _ _ hlive').1
      rw [hone.kept u verb' ⟨o', k', hlive'⟩] at hkept
      have htu : t = u := by
        refine hsound.exclusive t u Lock.ipc ?_ (hkept.subset (List.mem_singleton_self _))
        rw [hheld]
        exact List.mem_singleton_self _
      subst htu
      cases hlive.symm.trans hlive'
    | _ => rfl
  exact ⟨_, _, hready, World.calm, rfl⟩

/-- **No request waits forever.** Whatever locks the requests in progress have taken, and whatever the
scheduler does, some step is possible as long as a request is in progress, and after finitely many steps
all of them have returned. -/
theorem requests_return {c : LockConfig Act.Ret FsState Errno Op Reply Lock}
    (h : (fsService nfc cacheRoot).LockRun fsLocking (.new disk) c) :
    (fsService nfc cacheRoot).AllReturn fsLocking c :=
  h.allReturn takesInOrder fs_able

/-- A lookup that has the lock of the path map, and a getattr that waits for the attribute cache. -/
theorem requests_return_two :
    ∃ c, plainFs.LockRun fsLocking (.new .empty) c ∧ c.held 0 = [Lock.paths] ∧
      c.conf.live 1 ≠ none ∧ plainFs.AllReturn fsLocking c := by
  have h₀ : plainFs.LockRun fsLocking (.new .empty) _ := .initial
  have h₁ := h₀.start (t := 0) (o := .lookup rootInode (some ['a'])) nofun rfl
  have h₂ := h₁.start (t := 1) (o := .getattr 2) (by simp [Event.tid]) rfl
  have h₃ := h₂.advance (.take (t := 0) rfl rfl fun _ => nofun)
  exact ⟨_, h₃, rfl, by simp, requests_return h₃⟩

/-- **The runs in which locks are taken one by one are those of the atomic sections**: they have the same
logs and the same states. -/
theorem locks_transparent (d : FsConfig) :
    (∃ held, (fsService nfc cacheRoot).LockRun fsLocking (.new disk) ⟨d, held⟩) ↔
      (fsService nfc cacheRoot).Run (fun _ _ => True) (.initial (.new disk)) d := by
  constructor
  · rintro ⟨held, h⟩
    exact h.run
  · intro h
    refine ⟨_, h.lockRun takesInOrder fun {d t u o a k r s l} hrun hlive hst hneeds hkept => ?_⟩
    have hone := run_oneCaller hrun
    by_cases hu : ∃ verb, FsConfig.WaitsFor d u verb
    · obtain ⟨verb', hu⟩ := hu
      rw [hone.kept u verb' hu, List.mem_singleton] at hkept
      subst hkept
      cases a with
      | call verb =>
        have hready : (!d.st.ipcBusy) = true := hst.1
        rw [hone.busy.2 ⟨u, verb', hu⟩] at hready
        cases hready
      | reply verb => exact hone.one u t verb' verb hu ⟨o, k, hlive⟩
      | _ => simp [fsLocking, Act.needs] at hneeds
    · rw [hone.free u (not_exists.1 hu)] at hkept
      cases hkept

end

end UnidriveMount
