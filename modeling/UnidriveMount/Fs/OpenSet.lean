import Mathlib.Data.Finset.Basic
import UnidriveMount.Fs.Fsync
import UnidriveMount.Lib.Custody

/-!
# The daemon's open set

The daemon registers handle ids: by an `open_read`, an `open_write_begin` with an id, a `create` or
an `open_write` that it answers ok; and it drops the id that a `close_handle` names (`openSet`). An
id is taken up by a request, which has to publish it with a handle or to close it; the handle's
`release` takes it over. What a request has in hand is its `Keeping`, the ghost value of the contract
`keeping`.

`open` and `create` keep an id for ever when the cache file cannot be opened after the daemon has
registered it. In every run in which that does not happen (`KeepsHandles`) the open set is the set of
the handle ids in the table whenever no request is in progress (`none_leaked`).
-/

namespace UnidriveMount

open Lib
open Lib.Prog (only_perform)

/-! ## The open set -/

/-- The handle id that an exchange registers with the daemon. -/
def Act.registers : (a : Act) → a.Ret → Option Str
  | .reply (.openRead id _), .ok _ => some id
  | .reply (.openWriteBegin _ (some id)), .ok _ => some id
  | .reply (.create ..), .ok r => some r.handleId
  | .reply (.openWrite id ..), .ok _ => some id
  | _, _ => none

/-- The handle id that a request to the daemon closes. -/
def Act.closes : Act → Option Str
  | .call (.closeHandle id) => some id
  | _ => none

/-- The open set after an entry of the log. -/
def openSetNext (ids : Finset Str) : FsEvent → Finset Str
  | .acted _ a r => match a.registers r, a.closes with
    | some id, _ => insert id ids
    | none, some id => ids.erase id
    | none, none => ids
  | .started .. | .returned .. => ids

/-- The handle ids that are registered with the daemon. -/
def openSet (l : List FsEvent) : Finset Str := l.foldl openSetNext ∅

/-- The handle ids of the open handles. -/
def FsState.handleIds (s : FsState) : Finset Str :=
  (s.openHandles.values.map OpenHandle.handleId).toFinset

/-- The entry at position `i` registers the id. -/
def RegisteredAt (l : List FsEvent) (i : Nat) (id : Str) : Prop :=
  ∃ (t : Nat) (a : Act) (r : a.Ret), l[i]? = some (.acted t a r) ∧ a.registers r = some id

/-- The entry at position `i` closes the id. -/
def ClosedAt (l : List FsEvent) (i : Nat) (id : Str) : Prop :=
  ∃ (t : Nat) (a : Act) (r : a.Ret), l[i]? = some (.acted t a r) ∧ a.closes = some id

/-- Nothing is leaked: the daemon has registered what the table has open, and every other id that was
registered has been closed since. -/
structure NoneLeaked (c : FsConfig) : Prop where
  exact : openSet c.log = c.st.handleIds
  closed : ∀ (i : Nat) (id : Str), RegisteredAt c.log i id → id ∉ c.st.handleIds →
    ∃ j : Nat, i < j ∧ ClosedAt c.log j id

section
variable {l : List FsEvent} {t : Nat} {a : Act} {r : a.Ret} {id : Str}

@[simp] theorem openSet_snoc_started (o : Op) : openSet (l ++ [.started t o]) = openSet l := by
  simp [openSet, openSetNext]

@[simp] theorem openSet_snoc_returned (o : Op) (res : Except Errno Reply) :
    openSet (l ++ [.returned t o res]) = openSet l := by
  simp [openSet, openSetNext]

/-- What registers an id closes none. -/
theorem Act.closes_of_registers (h : a.registers r = some id) : a.closes = none := by
  unfold Act.registers at h
  split at h <;> first | rfl | cases h

theorem mem_openSet_snoc :
    id ∈ openSet (l ++ [.acted t a r]) ↔
      a.registers r = some id ∨ (id ∈ openSet l ∧ a.closes ≠ some id) := by
  unfold openSet
  rw [List.foldl_append, List.foldl_cons, List.foldl_nil]
  generalize l.foldl openSetNext ∅ = ids
  rw [openSetNext]
  cases hr : a.registers r with
  | some id' => simp [Act.closes_of_registers hr, eq_comm]
  | none =>
    cases hc : a.closes with
    | some id' => simp [and_comm, eq_comm]
    | none => simp

theorem openSet_snoc_of_none (hr : a.registers r = none) (hc : a.closes = none) :
    openSet (l ++ [.acted t a r]) = openSet l := by
  ext id
  rw [mem_openSet_snoc, hr, hc]
  simp

/-- An id that was registered is open until it is closed. -/
theorem mem_openSet_of_registeredAt {i : Nat} (h : RegisteredAt l i id)
    (hc : ∀ j : Nat, i < j → ¬ ClosedAt l j id) : id ∈ openSet l := by
  induction l using List.reverseRecOn with
  | nil =>
    obtain ⟨t, a, r, hi, -⟩ := h
    simp at hi
  | append_singleton l e ih =>
    obtain ⟨t, a, r, hi, hr⟩ := h
    rcases getElem?_snoc_iff.1 hi with hold | ⟨-, rfl⟩
    · have hmem : id ∈ openSet l := by
        refine ih ⟨t, a, r, hold, hr⟩ fun j hij hj => hc j hij ?_
        obtain ⟨u, b, x, hj, hb⟩ := hj
        exact ⟨u, b, x, getElem?_snoc e hj, hb⟩
      cases e with
      | started u o => rwa [openSet_snoc_started]
      | returned u o res => rwa [openSet_snoc_returned]
      | acted u b x =>
        exact mem_openSet_snoc.2 (.inr ⟨hmem, fun hb =>
          hc l.length (getElem?_lt hold) ⟨u, b, x, getElem?_snoc_self .., hb⟩⟩)
    · exact mem_openSet_snoc.2 (.inl hr)

theorem FsState.mem_handleIds {s : FsState} :
    id ∈ s.handleIds ↔ ∃ fh h, s.openHandles.get fh = some h ∧ h.handleId = id := by
  simp only [handleIds, List.mem_toFinset, List.mem_map, HashMap.mem_values]
  constructor
  · rintro ⟨h, ⟨fh, hget⟩, rfl⟩
    exact ⟨fh, h, hget, rfl⟩
  · rintro ⟨fh, h, hget, rfl⟩
    exact ⟨h, ⟨fh, hget⟩, rfl⟩

end

/-! ## What a request has in hand -/

/-- The handle id a request has to take care of: none, one it has named to the daemon, one that is
registered, or one of an open handle whose bytes an `fsync` uploads. -/
inductive Keeping : Type where
  | nothing
  | named (id : Str)
  | registered (id : Str)
  | uploading (id : Str)
  deriving DecidableEq

namespace Keeping

/-- What a request has in hand after an action. -/
def next (g : Keeping) : (a : Act) → a.Ret → Keeping
  | .call (.openRead id _), _ => named id
  | .call (.openWriteBegin _ (some id)), _ => named id
  | .call (.openWrite id ..), _ => match g with
    | nothing => named id
    | g => g
  | .call (.closeHandle _), _ => nothing
  | .reply (.openRead id _), .ok _ => registered id
  | .reply (.openRead ..), .error _ => nothing
  | .reply (.openWriteBegin _ (some id)), .ok _ => registered id
  | .reply (.openWriteBegin _ (some _)), .error _ => nothing
  | .reply (.openWrite id ..), .ok _ => match g with
    | uploading _ => nothing
    | _ => registered id
  | .reply (.openWrite ..), .error _ => match g with
    | uploading _ => nothing
    | g => g
  | .reply (.create ..), .ok r => registered r.handleId
  | .handleInsert .., _ => nothing
  | .handleRemove _, some h => registered h.handleId
  | .handleClaim .., .ok claim => if claim.wasDirty then uploading claim.handleId else nothing
  | _, _ => g

/-- What a request must have in hand for an action. -/
def Pre (g : Keeping) : Act → Prop
  | .call (.openRead ..) | .call (.openWriteBegin _ (some _)) | .reply (.create ..)
  | .handleRemove _ | .handleClaim .. => g = nothing
  | .call (.openWrite id ..) => g = nothing ∨ g = registered id ∨ g = uploading id
  | .call (.closeHandle id) => g = named id ∨ g = registered id
  | .reply (.openRead id _) | .reply (.openWriteBegin _ (some id)) => g = named id
  | .reply (.openWrite id ..) => g = named id ∨ g = registered id ∨ g = uploading id
  | .handleInsert _ h => g = registered h.handleId
  | _ => True

/-- The id that a request takes up by an action: one it names to the daemon first, or one that the
daemon has given to a new file. -/
def takes (g : Keeping) : (a : Act) → a.Ret → Option Str
  | .call (.openRead id _), _ => some id
  | .call (.openWriteBegin _ (some id)), _ => some id
  | .call (.openWrite id ..), _ => if g = nothing then some id else none
  | .reply (.create ..), .ok r => some r.handleId
  | _, _ => none

/-- The id in hand, with whether it is registered. -/
def held : Keeping → Option (Str × Bool)
  | named id => some (id, false)
  | registered id => some (id, true)
  | nothing | uploading _ => none

end Keeping

/-- The ghost value of a request: whether it closes what it has in hand when a cache file cannot be
opened, and what that is. -/
structure Keeper : Type where
  tidy : Bool
  keeps : Keeping

/-- Only the truncations of `setattr` close an id after the cache file could not be opened. -/
def Op.tidy : Op → Bool
  | .setattr .. => true
  | _ => false

/-- A request starts with nothing in hand. -/
def Keeper.init (o : Op) : Keeper := ⟨o.tidy, .nothing⟩

/-- The contract of the requests with respect to the ids they take up. -/
def keeping : Contract Act Act.Ret Keeper where
  pre g a := g.keeps.Pre a
  allow
    | g, .openFile .., file => g.tidy = true ∨ file.isSome = true
    | _, _, _ => True
  next g a r := ⟨g.tidy, g.keeps.next a r⟩

/-- The action has nothing to do with handle ids or with opening a cache file. -/
def Act.SparesIds : Act → Prop
  | call (.openRead ..) | call (.openWriteBegin _ (some _)) | call (.openWrite ..)
  | call (.closeHandle _) | reply (.openRead ..) | reply (.openWriteBegin _ (some _))
  | reply (.openWrite ..) | reply (.create ..) | handleInsert .. | handleRemove _ | handleClaim ..
  | openFile .. => False
  | _ => True

namespace Keeping

variable {g : Keeping} {a : Act}

theorem pre_of_sparesIds (ha : a.SparesIds) : g.Pre a := by
  unfold Pre
  split <;> first | exact ha.elim | trivial

theorem next_of_sparesIds (r : a.Ret) (ha : a.SparesIds) : g.next a r = g := by
  cases a with
  | call verb | reply verb =>
    cases verb with
    | openWriteBegin path id => cases id <;> first | rfl | exact ha.elim
    | _ => first | rfl | exact ha.elim
  | _ => first | rfl | exact ha.elim

end Keeping

theorem Act.Lists.sparesIds {a : Act} (h : a.Lists) : a.SparesIds := by
  unfold Lists at h
  split at h <;> trivial

theorem Act.Looks.sparesIds {a : Act} (h : a.Looks) : a.SparesIds := by
  unfold Looks at h
  split at h <;> first | trivial | exact h.sparesIds

theorem Act.Records.sparesIds {a : Act} (h : a.Records) : a.SparesIds := by
  unfold Records at h
  split at h <;> trivial

theorem Act.Forgets.sparesIds {a : Act} (h : a.Forgets) : a.SparesIds := by
  unfold Forgets at h
  split at h <;> trivial

/-- The requests that deal with handle ids or open cache files. -/
def Op.TakesIds : Op → Prop
  | .open .. | .fsync .. | .release _ | .create .. | .mknod .. | .setattr .. => True
  | _ => False

/-- A request of another kind names no handle id and opens no cache file. -/
theorem Op.May.sparesIds {o : Op} (ho : ¬ o.TakesIds) {a : Act} (h : o.May a) : a.SparesIds := by
  rcases h with h | h
  · unfold Op.Own at h
    split at h <;> first
      | trivial
      | exact absurd trivial ho
  · cases o with
    | lookup | getattr | readdir | readdirplus => exact Act.Looks.sparesIds h
    | mkdir | rename => exact h.elim Act.Looks.sparesIds Act.Records.sparesIds
    | unlink | rmdir => exact h.elim Act.Looks.sparesIds Act.Forgets.sparesIds
    | read | write | apply => exact h.elim
    | _ => exact absurd trivial ho

section
variable {nfc : Str → Str} {cacheRoot : Option Str} {α β : Type} {g : Keeper}

/-- What a program of a request ends with: nothing in hand. -/
def EmptyHanded (_ : Except Errno α) (g : Keeper) : Prop := g.keeps = .nothing

/-- What has nothing to do with handle ids can be skipped by a request that has none. -/
theorem keeping_skip {p : FsProg α} {f : α → FsProg β} (hp : p.Only Act.SparesIds)
    (hg : g.keeps = .nothing) (hf : ∀ x, keeping.Obeys EmptyHanded (f x) g) :
    keeping.Obeys EmptyHanded (p >>= f) g :=
  Contract.obeys_bind_of_only hp (fun _ ha => Keeping.pre_of_sparesIds ha)
    (fun a r ha => by simp only [keeping, Keeping.next_of_sparesIds r ha]) (fun _ => hg) hf

/-- The daemon's cache file comes with the id registered. -/
theorem openCacheFile_keeping {flags : UInt32} {handleId path : Str} (hg : g.keeps = .nothing) :
    keeping.Obeys (fun res g' => match res with
      | .ok _ => g' = ⟨g.tidy, .registered handleId⟩
      | .error _ => g'.keeps = .nothing) (openCacheFile flags handleId path) g := by
  unfold openCacheFile
  split <;>
    · simp only [ipc, Contract.obeys_bind]
      refine ⟨hg, fun _ _ => ⟨rfl, fun reply _ => ?_⟩⟩
      cases reply with
      | ok r => exact rfl
      | error e => exact rfl

/-- An `open` publishes the id it has registered, if the cache file can be opened. -/
theorem open_keeping {inode : Ino} {flags : UInt32} :
    keeping.Obeys EmptyHanded («open» inode flags) ⟨false, .nothing⟩ := by
  refine keeping_skip (only_perform trivial) rfl fun _ => keeping_skip (only_okOr ..) rfl fun path => ?_
  split
  · exact rfl
  · refine keeping_skip (only_perform trivial) rfl fun n => Contract.obeys_bind.2 ?_
    refine (openCacheFile_keeping rfl).mono fun res g hg => ?_
    cases res with
    | error e => exact hg
    | ok cachePath =>
      subst hg
      refine ⟨trivial, fun _ _ => ⟨trivial, fun file hfile => ?_⟩⟩
      cases file with
      | none => simp [keeping] at hfile
      | some file =>
        refine Contract.obeys_bind.2 ?_
        have hpub : ∀ stale : Bool, keeping.Obeys EmptyHanded (do
            let fh ← publish ⟨file, handleIdOf (openPrefix flags) n, path, cachePath,
              isTruncating flags⟩
            return (⟨fh, if stale then fopenDirectIo else 0⟩ : ReplyOpen))
            ⟨false, .registered (handleIdOf (openPrefix flags) n)⟩ :=
          fun stale => ⟨trivial, fun _ _ => ⟨rfl, fun _ _ => rfl⟩⟩
        unfold syncSize
        split
        · exact hpub false
        · refine ⟨trivial, fun len _ => ?_⟩
          cases len with
          | none => exact hpub false
          | some len => exact ⟨trivial, fun stale _ => hpub stale⟩

/-- A `create` publishes the id the daemon has given it, if the cache file can be opened. -/
theorem createInternal_keeping {parent : Ino} {name : OsStr} :
    keeping.Obeys EmptyHanded (createInternal nfc parent name) ⟨false, .nothing⟩ := by
  refine keeping_skip (only_okOr ..) rfl fun name => keeping_skip (only_perform trivial) rfl fun _ =>
    keeping_skip (only_okOr ..) rfl fun parentPath =>
    keeping_skip (refuseNfcCollision_only fun _ ha => ha.sparesIds) rfl fun _ =>
    keeping_skip (only_perform trivial) rfl fun n => ?_
  simp only [ipc, Contract.obeys_bind, Contract.obeys_perform]
  refine ⟨trivial, fun _ _ => ⟨rfl, fun reply _ => ?_⟩⟩
  cases reply with
  | error e => exact rfl
  | ok reply =>
    refine ⟨trivial, fun file hfile => ?_⟩
    cases file with
    | none => simp [keeping] at hfile
    | some file =>
      refine ⟨trivial, fun newIno _ => ?_⟩
      unfold recordRawName
      split <;>
        exact ⟨trivial, fun _ _ => ⟨trivial, fun _ _ => ⟨trivial, fun _ _ => ⟨trivial, fun _ _ =>
          ⟨rfl, fun _ _ => rfl⟩⟩⟩⟩⟩

/-- A `close_handle` empties the hand. -/
theorem closeHandle_keeping {id : Str} {f : Except IpcError Unit → FsProg β}
    (hg : g.keeps = .named id ∨ g.keeps = .registered id)
    (hf : ∀ r, keeping.Obeys EmptyHanded (f r) ⟨g.tidy, .nothing⟩) :
    keeping.Obeys EmptyHanded (ipc (.closeHandle id) >>= f) g :=
  ⟨hg, fun _ _ => ⟨trivial, fun r _ => hf r⟩⟩

/-- An `open_write` of a registered id keeps it. -/
theorem openWrite_keeping {id path cachePath : Str} {f : Except IpcError OpenReply → FsProg β}
    (hg : g.keeps = .registered id)
    (hf : ∀ r, keeping.Obeys EmptyHanded (f r) ⟨g.tidy, .registered id⟩) :
    keeping.Obeys EmptyHanded (ipc (.openWrite id path cachePath) >>= f) g := by
  obtain ⟨tidy, keeps⟩ := g
  cases hg
  refine ⟨.inr (.inl rfl), fun _ _ => ⟨.inr (.inl rfl), fun r _ => ?_⟩⟩
  cases r with
  | ok r => exact hf (.ok r)
  | error e => exact hf (.error e)

/-- An `fsync` leaves its handle's id as it was. -/
theorem fsync_keeping {fh : Nat} {datasync : Bool} :
    keeping.Obeys EmptyHanded (fsync fh datasync) ⟨false, .nothing⟩ := by
  simp only [fsync, ipc, Contract.obeys_bind, Contract.obeys_perform, Contract.obeys_ofExcept]
  refine ⟨rfl, fun r _ => ?_⟩
  cases r with
  | error e => exact rfl
  | ok claim =>
    dsimp only
    cases hd : claim.wasDirty with
    | false => exact if_neg (by simp [hd])
    | true =>
      have hup : keeping.next ⟨false, .nothing⟩ (.handleClaim fh datasync) (.ok claim) =
          ⟨false, .uploading claim.handleId⟩ := by simp [keeping, Keeping.next, hd]
      rw [hup]
      refine ⟨.inr (.inr rfl), fun _ _ => ⟨.inr (.inr rfl), fun r _ => ?_⟩⟩
      cases r with
      | ok r => exact rfl
      | error e => exact ⟨trivial, fun _ _ => rfl⟩

/-- A `release` closes the id of the handle it takes out. -/
theorem release_keeping {fh : Nat} : keeping.Obeys EmptyHanded (release fh) ⟨false, .nothing⟩ := by
  refine ⟨rfl, fun r _ => ?_⟩
  cases r with
  | none => exact rfl
  | some h =>
    have hclose : keeping.Obeys EmptyHanded (do let _ ← ipc (.closeHandle h.handleId); return ())
        ⟨false, .registered h.handleId⟩ := closeHandle_keeping (.inr rfl) fun _ => rfl
    show keeping.Obeys EmptyHanded (commitIfDirty h >>= fun _ => _) ⟨false, .registered h.handleId⟩
    unfold commitIfDirty
    split
    · rw [Prog.bind_assoc]
      exact openWrite_keeping rfl fun _ => hclose
    · exact hclose

/-- What follows starts with nothing in hand. -/
theorem keeping_bind {p : FsProg α} {f : α → FsProg β} (hp : keeping.Obeys EmptyHanded p g)
    (hf : ∀ x g, g.keeps = .nothing → keeping.Obeys EmptyHanded (f x) g) :
    keeping.Obeys EmptyHanded (p >>= f) g := by
  refine Contract.obeys_bind.2 (hp.mono fun res g hg => ?_)
  cases res with
  | ok x => exact hf x g hg
  | error e => exact hg

/-- A `mknod` closes the id of the handle it publishes. -/
theorem mknod_keeping {parent : Ino} {name : OsStr} {mode : UInt32} :
    keeping.Obeys EmptyHanded (mknod nfc parent name mode) ⟨false, .nothing⟩ := by
  unfold mknod
  split
  · exact rfl
  · refine keeping_bind createInternal_keeping fun x g hg => ?_
    obtain ⟨tidy, keeps⟩ := g
    cases hg
    refine ⟨rfl, fun r _ => ?_⟩
    cases r with
    | none => exact rfl
    | some h =>
      exact openWrite_keeping rfl fun _ => closeHandle_keeping (.inr rfl) fun _ => rfl

/-- An empty truncation closes the id it has uploaded under. -/
theorem bareTruncateToZero_keeping {path : Str} :
    keeping.Obeys EmptyHanded (bareTruncateToZero path) ⟨true, .nothing⟩ := by
  refine keeping_skip (only_ipc trivial trivial) rfl fun _ => keeping_skip (only_mapErr ..) rfl
    fun reply => keeping_skip (only_perform trivial) rfl fun n => ?_
  simp only [ipc, Contract.obeys_bind]
  refine ⟨.inl rfl, fun _ _ => ⟨.inl rfl, fun upload _ => ?_⟩⟩
  cases upload with
  | ok r => exact ⟨.inr rfl, fun _ _ => ⟨trivial, fun _ _ => rfl⟩⟩
  | error e => exact ⟨.inl rfl, fun _ _ => ⟨trivial, fun _ _ => rfl⟩⟩

/-- A truncation to a size closes the id whatever fails after the daemon has registered it. -/
theorem bareTruncateToSize_keeping {path : Str} {newSize : Nat} :
    keeping.Obeys EmptyHanded (bareTruncateToSize path newSize) ⟨true, .nothing⟩ := by
  refine keeping_skip (only_perform trivial) rfl fun n => ?_
  refine ⟨rfl, fun _ _ => ⟨rfl, fun reply _ => ?_⟩⟩
  cases reply with
  | error e => exact rfl
  | ok reply =>
    refine ⟨trivial, fun file _ => ?_⟩
    cases file with
    | none => exact closeHandle_keeping (.inr rfl) fun _ => rfl
    | some file =>
      refine ⟨trivial, fun cut _ => ?_⟩
      cases cut with
      | false => exact closeHandle_keeping (.inr rfl) fun _ => rfl
      | true =>
        refine openWrite_keeping rfl fun upload => closeHandle_keeping (.inr rfl) fun _ => ?_
        cases upload <;> exact rfl

/-- A `setattr` closes every id it takes up. -/
theorem setattr_keeping {inode : Ino} {fh size : Option Nat} :
    keeping.Obeys EmptyHanded (setattr inode fh size) ⟨true, .nothing⟩ := by
  refine keeping_skip (only_perform trivial) rfl fun _ => keeping_skip (only_okOr ..) rfl fun path => ?_
  have hsize : keeping.Obeys EmptyHanded (setattrSize inode path fh size) ⟨true, .nothing⟩ := by
    cases size with
    | none => exact rfl
    | some newSize =>
      have htrunc : keeping.Obeys EmptyHanded (truncate path fh newSize) ⟨true, .nothing⟩ := by
        cases fh with
        | some fh => exact ⟨trivial, fun _ _ => rfl⟩
        | none =>
          unfold truncate
          dsimp only
          split
          · exact bareTruncateToZero_keeping
          · exact bareTruncateToSize_keeping
      exact keeping_bind htrunc fun _ g hg => ⟨trivial, fun _ _ => hg⟩
  refine keeping_bind hsize fun _ g hg => ?_
  exact keeping_skip (getOrFetchAttr_only fun _ ha => ha.sparesIds) hg fun _ => hg

/-- **Every request empties its hand**, when the cache files of the handles can be opened. -/
theorem keeping_honoured (nfc : Str → Str) (cacheRoot : Option Str) :
    (fsService nfc cacheRoot).Honours keeping Keeper.init (fun _ => EmptyHanded) := by
  intro o
  by_cases ho : o.TakesIds
  · cases o with
    | «open» inode flags => exact keeping_bind open_keeping fun _ _ hg => hg
    | fsync fh datasync => exact keeping_bind fsync_keeping fun _ _ hg => hg
    | release fh => exact keeping_bind release_keeping fun _ _ hg => hg
    | create parent name =>
      exact keeping_bind (keeping_bind createInternal_keeping fun _ _ hg => hg) fun _ _ hg => hg
    | mknod parent name mode => exact keeping_bind mknod_keeping fun _ _ hg => hg
    | setattr inode fh size => exact keeping_bind setattr_keeping fun _ _ hg => hg
    | _ => exact ho.elim
  · exact Contract.obeys_of_only (Op.prog_only o) (fun a ha => Keeping.pre_of_sparesIds (ha.sparesIds ho))
      (fun a r ha => by simp only [keeping, Keeping.next_of_sparesIds r (ha.sparesIds ho)]) fun _ => rfl

end

/-! ## Who holds which id -/

/-- What can hold a handle id: an open handle, or a request in progress. -/
inductive Holder : Type where
  | handle (fh : Nat)
  | request (t : Nat)

/-- What request `t` has in hand, if it is in progress. -/
def inHand (c : FsConfig) (t : Nat) : Keeping :=
  match c.live t with
  | some (o, _) => (keeping.ghost (Keeper.init o) t c.log).keeps
  | none => .nothing

/-- The handle id of a holder, with whether it is registered. -/
def holding (c : FsConfig) : Holder → Option (Str × Bool)
  | .handle fh => (c.st.openHandles.get fh).map fun h => (h.handleId, true)
  | .request t => (inHand c t).held

/-- The step keeps the handles in order: the cache file of a handle that is being opened or created
can be opened, no id is taken up that is still held, and no handle is taken out while an `fsync`
uploads its bytes. The counter of the handle numbers does not wrap around. -/
structure KeepsHandles (c : FsConfig) (e : FsEvent) : Prop where
  few : DrawsFew c e
  opened : ∀ (t : Nat) (o : Op) (p : FsProg Reply) (path : Str) (mode : OpenMode)
    (file : Option File), e = .acted t (.openFile path mode) file → c.live t = some (o, p) →
    o.tidy = false → file.isSome = true
  fresh : ∀ (t : Nat) (a : Act) (r : a.Ret) (id : Str), e = .acted t a r →
    (inHand c t).takes a r = some id → ∀ x b, holding c x ≠ some (id, b)
  last : ∀ (t fh : Nat) (h : OpenHandle), e = .acted t (.handleRemove fh) (some h) →
    ∀ u, inHand c u ≠ .uploading h.handleId

/-- Every registered id has one holder, and an `fsync` uploads the bytes of an open handle. -/
structure Kept (c : FsConfig) : Prop where
  custody : Custody (holding c) (· ∈ openSet c.log)
  uploads : ∀ (t : Nat) (id : Str), inHand c t = .uploading id →
    ∃ fh h, c.st.openHandles.get fh = some h ∧ h.handleId = id

theorem keeping_ghost_tidy (g : Keeper) (t : Nat) (l : List FsEvent) :
    (keeping.ghost g t l).tidy = g.tidy := by
  unfold Contract.ghost
  induction occs t l generalizing g with
  | nil => rfl
  | cons e es ih =>
    rw [List.foldl_cons, ih]
    rfl

theorem KeepsHandles.admits : Admits KeepsHandles keeping Keeper.init := by
  intro c t a r o p hok hlive
  cases a with
  | openFile path mode =>
    cases ho : o.tidy with
    | true => exact .inl ((keeping_ghost_tidy ..).trans ho)
    | false => exact .inr (hok.opened t o p path mode r rfl hlive ho)
  | _ => trivial

section
variable {c : FsConfig} {t u fh : Nat} {o : Op} {a : Act} {r : a.Ret} {p : FsProg Reply}
  {s : FsState} {k : a.Ret → FsProg Reply}

theorem inHand_of_live (hlive : c.live t = some (o, p)) :
    inHand c t = (keeping.ghost (Keeper.init o) t c.log).keeps := by
  rw [inHand, hlive]

theorem inHand_of_none (hlive : c.live t = none) : inHand c t = .nothing := by
  rw [inHand, hlive]

theorem inHand_start (hfresh : ∀ e ∈ c.log, e.tid ≠ t) (hlive : c.live t = none) :
    inHand (c.start t o p) u = inHand c u := by
  by_cases hu : u = t
  · subst hu
    rw [inHand_of_none hlive, inHand, Config.start_live, if_pos rfl, Config.start_log]
    dsimp only
    rw [Contract.ghost_snoc_started, Contract.ghost_eq_init hfresh]
    rfl
  · unfold inHand
    rw [Config.start_live, Config.start_log, if_neg hu]
    split
    · rw [Contract.ghost_snoc_started]
    · rfl

theorem inHand_finish {res : Except Errno Reply} (ht : inHand c t = .nothing) :
    inHand (c.finish t o res) u = inHand c u := by
  by_cases hu : u = t
  · subst hu
    rw [ht, inHand, Config.finish_live, if_pos rfl]
  · unfold inHand
    rw [Config.finish_live, Config.finish_log, if_neg hu]
    split
    · rw [Contract.ghost_snoc_returned]
    · rfl

theorem inHand_act_self (hlive : c.live t = some (o, .act a k)) :
    inHand (c.act t o a r p s) t = (inHand c t).next a r := by
  rw [inHand_of_live hlive, inHand, Config.act_live, if_pos rfl, Config.act_log]
  dsimp only
  rw [Contract.ghost_snoc_acted_self]
  rfl

theorem inHand_act_ne (hu : u ≠ t) : inHand (c.act t o a r p s) u = inHand c u := by
  unfold inHand
  rw [Config.act_live, if_neg hu, Config.act_log]
  split
  · rw [Contract.ghost_snoc_acted_ne (Ne.symm hu)]
  · rfl

/-- An entry of the table keeps its handle id until it is replaced or taken out. -/
theorem HandleStep.sameId {x x' : Option OpenHandle} (hh : HandleStep fh a r x x')
    {h : OpenHandle} (hx : x = some h) (t : Nat) :
    (∃ h', x' = some h' ∧ h'.handleId = h.handleId) ∨ (∃ h', a = .handleInsert fh h') ∨
      (Event.acted t a r : FsEvent) = .acted t (.handleRemove fh) (some h) := by
  rcases hh.of_some hx t with ⟨h', hx'⟩ | hr
  · rcases hh.handleId hx' with hi | ⟨h₀, hx₀, hid⟩
    · exact .inr (.inl ⟨h', hi⟩)
    · cases hx.symm.trans hx₀
      exact .inl ⟨h', hx', hid.symm⟩
  · exact .inr (.inr hr)

/-- An action that neither publishes a handle nor takes one out leaves the ids in the table. -/
theorem holding_act_handle (hstep : fsMachine.Step a c.st r s)
    (hi : ∀ h, a ≠ .handleInsert fh h) (hr : a ≠ .handleRemove fh) :
    holding (c.act t o a r p s) (.handle fh) = holding c (.handle fh) := by
  have hh := handleStep_of_step hstep fh
  simp only [holding, Config.act_st]
  cases hget : c.st.openHandles.get fh with
  | none =>
    rcases hh.of_none hget with hnone | ⟨h, ha⟩
    · rw [hnone]
    · exact absurd ha (hi h)
  | some h =>
    rcases hh.sameId hget t with ⟨h', hsome, hid⟩ | ⟨h', ha⟩ | ha
    · rw [hsome]
      simp [hid]
    · exact absurd ha (hi h')
    · cases ha
      exact absurd rfl hr

namespace Kept

theorem initial (disk : Disk) : Kept (.initial (.new disk)) where
  custody := {
    unique := fun {x y r b b'} hx => by
      cases x with
      | handle fh => simp [holding, FsState.new] at hx
      | request t => simp [holding, inHand, Keeping.held] at hx
    open_iff := fun {r} => by
      refine ⟨fun hr => absurd hr (Finset.notMem_empty r), ?_⟩
      rintro ⟨_ | _, hx⟩
      · simp [holding, FsState.new] at hx
      · simp [holding, inHand, Keeping.held] at hx }
  uploads t id h := by simp [inHand] at h

theorem start (hI : Kept c) (hfresh : ∀ e ∈ c.log, e.tid ≠ t) (hlive : c.live t = none) :
    Kept (c.start t o p) where
  custody := by
    refine hI.custody.congr (fun x => ?_) fun id => by rw [Config.start_log, openSet_snoc_started]
    cases x with
    | handle fh => rfl
    | request u => rw [holding, inHand_start hfresh hlive, holding]
  uploads u id h := hI.uploads u id ((inHand_start hfresh hlive).symm.trans h)

theorem finish (hI : Kept c) {res : Except Errno Reply} (ht : inHand c t = .nothing) :
    Kept (c.finish t o res) where
  custody := by
    refine hI.custody.congr (fun x => ?_) fun id => by rw [Config.finish_log, openSet_snoc_returned]
    cases x with
    | handle fh => rfl
    | request u => rw [holding, inHand_finish ht, holding]
  uploads u id h := hI.uploads u id ((inHand_finish ht).symm.trans h)

/-- An `fsync` starts to upload the bytes of the handle it finds. -/
theorem uploading_of_next {g : Keeping} {id : Str} (h : g.next a r = .uploading id) (t : Nat) :
    g = .uploading id ∨ ∃ fh datasync claim, claim.handleId = id ∧
      (Event.acted t a r : FsEvent) = .acted t (.handleClaim fh datasync) (.ok claim) := by
  cases a with
  | handleClaim fh datasync =>
    cases r with
    | error e => exact .inl h
    | ok claim =>
      simp only [Keeping.next] at h
      split at h
      · cases h
        exact .inr ⟨fh, datasync, claim, rfl, rfl⟩
      · cases h
  | call verb =>
    cases verb with
    | openWrite => cases g <;> first | exact .inl h | cases h
    | openWriteBegin path id => cases id <;> first | exact .inl h | cases h
    | _ => first | exact .inl h | cases h
  | reply verb =>
    cases verb with
    | openWrite => cases r <;> cases g <;> first | exact .inl h | cases h
    | openWriteBegin path id => cases id <;> cases r <;> first | exact .inl h | cases h
    | openRead | create => cases r <;> first | exact .inl h | cases h
    | _ => exact .inl h
  | handleInsert => cases h
  | handleRemove => cases r <;> first | exact .inl h | cases h
  | _ => exact .inl h

/-- The uploads in progress are still of open handles after an action. -/
theorem uploads_act (hI : Kept c) (hlive : c.live t = some (o, .act a k))
    (hstep : fsMachine.Step a c.st r s)
    (hfree : ∀ fh h, a = .handleInsert fh h → c.st.openHandles.get fh = none)
    (hlast : ∀ fh h, (Event.acted t a r : FsEvent) = .acted t (.handleRemove fh) (some h) →
      ∀ u, inHand c u ≠ .uploading h.handleId) {id : Str}
    (hu : inHand (c.act t o a r p s) u = .uploading id) :
    ∃ fh h, s.openHandles.get fh = some h ∧ h.handleId = id := by
  have keep : ∀ v, inHand c v = .uploading id →
      ∃ fh h, s.openHandles.get fh = some h ∧ h.handleId = id := by
    intro v hv
    obtain ⟨fh, h, hget, rfl⟩ := hI.uploads v id hv
    rcases (handleStep_of_step hstep fh).sameId hget t with ⟨h', hget', hid⟩ | ⟨h', ha⟩ | ha
    · exact ⟨fh, h', hget', hid⟩
    · cases (hfree fh h' ha).symm.trans hget
    · exact absurd hv (hlast fh h ha v)
  by_cases hut : u = t
  · subst hut
    rw [inHand_act_self hlive] at hu
    rcases uploading_of_next hu u with hu | ⟨fh, datasync, claim, rfl, ha⟩
    · exact keep u hu
    · cases ha
      obtain ⟨h, -, rfl, hget⟩ := (handleStep_of_step hstep fh).of_claim
      exact ⟨fh, _, hget, rfl⟩
  · exact keep u ((inHand_act_ne hut).symm.trans hu)

/-- An action that neither publishes a handle nor takes one out keeps the ids with their holders. -/
theorem custody_request (hI : Kept c) (hlive : c.live t = some (o, .act a k))
    (hpre : (inHand c t).Pre a) (hi : ∀ fh h, a ≠ .handleInsert fh h)
    (hr : ∀ fh, a ≠ .handleRemove fh)
    (hfresh : ∀ id, (inHand c t).takes a r = some id → ∀ x b, holding c x ≠ some (id, b))
    (hstep : fsMachine.Step a c.st r s) :
    Custody (holding (c.act t o a r p s)) (· ∈ openSet (c.log ++ [.acted t a r])) := by
  have hself : holding (c.act t o a r p s) (.request t) = ((inHand c t).next a r).held := by
    rw [holding, inHand_act_self hlive]
  have hold : holding c (.request t) = (inHand c t).held := rfl
  have hrest : ∀ x, x ≠ .request t → holding (c.act t o a r p s) x = holding c x := by
    intro x hx
    cases x with
    | handle fh => exact holding_act_handle hstep (hi fh) (hr fh)
    | request u => rw [holding, inHand_act_ne fun hu => hx (congrArg _ hu), holding]
  have same : ((inHand c t).next a r).held = (inHand c t).held →
      (∀ id, id ∈ openSet (c.log ++ [.acted t a r]) ↔ id ∈ openSet c.log) →
      Custody (holding (c.act t o a r p s)) (· ∈ openSet (c.log ++ [.acted t a r])) := by
    intro hheld hopen
    refine hI.custody.congr (fun x => ?_) hopen
    by_cases hx : x = .request t
    · rw [hx, hself, hheld, hold]
    · exact hrest x hx
  have hmem : ∀ id, id ∈ openSet (c.log ++ [.acted t a r]) ↔
      a.registers r = some id ∨ (id ∈ openSet c.log ∧ a.closes ≠ some id) :=
    fun _ => mem_openSet_snoc
  -- the request names a new id, has the one it has named registered, or closes what it has
  have names : ∀ id, inHand c t = .nothing → (inHand c t).next a r = .named id →
      (inHand c t).takes a r = some id → a.registers r = none → a.closes = none →
      Custody (holding (c.act t o a r p s)) (· ∈ openSet (c.log ++ [.acted t a r])) := by
    intro id hg hnext htakes hreg hclose
    refine hI.custody.take (by rw [hold, hg]; rfl) (by rw [hself, hnext]; rfl) hrest
      (hfresh id htakes) fun id' => ?_
    simp [hmem, hreg, hclose]
  have registers : ∀ id, (inHand c t = .named id ∨ inHand c t = .registered id) →
      (inHand c t).next a r = .registered id → a.registers r = some id → a.closes = none →
      Custody (holding (c.act t o a r p s)) (· ∈ openSet (c.log ++ [.acted t a r])) := by
    intro id hg hnext hreg hclose
    obtain ⟨b, hb⟩ : ∃ b, holding c (.request t) = some (id, b) := by
      rcases hg with hg | hg
      · exact ⟨false, by rw [hold, hg]; rfl⟩
      · exact ⟨true, by rw [hold, hg]; rfl⟩
    refine hI.custody.opened hb (by rw [hself, hnext]; rfl) hrest fun id' => ?_
    simp [hmem, hreg, hclose, or_comm, eq_comm]
  have fails : ∀ id, inHand c t = .named id → (inHand c t).next a r = .nothing →
      a.registers r = none → a.closes = none →
      Custody (holding (c.act t o a r p s)) (· ∈ openSet (c.log ++ [.acted t a r])) := by
    intro id hg hnext hreg hclose
    refine hI.custody.abandon (by rw [hold, hg]; rfl) (by rw [hself, hnext]; rfl) hrest
      fun id' => ?_
    simp [hmem, hreg, hclose]
  cases a with
  | call verb =>
    cases verb with
    | openRead id path => exact names id hpre rfl rfl rfl rfl
    | openWriteBegin path handleId =>
      cases handleId with
      | some id => exact names id hpre rfl rfl rfl rfl
      | none => exact same rfl fun id => by simp [hmem, Act.registers, Act.closes]
    | openWrite id path cachePath =>
      rcases hpre with hg | hg | hg
      · exact names id hg (by rw [hg]; rfl) (by rw [hg]; rfl) rfl rfl
      all_goals
        exact same (by rw [hg]; rfl) fun id => by simp [hmem, Act.registers, Act.closes]
    | closeHandle id =>
      obtain ⟨b, hb⟩ : ∃ b, holding c (.request t) = some (id, b) := by
        rcases hpre with hg | hg
        · exact ⟨false, by rw [hold, hg]; rfl⟩
        · exact ⟨true, by rw [hold, hg]; rfl⟩
      refine hI.custody.close hb (by rw [hself]; rfl) hrest fun id' => ?_
      simp [hmem, Act.registers, Act.closes, eq_comm]
    | _ => exact same rfl fun id => by simp [hmem, Act.registers, Act.closes]
  | reply verb =>
    cases verb with
    | openRead id path =>
      cases r with
      | ok reply => exact registers id (.inl hpre) rfl rfl rfl
      | error e => exact fails id hpre rfl rfl rfl
    | openWriteBegin path handleId =>
      cases handleId with
      | none => exact same rfl fun id => by simp [hmem, Act.registers, Act.closes]
      | some id =>
        cases r with
        | ok reply => exact registers id (.inl hpre) rfl rfl rfl
        | error e => exact fails id hpre rfl rfl rfl
    | openWrite id path cachePath =>
      cases r with
      | error e =>
        rcases hpre with hg | hg | hg <;>
          exact same (by rw [hg]; rfl) fun id => by simp [hmem, Act.registers, Act.closes]
      | ok reply =>
        rcases hpre with hg | hg | hg
        · exact registers id (.inl hg) (by rw [hg]; rfl) rfl rfl
        · exact registers id (.inr hg) (by rw [hg]; rfl) rfl rfl
        · -- the handle that an `fsync` uploads is registered
          refine same (by rw [hg]; rfl) fun id' => ?_
          obtain ⟨fh, h, hget, hid⟩ := hI.uploads t id hg
          have hopen : id ∈ openSet c.log :=
            hI.custody.open_iff.2 ⟨.handle fh, by simp [holding, hget, hid]⟩
          simp only [hmem, Act.registers, Act.closes]
          refine ⟨?_, fun h => .inr ⟨h, fun hnone => by cases hnone⟩⟩
          rintro (h | ⟨h, -⟩)
          · cases h
            exact hopen
          · exact h
    | create handleId path =>
      cases r with
      | error e => exact same rfl fun id => by simp [hmem, Act.registers, Act.closes]
      | ok reply =>
        refine hI.custody.take (by rw [hold, show inHand c t = .nothing from hpre]; rfl)
          (by rw [hself]; rfl) hrest (hfresh reply.handleId rfl) fun id => ?_
        simp [hmem, Act.registers, Act.closes, or_comm, eq_comm]
    | _ => exact same rfl fun id => by simp [hmem, Act.registers, Act.closes]
  | handleClaim fh datasync =>
    refine same ?_ fun id => by simp [hmem, Act.registers, Act.closes]
    rw [show inHand c t = .nothing from hpre]
    cases r with
    | error e => rfl
    | ok claim =>
      simp only [Keeping.next]
      split <;> rfl
  | handleInsert fh h => exact absurd rfl (hi fh h)
  | handleRemove fh => exact absurd rfl (hr fh)
  | _ => exact same rfl fun id => by simp [hmem, Act.registers, Act.closes]

/-- A handle that is published takes over the id from the request. -/
theorem custody_insert (hI : Kept c) {fh : Nat} {h : OpenHandle}
    {k : Act.Ret (.handleInsert fh h) → FsProg Reply}
    (hlive : c.live t = some (o, .act (.handleInsert fh h) k))
    (hpre : inHand c t = .registered h.handleId) (hfree : c.st.openHandles.get fh = none)
    (hstep : fsMachine.Step (.handleInsert fh h) c.st () s) :
    Custody (holding (c.act t o (.handleInsert fh h) () p s))
      (· ∈ openSet (c.log ++ [.acted t (.handleInsert fh h) ()])) := by
  refine hI.custody.move (x := .request t) (y := .handle fh) (v := (h.handleId, true)) ?_ ?_ ?_ ?_
    ?_ fun id => by rw [openSet_snoc_of_none rfl rfl]
  · rw [holding, hpre]
    rfl
  · rw [holding, hfree]
    rfl
  · rw [holding, inHand_act_self hlive]
    rfl
  · rw [holding, Config.act_st, (handleStep_of_step hstep fh).of_insert]
    rfl
  · intro z hzt hzf
    cases z with
    | handle fh' =>
      refine holding_act_handle hstep (fun h' ha => ?_) nofun
      cases ha
      exact hzf rfl
    | request u => rw [holding, inHand_act_ne fun hu => hzt (congrArg _ hu), holding]

/-- A request that takes a handle out takes over its id. -/
theorem custody_remove (hI : Kept c) {fh : Nat} {x : Option OpenHandle}
    {k : Act.Ret (.handleRemove fh) → FsProg Reply}
    (hlive : c.live t = some (o, .act (.handleRemove fh) k)) (hpre : inHand c t = .nothing)
    (hstep : fsMachine.Step (.handleRemove fh) c.st x s) :
    Custody (holding (c.act t o (.handleRemove fh) x p s))
      (· ∈ openSet (c.log ++ [.acted t (.handleRemove fh) x])) := by
  obtain ⟨hget, hnone⟩ := (handleStep_of_step hstep fh).of_remove
  have hself : holding (c.act t o (.handleRemove fh) x p s) (.handle fh) = none := by
    rw [holding, Config.act_st, hnone]
    rfl
  have hrest : ∀ z, z ≠ .handle fh → z ≠ .request t →
      holding (c.act t o (.handleRemove fh) x p s) z = holding c z := by
    intro z hzf hzt
    cases z with
    | handle fh' =>
      refine holding_act_handle hstep nofun fun ha => ?_
      cases ha
      exact hzf rfl
    | request u => rw [holding, inHand_act_ne fun hu => hzt (congrArg _ hu), holding]
  have hopen : ∀ id, id ∈ openSet (c.log ++ [Event.acted t (.handleRemove fh) x]) ↔
      id ∈ openSet c.log := fun id => by rw [openSet_snoc_of_none rfl rfl]
  cases x with
  | some h =>
    refine hI.custody.move (x := .handle fh) (y := .request t) (v := (h.handleId, true)) ?_ ?_ hself
      ?_ hrest hopen
    · rw [holding, hget]
      rfl
    · rw [holding, hpre]
      rfl
    · rw [holding, inHand_act_self hlive]
      rfl
  | none =>
    refine hI.custody.congr (fun z => ?_) hopen
    by_cases hzf : z = .handle fh
    · rw [hzf, hself, holding, hget]
      rfl
    · by_cases hzt : z = .request t
      · rw [hzt, holding, holding, inHand_act_self hlive, hpre]
        rfl
      · exact hrest z hzf hzt

theorem act (hI : Kept c) (hlive : c.live t = some (o, .act a k)) (hpre : (inHand c t).Pre a)
    (hfree : ∀ fh h, a = .handleInsert fh h → c.st.openHandles.get fh = none)
    (hok : KeepsHandles c (.acted t a r)) (hstep : fsMachine.Step a c.st r s) :
    Kept (c.act t o a r p s) where
  uploads _ _ hu := hI.uploads_act hlive hstep hfree (fun fh h ha => hok.last t fh h ha) hu
  custody := by
    by_cases hi : ∃ fh h, a = .handleInsert fh h
    · obtain ⟨fh, h, rfl⟩ := hi
      exact hI.custody_insert hlive hpre (hfree fh h rfl) hstep
    · by_cases hr : ∃ fh, a = .handleRemove fh
      · obtain ⟨fh, rfl⟩ := hr
        exact hI.custody_remove hlive hpre hstep
      · exact hI.custody_request hlive hpre (fun fh h ha => hi ⟨fh, h, ha⟩)
          (fun fh ha => hr ⟨fh, ha⟩) (fun id => hok.fresh t a r id rfl) hstep

end Kept

end

/-! ## Whole runs -/

section
variable {nfc : Str → Str} {cacheRoot : Option Str} {disk : Disk} {c : FsConfig}

/-- **In every run that keeps the handles in order every registered id has one holder.** -/
theorem run_kept (h : (fsService nfc cacheRoot).Run KeepsHandles (.initial (.new disk)) c) :
    Kept c := by
  refine h.invariant_of_contract (keeping_honoured nfc cacheRoot) KeepsHandles.admits
    (.initial disk) (fun _ _ _ _ hI hfresh hlive _ => hI.start hfresh hlive) ?_ ?_
  · intro c t o a k r s hrun hI hlive hpre hok hstep
    refine hI.act hlive ((inHand_of_live hlive).symm ▸ hpre) ?_ hok hstep
    rintro fh handle rfl
    have honce := handedOutOnce_of_step (fun _ _ hok => hok.few) hrun (.act hlive hstep)
    cases hget : c.st.openHandles.get fh with
    | none => rfl
    | some h => exact absurd ((run_accounted (fun _ _ hok => hok.few) hrun fh).named h hget) (honce _)
  · intro c t o res hrun hI hlive hpost _
    exact hI.finish ((inHand_of_live hlive).trans hpost)

/-- **No handle id is leaked**: in every run that keeps the handles in order, whenever no request is
in progress. -/
theorem none_leaked (h : (fsService nfc cacheRoot).Run KeepsHandles (.initial (.new disk)) c)
    (hq : c.Quiet) : NoneLeaked c := by
  have hexact : openSet c.log = c.st.handleIds := by
    ext id
    rw [(run_kept h).custody.open_iff, FsState.mem_handleIds]
    constructor
    · rintro ⟨fh | t, hx⟩
      · obtain ⟨handle, hget, heq⟩ := Option.map_eq_some_iff.1 hx
        cases heq
        exact ⟨fh, handle, hget, rfl⟩
      · rw [holding, inHand_of_none (hq t)] at hx
        cases hx
    · rintro ⟨fh, handle, hget, rfl⟩
      exact ⟨.handle fh, by rw [holding, hget]; rfl⟩
  refine ⟨hexact, fun i id hi hnot => ?_⟩
  by_contra hnone
  refine hnot (hexact ▸ mem_openSet_of_registeredAt hi fun j hij hj => hnone ⟨j, hij, hj⟩)

end

/-! ## Runs -/

/-- Whether no open handle and no request of the log has the id in hand. -/
def isFreeId (c : FsConfig) (id : Str) : Bool :=
  (c.st.openHandles.values.all fun h => h.handleId != id) &&
    c.log.all fun e => (inHand c e.tid).held.all fun x => x.1 != id

/-- Whether the cache file could be opened, if the action opens one, and no `fsync` is uploading, if
the action takes out a handle. -/
def opensAndWaits (c : FsConfig) : (a : Act) → a.Ret → Bool
  | .openFile .., file => file.isSome
  | .handleRemove _, _ => c.log.all fun e => match inHand c e.tid with
    | .uploading _ => false
    | _ => true
  | _, _ => true

/-- Whether the step keeps the handles in order. -/
def inOrder (c : FsConfig) (e : FsEvent) : Bool :=
  decide (DrawsFew c e) && match e with
    | .acted t a r => opensAndWaits c a r && ((inHand c t).takes a r).all (isFreeId c)
    | _ => true

section
variable {ok : FsConfig → FsEvent → Prop} {s : FsState} {c : FsConfig} {e : FsEvent}

/-- A request that has something in hand is in the log. -/
theorem mem_log_of_inHand (h : plainFs.Run ok (.initial s) c) {t : Nat}
    (ht : inHand c t ≠ .nothing) : ∃ e ∈ c.log, e.tid = t := by
  cases hlive : c.live t with
  | none => exact absurd (inHand_of_none hlive) ht
  | some op =>
    obtain ⟨i, hi⟩ := h.started_of_live hlive
    exact ⟨_, List.mem_of_getElem? hi, rfl⟩

theorem not_holding_of_bool (h : plainFs.Run ok (.initial s) c) {id : Str}
    (hid : isFreeId c id = true) (x : Holder) (b : Bool) : holding c x ≠ some (id, b) := by
  obtain ⟨hhandles, hlog⟩ := Bool.and_eq_true_iff.1 hid
  intro hx
  cases x with
  | handle fh =>
    obtain ⟨handle, hget, heq⟩ := Option.map_eq_some_iff.1 hx
    cases heq
    simpa using List.all_eq_true.1 hhandles handle (HashMap.mem_values.2 ⟨fh, hget⟩)
  | request t =>
    have hx : (inHand c t).held = some (id, b) := hx
    obtain ⟨e, he, rfl⟩ := mem_log_of_inHand h (t := t) fun hn => by rw [hn] at hx; cases hx
    simpa [hx] using List.all_eq_true.1 hlog e he

theorem keepsHandles_of_bool (h : plainFs.Run ok (.initial s) c) (he : inOrder c e = true) :
    KeepsHandles c e := by
  obtain ⟨hfew, he⟩ := Bool.and_eq_true_iff.1 he
  refine ⟨of_decide_eq_true hfew, ?_, ?_, ?_⟩
  · rintro t o p path mode file rfl - -
    exact (Bool.and_eq_true_iff.1 he).1
  · rintro t a r id rfl htakes
    have hfree := (Bool.and_eq_true_iff.1 he).2
    rw [htakes] at hfree
    exact not_holding_of_bool h hfree
  · rintro t fh handle rfl u hu
    have hwait : (c.log.all fun e => match inHand c e.tid with
      | .uploading _ => false
      | _ => true) = true := (Bool.and_eq_true_iff.1 he).1
    obtain ⟨e, he, rfl⟩ := mem_log_of_inHand h (t := u) fun hn => by cases hn.symm.trans hu
    simpa [hu] using List.all_eq_true.1 hwait e he

/-- No request of the log is in progress. -/
theorem quiet_of_bool (h : plainFs.Run ok (.initial s) c)
    (hb : (c.log.all fun e => (c.live e.tid).isNone) = true) : c.Quiet := by
  intro t
  cases hlive : c.live t with
  | none => rfl
  | some op =>
    obtain ⟨i, hi⟩ := h.started_of_live hlive
    simpa [Event.tid, hlive] using List.all_eq_true.1 hb _ (List.mem_of_getElem? hi)

end

/-- Create a file, write to it, and `fsync` it: its id stays registered. -/
theorem none_leaked_fsync :
    ∃ c, plainFs.Run KeepsHandles (.initial (.new .empty)) c ∧
      "create-1".toList ∈ openSet c.log ∧ NoneLeaked c := by
  have hplay : (plainFs.play inOrder singleFsync (.initial (.new .empty))).any (fun c =>
      (c.log.all fun e => (c.live e.tid).isNone) && decide ("create-1".toList ∈ openSet c.log)) =
      true := by
    decide +kernel
  obtain ⟨c, hc, hb⟩ := (Option.any_eq_true ..).1 hplay
  obtain ⟨hquiet, hmem⟩ := Bool.and_eq_true_iff.1 hb
  have hrun : plainFs.Run KeepsHandles (.initial (.new .empty)) c :=
    plainFs.run_of_play .refl hc fun _ _ hrun => keepsHandles_of_bool hrun
  exact ⟨c, hrun, of_decide_eq_true hmem, none_leaked hrun (quiet_of_bool hrun hquiet)⟩

/-- Create a file whose cache file cannot be opened. -/
def createUnopened : List (Move World Op) :=
  .start 0 (.create rootInode (some ['a'])) :: List.replicate 5 (.act 0 .calm) ++
    [.act 0 { World.calm with io := false }, .finish 0]

/-- The property fails in some run: a `create` that fails leaves the id registered. -/
theorem create_leaks :
    ¬ ∀ (nfc : Str → Str) (cacheRoot : Option Str) (disk : Disk) (c : FsConfig),
      (fsService nfc cacheRoot).Run (fun _ _ => True) (.initial (.new disk)) c → c.Quiet →
        NoneLeaked c := by
  intro h
  have hplay : (plainFs.play (fun _ _ => true) createUnopened (.initial (.new .empty))).any
      (fun c => (c.log.all fun e => (c.live e.tid).isNone) &&
        decide (openSet c.log ≠ c.st.handleIds)) = true := by
    decide +kernel
  obtain ⟨c, hc, hb⟩ := (Option.any_eq_true ..).1 hplay
  obtain ⟨hquiet, hne⟩ := Bool.and_eq_true_iff.1 hb
  have hrun : plainFs.Run (fun _ _ => True) (.initial (.new .empty)) c :=
    plainFs.run_of_play .refl hc fun _ _ _ _ => trivial
  exact of_decide_eq_true hne (h id none .empty c hrun (quiet_of_bool hrun hquiet)).exact

end UnidriveMount
