import UnidriveMount.Fs.Fresh

/-!
# Failed operations

An operation that returns an errno leaves the tables of the session as they were, but for what
listings during the call added (`Unchanged`): everything that can fail comes before the first update,
and `fsync` takes back what it claimed. Two operations fail after an update that records what has
happened. `open` has emptied or materialised the content when the cache file cannot be opened, and
`setattr` has cut the handle's file when the attributes it answers with cannot be had
(`failed_unchanged`).
-/

namespace UnidriveMount

open Lib
open Lib.Prog (fail okOr ofExcept only_perform)

variable {α β : Type} {nfc : Str → Str} {cacheRoot : Option Str} {s s₁ s' : FsState}
  {es es₁ es₂ : List (Occ Act.Ret)}

/-! ## What stays -/

/-- The entries that listings took over. -/
def takenOver (es : List (Occ Act.Ret)) : List (Ino × ListEntry) :=
  es.flatMap fun x => match x with
    | ⟨.insertListed _, out⟩ => out
    | _ => []

theorem takenOver_append (es es' : List (Occ Act.Ret)) :
    takenOver (es ++ es') = takenOver es ++ takenOver es' := List.flatMap_append

/-- The tables are the same. -/
structure SameTables (s s' : FsState) : Prop where
  rawNames : s'.rawNames = s.rawNames
  openHandles : s'.openHandles = s.openHandles
  attrs : s'.attrs = s.attrs
  paths : s'.paths = s.paths

theorem SameTables.refl (s : FsState) : SameTables s s := ⟨rfl, rfl, rfl, rfl⟩

theorem SameTables.trans (h : SameTables s s₁) (h' : SameTables s₁ s') : SameTables s s' :=
  ⟨h'.rawNames.trans h.rawNames, h'.openHandles.trans h.openHandles, h'.attrs.trans h.attrs,
    h'.paths.trans h.paths⟩

/-- The tables are what they were, but for the entries that listings took over. -/
structure Unchanged (s : FsState) (es : List (Occ Act.Ret)) (s' : FsState) : Prop where
  rawNames : s'.rawNames = s.rawNames
  openHandles : ∀ fh, s'.openHandles.get fh = s.openHandles.get fh
  attrs : ∀ ino, s'.attrs.get ino = s.attrs.get ino ∨
    ∃ x ∈ takenOver es, x.1 = ino ∧ s'.attrs.get ino = some (.ofListEntry x.2)
  kept : ∀ p ino, s.paths.inodeFor p = some ino → s'.paths.inodeFor p = some ino
  added : ∀ p ino, s'.paths.inodeFor p = some ino →
    s.paths.inodeFor p = some ino ∨ ∃ x ∈ takenOver es, x.2.path = p

theorem SameTables.unchanged (h : SameTables s s') (es : List (Occ Act.Ret)) :
    Unchanged s es s' where
  rawNames := h.rawNames
  openHandles fh := by rw [h.openHandles]
  attrs ino := .inl (by rw [h.attrs])
  kept p ino hp := by rwa [h.paths]
  added p ino hp := .inl (by rwa [h.paths] at hp)

theorem Unchanged.append (h : Unchanged s es₁ s₁) (h' : Unchanged s₁ es₂ s') :
    Unchanged s (es₁ ++ es₂) s' where
  rawNames := h'.rawNames.trans h.rawNames
  openHandles fh := (h'.openHandles fh).trans (h.openHandles fh)
  attrs ino := by
    rw [takenOver_append]
    rcases h'.attrs ino with heq | ⟨x, hx, hino, hget⟩
    · rw [heq]
      exact (h.attrs ino).imp id fun ⟨x, hx, rest⟩ => ⟨x, List.mem_append_left _ hx, rest⟩
    · exact .inr ⟨x, List.mem_append_right _ hx, hino, hget⟩
  kept p ino hp := h'.kept p ino (h.kept p ino hp)
  added p ino hp := by
    rw [takenOver_append]
    rcases h'.added p ino hp with hp | ⟨x, hx, hpath⟩
    · exact (h.added p ino hp).imp id fun ⟨x, hx, rest⟩ => ⟨x, List.mem_append_left _ hx, rest⟩
    · exact .inr ⟨x, List.mem_append_right _ hx, hpath⟩

/-- The action leaves the tables alone. -/
def Act.Leaves : Act → Prop
  | .call _ | .reply _ | .nextHandleId | .nextFh | .handleRead .. | .unsentPaths | .openFile ..
  | .fileLen _ | .setLen .. | .removeFile _ | .removeDirAll _ => True
  | .insertListed _ => False
  | a => a.Looks

/-- The action leaves the tables alone, or takes a listing over. -/
def Act.Keeps (a : Act) : Prop := a.Leaves ∨ a.Looks

theorem sameTables_of_step {a : Act} {r : a.Ret} (hst : fsMachine.Step a s r s') (ha : a.Leaves) :
    SameTables s s' := by
  obtain ⟨-, (w : World), (hrun : a.run w s = (r, s'))⟩ := hst
  cases a with
  | openFile | setLen =>
    simp only [Act.run] at hrun
    split at hrun <;> cases hrun <;> exact ⟨rfl, rfl, rfl, rfl⟩
  | removeFile path | removeDirAll path =>
    cases hrun
    split <;> exact ⟨rfl, rfl, rfl, rfl⟩
  | pathFor | pathForBoth | inodeFor | rawName | cloneRawNames | attrOf | hasAttr | nowMs
  | warnQuarantined | call | reply | nextHandleId | nextFh | handleRead | unsentPaths | fileLen =>
    cases hrun
    exact ⟨rfl, rfl, rfl, rfl⟩
  | _ => exact ha.elim

theorem unchanged_of_step {a : Act} {r : a.Ret} (hst : fsMachine.Step a s r s') (ha : a.Keeps) :
    Unchanged s [⟨a, r⟩] s' := by
  by_cases hleaves : a.Leaves
  · exact (sameTables_of_step hst hleaves).unchanged _
  have ha := ha.resolve_left hleaves
  obtain ⟨-, (w : World), (hrun : a.run w s = (r, s'))⟩ := hst
  cases a with
  | insertListed entries =>
    obtain ⟨rfl, rfl⟩ : r = (s.insertListed entries).1 ∧ s' = (s.insertListed entries).2 :=
      ⟨(congrArg Prod.fst hrun).symm, (congrArg Prod.snd hrun).symm⟩
    have htaken : takenOver [⟨.insertListed entries, (s.insertListed entries).1⟩] =
        (s.insertListed entries).1 := List.append_nil _
    refine ⟨s.insertListed_rawNames entries, fun fh => ?_, fun ino => ?_, fun p ino =>
      s.insertListed_inodeFor, fun p ino hp => ?_⟩
    · rw [(s.extends_insertListed entries).openHandles]
    · rw [htaken]
      exact s.get_insertListed_eq entries ino
    · rw [htaken]
      refine (FsState.inodeFor_insertListed hp).imp id fun ⟨e, he, hpath⟩ => ?_
      rw [← s.insertListed_entries entries] at he
      obtain ⟨x, hx, rfl⟩ := List.mem_map.1 he
      exact ⟨x, hx, hpath⟩
  | _ => first | exact absurd trivial hleaves | exact ha.elim

/-- A run that leaves the tables alone. -/
theorem sameTables_of_exec {p : FsProg α} {res : Except Errno α} (hx : Exec fsMachine p s es res s')
    (hp : p.Only Act.Leaves) : SameTables s s' :=
  hx.invariant hp (I := fun s₁ => SameTables s s₁) (.refl s)
    fun _ _ _ _ ha _ hst h => h.trans (sameTables_of_step hst ha)

/-- A run that keeps the tables. -/
theorem unchanged_of_exec {p : FsProg α} {res : Except Errno α} (hx : Exec fsMachine p s es res s')
    (hp : p.Only Act.Keeps) : Unchanged s es s' := by
  induction hx with
  | ret => exact (SameTables.refl _).unchanged _
  | act hst _ ih => exact (unchanged_of_step hst hp.1).append (ih (hp.2 _))

/-! ## Programs that fail before they change anything -/

/-- The program leaves the tables alone when it fails. -/
def FailsUnchanged (p : FsProg α) : Prop :=
  ∀ s es e s', Exec fsMachine p s es (.error e) s' → Unchanged s es s'

/-- The program does not fail. -/
def Succeeds (p : FsProg α) : Prop := ∀ s es e s', ¬ Exec fsMachine p s es (.error e) s'

theorem succeeds_pure (x : α) : Succeeds (pure x : FsProg α) := by
  intro s es e s' hx
  cases (exec_ret_iff.1 hx).2.1

theorem succeeds_perform (a : Act) : Succeeds (perform a) := by
  intro s es e s' hx
  obtain ⟨r, s₁, es', -, -, h⟩ := exec_act_iff.1 hx
  cases (exec_ret_iff.1 h).2.1

theorem Succeeds.bind {p : FsProg α} {f : α → FsProg β} (hp : Succeeds p) (hf : ∀ x, Succeeds (f x)) :
    Succeeds (p >>= f) := by
  intro s es e s' hx
  rcases exec_bind_iff.1 hx with ⟨e', -, h⟩ | ⟨x, s₁, es₁, es₂, -, h, -⟩
  · exact hp _ _ _ _ h
  · exact hf x _ _ _ _ h

theorem ipc_succeeds (verb : Verb) : Succeeds (ipc verb) :=
  .bind (succeeds_perform _) fun _ => succeeds_perform _

theorem recordRawName_succeeds (cp name : Str) : Succeeds (recordRawName nfc cp name) := by
  unfold recordRawName
  split <;> exact succeeds_perform _

theorem publish_succeeds (h : OpenHandle) : Succeeds (publish h) :=
  .bind (succeeds_perform _) fun _ => .bind (succeeds_perform _) fun _ => succeeds_pure _

theorem forgetEntry_succeeds (cp : Str) : Succeeds (forgetEntry cp) := by
  refine .bind (succeeds_perform _) fun ino => .bind (succeeds_perform _) fun _ => ?_
  cases ino with
  | some ino => exact succeeds_perform _
  | none => exact succeeds_pure _

theorem Succeeds.failsUnchanged {p : FsProg α} (hp : Succeeds p) : FailsUnchanged p :=
  fun _ _ _ _ hx => absurd hx (hp _ _ _ _)

theorem failsUnchanged_of_only {p : FsProg α} (hp : p.Only Act.Keeps) : FailsUnchanged p :=
  fun _ _ _ _ hx => unchanged_of_exec hx hp

/-- A first part that keeps the tables. -/
theorem failsUnchanged_bind {p : FsProg α} {f : α → FsProg β} (hp : p.Only Act.Keeps)
    (hf : ∀ x, FailsUnchanged (f x)) : FailsUnchanged (p >>= f) := by
  intro s es e s' hx
  rcases exec_bind_iff.1 hx with ⟨e', -, h⟩ | ⟨x, s₁, es₁, es₂, h, hk, rfl⟩
  · exact unchanged_of_exec h hp
  · exact (unchanged_of_exec h hp).append (hf x _ _ _ _ hk)

/-- A second part that does not fail. -/
theorem FailsUnchanged.bind {p : FsProg α} {f : α → FsProg β} (hp : FailsUnchanged p)
    (hf : ∀ x, Succeeds (f x)) : FailsUnchanged (p >>= f) := by
  intro s es e s' hx
  rcases exec_bind_iff.1 hx with ⟨e', -, h⟩ | ⟨x, s₁, es₁, es₂, -, hk, rfl⟩
  · exact hp _ _ _ _ h
  · exact absurd hk (hf x _ _ _ _)

/-- An entry is put into the tables without failing. -/
theorem place_succeeds {cp name : Str} {attr : Int → CachedAttr} {f : Ino → Int → FsProg β}
    (hf : ∀ ino now, Succeeds (f ino now)) :
    Succeeds (perform (.intern cp) >>= fun ino => recordRawName nfc cp name >>= fun _ =>
      perform .nowMs >>= fun now => perform (.attrInsert ino (attr now)) >>= fun _ => f ino now) :=
  .bind (succeeds_perform _) fun _ => .bind (recordRawName_succeeds _ _) fun _ =>
  .bind (succeeds_perform _) fun _ => .bind (succeeds_perform _) fun _ => hf _ _

theorem createInternal_failsUnchanged (parent : Ino) (name : OsStr) :
    FailsUnchanged (createInternal nfc parent name) :=
  failsUnchanged_bind (only_okOr ..) fun _ => failsUnchanged_bind (only_perform (.inl trivial)) fun _ =>
  failsUnchanged_bind (only_okOr ..) fun _ =>
  failsUnchanged_bind (refuseNfcCollision_only fun _ => .inr) fun _ =>
  failsUnchanged_bind (only_perform (.inl trivial)) fun _ =>
  failsUnchanged_bind (only_ipc (.inl trivial) (.inl trivial)) fun _ => failsUnchanged_bind (only_mapErr ..) fun _ =>
  failsUnchanged_bind (only_perform (.inl trivial)) fun _ => failsUnchanged_bind (only_okOr ..) fun _ =>
  (place_succeeds fun _ _ => (publish_succeeds _).bind fun _ => succeeds_pure _).failsUnchanged

theorem mknod_failsUnchanged (parent : Ino) (name : OsStr) (mode : UInt32) :
    FailsUnchanged (mknod nfc parent name mode) := by
  unfold mknod
  split
  · exact failsUnchanged_of_only (only_fail _)
  · refine (createInternal_failsUnchanged parent name).bind fun x => .bind (succeeds_perform _)
      fun h => ?_
    cases h with
    | some h =>
      exact .bind (ipc_succeeds _) fun _ => .bind (ipc_succeeds _) fun _ => succeeds_pure _
    | none => exact succeeds_pure _

theorem mkdir_failsUnchanged (parent : Ino) (name : OsStr) :
    FailsUnchanged (mkdir nfc parent name) :=
  failsUnchanged_bind (only_okOr ..) fun _ => failsUnchanged_bind (only_perform (.inl trivial)) fun _ =>
  failsUnchanged_bind (only_okOr ..) fun _ =>
  failsUnchanged_bind (refuseNfcCollision_only fun _ => .inr) fun _ =>
  failsUnchanged_bind (only_ipc (.inl trivial) (.inl trivial)) fun _ => failsUnchanged_bind (only_mapErr ..) fun _ =>
  (place_succeeds fun _ _ => succeeds_pure _).failsUnchanged

theorem unlink_failsUnchanged (parent : Ino) (name : OsStr) :
    FailsUnchanged (unlink nfc cacheRoot parent name) := by
  refine failsUnchanged_bind (only_okOr ..) fun _ => failsUnchanged_bind (only_perform (.inl trivial))
    fun _ => failsUnchanged_bind (only_okOr ..) fun _ => failsUnchanged_bind (only_ipc (.inl trivial) (.inl trivial))
    fun _ => failsUnchanged_bind (only_mapErr ..) fun _ =>
    (Succeeds.bind (forgetEntry_succeeds _) fun _ => ?_).failsUnchanged
  cases cacheRoot with
  | some root => exact succeeds_perform _
  | none => exact succeeds_pure _

theorem rmdir_failsUnchanged (parent : Ino) (name : OsStr) :
    FailsUnchanged (rmdir nfc cacheRoot parent name) := by
  refine failsUnchanged_bind (only_okOr ..) fun _ => failsUnchanged_bind (only_perform (.inl trivial))
    fun _ => failsUnchanged_bind (only_okOr ..) fun _ => failsUnchanged_bind (only_ipc (.inl trivial) (.inl trivial))
    fun _ => failsUnchanged_bind (only_mapErr ..) fun _ =>
    (Succeeds.bind (forgetEntry_succeeds _) fun _ => ?_).failsUnchanged
  cases cacheRoot with
  | some root => exact succeeds_perform _
  | none => exact succeeds_pure _

theorem rename_failsUnchanged (oldParent : Ino) (oldName : OsStr) (newParent : Ino)
    (newName : OsStr) : FailsUnchanged (rename nfc oldParent oldName newParent newName) :=
  failsUnchanged_bind (only_okOr ..) fun _ => failsUnchanged_bind (only_okOr ..) fun _ =>
  failsUnchanged_bind (only_perform (.inl trivial)) fun _ => failsUnchanged_bind (only_okOr ..) fun _ =>
  failsUnchanged_bind (only_okOr ..) fun _ =>
  failsUnchanged_bind (refuseNfcCollision_only fun _ => .inr) fun _ =>
  failsUnchanged_bind (only_ipc (.inl trivial) (.inl trivial)) fun _ => failsUnchanged_bind (only_mapErr ..) fun _ =>
  (Succeeds.bind (succeeds_perform _) fun _ => .bind (succeeds_perform _) fun _ =>
    .bind (succeeds_perform _) fun _ => recordRawName_succeeds _ _).failsUnchanged

/-- A write fails when nothing was written. -/
theorem write_failsUnchanged (inode : Ino) (fh offset : Nat) (data : List UInt8) :
    FailsUnchanged (write inode fh offset data) := by
  intro s es e s' hx
  obtain ⟨r, s₁, es₁, ⟨-, (w : World), hrun⟩, rfl, h₁⟩ := exec_perform_bind_iff.1 hx
  cases r with
  | ok n =>
    have hrest : Succeeds (perform (.attrEdit inode (.grown (offset + n))) >>= fun _ =>
        (pure n : FsProg Nat)) := .bind (succeeds_perform _) fun _ => succeeds_pure _
    exact absurd h₁ (hrest _ _ _ _)
  | error e' =>
    obtain ⟨rfl, -, rfl⟩ := exec_ret_iff.1 h₁
    have hrun : s.handleWrite w fh offset data = (.error e', s') := hrun
    unfold FsState.handleWrite at hrun
    split at hrun
    · cases hrun
      exact (SameTables.refl _).unchanged _
    · split at hrun <;> cases hrun
      exact (SameTables.refl _).unchanged _

/-- A failed upload restores the dirty mark. -/
theorem fsync_failsUnchanged (fh : Nat) (datasync : Bool) : FailsUnchanged (fsync fh datasync) := by
  intro s es e s' hx
  obtain ⟨r, s₁, es₁, ⟨-, (w : World), hrun⟩, rfl, h₁⟩ := exec_perform_bind_iff.1 hx
  have hrun : s.handleClaim w fh = (r, s₁) := hrun
  unfold FsState.handleClaim at hrun
  split at hrun
  · cases hrun
    obtain ⟨rfl, -, rfl⟩ := exec_ret_iff.1 h₁
    exact (SameTables.refl _).unchanged _
  next h hh =>
  split at hrun
  · cases hrun
    by_cases hdirty : h.dirty = true
    · -- claimed, and uploaded in vain
      have hskip : ¬ (!h.dirty) = true := by simp [hdirty]
      change Exec fsMachine (if (!h.dirty) = true then _ else _) _ _ _ _ at h₁
      rw [if_neg hskip] at h₁
      obtain ⟨-, r, d, es₂, rfl, h₂⟩ := exec_ipc h₁
      cases r with
      | ok x => cases (exec_ret_iff.1 h₂).2.1
      | error e' =>
        obtain ⟨es₃, rfl, h₃⟩ := exec_perform_bind_of_run h₂ fun _ => rfl
        obtain ⟨rfl, -, rfl⟩ := exec_ret_iff.1 h₃
        refine ⟨rfl, fun fh' => ?_, fun _ => .inl rfl, fun _ _ => id, fun _ _ => .inl⟩
        show ((s.openHandles.insert fh _).modify fh _).get fh' = _
        rw [HashMap.get_modify, HashMap.get_insert_self, HashMap.get_insert]
        by_cases heq : fh' = fh
        · rw [if_pos heq, heq, hh]
          show some ({ h with dirty := true } : OpenHandle) = some h
          rw [← hdirty]
        · rw [if_neg heq, if_neg heq]
    · have hskip : (!h.dirty) = true := by simpa using hdirty
      change Exec fsMachine (if (!h.dirty) = true then _ else _) _ _ _ _ at h₁
      rw [if_pos hskip] at h₁
      cases (exec_ret_iff.1 h₁).2.1
  · cases hrun
    obtain ⟨rfl, -, rfl⟩ := exec_ret_iff.1 h₁
    exact (SameTables.refl _).unchanged _

/-! ## Failures after an update -/

/-- The change an open makes to the cached attributes. -/
def openEdit (flags : UInt32) : AttrEdit := if isTruncating flags then .truncated else .hydrated

/-- The tables are what they were, but for the entries that listings took over and for what a failed
request records of what has happened: an open whose cache file could not be opened, that the content
was emptied or materialised; and a `setattr` of an inode whose attributes were not cached, that the
file of its handle was cut. -/
structure UnchangedBut (o : Op) (s : FsState) (es : List (Occ Act.Ret)) (s' : FsState) : Prop where
  rawNames : s'.rawNames = s.rawNames
  openHandles : ∀ fh, s'.openHandles.get fh = s.openHandles.get fh ∨
    (∃ inode size, o = .setattr inode (some fh) (some size) ∧ inode ≠ rootInode ∧
      s.attrs.get inode = none) ∧
    s'.openHandles.get fh = (s.openHandles.get fh).map fun h => { h with dirty := true }
  attrs : ∀ ino, s'.attrs.get ino = s.attrs.get ino ∨
    (∃ x ∈ takenOver es, x.1 = ino ∧ s'.attrs.get ino = some (.ofListEntry x.2)) ∨
    ∃ flags now, o = .open ino flags ∧
      (∃ path mode, (⟨.openFile path mode, none⟩ : Occ Act.Ret) ∈ es) ∧
      s'.attrs.get ino = (s.attrs.get ino).map ((openEdit flags).apply now)
  kept : ∀ p ino, s.paths.inodeFor p = some ino → s'.paths.inodeFor p = some ino
  added : ∀ p ino, s'.paths.inodeFor p = some ino →
    s.paths.inodeFor p = some ino ∨ ∃ x ∈ takenOver es, x.2.path = p

theorem Unchanged.but (h : Unchanged s es s') (o : Op) : UnchangedBut o s es s' where
  rawNames := h.rawNames
  openHandles fh := .inl (h.openHandles fh)
  attrs ino := (h.attrs ino).imp id .inl
  kept := h.kept
  added := h.added

theorem syncSize_succeeds (flags : UInt32) (inode : Ino) (file : File) :
    Succeeds (syncSize flags inode file) := by
  unfold syncSize
  split
  · exact succeeds_pure _
  · refine .bind (succeeds_perform _) fun len => ?_
    cases len with
    | some len => exact succeeds_perform _
    | none => exact succeeds_pure _

/-- A first part that leaves the tables alone. -/
theorem exec_leaves_bind {p : FsProg α} {f : α → FsProg β} {e : Errno}
    (hx : Exec fsMachine (p >>= f) s es (.error e) s') (hp : p.Only Act.Leaves) : SameTables s s' ∨
      ∃ x s₁ es₁ es₂, SameTables s s₁ ∧ Exec fsMachine (f x) s₁ es₂ (.error e) s' ∧ es = es₁ ++ es₂ := by
  rcases exec_bind_iff.1 hx with ⟨e', -, h⟩ | ⟨x, s₁, es₁, es₂, h, hk, rfl⟩
  · exact .inl (sameTables_of_exec h hp)
  · exact .inr ⟨x, s₁, es₁, es₂, sameTables_of_exec h hp, hk, rfl⟩

/-- An open fails before it changes anything, or when the cache file cannot be opened. -/
theorem open_failed {inode : Ino} {flags : UInt32} {e : Errno}
    (hx : Exec fsMachine («open» inode flags) s es (.error e) s') :
    UnchangedBut (.open inode flags) s es s' := by
  have hcache : ∀ handleId path, (openCacheFile flags handleId path).Only Act.Leaves :=
    fun _ _ => openCacheFile_only ⟨trivial, trivial⟩ ⟨trivial, trivial⟩
  rcases exec_leaves_bind hx (only_perform trivial) with h | ⟨_, s₁, es₁, es₂, h, h₁, rfl⟩
  · exact (h.unchanged es).but _
  rcases exec_leaves_bind h₁ (only_okOr ..) with h' | ⟨path, s₂, es₃, es₄, h', h₂, rfl⟩
  · exact ((h.trans h').unchanged _).but _
  have h := h.trans h'
  split at h₂
  · obtain ⟨-, -, rfl⟩ := exec_ret_iff.1 h₂
    exact (h.unchanged _).but _
  rcases exec_leaves_bind h₂ (only_perform trivial) with h' | ⟨n, s₃, es₅, es₆, h', h₃, rfl⟩
  · exact ((h.trans h').unchanged _).but _
  have h := h.trans h'
  rcases exec_leaves_bind h₃ (hcache ..) with h' | ⟨cachePath, s₄, es₇, es₈, h', h₄, rfl⟩
  · exact ((h.trans h').unchanged _).but _
  have h := h.trans h'
  -- the attributes follow what the daemon did, and the cache file cannot be opened
  obtain ⟨_, s₅, es₉, ⟨-, (w : World), hedit⟩, rfl, h₅⟩ := exec_perform_bind_iff.1 h₄
  cases hedit
  obtain ⟨file, s₆, es₁₀, hopen, rfl, h₆⟩ := exec_perform_bind_iff.1 h₅
  have hsame := sameTables_of_step hopen trivial
  cases file with
  | some file =>
    refine absurd h₆ ((syncSize_succeeds flags inode file).bind (fun _ => ?_) _ _ _ _)
    exact (publish_succeeds _).bind fun _ => succeeds_pure _
  | none =>
    obtain ⟨rfl, -, rfl⟩ := exec_ret_iff.1 h₆
    have hattrs : s'.attrs = s.attrs.modify inode ((openEdit flags).apply w.clock) := by
      rw [hsame.attrs, ← h.attrs]
      rfl
    have hpaths : s'.paths = s.paths := hsame.paths.trans h.paths
    refine ⟨hsame.rawNames.trans h.rawNames, fun fh => .inl ?_, fun ino => ?_, fun p i hp => ?_,
      fun p i hp => .inl ?_⟩
    · rw [hsame.openHandles]
      exact congrArg (HashMap.get · fh) h.openHandles
    · rw [hattrs, HashMap.get_modify]
      by_cases hino : ino = inode
      · subst hino
        rw [if_pos rfl]
        refine .inr (.inr ⟨flags, w.clock, rfl,
          ⟨cachePath, if isWritable flags then .write else .read, ?_⟩, rfl⟩)
        exact List.mem_append_right _ (List.mem_append_right _ (List.mem_append_right _
          (List.mem_append_right _ (.tail _ (.head _)))))
      · exact .inl (if_neg hino)
    · rwa [hpaths]
    · rwa [hpaths] at hp

/-- The edit of attributes that are not cached changes nothing, and only then can the answer fail. -/
theorem exec_edit_fetch {inode : Ino} {edit : AttrEdit} {e : Errno} {f : CachedAttr → FsProg β}
    (hf : ∀ a, Succeeds (f a))
    (hx : Exec fsMachine (perform (.attrEdit inode edit) >>= fun _ => getOrFetchAttr inode >>= f) s es
      (.error e) s') : inode ≠ rootInode ∧ s.attrs.get inode = none ∧ Unchanged s es s' := by
  obtain ⟨_, s₁, es₁, ⟨-, (w : World), hedit⟩, rfl, h₁⟩ := exec_perform_bind_iff.1 hx
  cases hedit
  have hfetch : Exec fsMachine (getOrFetchAttr inode)
      { s with attrs := s.attrs.modify inode (edit.apply w.clock) } es₁ (.error e) s' := by
    rcases exec_bind_iff.1 h₁ with ⟨e', he, h⟩ | ⟨a, s₂, es₂, es₃, -, h, rfl⟩
    · cases he
      exact h
    · exact absurd h (hf a _ _ _ _)
  have hkept : Unchanged _ es₁ s' := unchanged_of_exec hfetch (getOrFetchAttr_only fun _ => .inr)
  unfold getOrFetchAttr at hfetch
  split at hfetch
  · cases (exec_ret_iff.1 hfetch).2.1
  next hroot =>
  obtain ⟨es₂, rfl, h₂⟩ := exec_perform_bind_of_run hfetch fun _ => rfl
  cases ha : s.attrs.get inode with
  | some a =>
    have hget : (s.attrs.modify inode (edit.apply w.clock)).get inode =
        some (edit.apply w.clock a) := by
      rw [HashMap.get_modify, if_pos rfl, ha]
      rfl
    rw [hget] at h₂
    cases (exec_ret_iff.1 h₂).2.1
  | none =>
    have hmodify : s.attrs.modify inode (edit.apply w.clock) = s.attrs := by
      unfold HashMap.modify
      rw [ha]
    have hsame : SameTables s { s with attrs := s.attrs.modify inode (edit.apply w.clock) } :=
      ⟨rfl, rfl, hmodify, rfl⟩
    exact ⟨hroot, rfl, (hsame.unchanged [_]).append hkept⟩

theorem bareTruncateToZero_leaves (path : Str) : (bareTruncateToZero path).Only Act.Leaves :=
  .bind (only_ipc trivial trivial) fun _ => .bind (only_mapErr ..) fun _ =>
  .bind (only_perform trivial) fun _ => .bind (only_ipc trivial trivial) fun _ =>
  .bind (only_ipc trivial trivial) fun _ => .bind (only_mapErr ..) fun _ => only_pure _

theorem bareTruncateToSize_leaves (path : Str) (newSize : Nat) :
    (bareTruncateToSize path newSize).Only Act.Leaves := by
  refine .bind (only_perform trivial) fun _ => .bind (only_ipc trivial trivial) fun _ =>
    .bind (only_mapErr ..) fun _ => .bind (only_perform trivial) fun file => ?_
  cases file with
  | none => exact .bind (only_ipc trivial trivial) fun _ => only_fail _
  | some file =>
    refine .bind (only_perform trivial) fun cut => ?_
    split
    · exact .bind (only_ipc trivial trivial) fun _ => .bind (only_ipc trivial trivial) fun _ =>
        .bind (only_mapErr ..) fun _ => only_pure _
    · exact .bind (only_ipc trivial trivial) fun _ => only_fail _

/-- The handle `fh` is marked dirty, and nothing else of the tables changes. -/
structure Dirtied (fh : Nat) (s s' : FsState) : Prop where
  rawNames : s'.rawNames = s.rawNames
  handle : s'.openHandles.get fh = (s.openHandles.get fh).map fun h => { h with dirty := true }
  others : ∀ fh', fh' ≠ fh → s'.openHandles.get fh' = s.openHandles.get fh'
  attrs : s'.attrs = s.attrs
  paths : s'.paths = s.paths

/-- A truncation leaves the tables alone, or cuts the file of a handle and marks it dirty. -/
theorem exec_truncate {path : Str} {fh : Option Nat} {newSize : Nat} {res : Except Errno Unit}
    (hx : Exec fsMachine (truncate path fh newSize) s es res s') :
    SameTables s s' ∨ res = .ok () ∧ ∃ n, fh = some n ∧ Dirtied n s s' := by
  cases fh with
  | none =>
    refine .inl (sameTables_of_exec hx ?_)
    unfold truncate
    dsimp only
    split
    · exact bareTruncateToZero_leaves path
    · exact bareTruncateToSize_leaves path newSize
  | some n =>
    obtain ⟨r, s₁, es₁, ⟨-, (w : World), hrun⟩, rfl, h₁⟩ := exec_perform_bind_iff.1 hx
    obtain ⟨rfl, rfl, rfl⟩ := exec_ret_iff.1 h₁
    have hrun : s.handleSetLen w n newSize = (res, s') := hrun
    unfold FsState.handleSetLen at hrun
    split at hrun
    · cases hrun
      exact .inl (.refl _)
    next h hh =>
    split at hrun
    · cases hrun
      refine .inr ⟨rfl, n, rfl, rfl, ?_, fun fh' hne => HashMap.get_insert_ne _ _ hne, rfl, rfl⟩
      rw [hh]
      exact HashMap.get_insert_self ..
    · cases hrun
      exact .inl (.refl _)

/-- A `setattr` fails before it changes anything, or when it cut the file of the handle and the
attributes cannot be had. -/
theorem setattr_failed {inode : Ino} {fh size : Option Nat} {e : Errno}
    (hx : Exec fsMachine (setattr inode fh size) s es (.error e) s') :
    UnchangedBut (.setattr inode fh size) s es s' := by
  have hanswer : ∀ a, Succeeds (pure ⟨ttl, fileAttrFromCached inode a⟩ : FsProg ReplyAttr) :=
    fun a => succeeds_pure _
  rcases exec_leaves_bind hx (only_perform trivial) with h | ⟨_, s₁, es₁, es₂, h, h₁, rfl⟩
  · exact (h.unchanged es).but _
  rcases exec_leaves_bind h₁ (only_okOr ..) with h' | ⟨path, s₂, es₃, es₄, h', h₂, rfl⟩
  · exact ((h.trans h').unchanged _).but _
  have h := h.trans h'
  have hpre : ∀ es s', Unchanged s₂ es s' → Unchanged s (es₁ ++ (es₃ ++ es)) s' := by
    intro es s' hkept
    rw [← List.append_assoc]
    exact (h.unchanged _).append hkept
  cases size with
  | none =>
    refine (hpre _ _ ?_).but _
    exact (failsUnchanged_bind (only_pure _) fun _ =>
      failsUnchanged_bind (getOrFetchAttr_only fun _ => .inr) fun a => (hanswer a).failsUnchanged)
      _ _ _ _ h₂
  | some newSize =>
    have hsize : setattrSize inode path fh (some newSize) = (truncate path fh newSize >>= fun _ =>
        perform (.attrEdit inode (if newSize = 0 then .truncated else .resized newSize))) := rfl
    rw [hsize, Prog.bind_assoc] at h₂
    rcases exec_bind_iff.1 h₂ with ⟨e', -, ht⟩ | ⟨_, s₃, es₅, es₆, ht, h₃, rfl⟩
    · rcases exec_truncate ht with hsame | ⟨he, -⟩
      · exact (hpre _ _ (hsame.unchanged _)).but _
      · cases he
    obtain ⟨hroot, hattr, hkept⟩ := exec_edit_fetch hanswer h₃
    rcases exec_truncate ht with hsame | ⟨-, n, rfl, hdirtied⟩
    · exact (hpre _ _ ((hsame.unchanged _).append hkept)).but _
    -- the handle's file was cut
    have hs₃ : ∀ fh', fh' ≠ n → s₃.openHandles.get fh' = s.openHandles.get fh' := by
      intro fh' hne
      rw [hdirtied.others fh' hne, h.openHandles]
    have hmem : ∀ x, x ∈ takenOver es₆ → x ∈ takenOver (es₁ ++ (es₃ ++ (es₅ ++ es₆))) := by
      intro x hx
      simp only [takenOver_append, List.mem_append]
      exact .inr (.inr (.inr hx))
    have hattrs : s₃.attrs = s.attrs := hdirtied.attrs.trans h.attrs
    have hpaths : s₃.paths = s.paths := hdirtied.paths.trans h.paths
    refine ⟨hkept.rawNames.trans (hdirtied.rawNames.trans h.rawNames), fun fh' => ?_, fun ino => ?_,
      fun p ino hp => hkept.kept p ino (hpaths ▸ hp), fun p ino hp => ?_⟩
    · rw [hkept.openHandles fh']
      by_cases hne : fh' = n
      · subst hne
        refine .inr ⟨⟨inode, newSize, rfl, hroot, hattrs ▸ hattr⟩, ?_⟩
        rw [hdirtied.handle, h.openHandles]
      · exact .inl (hs₃ fh' hne)
    · rw [← hattrs]
      exact (hkept.attrs ino).imp id fun ⟨x, hx, rest⟩ => .inl ⟨x, hmem x hx, rest⟩
    · rw [← hpaths]
      exact (hkept.added p ino hp).imp id fun ⟨x, hx, rest⟩ => ⟨x, hmem x hx, rest⟩

/-! ## Every operation -/

/-- The operations that change something. -/
def Op.Changes : Op → Prop
  | .open .. | .create .. | .mknod .. | .mkdir .. | .unlink .. | .rmdir .. | .rename .. | .write ..
  | .fsync .. | .setattr .. => True
  | _ => False

/-- **A failed operation leaves the session as it was**, in every state, but for what listings during
the call added and for the record of what an `open` or a `setattr` had done when it failed. -/
theorem failed_unchanged {o : Op} (ho : o.Changes) {e : Errno}
    (hx : Exec fsMachine (o.prog nfc cacheRoot) s es (.error e) s') : UnchangedBut o s es s' := by
  have hfails : ∀ {α : Type} {p : FsProg α} {f : α → Reply}, FailsUnchanged p →
      Exec fsMachine (p >>= fun x => pure (f x)) s es (.error e) s' → UnchangedBut o s es s' :=
    fun hp hx => ((hp.bind fun _ => succeeds_pure _) _ _ _ _ hx).but o
  cases o with
  | «open» inode flags =>
    obtain ⟨r, hopen, hr⟩ := exec_map_iff.1 hx
    cases r with
    | ok r => cases hr
    | error e' => exact open_failed hopen
  | setattr inode fh size =>
    obtain ⟨r, hset, hr⟩ := exec_map_iff.1 hx
    cases r with
    | ok r => cases hr
    | error e' => exact setattr_failed hset
  | create parent name =>
    exact hfails ((createInternal_failsUnchanged parent name).bind fun _ => succeeds_pure _) hx
  | mknod parent name mode => exact hfails (mknod_failsUnchanged parent name mode) hx
  | mkdir parent name => exact hfails (mkdir_failsUnchanged parent name) hx
  | unlink parent name => exact hfails (unlink_failsUnchanged parent name) hx
  | rmdir parent name => exact hfails (rmdir_failsUnchanged parent name) hx
  | rename op on np nn => exact hfails (rename_failsUnchanged op on np nn) hx
  | write inode fh offset data => exact hfails (write_failsUnchanged inode fh offset data) hx
  | fsync fh datasync => exact hfails (fsync_failsUnchanged fh datasync) hx
  | _ => exact ho.elim

/-! ## A failed open -/

/-- The file `/a`, which is not hydrated, is known. -/
def knownA : List (Op × World) :=
  [(.lookup rootInode (some ['a']), .lists fun _ => [⟨['/', 'a'], 5, 0, false, false, none, false⟩])]

/-- A file is opened whose cache file is gone: the open fails, and the attributes say that the file is
hydrated. -/
theorem failed_open_hydrates : ¬ ∀ (nfc : Str → Str) (cacheRoot : Option Str) (disk : Disk)
    (l : List FsServed) (s : FsState),
    (fsService nfc cacheRoot).Sequence (fun _ _ _ => True) (.new disk) l s →
    ∀ o : Op, o.Changes → ∀ es e s', Exec fsMachine (o.prog nfc cacheRoot) s es (.error e) s' →
      Unchanged s es s' := by
  intro h
  have hserve : (plainFs.serveAll (fun _ _ _ => true) knownA [] (.new .empty)).any (fun x =>
      (fsMachine.exec .calm ((Op.open 2 0).prog id none) x.2).any fun y =>
      takenOver y.1 = [] && decide (y.2.2.attrs.get 2 ≠ x.2.attrs.get 2) && !y.2.1.isOk) = true := by
    decide +kernel
  obtain ⟨⟨l, s⟩, hs, hcheck⟩ := (Option.any_eq_true ..).1 hserve
  obtain ⟨⟨es, res, s'⟩, hx, hcheck⟩ := (Option.any_eq_true ..).1 hcheck
  obtain ⟨hcheck, hres⟩ := Bool.and_eq_true_iff.1 hcheck
  obtain ⟨htaken, hne⟩ := Bool.and_eq_true_iff.1 hcheck
  have hseq : plainFs.Sequence (fun _ _ _ => True) (.new .empty) l s :=
    plainFs.sequence_of_serveAll (fun _ _ _ _ => trivial) .nil hs
  cases res with
  | ok r => cases hres
  | error e =>
    have hkept := h id none .empty l s hseq (.open 2 0) trivial es e s' (Machine.exec_sound hx)
    rcases hkept.attrs 2 with heq | ⟨x, hmem, -⟩
    · exact of_decide_eq_true hne heq
    · rw [of_decide_eq_true htaken] at hmem
      cases hmem

/-- The open of the file leaves everything else as it was. -/
theorem failed_unchanged_open :
    ∃ l s es e s', plainFs.Sequence (fun _ _ _ => True) (.new .empty) l s ∧
      Exec fsMachine ((Op.open 2 0).prog id none) s es (.error e) s' ∧
      UnchangedBut (.open 2 0) s es s' := by
  have hserve : (plainFs.serveAll (fun _ _ _ => true) knownA [] (.new .empty)).any (fun x =>
      (fsMachine.exec .calm ((Op.open 2 0).prog id none) x.2).any fun y => !y.2.1.isOk) = true := by
    decide +kernel
  obtain ⟨⟨l, s⟩, hs, hcheck⟩ := (Option.any_eq_true ..).1 hserve
  obtain ⟨⟨es, res, s'⟩, hx, hres⟩ := (Option.any_eq_true ..).1 hcheck
  have hseq : plainFs.Sequence (fun _ _ _ => True) (.new .empty) l s :=
    plainFs.sequence_of_serveAll (fun _ _ _ _ => trivial) .nil hs
  cases res with
  | ok r => cases hres
  | error e =>
    have hx := Machine.exec_sound hx
    have hchanges : (Op.open 2 0).Changes := trivial
    exact ⟨l, s, es, e, s', hseq, hx, failed_unchanged hchanges hx⟩

end UnidriveMount
