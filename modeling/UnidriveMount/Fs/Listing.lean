import UnidriveMount.Fs.Names
import UnidriveMount.Fs.LocalAttrs

/-!
# What `readdir` shows, `lookup` finds

`readdir` shows an entry under its raw name of the session, or under its basename; `lookup` folds the
name to NFC, compares it with the visible name, and takes the inode from the path map. The two agree
because every raw name folds to the basename of its path (`FoldsToBasename`), which every request
keeps. `shown_found` is the result; it needs an inode counter that has not wrapped around, and the
inode of `..` is left out of the comparison with `readdirplus` when that directory has none yet
(`shown_not_found`).
-/

namespace UnidriveMount

open Lib
open Lib.Prog (fail okOr ofExcept only_perform)

variable {nfc : Str → Str} {cacheRoot : Option Str} {s s' : FsState} {es : List (Occ Act.Ret)}

/-! ## Raw names -/

/-- What the code relies on of the normalisation of names. -/
structure Normalises (nfc : Str → Str) : Prop where
  idem : ∀ n, nfc (nfc n) = nfc n
  slash : ∀ n, '/' ∉ n → '/' ∉ nfc n
  dot : nfc ['.'] = ['.']
  dotdot : nfc ['.', '.'] = ['.', '.']

/-- Every raw name folds to the basename of its path. -/
def FoldsToBasename (nfc : Str → Str) (rawNames : HashMap Str Str) : Prop :=
  ∀ cp raw, rawNames.get cp = some raw → nfc raw = basename cp

/-- The names a request has for entries. -/
def Op.names : Op → List OsStr
  | lookup _ n | mkdir _ n | unlink _ n | rmdir _ n | create _ n | mknod _ n _ => [n]
  | rename _ n _ m => [n, m]
  | _ => []

/-- The kernel's names are single components of a path. -/
def Op.KernelNames (o : Op) : Prop := ∀ name, some name ∈ o.names → '/' ∉ name

/-- The action records only names that fold to the basename. -/
def Act.Folds (nfc : Str → Str) : Act → Prop
  | rawInsert cp name => nfc name = basename cp
  | _ => True

/-- The action changes the raw names. -/
def Act.Renames : Act → Prop
  | rawInsert .. | rawRemove _ | forgetRawNames _ | renameRawNames .. => True
  | _ => False

theorem rawNames_of_step {a : Act} {r : a.Ret} (h : fsMachine.Step a s r s') (ha : ¬ a.Renames) :
    s'.rawNames = s.rawNames := by
  obtain ⟨-, (w : World), (hrun : a.run w s = (r, s'))⟩ := h
  cases a with
  | rawInsert | rawRemove | forgetRawNames | renameRawNames => exact absurd trivial ha
  | insertListed entries =>
    obtain rfl : s' = (s.insertListed entries).2 := (congrArg Prod.snd hrun).symm
    exact s.insertListed_rawNames entries
  | handleWrite | handleSetLen | handleClaim =>
    simp only [Act.run, FsState.handleWrite, FsState.handleSetLen, FsState.handleClaim] at hrun
    split at hrun <;> [skip; split at hrun] <;> cases hrun <;> rfl
  | attrOpened | openFile | setLen =>
    simp only [Act.run] at hrun
    split at hrun <;> cases hrun <;> rfl
  | removeFile path | removeDirAll path =>
    cases hrun
    split <;> rfl
  | _ => cases hrun; rfl

/-- The raw names after a rename: those of moved paths, and others that were there. -/
theorem get_renamedRawNames {old new cp raw : Str}
    (h : (s.renamedRawNames old new).get cp = some raw) :
    (∃ r, cp = new ++ '/' :: r ∧ s.rawNames.get (old ++ '/' :: r) = some raw) ∨
      s.rawNames.get cp = some raw := by
  rcases HashMap.mem_of_get_extend h with hmem | hget
  · obtain ⟨⟨k, v⟩, hk, heq⟩ := List.mem_map.1 hmem
    obtain ⟨hk, hpre⟩ := List.mem_filter.1 hk
    obtain ⟨r, rfl⟩ : ∃ r, k = old ++ '/' :: r := by
      obtain ⟨r, hr⟩ := of_decide_eq_true hpre
      exact ⟨r, hr.symm.trans (by simp)⟩
    simp only [Prod.mk.injEq] at heq
    obtain ⟨rfl, rfl⟩ := heq
    refine .inl ⟨r, ?_, HashMap.mem_iter.1 hk⟩
    rw [List.drop_append]
    simp
  · rw [HashMap.get_retain] at hget
    exact .inr (Option.filter_eq_some_iff.1 hget).1

theorem FoldsToBasename.step (h : FoldsToBasename nfc s.rawNames) {a : Act} {r : a.Ret}
    (hst : fsMachine.Step a s r s') (ha : a.Folds nfc) : FoldsToBasename nfc s'.rawNames := by
  by_cases hren : a.Renames
  · obtain ⟨-, (w : World), (hrun : a.run w s = (r, s'))⟩ := hst
    intro cp raw hget
    cases a with
    | rawInsert p name =>
      cases hrun
      rw [HashMap.get_insert] at hget
      split at hget
      · next heq =>
        cases hget
        rw [heq]
        exact ha
      · exact h cp raw hget
    | rawRemove p =>
      cases hrun
      rw [HashMap.get_remove] at hget
      split at hget
      · cases hget
      · exact h cp raw hget
    | forgetRawNames p =>
      cases hrun
      rw [HashMap.get_retain] at hget
      exact h cp raw (Option.filter_eq_some_iff.1 hget).1
    | renameRawNames old new =>
      cases hrun
      rcases get_renamedRawNames hget with ⟨rest, rfl, hold⟩ | hold
      · rw [h _ _ hold, basename_append, basename_append]
      · exact h cp raw hold
    | _ => exact hren.elim
  · rw [rawNames_of_step hst hren]
    exact h

/-- A name is recorded at the path it folds to. -/
theorem recordRawName_folds (hnfc : Normalises nfc) {parentPath name : Str} (hname : '/' ∉ name) :
    (recordRawName nfc (childPath nfc parentPath name) name).Only (Act.Folds nfc) := by
  unfold recordRawName
  split
  · exact only_perform trivial
  · refine only_perform ?_
    show nfc name = basename _
    rw [childPath_eq, basename_child _ (hnfc.slash name hname)]

/-- The action inserts a raw name. -/
def Act.InsertsName : Act → Prop
  | rawInsert .. => True
  | _ => False

theorem Act.Looks.not_insertsName {a : Act} (h : a.Looks) : ¬ a.InsertsName := by
  cases a <;> first | exact id | exact fun _ => h

/-- Only the requests that put an entry somewhere record a name. -/
theorem Op.May.not_insertsName {o : Op} (ho : match o with
    | .mkdir .. | .create .. | .mknod .. | .rename .. => False
    | _ => True) {a : Act} (h : o.May a) : ¬ a.InsertsName := by
  cases a with
  | rawInsert cp name =>
    rcases h with h | h <;> cases o <;> first | exact ho.elim | exact h.elim | skip
    all_goals rcases h with h | h <;> exact h.elim
  | _ => exact id

theorem createInternal_recording {P : Act → Prop} (hother : ∀ a : Act, ¬ a.InsertsName → P a)
    {parent : Ino} {name : OsStr}
    (hrec : ∀ parentPath n, name = some n →
      (recordRawName nfc (childPath nfc parentPath n) n).Only P) :
    (createInternal nfc parent name).Only P :=
  only_okOr_bind fun n hn => .bind (only_perform (hother _ id)) fun _ => .bind (only_okOr ..) fun _ =>
  .bind (refuseNfcCollision_only fun _ h => hother _ h.not_insertsName) fun _ =>
  .bind (only_perform (hother _ id)) fun _ => .bind (only_ipc (hother _ id) (hother _ id)) fun _ =>
  .bind (only_mapErr ..) fun _ => .bind (only_perform (hother _ id)) fun _ =>
  .bind (only_okOr ..) fun _ => .bind (only_perform (hother _ id)) fun _ =>
  .bind (hrec _ n hn) fun _ => .bind (only_perform (hother _ id)) fun _ =>
  .bind (only_perform (hother _ id)) fun _ =>
  .bind (publish_only (hother _ id) fun _ => hother _ id) fun _ => only_pure _

/-- A request inserts raw names only where it records a name it was given. -/
theorem Op.prog_recording {P : Act → Prop} (hother : ∀ a : Act, ¬ a.InsertsName → P a) {o : Op}
    (hrec : ∀ parentPath n, some n ∈ o.names →
      (recordRawName nfc (childPath nfc parentPath n) n).Only P) :
    (o.prog nfc cacheRoot).Only P := by
  cases o with
  | mkdir parent name =>
    refine .bind (only_okOr_bind fun n hn => ?_) fun _ => only_pure _
    exact .bind (only_perform (hother _ id)) fun _ => .bind (only_okOr ..) fun _ =>
      .bind (refuseNfcCollision_only fun _ h => hother _ h.not_insertsName) fun _ =>
      .bind (only_ipc (hother _ id) (hother _ id)) fun _ => .bind (only_mapErr ..) fun _ =>
      .bind (only_perform (hother _ id)) fun _ => .bind (hrec _ n (by simp [Op.names, hn])) fun _ =>
      .bind (only_perform (hother _ id)) fun _ => .bind (only_perform (hother _ id)) fun _ =>
      only_pure _
  | create parent name =>
    refine .bind (.bind (createInternal_recording hother fun _ n hn => ?_) fun _ => only_pure _)
      fun _ => only_pure _
    exact hrec _ n (by simp [Op.names, hn])
  | mknod parent name mode =>
    refine .bind ?_ fun _ => only_pure _
    unfold UnidriveMount.mknod
    split
    · exact only_fail _
    · refine .bind (createInternal_recording hother fun _ n hn => ?_) fun x =>
        .bind (only_perform (hother _ id)) fun r => ?_
      · exact hrec _ n (by simp [Op.names, hn])
      · cases r with
        | some h =>
          exact .bind (only_ipc (hother _ id) (hother _ id)) fun _ =>
            .bind (only_ipc (hother _ id) (hother _ id)) fun _ => only_pure _
        | none => exact only_pure _
  | rename oldParent oldName newParent newName =>
    refine .bind (.bind (only_okOr ..) fun _ => only_okOr_bind fun n hn => ?_) fun _ => only_pure _
    exact .bind (only_perform (hother _ id)) fun _ => .bind (only_okOr ..) fun _ =>
      .bind (only_okOr ..) fun _ =>
      .bind (refuseNfcCollision_only fun _ h => hother _ h.not_insertsName) fun _ =>
      .bind (only_ipc (hother _ id) (hother _ id)) fun _ => .bind (only_mapErr ..) fun _ =>
      .bind (only_perform (hother _ id)) fun _ => .bind (only_perform (hother _ id)) fun _ =>
      .bind (only_perform (hother _ id)) fun _ => hrec _ n (by simp [Op.names, hn])
  | _ => exact (Op.prog_only _).mono fun a h => hother a (h.not_insertsName trivial)

/-- **Every request keeps the raw names in step with the paths.** -/
theorem Op.prog_folds (hnfc : Normalises nfc) {o : Op} (ho : o.KernelNames) :
    (o.prog nfc cacheRoot).Only (Act.Folds nfc) := by
  refine Op.prog_recording (fun a ha => ?_) fun _ n hn => recordRawName_folds hnfc (ho n hn)
  cases a <;> first | trivial | exact absurd trivial ha

theorem folds_of_sequence (hnfc : Normalises nfc) {disk : Disk} {l : List FsServed}
    (hs : (fsService nfc cacheRoot).Sequence (fun _ _ x => x.req.KernelNames) (.new disk) l s) :
    FoldsToBasename nfc s.rawNames := by
  refine hs.invariant (I := fun _ s => FoldsToBasename nfc s.rawNames) (fun cp raw h => by cases h)
    fun l s x s' hI hx hnames => ?_
  exact hx.invariant (I := fun s => FoldsToBasename nfc s.rawNames) (Op.prog_folds hnfc hnames) hI
    fun _ _ _ _ ha _ hst h => h.step hst ha

/-! ## What a listing shows -/

/-- What `readdir` and `readdirplus` emit of a directory: names, inodes and offsets. -/
def shownEntries (parent dotdot : Ino) (rawNames : HashMap Str Str)
    (listed : List (Ino × ListEntry)) : List (Str × Ino × Int) :=
  (['.'], parent, 1) :: (['.', '.'], dotdot, 2) ::
    listed.mapIdx fun i e => (shownName rawNames e.2, e.1, i + 3)

/-- The name, inode and offset of an entry. -/
def DirectoryEntry.shown (x : DirectoryEntry) : Str × Ino × Int := (x.name, x.inode, x.offset)

/-- The name, inode and offset of an entry. -/
def DirectoryEntryPlus.shown (x : DirectoryEntryPlus) : Str × Ino × Int :=
  (x.name, x.inode, x.offset)

section
variable {parent dotdot : Ino} {rawNames : HashMap Str Str} {listed : List (Ino × ListEntry)}

theorem directoryEntries_shown :
    (directoryEntries parent dotdot rawNames listed).map DirectoryEntry.shown =
      shownEntries parent dotdot rawNames listed := by
  refine List.ext_getElem (by simp [directoryEntries, shownEntries]) fun i h₁ h₂ => ?_
  rcases i with _ | _ | i <;> simp [directoryEntries, shownEntries, DirectoryEntry.shown]

theorem directoryEntriesPlus_shown {parentAttr : CachedAttr} :
    (directoryEntriesPlus parent dotdot parentAttr rawNames listed).map DirectoryEntryPlus.shown =
      shownEntries parent dotdot rawNames listed := by
  refine List.ext_getElem (by simp [directoryEntriesPlus, shownEntries]) fun i h₁ h₂ => ?_
  rcases i with _ | _ | i <;> simp [directoryEntriesPlus, shownEntries, DirectoryEntryPlus.shown]

theorem shownEntries_names :
    (shownEntries parent dotdot rawNames listed).map Prod.fst =
      ['.'] :: ['.', '.'] :: (listed.map Prod.snd).map (shownName rawNames) := by
  refine List.ext_getElem (by simp [shownEntries]) fun i h₁ h₂ => ?_
  rcases i with _ | _ | i <;> simp [shownEntries]

/-- An entry shown is one of the two, or was listed. -/
theorem mem_shownEntries {x : Str × Ino × Int}
    (h : x ∈ shownEntries parent dotdot rawNames listed) :
    x.1 = ['.'] ∨ x.1 = ['.', '.'] ∨
      ∃ e ∈ listed, x.1 = shownName rawNames e.2 ∧ x.2.1 = e.1 := by
  rcases List.mem_cons.1 h with rfl | h
  · exact .inl rfl
  rcases List.mem_cons.1 h with rfl | h
  · exact .inr (.inl rfl)
  · obtain ⟨i, hi, rfl⟩ := List.mem_mapIdx.1 h
    exact .inr (.inr ⟨_, List.getElem_mem hi, rfl, rfl⟩)

end

/-- The path is that of a child of the directory, its name in NFC. -/
def IsChild (nfc : Str → Str) (parentPath p : Str) : Prop :=
  ∃ b, '/' ∉ b ∧ nfc b = b ∧ p = parentPath ++ '/' :: b

/-- A listing has distinct paths of children of the directory. -/
structure ListsChildren (nfc : Str → Str) (parentPath : Str) (entries : List ListEntry) : Prop where
  nodup : (entries.map ListEntry.path).Nodup
  child : ∀ e ∈ entries, IsChild nfc parentPath e.path

section
variable {rawNames : HashMap Str Str} {parentPath : Str}

/-- The shown name of a child folds to the child's own. -/
theorem nfc_shownName (hraw : FoldsToBasename nfc rawNames) {e : ListEntry}
    (he : IsChild nfc parentPath e.path) : nfc (shownName rawNames e) = basename e.path := by
  unfold shownName
  cases h : rawNames.get e.path with
  | some raw => exact hraw _ _ h
  | none =>
    obtain ⟨b, hb, hnfc, hp⟩ := he
    show nfc (basename e.path) = basename e.path
    rw [hp, basename_child _ hb, hnfc]

/-- The path of a child is that of its shown name. -/
theorem childPath_shownName (hraw : FoldsToBasename nfc rawNames) {e : ListEntry}
    (he : IsChild nfc parentPath e.path) :
    childPath nfc parentPath (shownName rawNames e) = e.path := by
  rw [childPath_eq, nfc_shownName hraw he]
  obtain ⟨b, hb, -, hp⟩ := he
  rw [hp, basename_child _ hb]

/-- **The names shown are distinct.** -/
theorem shownEntries_nodup (hnfc : Normalises nfc) (hraw : FoldsToBasename nfc rawNames)
    {parent dotdot : Ino} {entries : List ListEntry} {listed : List (Ino × ListEntry)}
    (hlisted : listed.map Prod.snd = entries.filter isRepresentable)
    (hl : ListsChildren nfc parentPath entries) :
    ((shownEntries parent dotdot rawNames listed).map Prod.fst).Nodup := by
  rw [shownEntries_names, hlisted]
  have hfold : ∀ e ∈ entries.filter isRepresentable, ∀ n, shownName rawNames e = n →
      nfc n = n → isRepresentableComponent n = true := by
    intro e he n hn hfix
    have hbase := nfc_shownName hraw (hl.child e (List.mem_filter.1 he).1)
    rw [hn, hfix] at hbase
    rw [hbase]
    exact (List.mem_filter.1 he).2
  have hnames : ((entries.filter isRepresentable).map (shownName rawNames)).Nodup := by
    have hpaths : (entries.filter isRepresentable).Nodup := (hl.nodup.of_map).filter _
    refine hpaths.map_on fun e he e' he' heq => ?_
    have he := (List.mem_filter.1 he).1
    have he' := (List.mem_filter.1 he').1
    have hpath : e.path = e'.path := by
      rw [← childPath_shownName hraw (hl.child e he), ← childPath_shownName hraw (hl.child e' he'),
        heq]
    exact List.inj_on_of_nodup_map hl.nodup he he' hpath
  refine List.nodup_cons.2 ⟨?_, List.nodup_cons.2 ⟨?_, hnames⟩⟩
  · intro hmem
    rcases List.mem_cons.1 hmem with h | hmem
    · cases h
    · obtain ⟨e, he, hn⟩ := List.mem_map.1 hmem
      exact absurd (hfold e he _ hn hnfc.dot) (by decide)
  · intro hmem
    obtain ⟨e, he, hn⟩ := List.mem_map.1 hmem
    exact absurd (hfold e he _ hn hnfc.dotdot) (by decide)

end

/-! ## A scan of a directory -/

/-- A scan of the directory `parent` from `s`: the daemon's reply, the entries taken over from it, and
the inode of `..`. -/
structure Scans (s : FsState) (parent : Ino) (es : List (Occ Act.Ret)) (parentPath : Str)
    (entries : List ListEntry) (dotdot : Ino) (s' : FsState) : Prop where
  path : s.paths.pathFor parent = some parentPath
  reply : (⟨.reply (.list parentPath), .ok entries⟩ : Occ Act.Ret) ∈ es
  kept : s.Extends s'
  known : ∀ x ∈ (s.takeListed entries).1, s'.paths.inodeFor x.2.path = some x.1 ∧
    ∃ a, s'.attrs.get x.1 = some a
  dotdot : parent = rootInode ∧ dotdot = rootInode ∨
    s'.paths.inodeFor (parentPrefix parentPath) = some dotdot

/-- A directory is listed, and what follows sees the entries taken over. -/
theorem exec_listDirectory {β : Type} {parent : Ino} {out : β}
    {f : Str → List (Ino × ListEntry) → FsProg β}
    (hx : Exec fsMachine (perform (.pathFor parent) >>= fun r => okOr r .ENOENT >>= fun parentPath =>
      populateFromList parentPath >>= fun r => mapErr ipcErrorToErrno r >>= f parentPath)
      s es (.ok out) s') :
    ∃ parentPath entries es₁ es₂ s₁, s.paths.pathFor parent = some parentPath ∧
      (⟨.reply (.list parentPath), .ok entries⟩ : Occ Act.Ret) ∈ es₁ ∧ s.Extends s₁ ∧
      (∀ x ∈ (s.takeListed entries).1, s₁.paths.inodeFor x.2.path = some x.1 ∧
        ∃ a, s₁.attrs.get x.1 = some a) ∧
      Exec fsMachine (f parentPath (s.takeListed entries).1) s₁ es₂ (.ok out) s' ∧
      es = es₁ ++ es₂ := by
  obtain ⟨es₁, rfl, h₁⟩ := exec_perform_bind_of_run hx fun _ => rfl
  rcases exec_okOr h₁ with ⟨parentPath, hpath, h₂⟩ | ⟨-, -, hres, -⟩
  · obtain ⟨r, es₂, es₃, s₁, hp, h₃, rfl⟩ := exec_populateFromList h₂
    rcases exec_mapErr h₃ with ⟨listed, rfl, h₄⟩ | ⟨e, -, -, hres, -⟩
    · cases hp with
      | listed entries d =>
        rw [s.takeListed_withDisk d] at h₄
        refine ⟨parentPath, entries, _ :: _, es₃, _, hpath, by simp,
          (s.extends_withDisk d).trans (FsState.extends_takeListed ..), fun x hx => ?_, h₄, rfl⟩
        rw [← s.takeListed_withDisk d] at hx
        exact FsState.cached_of_mem_takeListed hx
    · cases hres
  · cases hres

/-- The end of a scan: `..` and the raw names. -/
theorem Scans.of_listed {β : Type} {parent : Ino} {parentPath : Str} {entries : List ListEntry}
    {es₁ es₂ : List (Occ Act.Ret)} {s₁ : FsState} {out : β}
    {f : Ino → HashMap Str Str → β} (hpath : s.paths.pathFor parent = some parentPath)
    (hreply : (⟨.reply (.list parentPath), .ok entries⟩ : Occ Act.Ret) ∈ es₁) (hext : s.Extends s₁)
    (hknown : ∀ x ∈ (s.takeListed entries).1, s₁.paths.inodeFor x.2.path = some x.1 ∧
      ∃ a, s₁.attrs.get x.1 = some a)
    (hx : Exec fsMachine (dotdotInode parent parentPath >>= fun dotdot =>
      perform .cloneRawNames >>= fun rawNames => pure (f dotdot rawNames)) s₁ es₂ (.ok out) s') :
    ∃ dotdot, Scans s parent (es₁ ++ es₂) parentPath entries dotdot s' ∧
      out = f dotdot s.rawNames := by
  obtain ⟨dotdot, es₃, es₄, s₂, hext', hdot, h₁, rfl⟩ := exec_dotdotInode hx
  obtain ⟨es₅, rfl, h₂⟩ := exec_perform_bind_of_run h₁ fun _ => rfl
  obtain ⟨rfl, hout, rfl⟩ := exec_ret_iff.1 h₂
  cases hout
  have hkept := hext.trans hext'
  refine ⟨dotdot, ⟨hpath, List.mem_append_left _ hreply, hkept, fun x hx => ?_, hdot⟩, ?_⟩
  · obtain ⟨hino, a, ha⟩ := hknown x hx
    exact ⟨hext'.inodeFor _ _ hino, hext'.attrs _ a ha⟩
  · rw [hkept.rawNames]

/-- `readdir` emits a scan from its offset on. -/
theorem exec_readdir {parent : Ino} {offset : Int} {out : List DirectoryEntry}
    (hx : Exec fsMachine (readdir parent offset) s es (.ok out) s') :
    ∃ parentPath entries dotdot, Scans s parent es parentPath entries dotdot s' ∧
      out = (directoryEntries parent dotdot s.rawNames (s.takeListed entries).1).drop
        offset.toNat := by
  obtain ⟨parentPath, entries, es₁, es₂, s₁, hpath, hreply, hext, hknown, h, rfl⟩ :=
    exec_listDirectory hx
  obtain ⟨dotdot, hscan, hout⟩ := Scans.of_listed hpath hreply hext hknown h
  exact ⟨parentPath, entries, dotdot, hscan, hout⟩

/-- `readdirplus` emits a scan from its offset on. -/
theorem exec_readdirplus {parent : Ino} {offset : Nat} {out : List DirectoryEntryPlus}
    (hx : Exec fsMachine (readdirplus parent offset) s es (.ok out) s') :
    ∃ parentPath entries dotdot parentAttr, Scans s parent es parentPath entries dotdot s' ∧
      out = (directoryEntriesPlus parent dotdot parentAttr s.rawNames
        (s.takeListed entries).1).drop offset := by
  obtain ⟨parentPath, entries, es₁, es₂, s₁, hpath, hreply, hext, hknown, h, rfl⟩ :=
    exec_listDirectory hx
  rcases exec_bind_iff.1 h with ⟨e, he, -⟩ | ⟨parentAttr, s₂, es₃, es₄, h₁, h₂, rfl⟩
  · cases he
  have hext₁ : s₁.Extends s₂ := extends_of_exec h₁ (getOrFetchAttr_only fun _ => Act.Looks.adds)
  obtain ⟨dotdot, hscan, hout⟩ := Scans.of_listed hpath (List.mem_append_left es₃ hreply)
    (hext.trans hext₁) (fun x hx => by
      obtain ⟨hino, a, ha⟩ := hknown x hx
      exact ⟨hext₁.inodeFor _ _ hino, hext₁.attrs _ a ha⟩) h₂
  rw [List.append_assoc] at hscan
  exact ⟨parentPath, entries, dotdot, parentAttr, hscan, hout⟩

/-! ## Looking up what was shown -/

/-- `lookup` of a visible name whose entry is cached answers from the cache. -/
theorem lookup_cached {parent ino : Ino} {parentPath name : Str} {a : CachedAttr}
    (hparent : s.paths.pathFor parent = some parentPath)
    (hvisible : s.visibleName (childPath nfc parentPath name) = name)
    (hino : s.paths.inodeFor (childPath nfc parentPath name) = some ino)
    (ha : s.attrs.get ino = some a) :
    fsMachine.Can (lookup nfc parent (some name)) s (.ok (replyEntry ino a)) s ∧
      ∀ es res s', Exec fsMachine (lookup nfc parent (some name)) s es res s' →
        res = .ok (replyEntry ino a) := by
  constructor
  · refine Machine.can_bind (Machine.can_ret _ (.ok name) s)
      (Machine.can_perform_bind .calm rfl rfl ?_)
    rw [hparent]
    refine Machine.can_bind (Machine.can_ret _ (.ok parentPath) s)
      (Machine.can_bind (can_visibleName _) ?_)
    rw [if_neg (not_not_intro hvisible)]
    have hcached : fsMachine.Can (cachedEntry (childPath nfc parentPath name)) s
        (.ok (some (ino, a))) s := by
      refine Machine.can_perform_bind .calm rfl rfl ?_
      rw [hino]
      refine Machine.can_perform_bind .calm rfl rfl ?_
      rw [ha]
      exact Machine.can_ret ..
    exact Machine.can_bind hcached (Machine.can_ret ..)
  · intro es res s' hx
    obtain ⟨es₁, rfl, h₁⟩ := exec_parent hparent hx
    obtain ⟨es₂, rfl, h₂⟩ := exec_visibleName h₁
    rw [if_neg (not_not_intro hvisible)] at h₂
    unfold cachedEntry at h₂
    rw [Prog.bind_assoc] at h₂
    obtain ⟨es₃, rfl, h₃⟩ := exec_perform_bind_of_run h₂ fun _ => rfl
    rw [hino] at h₃
    rw [Prog.bind_assoc] at h₃
    obtain ⟨es₄, rfl, h₄⟩ := exec_perform_bind_of_run h₃ fun _ => rfl
    rw [ha] at h₄
    exact (exec_ret_iff.1 h₄).2.1

/-- What is shown of the directory `parent`: distinct names, with `.` and `..` once each, and every
other name is found by `lookup`, which answers the inode shown. -/
structure Found (nfc : Str → Str) (parent : Ino) (shown : List (Str × Ino × Int)) (s : FsState) :
    Prop where
  nodup : (shown.map Prod.fst).Nodup
  dot : (shown.map Prod.fst).count ['.'] = 1
  dotdot : (shown.map Prod.fst).count ['.', '.'] = 1
  found : ∀ x ∈ shown, x.1 ≠ ['.'] → x.1 ≠ ['.', '.'] → ∃ r : ReplyEntry, r.attr.ino = x.2.1 ∧
    fsMachine.Can (lookup nfc parent (some x.1)) s (.ok r) s ∧
    ∀ es res s', Exec fsMachine (lookup nfc parent (some x.1)) s es res s' → res = .ok r

/-- The names and inodes of a scan are found. -/
theorem Scans.found (hnfc : Normalises nfc) (hraw : FoldsToBasename nfc s.rawNames)
    {parent dotdot : Ino} {parentPath : Str} {entries : List ListEntry}
    (h : Scans s parent es parentPath entries dotdot s')
    (hpath : s'.paths.pathFor parent = some parentPath) (hl : ListsChildren nfc parentPath entries) :
    Found nfc parent (shownEntries parent dotdot s.rawNames (s.takeListed entries).1) s' := by
  have hnodup : ((shownEntries parent dotdot s.rawNames (s.takeListed entries).1).map
      Prod.fst).Nodup := shownEntries_nodup hnfc hraw (s.takeListed_entries entries) hl
  refine ⟨hnodup, List.count_eq_one_of_mem hnodup ?_, List.count_eq_one_of_mem hnodup ?_, ?_⟩
  · rw [shownEntries_names]
    exact List.mem_cons_self ..
  · rw [shownEntries_names]
    exact List.mem_cons_of_mem _ (List.mem_cons_self ..)
  · intro x hx hdot hdotdot
    rcases mem_shownEntries hx with h₁ | h₁ | ⟨e, he, hname, hino⟩
    · exact absurd h₁ hdot
    · exact absurd h₁ hdotdot
    · have hmem : e.2 ∈ entries.filter isRepresentable :=
        s.takeListed_entries entries ▸ List.mem_map_of_mem he
      have hcp := childPath_shownName hraw (hl.child e.2 (List.mem_filter.1 hmem).1)
      obtain ⟨hfor, a, ha⟩ := h.known e he
      rw [← hname] at hcp
      rw [← hcp] at hfor
      have hvisible : s'.visibleName (childPath nfc parentPath x.1) = x.1 := by
        rw [hcp, FsState.visibleName, h.kept.rawNames, hname]
        rfl
      obtain ⟨hcan, hdet⟩ := lookup_cached hpath hvisible hfor ha
      exact ⟨replyEntry e.1 a, hino.symm, hcan, hdet⟩

/-! ## Every reachable state -/

/-- The kernel names entries by single components, and the inode counter does not wrap around. -/
structure Roomy (l : List FsServed) (s : FsState) (x : FsServed) : Prop where
  names : x.req.KernelNames
  room : s.paths.next + interned x.occs < inodeSpace

/-- The daemon lists the directory as distinct children. -/
def ListedAsChildren (nfc : Str → Str) (s : FsState) (parent : Ino) (es : List (Occ Act.Ret)) : Prop :=
  ∀ parentPath entries, s.paths.pathFor parent = some parentPath →
    (⟨.reply (.list parentPath), .ok entries⟩ : Occ Act.Ret) ∈ es →
    ListsChildren nfc parentPath entries

/-- The daemon's listings of the directory are the same in both runs. -/
def ListedAlike (s : FsState) (parent : Ino) (es₁ es₂ : List (Occ Act.Ret)) : Prop :=
  ∀ parentPath entries₁ entries₂, s.paths.pathFor parent = some parentPath →
    (⟨.reply (.list parentPath), .ok entries₁⟩ : Occ Act.Ret) ∈ es₁ →
    (⟨.reply (.list parentPath), .ok entries₂⟩ : Occ Act.Ret) ∈ es₂ → entries₁ = entries₂

/-- Two listings agree but for the inode of `..`. -/
structure AgreeBelow (shown shown' : List (Str × Ino × Int)) : Prop where
  names : shown.map (fun x => (x.1, x.2.2)) = shown'.map fun x => (x.1, x.2.2)
  inodes : (shown.filter fun x => x.1 ≠ ['.', '.']) = shown'.filter fun x => x.1 ≠ ['.', '.']

theorem agreeBelow_shownEntries (parent dotdot dotdot' : Ino) (rawNames : HashMap Str Str)
    (listed : List (Ino × ListEntry)) :
    AgreeBelow (shownEntries parent dotdot rawNames listed)
      (shownEntries parent dotdot' rawNames listed) where
  names := by simp [shownEntries]
  inodes := by simp [shownEntries]

theorem foldsToBasename_of_sequence (hnfc : Normalises nfc) {disk : Disk} {l : List FsServed}
    (hs : (fsService nfc cacheRoot).Sequence Roomy (.new disk) l s) :
    s.paths.Sound ∧ FoldsToBasename nfc s.rawNames := by
  refine hs.invariant (I := fun _ s => s.paths.Sound ∧ FoldsToBasename nfc s.rawNames)
    ⟨.new, fun cp raw h => by cases h⟩ fun l s x s' hI hx hok => ⟨?_, ?_⟩
  · exact (sound_of_exec hx hI.1 (Op.prog_sparesRoot ..) hok.room).1
  · exact hx.invariant (I := fun s => FoldsToBasename nfc s.rawNames)
      (Op.prog_folds hnfc hok.names) hI.2 fun _ _ _ _ ha _ hst h => h.step hst ha

/-- The directory keeps its path during a scan. -/
theorem Scans.pathFor {p : FsProg α} {res : Except Errno α} {parent dotdot : Ino} {parentPath : Str}
    {entries : List ListEntry} (h : Scans s parent es parentPath entries dotdot s')
    (hx : Exec fsMachine p s es res s') (hp : p.Only Act.SparesRoot) (hs : s.paths.Sound)
    (hroom : s.paths.next + interned es < inodeSpace) :
    s'.paths.pathFor parent = some parentPath := by
  have hs' : s'.paths.Sound := (sound_of_exec hx hs hp hroom).1
  exact (hs'.inverse ..).1 (h.kept.inodeFor _ _ ((hs.inverse ..).2 h.path))

theorem readdir_adds (parent : Ino) (offset : Int) : (readdir parent offset).Only Act.Adds :=
  .bind (only_perform trivial) fun _ => .bind (only_okOr ..) fun _ =>
  .bind (populateFromList_only fun _ h => h.looks.adds) fun _ => .bind (only_mapErr ..) fun _ =>
  .bind (dotdotInode_only trivial) fun _ => .bind (only_perform trivial) fun _ => only_pure _

theorem readdirplus_adds (parent : Ino) (offset : Nat) :
    (readdirplus parent offset).Only Act.Adds :=
  .bind (only_perform trivial) fun _ => .bind (only_okOr ..) fun _ =>
  .bind (populateFromList_only fun _ h => h.looks.adds) fun _ => .bind (only_mapErr ..) fun _ =>
  .bind (getOrFetchAttr_only fun _ h => h.adds) fun _ => .bind (dotdotInode_only trivial) fun _ =>
  .bind (only_perform trivial) fun _ => only_pure _

/-- The inode of `..` when that directory has one. -/
theorem Scans.dotdot_eq {parent dotdot grand : Ino} {parentPath : Str} {entries : List ListEntry}
    (h : Scans s parent es parentPath entries dotdot s') (hs : s.paths.Sound)
    (hgrand : s.paths.inodeFor (parentPrefix parentPath) = some grand) : dotdot = grand := by
  rcases h.dotdot with ⟨rfl, rfl⟩ | hdot
  · have hroot : s.paths.pathFor rootInode = some [] := (hs.inverse ..).1 hs.root
    cases hroot.symm.trans h.path
    exact Option.some.inj (hs.root.symm.trans hgrand)
  · exact Option.some.inj (hdot.symm.trans (h.kept.inodeFor _ _ hgrand))

/-- **What `readdir` shows, `lookup` finds**, in every state reached while the inode counter has not
wrapped around, and `readdirplus` shows the same but for the inode of `..`. -/
theorem shown_found (hnfc : Normalises nfc) {disk : Disk} {l : List FsServed}
    (hs : (fsService nfc cacheRoot).Sequence Roomy (.new disk) l s) (parent : Ino) :
    (∀ es out s', Exec fsMachine (readdir parent 0) s es (.ok out) s' →
      ListedAsChildren nfc s parent es → s.paths.next + interned es < inodeSpace →
      Found nfc parent (out.map DirectoryEntry.shown) s') ∧
    (∀ es out s', Exec fsMachine (readdirplus parent 0) s es (.ok out) s' →
      ListedAsChildren nfc s parent es → s.paths.next + interned es < inodeSpace →
      Found nfc parent (out.map DirectoryEntryPlus.shown) s') ∧
    ∀ es out s' es' out' s'', Exec fsMachine (readdir parent 0) s es (.ok out) s' →
      Exec fsMachine (readdirplus parent 0) s es' (.ok out') s'' → ListedAlike s parent es es' →
      AgreeBelow (out.map DirectoryEntry.shown) (out'.map DirectoryEntryPlus.shown) ∧
      ∀ parentPath grand, s.paths.pathFor parent = some parentPath →
        s.paths.inodeFor (parentPrefix parentPath) = some grand →
        out.map DirectoryEntry.shown = out'.map DirectoryEntryPlus.shown := by
  obtain ⟨hsound, hraw⟩ := foldsToBasename_of_sequence hnfc hs
  refine ⟨fun es out s' hx hl hroom => ?_, fun es out s' hx hl hroom => ?_, ?_⟩
  · obtain ⟨parentPath, entries, dotdot, hscan, rfl⟩ := exec_readdir hx
    have hpath := hscan.pathFor hx ((readdir_adds ..).mono fun _ => Act.Adds.sparesRoot) hsound hroom
    rw [show (0 : Int).toNat = 0 from rfl, List.drop_zero, directoryEntries_shown]
    exact hscan.found hnfc hraw hpath (hl _ _ hscan.path hscan.reply)
  · obtain ⟨parentPath, entries, dotdot, parentAttr, hscan, rfl⟩ := exec_readdirplus hx
    have hpath := hscan.pathFor hx ((readdirplus_adds ..).mono fun _ => Act.Adds.sparesRoot) hsound
      hroom
    rw [List.drop_zero, directoryEntriesPlus_shown]
    exact hscan.found hnfc hraw hpath (hl _ _ hscan.path hscan.reply)
  · intro es out s' es' out' s'' hx hx' halike
    obtain ⟨parentPath, entries, dotdot, hscan, rfl⟩ := exec_readdir hx
    obtain ⟨parentPath', entries', dotdot', parentAttr, hscan', rfl⟩ := exec_readdirplus hx'
    cases hscan.path.symm.trans hscan'.path
    cases halike _ _ _ hscan.path hscan.reply hscan'.reply
    rw [show (0 : Int).toNat = 0 from rfl, List.drop_zero, List.drop_zero, directoryEntries_shown,
      directoryEntriesPlus_shown]
    refine ⟨agreeBelow_shownEntries .., fun parentPath' grand hpath hgrand => ?_⟩
    cases hpath.symm.trans hscan.path
    rw [hscan.dotdot_eq hsound hgrand, hscan'.dotdot_eq hsound hgrand]

/-! ## A name that is not in NFC -/

/-- Whether the names are single components. -/
def kernelNames (o : Op) : Bool := o.names.all fun n => n.all fun n => !n.contains '/'

theorem kernelNames_of_bool {o : Op} (h : kernelNames o = true) : o.KernelNames := by
  intro n hn hslash
  have hall := List.all_eq_true.1 h _ hn
  simp [hslash] at hall

theorem roomy_of_bool {l : List FsServed} {x : FsServed}
    (h : (kernelNames x.req && decide (s.paths.next + interned x.occs < inodeSpace)) = true) :
    Roomy l s x := by
  obtain ⟨hnames, hroom⟩ := Bool.and_eq_true_iff.1 h
  exact ⟨kernelNames_of_bool hnames, of_decide_eq_true hroom⟩

/-- Whether every listing in the run is the one given. -/
def listsOnly (listing : Str → List ListEntry) (es : List (Occ Act.Ret)) : Bool :=
  es.all fun x => match x with
    | ⟨.reply (.list p), .ok entries⟩ => List.beq entries (listing p)
    | _ => true

theorem eq_of_listsOnly {listing : Str → List ListEntry} (h : listsOnly listing es = true)
    {p : Str} {entries : List ListEntry}
    (hmem : (⟨.reply (.list p), .ok entries⟩ : Occ Act.Ret) ∈ es) : entries = listing p := by
  have hbeq : (entries == listing p) = true := List.all_eq_true.1 h _ hmem
  exact beq_iff_eq.1 hbeq

/-- A file is created whose name is the Kelvin sign, and which the daemon calls `K`. -/
def createdRaw : List (Op × World) := [(.create rootInode (some [kelvinSign]), .calm)]

/-- The daemon's name of the file. -/
def entryK : ListEntry := ⟨['/', 'K'], 0, 0, true, false, none, false⟩

theorem foldsKelvin_normalises : Normalises foldsKelvin := ⟨foldsKelvin_idem, foldsKelvin_slash, by decide, by decide⟩

/-- The file is shown under the name it was created with, and found under it. -/
theorem shown_found_raw :
    ∃ l s es out s', (fsService foldsKelvin none).Sequence Roomy (.new .empty) l s ∧
      Exec fsMachine (readdir rootInode 0) s es (.ok out) s' ∧
      out.map DirectoryEntry.name = [['.'], ['.', '.'], [kelvinSign]] ∧
      Found foldsKelvin rootInode (out.map DirectoryEntry.shown) s' := by
  have hserve : ((fsService foldsKelvin none).serveAll (fun _ s x => kernelNames x.req &&
      decide (s.paths.next + interned x.occs < inodeSpace)) createdRaw [] (.new .empty)).any (fun x =>
      x.2.paths.pathFor rootInode = some [] &&
      (fsMachine.exec (.lists fun _ => [entryK]) (readdir rootInode 0) x.2).any fun y =>
      listsOnly (fun _ => [entryK]) y.1 && decide (x.2.paths.next + interned y.1 < inodeSpace) &&
      match y.2.1 with
        | .ok out => decide (out.map DirectoryEntry.name = [['.'], ['.', '.'], [kelvinSign]])
        | .error _ => false) = true := by decide +kernel
  obtain ⟨⟨l, s⟩, hs, hcheck⟩ := (Option.any_eq_true ..).1 hserve
  obtain ⟨hroot, hcheck⟩ := Bool.and_eq_true_iff.1 hcheck
  obtain ⟨⟨es, res, s'⟩, hx, hcheck⟩ := (Option.any_eq_true ..).1 hcheck
  obtain ⟨hcheck, hout⟩ := Bool.and_eq_true_iff.1 hcheck
  obtain ⟨hlists, hroom⟩ := Bool.and_eq_true_iff.1 hcheck
  have hseq : (fsService foldsKelvin none).Sequence Roomy (.new .empty) l s :=
    (fsService foldsKelvin none).sequence_of_serveAll (fun _ _ _ => roomy_of_bool) .nil hs
  cases res with
  | error e => cases hout
  | ok out =>
    have hx := Machine.exec_sound hx
    refine ⟨l, s, es, out, s', hseq, hx, of_decide_eq_true hout,
      (shown_found foldsKelvin_normalises hseq rootInode).1 es out s' hx ?_ (of_decide_eq_true hroom)⟩
    intro parentPath entries hp hmem
    cases (of_decide_eq_true hroot).symm.trans hp
    rw [eq_of_listsOnly hlists hmem]
    exact ⟨by simp, fun e he =>
      ⟨['K'], by decide, by decide, by rw [List.mem_singleton.1 he]; rfl⟩⟩

/-! ## Where the inodes differ -/

/-- The entry `//…/a`, with `n` slashes before the last. -/
def deepEntry (n : Nat) : ListEntry :=
  ⟨List.replicate n '/' ++ ['/', 'a'], 0, 0, true, false, none, false⟩

/-- The file `/x`. -/
def entryX : ListEntry := ⟨['/', 'x'], 0, 0, true, false, none, false⟩

theorem deepEntries_representable (n : Nat) :
    ((List.range n).map deepEntry).filter isRepresentable = (List.range n).map deepEntry := by
  refine List.filter_eq_self.2 fun e he => ?_
  obtain ⟨k, -, rfl⟩ := List.mem_map.1 he
  show isRepresentableComponent (basename (List.replicate k '/' ++ '/' :: ['a'])) = true
  rw [basename_child _ (by decide)]
  decide

theorem deepEntries_paths_nodup (n : Nat) :
    (((List.range n).map deepEntry).map ListEntry.path).Nodup := by
  rw [List.map_map]
  refine List.nodup_range.map fun i j h => ?_
  have := congrArg List.length h
  simpa [deepEntry] using this

/-- Taking over a listing interns its paths. -/
theorem takeListed_paths (s : FsState) (entries : List ListEntry) :
    (s.takeListed entries).2.paths =
      s.paths.run (((entries.filter isRepresentable).map ListEntry.path).map .intern) := by
  have hinsert : ∀ (entries : List ListEntry) (s : FsState),
      (s.insertListed entries).2.paths = s.paths.run ((entries.map ListEntry.path).map .intern) := by
    intro entries
    induction entries with
    | nil => exact fun _ => rfl
    | cons e entries ih => exact fun s => ih (s.takeEntry e)
  exact hinsert _ (s.warned entries)

/-- The filesystem after a listing of `n` entries. -/
def wrapped (n : Nat) : FsState :=
  ((FsState.new .empty).takeListed ((List.range n).map deepEntry)).2

/-- After a listing of enough entries the counter is at the root's inode. -/
theorem wrapped_paths {n : Nat} (hn : n + 1 = inodeSpace) :
    (wrapped n).paths.next = rootInode ∧ (wrapped n).paths.pathFor rootInode = some [] ∧
      (wrapped n).paths.inodeFor ['/', 'x'] = none ∧
      (wrapped n).paths.inodeFor ['/', 'x', '/', 'x'] = none := by
  have hpaths := takeListed_paths (.new .empty) ((List.range n).map deepEntry)
  rw [deepEntries_representable] at hpaths
  have hmem : ∀ q ∈ ((List.range n).map deepEntry).map ListEntry.path, q.getLast? = some 'a' := by
    intro q hq
    obtain ⟨e, he, rfl⟩ := List.mem_map.1 hq
    obtain ⟨k, -, rfl⟩ := List.mem_map.1 he
    simp [deepEntry]
  obtain ⟨hnext, hpath, hino⟩ := PathMap.run_interns (m := PathMap.new) (by decide)
    (deepEntries_paths_nodup n) fun q hq => by
      rw [PathMap.new_inodeFor, if_neg]
      rintro rfl
      exact absurd (hmem _ hq) (by decide)
  unfold wrapped
  rw [hpaths]
  refine ⟨hnext.trans ?_, (hino rootInode fun k hk heq => ?_).trans (PathMap.new_pathFor _),
    (hpath _ fun hq => absurd (hmem _ hq) (by decide)).trans (PathMap.new_inodeFor _),
    (hpath _ fun hq => absurd (hmem _ hq) (by decide)).trans (PathMap.new_inodeFor _)⟩
  · rw [List.length_map, List.length_map, List.length_range]
    show (rootInode + 1 + n) % inodeSpace = rootInode
    rw [Nat.add_assoc, Nat.add_comm 1 n, hn, Nat.add_mod_right]
    rfl
  · rw [List.length_map, List.length_map, List.length_range] at hk
    have heq : (2 + k) % inodeSpace = 1 := heq
    rcases Nat.lt_or_ge (2 + k) inodeSpace with hlt | hge
    · rw [Nat.mod_eq_of_lt hlt] at heq
      omega
    · rw [show 2 + k = inodeSpace by omega, Nat.mod_self] at heq
      cases heq

/-- The root can be listed with any entries. -/
theorem exec_of_readdir_root (entries : List ListEntry) (hfree : s.ipcBusy = false)
    (hroot : s.paths.pathFor rootInode = some []) :
    ∃ es, Exec fsMachine (readdir rootInode 0) s es (.ok (directoryEntries rootInode rootInode
      (s.takeListed entries).2.rawNames (s.takeListed entries).1)) (s.takeListed entries).2 ∧
      ∀ entries', (⟨.reply (.list []), .ok entries'⟩ : Occ Act.Ret) ∈ es → entries' = entries := by
  have hpath : fsMachine.run (.pathFor rootInode) .calm s = (some [], s) := Prod.ext hroot rfl
  have hrest : Exec fsMachine (perform .cloneRawNames >>= fun rawNames => pure
      (directoryEntries rootInode rootInode rawNames (s.takeListed entries).1))
      (s.takeListed entries).2 [⟨.cloneRawNames, (s.takeListed entries).2.rawNames⟩] _ _ :=
    .act ⟨rfl, .calm, rfl⟩ .ret
  have hlist : Exec fsMachine (populateFromList [] >>= fun r => mapErr ipcErrorToErrno r >>=
      fun listed => dotdotInode rootInode [] >>= fun dotdot => perform .cloneRawNames >>=
      fun rawNames => pure ((directoryEntries rootInode dotdot rawNames listed).drop
        (0 : Int).toNat)) s _ _ _ :=
    exec_bind_iff.2 (.inr ⟨_, _, _, _, exec_of_listed [] entries hfree, hrest, rfl⟩)
  refine ⟨_, .act ⟨rfl, .calm, hpath⟩ hlist, ?_⟩
  intro entries' hmem
  exact Except.ok.inj (by simpa using hmem)

/-- `lookup` of a name that is not cached can be refused by the daemon. -/
theorem can_lookup_refused {parent : Ino} {parentPath name : Str}
    (hparent : s.paths.pathFor parent = some parentPath)
    (hvisible : s.visibleName (childPath nfc parentPath name) = name)
    (hino : s.paths.inodeFor (childPath nfc parentPath name) = none) (hfree : s.ipcBusy = false) :
    fsMachine.Can (lookup nfc parent (some name)) s (.error .EBUSY) s := by
  refine Machine.can_bind (Machine.can_ret _ (.ok name) s)
    (Machine.can_perform_bind .calm rfl rfl ?_)
  rw [hparent]
  refine Machine.can_bind (Machine.can_ret _ (.ok parentPath) s)
    (Machine.can_bind (can_visibleName _) ?_)
  rw [if_neg (not_not_intro hvisible)]
  have hcached : fsMachine.Can (cachedEntry (childPath nfc parentPath name)) s (.ok none) s := by
    refine Machine.can_perform_bind .calm rfl rfl ?_
    rw [hino]
    exact Machine.can_ret ..
  have hlist : fsMachine.Can (populateFromList parentPath) s (.ok (.error .busy)) s :=
    Machine.can_bind (can_ipc_refused (.list parentPath) hfree) (Machine.can_ret ..)
  exact Machine.can_bind hcached (Machine.can_bind hlist (Machine.can_ret ..))

/-- The folder `/d/e`, made before `/d` was removed and its attributes dropped. -/
def orphanFolder : List (Op × World) :=
  [(.mkdir rootInode (some ['d']), .calm), (.mkdir 2 (some ['e']), .calm),
    (.rmdir rootInode (some ['d']), .calm), (.apply .all, .calm)]

/-- Listings in which `/d/e` is empty, and lies beside `/d/c`. -/
def folderEntries (parent : Str) : List ListEntry :=
  if parent = ['/', 'd', '/', 'e'] then [] else
    [⟨['/', 'd', '/', 'c'], 0, 0, true, true, none, false⟩,
      ⟨['/', 'd', '/', 'e'], 0, 0, true, true, none, false⟩]

/-- The two listings show different entries. -/
def showOtherwise : Except Errno (List DirectoryEntry) → Except Errno (List DirectoryEntryPlus) → Bool
  | .ok out, .ok out' => decide (out.map DirectoryEntry.shown ≠ out'.map DirectoryEntryPlus.shown)
  | _, _ => false

/-- Once the inode counter has wrapped around, an entry is shown that is not found; and
`readdirplus` can show another inode for `..` than `readdir`. -/
theorem shown_not_found :
    (¬ ∀ (nfc : Str → Str) (cacheRoot : Option Str), Normalises nfc → ∀ (disk : Disk)
      (l : List FsServed) (s : FsState),
      (fsService nfc cacheRoot).Sequence (fun _ _ x => x.req.KernelNames) (.new disk) l s →
      ∀ parent es out s', Exec fsMachine (readdir parent 0) s es (.ok out) s' →
        ListedAsChildren nfc s parent es → Found nfc parent (out.map DirectoryEntry.shown) s') ∧
    ¬ ∀ (nfc : Str → Str) (cacheRoot : Option Str), Normalises nfc → ∀ (disk : Disk)
      (l : List FsServed) (s : FsState),
      (fsService nfc cacheRoot).Sequence (fun _ _ x => x.req.KernelNames) (.new disk) l s →
      ∀ parent es out s' es' out' s'', Exec fsMachine (readdir parent 0) s es (.ok out) s' →
        Exec fsMachine (readdirplus parent 0) s es' (.ok out') s'' → ListedAlike s parent es es' →
        out.map DirectoryEntry.shown = out'.map DirectoryEntryPlus.shown := by
  have hid : Normalises id := ⟨fun _ => rfl, fun _ => id, rfl, rfl⟩
  constructor
  · intro h
    obtain ⟨n, hn⟩ : ∃ n, n + 1 = inodeSpace := ⟨2 ^ 64 - 1, by decide⟩
    obtain ⟨hnext, hroot, hx, hxx⟩ := wrapped_paths hn
    -- the counter wraps around during the first listing
    obtain ⟨es₁, hexec₁, -⟩ := exec_of_readdir_root (s := .new .empty)
      ((List.range n).map deepEntry) rfl (by decide)
    have hseq : plainFs.Sequence (fun _ _ x => x.req.KernelNames) (.new .empty)
        [⟨Op.readdir rootInode 0, es₁, _⟩] (wrapped n) :=
      Service.Sequence.nil.cons (exec_map_iff.2 ⟨_, hexec₁, rfl⟩) fun name hname => by
        cases hname
    have hfree := ipcBusy_of_sequence hseq
    -- the second listing gives the root's inode away
    obtain ⟨es₂, hexec₂, hreplies⟩ := exec_of_readdir_root [entryX] hfree hroot
    have hchildren : ListedAsChildren id (wrapped n) rootInode es₂ := by
      intro parentPath entries hp hmem
      cases hroot.symm.trans hp
      rw [hreplies entries hmem]
      exact ⟨by simp, fun e he => ⟨['x'], by decide, rfl, by rw [List.mem_singleton.1 he]; rfl⟩⟩
    have hfound := h id none hid _ _ _ hseq _ _ _ _ hexec₂ hchildren
    rw [directoryEntries_shown] at hfound
    have hintern : ((wrapped n).warned [entryX]).paths.intern entryX.path = _ :=
      PathMap.intern_of_none hx
    have htaken : (wrapped n).takeListed [entryX] = ([(rootInode, entryX)],
        ((wrapped n).warned [entryX]).takeEntry entryX) := by
      show ((wrapped n).warned [entryX]).insertListed ([entryX].filter isRepresentable) = _
      rw [show [entryX].filter isRepresentable = [entryX] by decide, FsState.insertListed_cons,
        hintern]
      show ([((wrapped n).paths.next, entryX)], _) = _
      rw [hnext]
      rfl
    have hraw : (wrapped n).rawNames = ∅ := (FsState.extends_takeListed ..).rawNames
    rw [htaken] at hfound
    have hshown : (['x'], rootInode, (3 : Int)) ∈
        shownEntries rootInode rootInode ∅ [(rootInode, entryX)] := by decide
    rw [← hraw] at hshown
    obtain ⟨r, -, -, hdet⟩ := hfound.found (['x'], rootInode, 3) hshown (by decide) (by decide)
    -- the root's inode names `/x` now, and nothing below it is known
    have hnamed : (((wrapped n).warned [entryX]).takeEntry entryX).paths.pathFor rootInode =
        some ['/', 'x'] := by
      show PathMap.pathFor (((wrapped n).warned [entryX]).paths.intern entryX.path).2 _ = _
      rw [hintern]
      show HashMap.get (HashMap.insert _ (wrapped n).paths.next _) _ = _
      rw [hnext]
      exact HashMap.get_insert_self ..
    have hlost : fsMachine.Can (lookup id rootInode (some ['x']))
        (((wrapped n).warned [entryX]).takeEntry entryX) (.error .EBUSY)
        (((wrapped n).warned [entryX]).takeEntry entryX) := by
      refine can_lookup_refused hnamed ?_ ?_ hfree
      · show ((wrapped n).rawNames.get _).getD _ = _
        rw [hraw]
        decide
      · show PathMap.inodeFor (((wrapped n).warned [entryX]).paths.intern entryX.path).2 _ = _
        rw [PathMap.intern_inodeFor_ne _ (by decide)]
        exact hxx
    obtain ⟨es₃, hlost⟩ := hlost
    cases hdet _ _ _ hlost
  · intro h
    have hserve : (plainFs.serveAll (fun _ _ x => kernelNames x.req) orphanFolder []
        (.new .empty)).any (fun x =>
        (fsMachine.exec (.lists folderEntries) (readdir 3 0) x.2).any fun y =>
        (fsMachine.exec (.lists folderEntries) (readdirplus 3 0) x.2).any fun z =>
        listsOnly folderEntries y.1 && listsOnly folderEntries z.1 && showOtherwise y.2.1 z.2.1) =
        true := by decide +kernel
    obtain ⟨⟨l, s⟩, hs, hcheck⟩ := (Option.any_eq_true ..).1 hserve
    obtain ⟨⟨es, res, s'⟩, hx, hcheck⟩ := (Option.any_eq_true ..).1 hcheck
    obtain ⟨⟨es', res', s''⟩, hx', hcheck⟩ := (Option.any_eq_true ..).1 hcheck
    obtain ⟨hcheck, hdiffer⟩ := Bool.and_eq_true_iff.1 hcheck
    obtain ⟨hlists, hlists'⟩ := Bool.and_eq_true_iff.1 hcheck
    have hseq : plainFs.Sequence (fun _ _ x => x.req.KernelNames) (.new .empty) l s :=
      plainFs.sequence_of_serveAll (fun _ _ _ => kernelNames_of_bool) .nil hs
    have halike : ListedAlike s 3 es es' := fun _ _ _ _ h₁ h₂ =>
      (eq_of_listsOnly hlists h₁).trans (eq_of_listsOnly hlists' h₂).symm
    cases res with
    | error e => cases hdiffer
    | ok out =>
      cases res' with
      | error e => cases hdiffer
      | ok out' =>
        exact of_decide_eq_true hdiffer (h id none hid .empty l s hseq 3 es out s' es' out' s''
          (Machine.exec_sound hx) (Machine.exec_sound hx') halike)

end UnidriveMount
