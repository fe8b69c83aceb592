import UnidriveMount.Fs.Listing
import UnidriveMount.Fs.Orphans

/-!
# New entries and their inodes

`create`, `mknod` and `mkdir` intern the path of the entry they made. That gives the path's inode of
the session when the path map still has one, and the path map keeps the paths of entries that
somebody else deleted. The inode is one the kernel knows already exactly when the path had an inode
that was given to the kernel (`new_inode_fresh_iff`).
-/

namespace UnidriveMount

open Lib
open Lib.Prog (fail okOr ofExcept only_perform)

variable {nfc : Str → Str} {cacheRoot : Option Str} {s s' : FsState} {es : List (Occ Act.Ret)}

/-! ## Paths that keep their inode -/

/-- A program that takes no paths away keeps the inode of every path. -/
theorem inodeFor_of_exec {α : Type} {p : FsProg α} {res : Except Errno α}
    (hx : Exec fsMachine p s es res s') (hp : p.Only fun a => ¬ a.Drops) {q : Str} {ino : Ino}
    (h : s.paths.inodeFor q = some ino) : s'.paths.inodeFor q = some ino :=
  hx.invariant hp (I := fun s => s.paths.inodeFor q = some ino) h
    fun _ _ _ _ ha _ hst h => inodeFor_of_step hst ha h

/-- Only `unlink`, `rmdir` and `rename` take paths away. -/
theorem Op.May.not_drops {o : Op} (ho : match o with
    | .unlink .. | .rmdir .. | .rename .. => False
    | _ => True) {a : Act} (h : o.May a) : ¬ a.Drops := by
  cases a with
  | forget | renamePaths =>
    rcases h with h | h <;> cases o <;> first | exact ho.elim | exact h.elim | skip
    all_goals rcases h with h | h <;> first | exact h.elim | rcases h with h | h <;> exact h.elim
  | _ => exact id

/-! ## Inodes in replies -/

/-- The inodes a reply gives to the kernel. -/
def Reply.inodes : Reply → List Ino
  | entry r => [r.attr.ino]
  | created r => [r.attr.ino]
  | directory entries => entries.map DirectoryEntry.inode
  | directoryPlus entries => entries.map DirectoryEntryPlus.inode
  | _ => []

/-- The inodes an answer gives to the kernel. -/
def givenBy : Except Errno Reply → List Ino
  | .ok r => r.inodes
  | .error _ => []

/-- The inodes given to the kernel in a history. -/
def given (l : List FsServed) : List Ino := l.flatMap fun x => givenBy x.res

/-- The entry known at `cp`. -/
def FsState.cachedEntry (s : FsState) (cp : Str) : Option (Ino × CachedAttr) :=
  (s.paths.inodeFor cp).bind fun ino => (s.attrs.get ino).map fun a => (ino, a)

theorem exec_cachedEntry {β : Type} {res : Except Errno β} {cp : Str}
    {f : Option (Ino × CachedAttr) → FsProg β}
    (hx : Exec fsMachine (cachedEntry cp >>= f) s es res s') :
    ∃ es₁ es₂, es = es₁ ++ es₂ ∧ Exec fsMachine (f (s.cachedEntry cp)) s es₂ res s' := by
  unfold cachedEntry at hx
  unfold FsState.cachedEntry
  rw [Prog.bind_assoc] at hx
  obtain ⟨es₁, rfl, h₁⟩ := exec_perform_bind_of_run hx fun _ => rfl
  cases hino : s.paths.inodeFor cp with
  | none =>
    rw [hino] at h₁
    exact ⟨[_], es₁, rfl, h₁⟩
  | some ino =>
    rw [hino, Prog.bind_assoc] at h₁
    obtain ⟨es₂, rfl, h₂⟩ := exec_perform_bind_of_run h₁ fun _ => rfl
    exact ⟨[_, _], es₂, rfl, h₂⟩

/-- `lookup` answers the inode of a path, with the attributes that are cached for it or were listed. -/
theorem exec_lookup {parent : Ino} {name : OsStr} {r : ReplyEntry}
    (hx : Exec fsMachine (lookup nfc parent name) s es (.ok r) s') :
    (∃ cp, s'.paths.inodeFor cp = some r.attr.ino) ∧ ∃ ino a, r = replyEntry ino a ∧
      (s'.attrs.get ino = some a ∨ ∃ entries out e, (⟨.insertListed entries, out⟩ : Occ Act.Ret) ∈ es ∧
        (ino, e) ∈ out ∧ a = .ofListEntry e) := by
  rcases (exec_okOr hx).symm with ⟨-, -, he, -⟩ | ⟨name, -, h₁⟩
  · cases he
  obtain ⟨es₁, rfl, h₂⟩ := exec_perform_bind_of_run h₁ fun _ => rfl
  rcases (exec_okOr h₂).symm with ⟨-, -, he, -⟩ | ⟨parentPath, -, h₃⟩
  · cases he
  obtain ⟨es₂, rfl, h₄⟩ := exec_visibleName h₃
  split at h₄
  · cases (exec_ret_iff.1 h₄).2.1
  · obtain ⟨es₃, es₄, rfl, h₅⟩ := exec_cachedEntry h₄
    cases hc : s.cachedEntry (childPath nfc parentPath name) with
    | some x =>
      rw [hc] at h₅
      obtain ⟨-, hr, rfl⟩ := exec_ret_iff.1 h₅
      cases hr
      obtain ⟨ino, hino, hx⟩ := Option.bind_eq_some_iff.1 hc
      obtain ⟨a, ha, rfl⟩ := Option.map_eq_some_iff.1 hx
      exact ⟨⟨_, hino⟩, ino, a, rfl, .inl ha⟩
    | none =>
      rw [hc] at h₅
      obtain ⟨r', es₅, es₆, s₁, hp, h₆, rfl⟩ := exec_populateFromList h₅
      rcases (exec_mapErr h₆).symm with ⟨e, -, -, he, -⟩ | ⟨listed, rfl, h₇⟩
      · cases he
      split at h₇
      · next ino e hfind =>
        obtain ⟨-, hr, rfl⟩ := exec_ret_iff.1 h₇
        cases hr
        cases hp with
        | listed entries d =>
          have hmem := List.mem_of_find?_eq_some hfind
          refine ⟨⟨e.path, (FsState.cached_of_mem_takeListed hmem).1⟩, ino, _, rfl,
            .inr ⟨entries.filter isRepresentable, _, e, ?_, hmem, rfl⟩⟩
          exact .tail _ (.tail _ (List.mem_append_right _ (List.mem_append_left _
            (.tail _ (.tail _ (.tail _ (.head _)))))))
      · cases (exec_ret_iff.1 h₇).2.1

/-- A scan shows inodes that have a path. -/
theorem Scans.named {parent dotdot : Ino} {parentPath : Str} {entries : List ListEntry}
    {rawNames : HashMap Str Str} (h : Scans s parent es parentPath entries dotdot s')
    (hs : s.paths.Sound) (hs' : s'.paths.Sound) {x : Str × Ino × Int}
    (hx : x ∈ shownEntries parent dotdot rawNames (s.takeListed entries).1) :
    ∃ p, s'.paths.inodeFor p = some x.2.1 := by
  rcases List.mem_cons.1 hx with rfl | hx
  · exact ⟨parentPath, h.kept.inodeFor _ _ ((hs.inverse ..).2 h.path)⟩
  rcases List.mem_cons.1 hx with rfl | hx
  · rcases h.dotdot with ⟨-, rfl⟩ | hdot
    · exact ⟨[], hs'.root⟩
    · exact ⟨_, hdot⟩
  · obtain ⟨i, hi, rfl⟩ := List.mem_mapIdx.1 hx
    exact ⟨_, (h.known _ (List.getElem_mem hi)).1⟩

/-! ## The inode of a new entry -/

/-- The state with a new entry at `cp`, visible as `name`. -/
def FsState.placed (nfc : Str → Str) (s : FsState) (cp name : Str) (attr : CachedAttr) : FsState :=
  { s with
    paths := (s.paths.intern cp).2
    rawNames := recorded nfc s.rawNames cp name
    attrs := s.attrs.insert (s.paths.intern cp).1 attr }

/-- A new entry is put into the tables. -/
theorem exec_place {β : Type} {res : Except Errno β} {cp name : Str} {attr : Int → CachedAttr}
    {f : Ino → Int → FsProg β}
    (hx : Exec fsMachine (perform (.intern cp) >>= fun ino => recordRawName nfc cp name >>= fun _ =>
      perform .nowMs >>= fun now => perform (.attrInsert ino (attr now)) >>= fun _ => f ino now)
      s es res s') :
    ∃ now es₁ es₂, es = es₁ ++ es₂ ∧
      Exec fsMachine (f (s.paths.intern cp).1 now) (s.placed nfc cp name (attr now)) es₂ res s' := by
  obtain ⟨es₁, rfl, h₁⟩ := exec_perform_bind_of_run hx fun _ => rfl
  obtain ⟨x, es₂, rfl, -, h₂⟩ := exec_recordRawName h₁
  obtain ⟨now, s₁, es₃, ⟨-, (w : World), hrun⟩, rfl, h₃⟩ := exec_perform_bind_iff.1 h₂
  cases hrun
  obtain ⟨es₄, rfl, h₄⟩ := exec_perform_bind_of_run h₃ fun _ => rfl
  exact ⟨_, [_, _, _, _], es₄, rfl, h₄⟩

/-- Other actions leave the raw names alone. -/
theorem rawNames_of_exec {α : Type} {p : FsProg α} {res : Except Errno α}
    (hx : Exec fsMachine p s es res s') (hp : p.Only fun a => ¬ a.Renames) :
    s'.rawNames = s.rawNames :=
  hx.invariant hp (I := fun s₁ => s₁.rawNames = s.rawNames) rfl
    fun _ _ _ _ ha _ hst h => (rawNames_of_step hst ha).trans h

theorem Act.Looks.not_renames {a : Act} (h : a.Looks) : ¬ a.Renames := by
  cases a <;> first | exact id | exact fun _ => h

theorem refuseNfcCollision_not_renames (parentPath cp name : Str) :
    (refuseNfcCollision parentPath cp name).Only fun a => ¬ a.Renames :=
  refuseNfcCollision_only fun _ h => h.not_renames

/-- The action changes the attribute cache. -/
def Act.Caches : Act → Prop
  | attrInsert .. | attrRemove _ | attrEdit .. | attrOpened .. | insertListed _
  | applyInvalidation .. => True
  | _ => False

/-- Other actions leave the attribute cache alone. -/
theorem attrs_eq_of_step {a : Act} {r : a.Ret} (hst : fsMachine.Step a s r s') (ha : ¬ a.Caches) :
    s'.attrs = s.attrs := by
  obtain ⟨-, (w : World), (hrun : a.run w s = (r, s'))⟩ := hst
  cases a with
  | attrInsert | attrRemove | attrEdit | attrOpened | insertListed | applyInvalidation =>
    exact absurd trivial ha
  | handleWrite | handleSetLen | handleClaim =>
    simp only [Act.run, FsState.handleWrite, FsState.handleSetLen, FsState.handleClaim] at hrun
    split at hrun <;> [skip; split at hrun] <;> cases hrun <;> rfl
  | openFile | setLen =>
    simp only [Act.run] at hrun
    split at hrun <;> cases hrun <;> rfl
  | removeFile path | removeDirAll path =>
    cases hrun
    split <;> rfl
  | _ => cases hrun; rfl

theorem attrs_eq_of_exec {α : Type} {p : FsProg α} {res : Except Errno α}
    (hx : Exec fsMachine p s es res s') (hp : p.Only fun a => ¬ a.Caches) : s'.attrs = s.attrs :=
  hx.invariant hp (I := fun s₁ => s₁.attrs = s.attrs) rfl
    fun _ _ _ _ ha _ hst h => (attrs_eq_of_step hst ha).trans h

/-- What a request that made an entry at `n` in `parent`, and answered these attributes, leaves of the
tables. -/
structure Made (nfc : Str → Str) (parent : Ino) (name : OsStr) (attr : FileAttr) (n parentPath : Str)
    (s s' : FsState) : Prop where
  name : name = some n
  parent : s.paths.pathFor parent = some parentPath
  path : s'.paths.inodeFor (childPath nfc parentPath n) = some attr.ino
  rawNames : s'.rawNames = recorded nfc s.rawNames (childPath nfc parentPath n) n
  cached : ∃ a, s'.attrs.get attr.ino = some a ∧ attr = fileAttrFromCached attr.ino a

/-- What follows keeps them. -/
theorem Made.mono {α : Type} {p : FsProg α} {res : Except Errno α} {parent : Ino} {name : OsStr}
    {attr : FileAttr} {n parentPath : Str} {s₁ : FsState}
    (h : Made nfc parent name attr n parentPath s s₁) (hx : Exec fsMachine p s₁ es res s')
    (hp : p.Only fun a => ¬ a.Drops ∧ ¬ a.Renames ∧ ¬ a.Caches) :
    Made nfc parent name attr n parentPath s s' where
  name := h.name
  parent := h.parent
  path := inodeFor_of_exec hx (hp.mono fun _ h => h.1) h.path
  rawNames := (rawNames_of_exec hx (hp.mono fun _ h => h.2.1)).trans h.rawNames
  cached := by
    rw [attrs_eq_of_exec hx (hp.mono fun _ h => h.2.2)]
    exact h.cached

/-- The path of a new entry has the inode that is answered. -/
theorem exec_createInternal {parent : Ino} {name : OsStr} {out : Nat × FileAttr × Ino}
    (hx : Exec fsMachine (createInternal nfc parent name) s es (.ok out) s') :
    ∃ n parentPath, Made nfc parent name out.2.1 n parentPath s s' := by
  rcases (exec_okOr hx).symm with ⟨-, -, he, -⟩ | ⟨n, rfl, h₁⟩
  · cases he
  obtain ⟨es₁, rfl, h₂⟩ := exec_perform_bind_of_run h₁ fun _ => rfl
  rcases (exec_okOr h₂).symm with ⟨-, -, he, -⟩ | ⟨parentPath, hparent, h₃⟩
  · cases he
  obtain ⟨_, s₁, es₂, es₃, hcheck, h₄, rfl⟩ := exec_bind_ok h₃
  have hraw₁ := rawNames_of_exec hcheck (refuseNfcCollision_not_renames ..)
  obtain ⟨handleId, s₂, es₄, es₅, hid, h₅, rfl⟩ := exec_bind_ok h₄
  have hraw₂ := rawNames_of_exec hid (only_perform id)
  obtain ⟨r, s₃, es₆, es₇, hcall, h₆, rfl⟩ := exec_bind_ok h₅
  have hraw₃ := rawNames_of_exec hcall (only_ipc id id)
  obtain ⟨reply, s₄, es₈, es₉, hreply, h₇, rfl⟩ := exec_bind_ok h₆
  have hraw₄ := rawNames_of_exec hreply (only_mapErr ..)
  obtain ⟨r, s₅, es₁₀, es₁₁, hopen, h₈, rfl⟩ := exec_bind_ok h₇
  have hraw₅ := rawNames_of_exec hopen (only_perform id)
  obtain ⟨file, s₆, es₁₂, es₁₃, hfile, h₉, rfl⟩ := exec_bind_ok h₈
  have hraw₆ := rawNames_of_exec hfile (only_okOr ..)
  have hraw : s₆.rawNames = s.rawNames := by
    rw [hraw₆, hraw₅, hraw₄, hraw₃, hraw₂, hraw₁]
  obtain ⟨now, es₁₄, es₁₅, rfl, h₁₀⟩ := exec_place h₉
  have hmade : Made nfc parent (some n)
      (fileAttrFromCached (s₆.paths.intern (childPath nfc parentPath n)).1 (.newFile now)) n parentPath s
      (s₆.placed nfc (childPath nfc parentPath n) n (.newFile now)) := by
    refine ⟨rfl, hparent, PathMap.intern_inodeFor_self .., ?_, _, HashMap.get_insert_self .., rfl⟩
    rw [← hraw]
    rfl
  obtain ⟨fh, s₇, es₁₆, es₁₇, hpublish, h₁₁, rfl⟩ := exec_bind_ok h₁₀
  obtain ⟨-, hout, rfl⟩ := exec_ret_iff.1 h₁₁
  cases hout
  exact ⟨n, parentPath, hmade.mono hpublish (publish_only ⟨id, id, id⟩ fun _ => ⟨id, id, id⟩)⟩

theorem exec_mkdir {parent : Ino} {name : OsStr} {r : ReplyEntry}
    (hx : Exec fsMachine (mkdir nfc parent name) s es (.ok r) s') :
    ∃ n parentPath, Made nfc parent name r.attr n parentPath s s' := by
  rcases (exec_okOr hx).symm with ⟨-, -, he, -⟩ | ⟨n, rfl, h₁⟩
  · cases he
  obtain ⟨es₁, rfl, h₂⟩ := exec_perform_bind_of_run h₁ fun _ => rfl
  rcases (exec_okOr h₂).symm with ⟨-, -, he, -⟩ | ⟨parentPath, hparent, h₃⟩
  · cases he
  obtain ⟨_, s₁, es₂, es₃, hcheck, h₄, rfl⟩ := exec_bind_ok h₃
  have hraw₁ := rawNames_of_exec hcheck (refuseNfcCollision_not_renames ..)
  obtain ⟨r', s₂, es₄, es₅, hcall, h₅, rfl⟩ := exec_bind_ok h₄
  have hraw₂ := rawNames_of_exec hcall (only_ipc id id)
  obtain ⟨_, s₃, es₆, es₇, hreply, h₆, rfl⟩ := exec_bind_ok h₅
  have hraw₃ := rawNames_of_exec hreply (only_mapErr ..)
  obtain ⟨now, es₈, es₉, rfl, h₇⟩ := exec_place h₆
  obtain ⟨-, hr, rfl⟩ := exec_ret_iff.1 h₇
  cases hr
  refine ⟨n, parentPath, rfl, hparent, PathMap.intern_inodeFor_self .., ?_, _,
    HashMap.get_insert_self .., rfl⟩
  rw [← hraw₁, ← hraw₂, ← hraw₃]
  rfl

/-- The request makes an entry at `name` in `parent`. -/
def Op.Makes (parent : Ino) (name : OsStr) : Op → Prop
  | create p n | mkdir p n | mknod p n _ => p = parent ∧ n = name
  | _ => False

/-- The attributes a reply gives of one entry. -/
def Reply.attr? : Reply → Option FileAttr
  | entry r => some r.attr
  | attr r => some r.attr
  | created r => some r.attr
  | _ => none

/-- A request that makes an entry answers the inode of the entry's path, and its attributes. -/
theorem Op.Makes.exec {o : Op} {parent : Ino} {name : OsStr} (ho : o.Makes parent name) {r : Reply}
    (hx : Exec fsMachine (o.prog nfc cacheRoot) s es (.ok r) s') :
    ∃ n parentPath attr, r.inodes = [attr.ino] ∧ r.attr? = some attr ∧
      Made nfc parent name attr n parentPath s s' := by
  cases o with
  | create p n =>
    obtain ⟨rfl, rfl⟩ := ho
    obtain ⟨out, s₁, es₁, es₂, h₁, h₂, rfl⟩ := exec_bind_ok hx
    obtain ⟨out', s₂, es₃, es₄, h₃, h₄, rfl⟩ := exec_bind_ok h₁
    obtain ⟨-, hout, rfl⟩ := exec_ret_iff.1 h₄
    cases hout
    obtain ⟨-, hr, rfl⟩ := exec_ret_iff.1 h₂
    cases hr
    obtain ⟨n, parentPath, hmade⟩ := exec_createInternal h₃
    exact ⟨n, parentPath, _, rfl, rfl, hmade⟩
  | mknod p n mode =>
    obtain ⟨rfl, rfl⟩ := ho
    obtain ⟨out, s₁, es₁, es₂, h₁, h₂, rfl⟩ := exec_bind_ok hx
    obtain ⟨-, hr, rfl⟩ := exec_ret_iff.1 h₂
    cases hr
    unfold UnidriveMount.mknod at h₁
    split at h₁
    · cases (exec_ret_iff.1 h₁).2.1
    obtain ⟨⟨fh, attr, ino⟩, s₂, es₃, es₄, h₃, h₄, rfl⟩ := exec_bind_ok h₁
    obtain ⟨n, parentPath, hmade⟩ := exec_createInternal h₃
    obtain ⟨h, s₃, es₅, es₆, hremove, h₅, rfl⟩ := exec_bind_ok h₄
    have hmade := hmade.mono hremove (only_perform ⟨id, id, id⟩)
    -- closing the handle keeps the tables and answers the same attributes
    cases h with
    | none =>
      obtain ⟨-, hout, rfl⟩ := exec_ret_iff.1 h₅
      cases hout
      exact ⟨n, parentPath, _, rfl, rfl, hmade⟩
    | some h =>
      have hmade := hmade.mono h₅ (.bind (only_ipc ⟨id, id, id⟩ ⟨id, id, id⟩) fun _ =>
        .bind (only_ipc ⟨id, id, id⟩ ⟨id, id, id⟩) fun _ => only_pure _)
      obtain ⟨_, _, _, _, -, h₆, -⟩ := exec_bind_ok h₅
      obtain ⟨_, _, _, _, -, h₇, -⟩ := exec_bind_ok h₆
      cases (exec_ret_iff.1 h₇).2.1
      exact ⟨n, parentPath, _, rfl, rfl, hmade⟩
  | mkdir p n =>
    obtain ⟨rfl, rfl⟩ := ho
    obtain ⟨r', s₁, es₁, es₂, h₁, h₂, rfl⟩ := exec_bind_ok hx
    obtain ⟨-, hr, rfl⟩ := exec_ret_iff.1 h₂
    cases hr
    obtain ⟨n, parentPath, hmade⟩ := exec_mkdir h₁
    exact ⟨n, parentPath, _, rfl, rfl, hmade⟩
  | _ => exact ho.elim

/-! ## Every reachable state -/

/-- The inode counter does not wrap around. -/
def Room (_ : List FsServed) (s : FsState) (x : FsServed) : Prop :=
  s.paths.next + interned x.occs < inodeSpace

/-- A reply gives only inodes that have a path. -/
theorem Reply.named {o : Op} {r : Reply} (hx : Exec fsMachine (o.prog nfc cacheRoot) s es (.ok r) s')
    (hs : s.paths.Sound) (hs' : s'.paths.Sound) {ino : Ino} (hino : ino ∈ r.inodes) :
    ∃ p, s'.paths.inodeFor p = some ino := by
  have hmakes : ∀ parent name, o.Makes parent name → ∃ p, s'.paths.inodeFor p = some ino := by
    intro parent name ho
    obtain ⟨n, parentPath, attr, hr, -, hmade⟩ := ho.exec hx
    rw [hr, List.mem_singleton] at hino
    exact ⟨_, hino ▸ hmade.path⟩
  cases o with
  | lookup parent name =>
    obtain ⟨r', s₁, es₁, es₂, h₁, h₂, rfl⟩ := exec_bind_ok hx
    obtain ⟨-, hr, rfl⟩ := exec_ret_iff.1 h₂
    cases hr
    rw [List.mem_singleton.1 hino]
    exact (exec_lookup h₁).1
  | readdir parent offset =>
    obtain ⟨out, s₁, es₁, es₂, h₁, h₂, rfl⟩ := exec_bind_ok hx
    obtain ⟨-, hr, rfl⟩ := exec_ret_iff.1 h₂
    cases hr
    obtain ⟨parentPath, entries, dotdot, hscan, rfl⟩ := exec_readdir h₁
    obtain ⟨x, hx, rfl⟩ := List.mem_map.1 hino
    have hmem : x.shown ∈ _ := List.mem_map_of_mem (List.mem_of_mem_drop hx)
    rw [directoryEntries_shown] at hmem
    exact hscan.named hs hs' hmem
  | readdirplus parent offset =>
    obtain ⟨out, s₁, es₁, es₂, h₁, h₂, rfl⟩ := exec_bind_ok hx
    obtain ⟨-, hr, rfl⟩ := exec_ret_iff.1 h₂
    cases hr
    obtain ⟨parentPath, entries, dotdot, parentAttr, hscan, rfl⟩ := exec_readdirplus h₁
    obtain ⟨x, hx, rfl⟩ := List.mem_map.1 hino
    have hmem : x.shown ∈ _ := List.mem_map_of_mem (List.mem_of_mem_drop hx)
    rw [directoryEntriesPlus_shown] at hmem
    exact hscan.named hs hs' hmem
  | create parent name | mkdir parent name | mknod parent name mode =>
    exact hmakes parent name ⟨rfl, rfl⟩
  | _ =>
    obtain ⟨out, s₁, es₁, es₂, h₁, h₂, rfl⟩ := exec_bind_ok hx
    obtain ⟨-, hr, rfl⟩ := exec_ret_iff.1 h₂
    cases hr
    cases hino

/-- The inodes given to the kernel are below the counter. -/
theorem given_lt_next {disk : Disk} {l : List FsServed}
    (h : (fsService nfc cacheRoot).Sequence Room (.new disk) l s) :
    s.paths.Sound ∧ ∀ ino ∈ given l, ino < s.paths.next := by
  refine h.invariant (I := fun l s => s.paths.Sound ∧ ∀ ino ∈ given l, ino < s.paths.next)
    ⟨.new, fun ino hino => by cases hino⟩ fun l s x s' ⟨hs, hgiven⟩ hx hok => ?_
  obtain ⟨hs', hlater, -⟩ := sound_of_exec hx hs (Op.prog_sparesRoot ..) hok
  refine ⟨hs', fun ino hino => ?_⟩
  obtain ⟨req, occs, res⟩ := x
  have hino : ino ∈ givenBy res ++ given l := hino
  rcases List.mem_append.1 hino with hino | hino
  · cases res with
    | error e => cases hino
    | ok r =>
      obtain ⟨p, hp⟩ := Reply.named hx hs hs' hino
      exact hs'.below ino p ((hs'.inverse ..).1 hp)
  · exact Nat.lt_of_lt_of_le (hgiven ino hino) hlater.next_le

/-- **When a new entry gets a new inode**: exactly when the inode its path has, if it has one, was
never given to the kernel. -/
theorem new_inode_fresh_iff {disk : Disk} {l : List FsServed}
    (h : (fsService nfc cacheRoot).Sequence Room (.new disk) l s) {o : Op} {parent : Ino} {name : Str}
    (ho : o.Makes parent (some name)) {r : Reply}
    (hx : Exec fsMachine (o.prog nfc cacheRoot) s es (.ok r) s')
    (hroom : s.paths.next + interned es < inodeSpace) :
    (∀ ino ∈ r.inodes, ino ∉ given l) ↔ ∀ parentPath ino, s.paths.pathFor parent = some parentPath →
      s.paths.inodeFor (childPath nfc parentPath name) = some ino → ino ∉ given l := by
  obtain ⟨hs, hgiven⟩ := given_lt_next h
  obtain ⟨hs', hlater, -⟩ := sound_of_exec hx hs (Op.prog_sparesRoot ..) hroom
  obtain ⟨n, parentPath, attr, hr, -, hn, hparent, hpath, -⟩ := ho.exec hx
  cases hn
  have hkeeps : (o.prog nfc cacheRoot).Only fun a => ¬ a.Drops := by
    refine (Op.prog_only o).mono fun a ha => Op.May.not_drops ?_ ha
    cases o <;> trivial
  rw [hr]
  constructor
  · intro hfresh parentPath' ino' hp hino'
    cases hparent.symm.trans hp
    have heq := Option.some.inj ((inodeFor_of_exec hx hkeeps hino').symm.trans hpath)
    exact heq ▸ hfresh attr.ino (List.mem_singleton_self _)
  · intro hold i hi hmem
    obtain rfl : i = attr.ino := List.mem_singleton.1 hi
    -- an inode given before was live before, at the same path
    obtain ⟨q, hq⟩ := hlater.live _ _ ((hs'.inverse ..).1 hpath) (hgiven _ hmem)
    have hfor := (hs.inverse ..).2 hq
    have heq := hs'.toWF.inode_inj (inodeFor_of_exec hx hkeeps hfor) hpath
    exact hold parentPath _ hparent (heq ▸ hfor) hmem

/-! ## An inode given twice -/

/-- The file `/a` is looked up, the daemon listing `entries`. -/
def lookedUpA (entries : List ListEntry) : List (Op × World) :=
  [(.lookup rootInode (some ['a']), .lists fun _ => entries)]

/-- A file that was never listed gets a new inode. -/
theorem new_inode_fresh_iff_b :
    ∃ l s es r s', plainFs.Sequence Room (.new .empty) l s ∧ given l = [2] ∧
      Exec fsMachine ((Op.create rootInode (some ['b'])).prog id none) s es (.ok r) s' ∧
      r.inodes = [3] ∧ ((∀ ino ∈ r.inodes, ino ∉ given l) ↔
        ∀ parentPath ino, s.paths.pathFor rootInode = some parentPath →
          s.paths.inodeFor (childPath id parentPath ['b']) = some ino → ino ∉ given l) := by
  have hserve : (plainFs.serveAll (fun _ s x =>
      decide (s.paths.next + interned x.occs < inodeSpace)) (lookedUpA (entriesAB.take 1)) []
      (.new .empty)).any (fun x => given x.1 = [2] &&
      (fsMachine.exec .calm ((Op.create rootInode (some ['b'])).prog id none) x.2).any fun y =>
        decide (x.2.paths.next + interned y.1 < inodeSpace) && givenBy y.2.1 = [3]) = true := by
    decide +kernel
  obtain ⟨⟨l, s⟩, hs, hcheck⟩ := (Option.any_eq_true ..).1 hserve
  obtain ⟨hgiven, hcheck⟩ := Bool.and_eq_true_iff.1 hcheck
  obtain ⟨⟨es, res, s'⟩, hx, hcheck⟩ := (Option.any_eq_true ..).1 hcheck
  obtain ⟨hroom, hinodes⟩ := Bool.and_eq_true_iff.1 hcheck
  have hseq : plainFs.Sequence Room (.new .empty) l s :=
    plainFs.sequence_of_serveAll (fun _ _ _ => of_decide_eq_true) .nil hs
  cases res with
  | error e => cases of_decide_eq_true hinodes
  | ok r =>
    have hx := Machine.exec_sound hx
    have hmakes : (Op.create rootInode (some ['b'])).Makes rootInode (some ['b']) := ⟨rfl, rfl⟩
    exact ⟨l, s, es, r, s', hseq, of_decide_eq_true hgiven, hx, of_decide_eq_true hinodes,
      new_inode_fresh_iff hseq hmakes hx (of_decide_eq_true hroom)⟩

/-- The file `/a`, deleted by somebody else and created again, has the inode it had. -/
theorem new_inode_given_before : ¬ ∀ (nfc : Str → Str) (cacheRoot : Option Str) (disk : Disk)
    (l : List FsServed) (s : FsState),
    (fsService nfc cacheRoot).Sequence (fun _ _ _ => True) (.new disk) l s →
    ∀ (o : Op) (parent : Ino) (name : Str), o.Makes parent (some name) →
    ∀ es r s', Exec fsMachine (o.prog nfc cacheRoot) s es (.ok r) s' →
      ∀ ino ∈ r.inodes, ino ∉ given l := by
  intro h
  have hserve : (plainFs.serveAll (fun _ _ _ => true) (lookedUpA entriesAB) []
      (.new .empty)).any (fun x => given x.1 = [2] &&
      (fsMachine.exec .calm ((Op.create rootInode (some ['a'])).prog id none) x.2).any fun y =>
        givenBy y.2.1 = [2]) = true := by decide +kernel
  obtain ⟨⟨l, s⟩, hs, hcheck⟩ := (Option.any_eq_true ..).1 hserve
  obtain ⟨hgiven, hcheck⟩ := Bool.and_eq_true_iff.1 hcheck
  obtain ⟨⟨es, res, s'⟩, hx, hinodes⟩ := (Option.any_eq_true ..).1 hcheck
  have hseq : plainFs.Sequence (fun _ _ _ => True) (.new .empty) l s :=
    plainFs.sequence_of_serveAll (fun _ _ _ _ => trivial) .nil hs
  cases res with
  | error e => cases of_decide_eq_true hinodes
  | ok r =>
    have hr : r.inodes = [2] := of_decide_eq_true hinodes
    have hmakes : (Op.create rootInode (some ['a'])).Makes rootInode (some ['a']) := ⟨rfl, rfl⟩
    refine h id none .empty l s hseq _ _ _ hmakes es r s' (Machine.exec_sound hx) 2 ?_ ?_
    · rw [hr]
      exact List.mem_singleton_self 2
    · rw [of_decide_eq_true hgiven]
      exact List.mem_singleton_self 2

end UnidriveMount
