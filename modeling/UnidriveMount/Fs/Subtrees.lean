import UnidriveMount.Fs.Listing

/-!
# Directories removed and moved

What `rmdir` and `rename` do to the entries below a directory. `rmdir` drops the raw names of all of
them, but of the path map and the attribute cache only the directory's own entry, so that the rest of
the subtree is forgotten exactly when nothing below was known (`rmdir_forgets_iff`). `rename` moves
the raw names below the directory and clears none at the destination, so that a moved entry keeps its
visible name exactly when no raw name was left there (`rename_carries_iff`).
-/

namespace UnidriveMount

open Lib
open Lib.Prog (fail okOr ofExcept only_perform)

variable {nfc : Str → Str} {cacheRoot : Option Str} {s s' : FsState} {es : List (Occ Act.Ret)}

/-! ## Removal -/

/-- Nothing is left of the tree at `cp`: no path at or below it has an inode, the inodes that had one
have no attributes, and no raw name is recorded there. -/
structure SubtreeForgotten (cp : Str) (s s' : FsState) : Prop where
  paths : ∀ p, AtOrBelow cp p → s'.paths.inodeFor p = none
  attrs : ∀ p ino, AtOrBelow cp p → s.paths.inodeFor p = some ino → s'.attrs.get ino = none
  rawNames : ∀ k, AtOrBelow cp k → s'.rawNames.get k = none

/-- The state with the entry at `cp` dropped. -/
def FsState.forgotten (s : FsState) (cp : Str) : FsState :=
  { s with
    paths := (s.paths.forget cp).2
    rawNames := s.rawNames.retain fun k _ => k ≠ cp ∧ ¬ cp ++ ['/'] <+: k
    attrs := match s.paths.inodeFor cp with
      | some ino => s.attrs.remove ino
      | none => s.attrs }

theorem exec_forgetEntry {β : Type} {cp : Str} {f : Unit → FsProg β} {res : Except Errno β}
    (hx : Exec fsMachine (forgetEntry cp >>= f) s es res s') :
    ∃ es', Exec fsMachine (f ()) (s.forgotten cp) es' res s' := by
  unfold forgetEntry at hx
  rw [Prog.bind_assoc] at hx
  obtain ⟨es₁, rfl, h₁⟩ := exec_perform_bind_of_run hx fun _ => rfl
  rw [Prog.bind_assoc] at h₁
  obtain ⟨es₂, rfl, h₂⟩ := exec_perform_bind_of_run h₁ fun _ => rfl
  rw [PathMap.forget_fst] at h₂
  unfold FsState.forgotten
  cases h : s.paths.inodeFor cp with
  | some ino =>
    rw [h] at h₂
    obtain ⟨es₃, rfl, h₃⟩ := exec_perform_bind_of_run h₂ fun _ => rfl
    exact ⟨es₃, h₃⟩
  | none =>
    rw [h] at h₂
    exact ⟨es₂, h₂⟩

/-- What is left when an entry at `name` in `parent` was removed, the cache folder apart. -/
structure EntryRemoved (nfc : Str → Str) (parent : Ino) (name : OsStr) (n parentPath : Str)
    (s s' : FsState) : Prop where
  name : name = some n
  parent : s.paths.pathFor parent = some parentPath
  state : ∃ d, s' = (s.forgotten (childPath nfc parentPath n)).withDisk d

/-- The one program of `unlink` and `rmdir`: they send another verb, and evict another way. -/
theorem exec_removal (verb : Str → Verb) (evict : Str → Str → FsProg Unit)
    (hevict : ∀ root cp s es s', Exec fsMachine (evict root cp) s es (.ok ()) s' →
      ∃ d, s' = s.withDisk d) {parent : Ino} {name : OsStr}
    (hx : Exec fsMachine (okOr name .EINVAL >>= fun name => perform (.pathFor parent) >>= fun r =>
      okOr r .ENOENT >>= fun parentPath => ipc (verb (childPath nfc parentPath name)) >>= fun r =>
      mapErr namespaceErrToErrno r >>= fun _ => forgetEntry (childPath nfc parentPath name) >>= fun _ =>
      match cacheRoot with
      | some root => evict root (childPath nfc parentPath name)
      | none => pure ()) s es (.ok ()) s') :
    ∃ n parentPath, EntryRemoved nfc parent name n parentPath s s' := by
  rcases (exec_okOr hx).symm with ⟨-, -, he, -⟩ | ⟨n, rfl, h₁⟩
  · cases he
  obtain ⟨es₁, rfl, h₂⟩ := exec_perform_bind_of_run h₁ fun _ => rfl
  rcases (exec_okOr h₂).symm with ⟨-, -, he, -⟩ | ⟨parentPath, hpath, h₃⟩
  · cases he
  obtain ⟨-, r, d, es₂, rfl, h₄⟩ := exec_ipc h₃
  rcases (exec_mapErr h₄).symm with ⟨e, -, -, he, -⟩ | ⟨-, -, h₅⟩
  · cases he
  obtain ⟨es₃, h₆⟩ := exec_forgetEntry h₅
  refine ⟨n, parentPath, rfl, hpath, ?_⟩
  cases cacheRoot with
  | none =>
    obtain ⟨-, -, rfl⟩ := exec_ret_iff.1 h₆
    exact ⟨d, rfl⟩
  | some root =>
    obtain ⟨d', rfl⟩ := hevict root _ _ _ _ h₆
    exact ⟨d', rfl⟩

/-- An eviction changes the disk alone. -/
theorem exec_evict {a : Act} (ha : match a with
    | .removeFile _ | .removeDirAll _ => True
    | _ => False) {res : Except Errno a.Ret} (hx : Exec fsMachine (perform a) s es res s') :
    ∃ d, s' = s.withDisk d := by
  obtain ⟨r, s₁, es₁, ⟨-, (w : World), hrun⟩, -, h⟩ := exec_act_iff.1 hx
  obtain ⟨-, -, rfl⟩ := exec_ret_iff.1 h
  cases a with
  | removeFile path | removeDirAll path =>
    cases hrun
    split
    · exact ⟨_, rfl⟩
    · exact ⟨s.disk, rfl⟩
  | _ => exact ha.elim

theorem exec_unlink {parent : Ino} {name : OsStr}
    (hx : Exec fsMachine (unlink nfc cacheRoot parent name) s es (.ok ()) s') :
    ∃ n parentPath, EntryRemoved nfc parent name n parentPath s s' :=
  exec_removal .unlink (fun root cp => perform (.removeFile (evictionPath root cp)))
    (fun _ _ _ _ _ h => exec_evict trivial h) hx

theorem exec_rmdir {parent : Ino} {name : OsStr}
    (hx : Exec fsMachine (rmdir nfc cacheRoot parent name) s es (.ok ()) s') :
    ∃ n parentPath, EntryRemoved nfc parent name n parentPath s s' :=
  exec_removal .rmdir (fun root cp => perform (.removeDirAll (evictionPath root cp)))
    (fun _ _ _ _ _ h => exec_evict trivial h) hx

/-- **An `rmdir` forgets the whole subtree exactly when nothing below the directory has an inode.** -/
theorem rmdir_forgets_iff {parent : Ino} {name parentPath : Str}
    (hparent : s.paths.pathFor parent = some parentPath)
    (hx : Exec fsMachine (rmdir nfc cacheRoot parent (some name)) s es (.ok ()) s') :
    SubtreeForgotten (childPath nfc parentPath name) s s' ↔
      ∀ p, childPath nfc parentPath name ++ ['/'] <+: p → s.paths.inodeFor p = none := by
  obtain ⟨n, parentPath', hn, hparent', d, rfl⟩ := exec_rmdir hx
  cases hn
  cases hparent.symm.trans hparent'
  generalize childPath nfc parentPath name = cp
  have hpaths : ∀ p, ((s.forgotten cp).withDisk d).paths.inodeFor p =
      if p = cp then none else s.paths.inodeFor p := s.paths.forget_inodeFor cp
  constructor
  · intro h p hp
    have hnone := h.paths p (.inr hp)
    rw [hpaths, if_neg] at hnone
    · exact hnone
    · rintro rfl
      have hlen := hp.length_le
      rw [List.length_append, List.length_singleton] at hlen
      omega
  · intro h
    refine ⟨fun p hp => ?_, fun p ino hp hino => ?_, fun k hk => ?_⟩
    · rw [hpaths]
      rcases hp with rfl | hp
      · exact if_pos rfl
      · rw [h p hp, ite_self]
    · rcases hp with rfl | hp
      · show HashMap.get (match s.paths.inodeFor p with
          | some ino => s.attrs.remove ino
          | none => s.attrs) ino = none
        rw [hino]
        exact HashMap.get_remove_self ..
      · cases (h p hp).symm.trans hino
    · show (s.rawNames.retain _).get k = none
      rw [HashMap.get_retain, Option.filter_eq_none_iff]
      intro v _ hkeep
      obtain ⟨hne, hnot⟩ := of_decide_eq_true hkeep
      exact hk.elim hne hnot

/-- The state before an `rmdir` of `/d`, and its run. -/
def rmdirD (reqs : List (Op × World)) (check : FsState → FsState → Bool) : Bool :=
  (plainFs.serveAll (fun _ _ _ => true) reqs [] (.new .empty)).any fun x =>
    (fsMachine.exec .calm (rmdir id none rootInode (some ['d'])) x.2).any fun y =>
    decide (x.2.paths.pathFor rootInode = some []) && decide (y.2.1 = .ok ()) && check x.2 y.2.2

theorem exec_of_rmdirD {reqs : List (Op × World)} {check : FsState → FsState → Bool}
    (h : rmdirD reqs check = true) :
    ∃ l s es s', plainFs.Sequence (fun _ _ _ => True) (.new .empty) l s ∧
      s.paths.pathFor rootInode = some [] ∧
      Exec fsMachine (rmdir id none rootInode (some ['d'])) s es (.ok ()) s' ∧ check s s' = true := by
  obtain ⟨⟨l, s⟩, hs, h⟩ := (Option.any_eq_true ..).1 h
  obtain ⟨⟨es, res, s'⟩, hx, h⟩ := (Option.any_eq_true ..).1 h
  obtain ⟨h, hcheck⟩ := Bool.and_eq_true_iff.1 h
  obtain ⟨hroot, hok⟩ := Bool.and_eq_true_iff.1 h
  have hx := Machine.exec_sound hx
  rw [show res = .ok () from of_decide_eq_true hok] at hx
  exact ⟨l, s, es, s', plainFs.sequence_of_serveAll (fun _ _ _ _ => trivial) .nil hs,
    of_decide_eq_true hroot, hx, hcheck⟩

/-- An empty folder is made and removed. -/
theorem rmdir_forgets_iff_empty :
    ∃ l s es s', plainFs.Sequence (fun _ _ _ => True) (.new .empty) l s ∧
      Exec fsMachine (rmdir id none rootInode (some ['d'])) s es (.ok ()) s' ∧
      (∃ ino, s.paths.inodeFor ['/', 'd'] = some ino) ∧ SubtreeForgotten ['/', 'd'] s s' := by
  have hrun : rmdirD [(.mkdir rootInode (some ['d']), .calm)] (fun s _ =>
      (s.paths.inodeFor ['/', 'd']).isSome && s.paths.pathToInode.iter.all fun e =>
        decide (¬ ['/', 'd'] ++ ['/'] <+: e.1)) = true := by decide +kernel
  obtain ⟨l, s, es, s', hs, hroot, hx, hcheck⟩ := exec_of_rmdirD hrun
  obtain ⟨hknown, hall⟩ := Bool.and_eq_true_iff.1 hcheck
  refine ⟨l, s, es, s', hs, hx, Option.isSome_iff_exists.1 hknown,
    (rmdir_forgets_iff hroot hx).2 fun p hp => ?_⟩
  by_contra hne
  obtain ⟨ino, hino⟩ := Option.ne_none_iff_exists'.1 hne
  exact of_decide_eq_true (List.all_eq_true.1 hall (p, ino) (HashMap.mem_iter.2 hino)) hp

/-- A file below the folder, removed elsewhere, still has its inode after the `rmdir`. -/
theorem rmdir_leaves_child : ¬ ∀ (nfc : Str → Str) (cacheRoot : Option Str) (disk : Disk)
    (l : List FsServed) (s : FsState),
    (fsService nfc cacheRoot).Sequence (fun _ _ _ => True) (.new disk) l s →
    ∀ parent name parentPath es s', s.paths.pathFor parent = some parentPath →
      Exec fsMachine (rmdir nfc cacheRoot parent (some name)) s es (.ok ()) s' →
      SubtreeForgotten (childPath nfc parentPath name) s s' := by
  intro h
  have hrun : rmdirD [(.mkdir rootInode (some ['d']), .calm), (.create 2 (some ['f']), .calm)]
      (fun _ s' => (s'.paths.inodeFor ['/', 'd', '/', 'f']).isSome) = true := by decide +kernel
  obtain ⟨l, s, es, s', hs, hroot, hx, hleft⟩ := exec_of_rmdirD hrun
  have hnone := (h _ _ _ _ _ hs _ _ _ _ _ hroot hx).paths ['/', 'd', '/', 'f'] (.inr ⟨['f'], rfl⟩)
  rw [hnone] at hleft
  cases hleft

/-! ## Raw names are not in NFC -/

/-- No raw name is in NFC. -/
def Decomposed (nfc : Str → Str) (rawNames : HashMap Str Str) : Prop :=
  ∀ cp raw, rawNames.get cp = some raw → nfc raw ≠ raw

/-- The action records only names that are not in NFC. -/
def Act.Decomposes (nfc : Str → Str) : Act → Prop
  | .rawInsert _ name => nfc name ≠ name
  | _ => True

/-- A raw name after an action was recorded by it, or was there before. -/
theorem rawName_of_step {a : Act} {r : a.Ret} (hst : fsMachine.Step a s r s') {cp raw : Str}
    (h : s'.rawNames.get cp = some raw) :
    a = .rawInsert cp raw ∨ ∃ cp', s.rawNames.get cp' = some raw := by
  by_cases hren : a.Renames
  · obtain ⟨-, (w : World), (hrun : a.run w s = (r, s'))⟩ := hst
    cases a with
    | rawInsert p name =>
      cases hrun
      rw [HashMap.get_insert] at h
      split at h
      · next heq =>
        cases h
        exact .inl (by rw [heq])
      · exact .inr ⟨cp, h⟩
    | rawRemove p =>
      cases hrun
      rw [HashMap.get_remove] at h
      split at h
      · cases h
      · exact .inr ⟨cp, h⟩
    | forgetRawNames p =>
      cases hrun
      rw [HashMap.get_retain] at h
      exact .inr ⟨cp, (Option.filter_eq_some_iff.1 h).1⟩
    | renameRawNames old new =>
      cases hrun
      rcases get_renamedRawNames h with ⟨rest, -, hold⟩ | hold
      · exact .inr ⟨_, hold⟩
      · exact .inr ⟨cp, hold⟩
    | _ => exact hren.elim
  · rw [rawNames_of_step hst hren] at h
    exact .inr ⟨cp, h⟩

theorem Op.prog_decomposes (o : Op) : (o.prog nfc cacheRoot).Only (Act.Decomposes nfc) := by
  refine Op.prog_recording (fun a ha => ?_) fun _ n _ => ?_
  · cases a <;> first | trivial | exact absurd trivial ha
  · unfold recordRawName isNfcName
    split
    · exact only_perform trivial
    · next hne => exact only_perform fun heq => hne (decide_eq_true heq)

/-- **In every reachable state no raw name is in NFC.** -/
theorem decomposed_of_sequence {ok : List FsServed → FsState → FsServed → Prop} {disk : Disk}
    {l : List FsServed} (hs : (fsService nfc cacheRoot).Sequence ok (.new disk) l s) :
    Decomposed nfc s.rawNames := by
  refine hs.invariant (I := fun _ s => Decomposed nfc s.rawNames) (fun cp raw h => by cases h)
    fun l s x s' hI hx _ => ?_
  refine hx.invariant (I := fun s => Decomposed nfc s.rawNames) (Op.prog_decomposes x.req) hI
    fun a _ _ _ ha _ hst hI cp raw hget => ?_
  rcases rawName_of_step hst hget with rfl | ⟨cp', hold⟩
  · exact ha
  · exact hI cp' raw hold

/-! ## Renames -/

section
variable {old new : Str}

/-- A raw name below the source moves. -/
theorem renamedRawNames_of_some {rest raw : Str} (h : s.rawNames.get (old ++ '/' :: rest) = some raw) :
    (s.renamedRawNames old new).get (new ++ '/' :: rest) = some raw := by
  have hpre : old ++ ['/'] <+: old ++ '/' :: rest := ⟨rest, by simp⟩
  refine HashMap.get_extend_of_mem _ ?_ (List.mem_map.2
    ⟨_, List.mem_filter.2 ⟨HashMap.mem_iter.2 h, decide_eq_true hpre⟩, ?_⟩)
  · have hnodup : ((s.rawNames.iter.filter fun e => old ++ ['/'] <+: e.1).map Prod.fst).Nodup :=
      (List.Sublist.map Prod.fst List.filter_sublist).nodup (HashMap.iter_keys_nodup _)
    rw [List.map_map]
    refine hnodup.of_map.map_on fun x hx y hy heq => ?_
    obtain ⟨hx, r, hr⟩ := (List.mem_filter.1 hx).imp_right of_decide_eq_true
    obtain ⟨hy, r', hr'⟩ := (List.mem_filter.1 hy).imp_right of_decide_eq_true
    have hkey : x.1 = y.1 := by
      simp only [Function.comp_apply, ← hr, ← hr', List.append_assoc, List.append_cancel_left_eq] at heq
      rw [← hr, ← hr']
      simpa using heq
    exact List.inj_on_of_nodup_map (HashMap.iter_keys_nodup _) hx hy hkey
  · simp

/-- Elsewhere the raw names at or below the source go, and the others stay. -/
theorem renamedRawNames_of_none {k : Str}
    (h : ∀ rest, k = new ++ '/' :: rest → s.rawNames.get (old ++ '/' :: rest) = none) :
    (s.renamedRawNames old new).get k = if AtOrBelow old k then none else s.rawNames.get k := by
  refine (HashMap.get_extend_of_notMem _ fun hmem => ?_).trans ?_
  · obtain ⟨⟨k', v⟩, hmoved, rfl⟩ := List.mem_map.1 hmem
    obtain ⟨⟨p, raw⟩, hp, heq⟩ := List.mem_map.1 hmoved
    obtain ⟨hp, r, hr⟩ := (List.mem_filter.1 hp).imp_right of_decide_eq_true
    have hr : p = old ++ '/' :: r := hr.symm.trans (by simp)
    subst hr
    simp only [Prod.mk.injEq] at heq
    have hnone := h r (heq.1.symm.trans (by rw [List.drop_append]; simp))
    cases hnone.symm.trans (HashMap.mem_iter.1 hp)
  · rw [HashMap.get_retain]
    by_cases hk : AtOrBelow old k
    · rw [if_pos hk, Option.filter_eq_none_iff]
      intro v _ hkeep
      obtain ⟨hne, hnot⟩ := of_decide_eq_true hkeep
      exact hk.elim hne hnot
    · rw [if_neg hk]
      cases s.rawNames.get k with
      | none => rfl
      | some v => exact Option.filter_eq_some_iff.2 ⟨rfl, decide_eq_true (not_or.1 hk)⟩

end

/-- A rename of `old` to `new`, where the entry is to be visible as `newName`, has moved the visible
names of what was known below, left no raw name at the source, and changed no other visible name. -/
structure CarriesNames (old new newName : Str) (s s' : FsState) : Prop where
  moved : ∀ rest ino, s.paths.inodeFor (old ++ '/' :: rest) = some ino →
    s'.visibleName (new ++ '/' :: rest) = s.visibleName (old ++ '/' :: rest)
  target : s'.visibleName new = newName
  cleared : ∀ k, AtOrBelow old k → s'.rawNames.get k = none
  outside : ∀ p, ¬ AtOrBelow old p → ¬ AtOrBelow new p → s'.visibleName p = s.visibleName p

/-- No raw name is left at the destination of an entry that has none. -/
def NoneLeft (old new : Str) (s : FsState) : Prop :=
  ∀ rest ino, s.paths.inodeFor (old ++ '/' :: rest) = some ino →
    s.rawNames.get (old ++ '/' :: rest) = none → s.rawNames.get (new ++ '/' :: rest) = none

/-- The raw names that `recorded` leaves. -/
theorem get_recorded_ne {rawNames : HashMap Str Str} {cp k name : Str} (h : k ≠ cp) :
    (recorded nfc rawNames cp name).get k = rawNames.get k := by
  unfold recorded
  split
  · exact HashMap.get_remove_ne _ h
  · exact HashMap.get_insert_ne _ _ h

/-- The raw names after a rename of `old` to `new`, neither at or below the other. -/
structure RawNamesMoved (nfc : Str → Str) (old new newName : Str) (s s' : FsState) : Prop where
  some : ∀ rest raw, s.rawNames.get (old ++ '/' :: rest) = .some raw →
    s'.rawNames.get (new ++ '/' :: rest) = .some raw
  none : ∀ rest, s.rawNames.get (old ++ '/' :: rest) = .none →
    s'.rawNames.get (new ++ '/' :: rest) = s.rawNames.get (new ++ '/' :: rest)
  target : s'.rawNames.get new = if isNfcName nfc newName then .none else .some newName
  cleared : ∀ k, AtOrBelow old k → s'.rawNames.get k = .none
  outside : ∀ k, ¬ AtOrBelow old k → ¬ AtOrBelow new k → s'.rawNames.get k = s.rawNames.get k

/-- Outside both subtrees a rename changes no raw name. -/
theorem get_renamed_outside {old new newName k : Str} (hk : ¬ AtOrBelow old k)
    (hk' : ¬ AtOrBelow new k) :
    (s.renamed nfc old new newName).rawNames.get k = s.rawNames.get k := by
  have hne : k ≠ new := fun heq => hk' (heq ▸ atOrBelow_self _)
  refine (get_recorded_ne hne).trans ?_
  rw [renamedRawNames_of_none fun rest heq => ?_, if_neg hk]
  subst heq
  exact (hk' (atOrBelow_append (.inr ⟨rest, rfl⟩))).elim

theorem rawNamesMoved_renamed {old new newName : Str} (hapart : ¬ AtOrBelow old new)
    (hapart' : ¬ AtOrBelow new old) : RawNamesMoved nfc old new newName s (s.renamed nfc old new newName) := by
  have hne : ∀ rest : Str, new ++ '/' :: rest ≠ new := fun rest heq => by
    have hlen := congrArg List.length heq
    rw [List.length_append, List.length_cons] at hlen
    omega
  have hbelow : ∀ rest, AtOrBelow new (new ++ '/' :: rest) := fun rest => atOrBelow_append (.inr ⟨rest, rfl⟩)
  have hget : ∀ k, k ≠ new →
      (s.renamed nfc old new newName).rawNames.get k = (s.renamedRawNames old new).get k :=
    fun k hk => get_recorded_ne hk
  refine ⟨fun rest raw h => ?_, fun rest h => ?_, ?_, fun k hk => ?_, fun k hk hk' => ?_⟩
  · rw [hget _ (hne rest)]
    exact renamedRawNames_of_some h
  · rw [hget _ (hne rest), renamedRawNames_of_none fun rest' heq => ?_, if_neg]
    · exact fun hold => (hold.total (hbelow rest)).elim hapart hapart'
    · have heq := List.append_cancel_left heq
      cases heq
      exact h
  · show (recorded nfc (s.renamedRawNames old new) new newName).get new = _
    unfold recorded
    split
    · exact HashMap.get_remove_self ..
    · exact HashMap.get_insert_self ..
  · rw [hget k fun heq => hapart (heq ▸ hk), renamedRawNames_of_none fun rest heq => ?_, if_pos hk]
    subst heq
    exact ((hk.total (hbelow rest)).elim hapart hapart').elim
  · exact get_renamed_outside hk hk'

/-- **A rename carries the visible names exactly when no raw name is left at the destination.** -/
theorem rename_carries_iff (hnfc : Normalises nfc) {disk : Disk} {l : List FsServed}
    (hs : (fsService nfc cacheRoot).Sequence (fun _ _ x => x.req.KernelNames) (.new disk) l s)
    {oldParent newParent : Ino} {oldName newName oldParentPath newParentPath : Str}
    (hname : '/' ∉ newName) (hold : s.paths.pathFor oldParent = some oldParentPath)
    (hnew : s.paths.pathFor newParent = some newParentPath)
    (hapart : ¬ AtOrBelow (childPath nfc oldParentPath oldName) (childPath nfc newParentPath newName))
    (hapart' : ¬ AtOrBelow (childPath nfc newParentPath newName) (childPath nfc oldParentPath oldName))
    (hx : Exec fsMachine (rename nfc oldParent (some oldName) newParent (some newName)) s es (.ok ())
      s') :
    CarriesNames (childPath nfc oldParentPath oldName) (childPath nfc newParentPath newName) newName
        s s' ↔
      NoneLeft (childPath nfc oldParentPath oldName) (childPath nfc newParentPath newName) s := by
  rcases exec_rename hx with ⟨⟨e, he⟩, -⟩ | ⟨-, old, new, hmoves⟩
  · cases he
  obtain ⟨n, parentPath, hn, hparent, rfl⟩ := hmoves.source
  cases hn
  cases hold.symm.trans hparent
  obtain ⟨n', parentPath', es₁, s₁, d, hn', hparent', rfl, hchecks, -, rfl⟩ := hmoves.target
  cases hn'
  cases hnew.symm.trans hparent'
  have hraw₁ : s₁.rawNames = s.rawNames :=
    (extends_of_exec hchecks (refuseNfcCollision_only fun _ h => h.adds)).rawNames
  have hbase : basename (childPath nfc newParentPath newName) = nfc newName := by
    rw [childPath_eq, basename_child _ (hnfc.slash _ hname)]
  generalize childPath nfc oldParentPath oldName = old at *
  generalize childPath nfc newParentPath newName = new at *
  have hmoved : RawNamesMoved nfc old new newName s ((s₁.withDisk d).renamed nfc old new newName) := by
    obtain ⟨h₁, h₂, h₃, h₄, h₅⟩ :
        RawNamesMoved nfc old new newName (s₁.withDisk d) ((s₁.withDisk d).renamed nfc old new newName) :=
      rawNamesMoved_renamed hapart hapart'
    rw [FsState.withDisk_rawNames, hraw₁] at h₁ h₂ h₅
    exact ⟨h₁, h₂, h₃, h₄, h₅⟩
  generalize (s₁.withDisk d).renamed nfc old new newName = s' at *
  have hfolds : FoldsToBasename nfc s.rawNames := folds_of_sequence hnfc hs
  have hdecomposed : Decomposed nfc s.rawNames := decomposed_of_sequence hs
  have hsame : ∀ rest, basename (new ++ '/' :: rest) = basename (old ++ '/' :: rest) := fun rest => by
    rw [basename_append, basename_append]
  constructor
  · intro h rest ino hino hnone
    have hvisible := h.moved rest ino hino
    unfold FsState.visibleName at hvisible
    rw [hmoved.none rest hnone, hnone, ← hsame] at hvisible
    cases hleft : s.rawNames.get (new ++ '/' :: rest) with
    | none => rfl
    | some raw =>
      rw [hleft] at hvisible
      exact absurd ((hfolds _ _ hleft).trans hvisible.symm) (hdecomposed _ _ hleft)
  · intro h
    refine ⟨fun rest ino hino => ?_, ?_, hmoved.cleared, fun p hp hp' => ?_⟩
    · unfold FsState.visibleName
      cases hraw : s.rawNames.get (old ++ '/' :: rest) with
      | none => rw [hmoved.none rest hraw, h rest ino hino hraw, hsame]
      | some raw =>
        rw [hmoved.some rest raw hraw]
        rfl
    · unfold FsState.visibleName
      rw [hmoved.target]
      split
      · next hn => exact hbase.trans (of_decide_eq_true hn)
      · rfl
    · unfold FsState.visibleName
      rw [hmoved.outside p hp hp']

/-- The state before a rename of `/o` to `/n`, and its run. -/
def renameO (reqs : List (Op × World)) (check : FsState → FsState → Bool) : Bool :=
  ((fsService foldsKelvin none).serveAll (fun _ _ x => kernelNames x.req) reqs [] (.new .empty)).any
    fun x =>
      (fsMachine.exec .calm (rename foldsKelvin rootInode (some ['o']) rootInode (some ['n'])) x.2).any
      fun y => decide (x.2.paths.pathFor rootInode = some []) && decide (y.2.1 = .ok ()) &&
        check x.2 y.2.2

theorem exec_of_renameO {reqs : List (Op × World)} {check : FsState → FsState → Bool}
    (h : renameO reqs check = true) :
    ∃ l s es s', (fsService foldsKelvin none).Sequence (fun _ _ x => x.req.KernelNames) (.new .empty) l s ∧
      s.paths.pathFor rootInode = some [] ∧
      Exec fsMachine (rename foldsKelvin rootInode (some ['o']) rootInode (some ['n'])) s es (.ok ()) s' ∧
      check s s' = true := by
  obtain ⟨⟨l, s⟩, hs, h⟩ := (Option.any_eq_true ..).1 h
  obtain ⟨⟨es, res, s'⟩, hx, h⟩ := (Option.any_eq_true ..).1 h
  obtain ⟨h, hcheck⟩ := Bool.and_eq_true_iff.1 h
  obtain ⟨hroot, hok⟩ := Bool.and_eq_true_iff.1 h
  have hx := Machine.exec_sound hx
  rw [show res = .ok () from of_decide_eq_true hok] at hx
  exact ⟨l, s, es, s', (fsService foldsKelvin none).sequence_of_serveAll
    (fun _ _ _ => kernelNames_of_bool) .nil hs, of_decide_eq_true hroot, hx, hcheck⟩

/-- A folder is moved with a file whose name is the Kelvin sign, and the file is visible under it. -/
theorem rename_carries_iff_raw :
    ∃ l s es s', (fsService foldsKelvin none).Sequence (fun _ _ x => x.req.KernelNames) (.new .empty) l s ∧
      Exec fsMachine (rename foldsKelvin rootInode (some ['o']) rootInode (some ['n'])) s es (.ok ()) s' ∧
      s'.visibleName ['/', 'n', '/', 'K'] = [kelvinSign] ∧ CarriesNames ['/', 'o'] ['/', 'n'] ['n'] s s' := by
  have hrun : renameO [(.mkdir rootInode (some ['o']), .calm), (.create 2 (some [kelvinSign]), .calm)]
      (fun s s' => decide (s'.visibleName ['/', 'n', '/', 'K'] = [kelvinSign]) &&
        s.rawNames.iter.all fun e => decide (¬ ['/', 'n'] ++ ['/'] <+: e.1)) = true := by
    decide +kernel
  obtain ⟨l, s, es, s', hs, hroot, hx, hcheck⟩ := exec_of_renameO hrun
  obtain ⟨hvisible, hall⟩ := Bool.and_eq_true_iff.1 hcheck
  have hiff := rename_carries_iff foldsKelvin_normalises hs (by decide) hroot hroot (by decide) (by decide) hx
  refine ⟨l, s, es, s', hs, hx, of_decide_eq_true hvisible, hiff.2 fun rest ino _ _ => ?_⟩
  by_contra hne
  obtain ⟨raw, hraw⟩ := Option.ne_none_iff_exists'.1 hne
  exact of_decide_eq_true (List.all_eq_true.1 hall (_, raw) (HashMap.mem_iter.2 hraw)) ⟨rest, rfl⟩

/-- A raw name that was left at the destination hides the name of a file that is moved there. -/
theorem rename_hides_name : ¬ ∀ (nfc : Str → Str) (cacheRoot : Option Str), Normalises nfc →
    ∀ (disk : Disk) (l : List FsServed) (s : FsState),
    (fsService nfc cacheRoot).Sequence (fun _ _ x => x.req.KernelNames) (.new disk) l s →
    ∀ oldParent newParent oldName newName oldParentPath newParentPath es s', '/' ∉ newName →
      s.paths.pathFor oldParent = some oldParentPath → s.paths.pathFor newParent = some newParentPath →
      ¬ AtOrBelow (childPath nfc oldParentPath oldName) (childPath nfc newParentPath newName) →
      ¬ AtOrBelow (childPath nfc newParentPath newName) (childPath nfc oldParentPath oldName) →
      Exec fsMachine (rename nfc oldParent (some oldName) newParent (some newName)) s es (.ok ()) s' →
      CarriesNames (childPath nfc oldParentPath oldName) (childPath nfc newParentPath newName) newName
        s s' := by
  intro h
  have hrun : renameO [(.mkdir rootInode (some ['n']), .calm), (.create 2 (some [kelvinSign]), .calm),
      (.mkdir rootInode (some ['o']), .calm), (.create 4 (some ['K']), .calm)]
      (fun s s' => decide (s.paths.inodeFor ['/', 'o', '/', 'K'] = some 5 ∧
        s'.visibleName ['/', 'n', '/', 'K'] ≠ s.visibleName ['/', 'o', '/', 'K'])) = true := by
    decide +kernel
  obtain ⟨l, s, es, s', hs, hroot, hx, hcheck⟩ := exec_of_renameO hrun
  obtain ⟨hino, hne⟩ := of_decide_eq_true hcheck
  have hcarries := h _ _ foldsKelvin_normalises _ _ _ hs _ _ _ _ _ _ _ _ (by decide) hroot hroot (by decide)
    (by decide) hx
  exact hne (hcarries.moved ['K'] 5 hino)

end UnidriveMount
