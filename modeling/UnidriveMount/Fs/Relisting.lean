import UnidriveMount.Fs.Fresh

/-!
# What a listing leaves behind

A listing of a directory takes its entries over, and is to be the truth about the directory's children:
those with cached attributes, which `lookup` answers without asking the daemon, should be the ones
listed. `populate_from_list` only adds. A child that is not listed any more keeps the attributes it had,
so that the listing is authoritative exactly when there is none (`listing_authoritative_iff`).
-/

namespace UnidriveMount

open Lib
open Lib.Prog (fail okOr ofExcept only_perform)

variable {nfc : Str → Str} {cacheRoot : Option Str} {s s' : FsState} {es : List (Occ Act.Ret)}

/-! ## The property -/

/-- `p` is the path of a child of the directory at `parentPath`. -/
def DirectChild (parentPath p : Str) : Prop := ∃ b, '/' ∉ b ∧ p = parentPath ++ '/' :: b

/-- A handle that is open at `p` has unsent writes. -/
def UnsentAt (s : FsState) (p : Str) : Prop :=
  ∃ fh h, s.openHandles.get fh = some h ∧ h.dirty = true ∧ h.remotePath = p

/-- The daemon answers every listing of the directory by these entries. -/
def ListsAgain (parentPath : Str) (entries : List ListEntry) (es : List (Occ Act.Ret)) : Prop :=
  ∀ r : Except IpcError (List ListEntry),
    (⟨.reply (.list parentPath), r⟩ : Occ Act.Ret) ∈ es → r = .ok entries

/-- The listing `entries` is the truth about the directory `dir` at `parentPath`. Children with unsent
writes apart, those that have cached attributes are the ones listed, and `lookup` of a name that is not
listed answers ENOENT while the daemon lists the same. -/
structure Authoritative (nfc : Str → Str) (dir : Ino) (parentPath : Str) (entries : List ListEntry)
    (s : FsState) : Prop where
  cached : ∀ p, DirectChild parentPath p → ¬ UnsentAt s p → (s.Cached p ↔ ListedAt p entries)
  absent : ∀ name, '/' ∉ name → ¬ UnsentAt s (childPath nfc parentPath name) →
    ¬ ListedAt (childPath nfc parentPath name) entries → ∀ es res s',
      Exec fsMachine (lookup nfc dir (some name)) s es res s' → ListsAgain parentPath entries es →
      res = .error .ENOENT

/-! ## What is cached after a listing -/

/-- After a listing what is listed is cached, and what was cached. -/
theorem cached_takeListed_iff {entries : List ListEntry} {p : Str}
    (hsound : (s.takeListed entries).2.paths.Sound) :
    (s.takeListed entries).2.Cached p ↔ ListedAt p entries ∨ s.Cached p := by
  constructor
  · intro ⟨ino, a, hino, ha⟩
    rcases FsState.inodeFor_insertListed hino with hold | ⟨e, he, hp⟩
    · rcases FsState.get_insertListed ha with ha | ⟨x, hx, hxino, -⟩
      · exact .inr ⟨ino, a, hold, ha⟩
      · -- the inode is that of a listed entry, and has one path
        have hlisted := FsState.inodeFor_of_mem_insertListed _ hx
        rw [hxino] at hlisted
        have hpath : x.2.path = p :=
          Option.some.inj (((hsound.inverse ..).1 hlisted).symm.trans ((hsound.inverse ..).1 hino))
        have hmem : x.2 ∈ entries.filter isRepresentable :=
          s.takeListed_entries entries ▸ List.mem_map_of_mem hx
        exact .inl ⟨x.2, (List.mem_filter.1 hmem).1, hpath, (List.mem_filter.1 hmem).2⟩
    · exact .inl ⟨e, (List.mem_filter.1 he).1, hp, (List.mem_filter.1 he).2⟩
  · rintro (⟨e, he, rfl, hrep⟩ | hcached)
    · have hmem : e ∈ (s.takeListed entries).1.map Prod.snd := by
        rw [s.takeListed_entries]
        exact List.mem_filter.2 ⟨he, hrep⟩
      obtain ⟨x, hx, rfl⟩ := List.mem_map.1 hmem
      obtain ⟨hino, a, ha⟩ := FsState.cached_of_mem_takeListed hx
      exact ⟨x.1, a, hino, ha⟩
    · exact (FsState.extends_takeListed s entries).cached hcached

/-- Nothing is known at a path that is not cached. -/
theorem cachedEntry_eq_none {cp : Str} (h : ¬ s.Cached cp) : s.cachedEntry cp = none := by
  unfold FsState.cachedEntry
  cases hino : s.paths.inodeFor cp with
  | none => rfl
  | some ino =>
    cases ha : s.attrs.get ino with
    | none => simp [ha]
    | some a => exact absurd ⟨ino, a, hino, ha⟩ h

/-- `lookup` of a name that is neither cached nor listed answers ENOENT. -/
theorem lookup_absent {dir : Ino} {parentPath name : Str} {entries : List ListEntry}
    (hdir : s.paths.pathFor dir = some parentPath) (hcached : ¬ s.Cached (childPath nfc parentPath name))
    (hlisted : ¬ ListedAt (childPath nfc parentPath name) entries) {res : Except Errno ReplyEntry}
    (hx : Exec fsMachine (lookup nfc dir (some name)) s es res s')
    (hagain : ListsAgain parentPath entries es) : res = .error .ENOENT := by
  obtain ⟨es₁, rfl, h₁⟩ := exec_parent hdir hx
  obtain ⟨es₂, rfl, h₂⟩ := exec_visibleName h₁
  split at h₂
  · exact (exec_ret_iff.1 h₂).2.1
  obtain ⟨es₃, es₄, rfl, h₃⟩ := exec_cachedEntry h₂
  rw [cachedEntry_eq_none hcached] at h₃
  obtain ⟨r, es₅, es₆, s₁, hp, h₄, rfl⟩ := exec_populateFromList h₃
  have hagain : ListsAgain parentPath entries es₅ := fun r hr => hagain r
    (.tail _ (.tail _ (List.mem_append_right _ (List.mem_append_left _ hr))))
  cases hp with
  | failed e d =>
    have hfailed := hagain (.error e) (.tail _ (.head _))
    cases hfailed
  | listed entries' d =>
    have hsame := hagain (.ok entries') (.tail _ (.head _))
    cases hsame
    -- the daemon lists the same, and the entry is not found in it
    have hnone : ((s.withDisk d).takeListed entries).1.find?
        (fun e => e.2.path = childPath nfc parentPath name) = none := by
      rw [List.find?_eq_none]
      intro x hx hpath
      exact hlisted ((listedAt_iff (s := s.withDisk d)).1 (List.any_eq_true.2 ⟨x, hx, hpath⟩))
    rcases (exec_mapErr h₄).symm with ⟨e, he, -⟩ | ⟨listed, heq, h₅⟩
    · cases he
    · cases heq
      rw [hnone] at h₅
      exact (exec_ret_iff.1 h₅).2.1

/-! ## Every reachable state -/

/-- **A listing is authoritative exactly when it lists every child that was cached**, children with
unsent writes apart. -/
theorem listing_authoritative_iff (hnfc : Normalises nfc) {disk : Disk} {l : List FsServed}
    (hs : (fsService nfc cacheRoot).Sequence Room (.new disk) l s) {dir : Ino} {parentPath : Str}
    (hdir : s.paths.pathFor dir = some parentPath) {listed : List (Ino × ListEntry)}
    (hx : Exec fsMachine (populateFromList parentPath) s es (.ok (.ok listed)) s')
    {entries : List ListEntry} (hreply : (⟨.reply (.list parentPath), .ok entries⟩ : Occ Act.Ret) ∈ es)
    (hroom : s.paths.next + interned es < inodeSpace) :
    Authoritative nfc dir parentPath entries s' ↔
      ∀ p, DirectChild parentPath p → ¬ UnsentAt s p → s.Cached p → ListedAt p entries := by
  obtain ⟨hsound, -⟩ := given_lt_next hs
  have hspares : (populateFromList parentPath).Only Act.SparesRoot :=
    populateFromList_only fun _ h => h.looks.adds.sparesRoot
  have hsound' : s'.paths.Sound := (sound_of_exec hx hsound hspares hroom).1
  rw [← Prog.bind_pure (populateFromList parentPath)] at hx
  obtain ⟨r, es₁, es₂, s₁, hp, h₁, rfl⟩ := exec_populateFromList hx
  obtain ⟨rfl, hr, rfl⟩ := exec_ret_iff.1 h₁
  cases hr
  cases hp with
  | listed entries' d =>
    simp at hreply
    cases Except.ok.inj hreply
    have hext : s.Extends ((s.withDisk d).takeListed entries).2 :=
      (s.extends_withDisk d).trans (FsState.extends_takeListed ..)
    have hcached : ∀ p, ((s.withDisk d).takeListed entries).2.Cached p ↔
        ListedAt p entries ∨ s.Cached p := fun p => cached_takeListed_iff hsound'
    have hunsent : ∀ p, UnsentAt ((s.withDisk d).takeListed entries).2 p ↔ UnsentAt s p := by
      intro p
      unfold UnsentAt
      rw [hext.openHandles]
    generalize ((s.withDisk d).takeListed entries).2 = s' at *
    constructor
    · intro h p hchild hsent hold
      exact (h.cached p hchild (mt (hunsent p).1 hsent)).1 ((hcached p).2 (.inr hold))
    · intro h
      have hchildren : ∀ p, DirectChild parentPath p → ¬ UnsentAt s' p →
          (s'.Cached p ↔ ListedAt p entries) := by
        intro p hchild hsent
        rw [hcached]
        exact or_iff_left_of_imp (h p hchild (mt (hunsent p).2 hsent))
      refine ⟨hchildren, fun name hname hsent hlisted es' res s'' hx' hagain => ?_⟩
      have hchild : DirectChild parentPath (childPath nfc parentPath name) :=
        ⟨nfc name, hnfc.slash _ hname, childPath_eq ..⟩
      have hdir' : s'.paths.pathFor dir = some parentPath :=
        (hsound'.inverse ..).1 (hext.inodeFor _ _ ((hsound.inverse ..).2 hdir))
      exact lookup_absent hdir' (mt (hchildren _ hchild hsent).1 hlisted) hlisted hx' hagain

/-! ## A folder that is gone -/

/-- Only the folder `/d` was made: it is cached, no other path but the root's is known, and nothing is
open. -/
structure MadeD (s : FsState) : Prop where
  root : s.paths.pathFor rootInode = some []
  next : s.paths.next = 3
  cached : s.Cached ['/', 'd']
  known : ∀ p ino, s.paths.inodeFor p = some ino → p = [] ∨ p = ['/', 'd']
  closed : ∀ fh, s.openHandles.get fh = none

theorem exists_madeD : ∃ l s, plainFs.Sequence Room (.new .empty) l s ∧ MadeD s := by
  have hserve : (plainFs.serveAll (fun _ s x =>
      decide (s.paths.next + interned x.occs < inodeSpace)) [(.mkdir rootInode (some ['d']), .calm)] []
      (.new .empty)).any (fun x => decide (x.2.paths.pathFor rootInode = some [] ∧ x.2.paths.next = 3) &&
      decide (x.2.paths.inodeFor ['/', 'd'] = some 2) && (x.2.attrs.get 2).isSome &&
      (x.2.paths.pathToInode.iter.all fun e => decide (e.1 = [] ∨ e.1 = ['/', 'd'])) &&
      x.2.openHandles.iter.isEmpty) = true := by
    decide +kernel
  obtain ⟨⟨l, s⟩, hs, hcheck⟩ := (Option.any_eq_true ..).1 hserve
  simp only [Bool.and_eq_true, decide_eq_true_eq] at hcheck
  obtain ⟨⟨⟨⟨⟨hroot, hnext⟩, hino⟩, hattr⟩, hknown⟩, hclosed⟩ := hcheck
  obtain ⟨a, ha⟩ := Option.isSome_iff_exists.1 hattr
  refine ⟨l, s, plainFs.sequence_of_serveAll (fun _ _ _ => of_decide_eq_true) .nil hs, hroot, hnext,
    ⟨2, a, hino, ha⟩, fun p ino hp => ?_, fun fh => ?_⟩
  · exact of_decide_eq_true (List.all_eq_true.1 hknown (p, ino) (HashMap.mem_iter.2 hp))
  · by_contra hne
    obtain ⟨h, hh⟩ := Option.ne_none_iff_exists'.1 hne
    have hmem := HashMap.mem_iter.2 hh
    rw [List.isEmpty_iff.1 hclosed] at hmem
    cases hmem

/-- The daemon's folder `/d`. -/
def folderD : ListEntry := ⟨['/', 'd'], 0, 0, true, true, none, false⟩

/-- The folder is listed again, and nothing else is known. -/
theorem listing_authoritative_iff_d :
    ∃ l s es listed s', plainFs.Sequence Room (.new .empty) l s ∧ s.Cached ['/', 'd'] ∧
      Exec fsMachine (populateFromList []) s es (.ok (.ok listed)) s' ∧
      Authoritative id rootInode [] [folderD] s' := by
  obtain ⟨l, s, hs, hd⟩ := exists_madeD
  have hx := exec_of_listed [] [folderD] (ipcBusy_of_sequence hs)
  have hid : Normalises id := ⟨fun _ => rfl, fun _ => id, rfl, rfl⟩
  refine ⟨l, s, _, _, _, hs, hd.cached, hx,
    (listing_authoritative_iff hid hs hd.root hx (.tail _ (.head _)) ?_).2 fun p hchild _ hcached => ?_⟩
  · rw [hd.next]
    show 3 + 1 < inodeSpace
    decide
  · obtain ⟨ino, -, hp, -⟩ := hcached
    rcases hd.known p ino hp with rfl | rfl
    · obtain ⟨b, -, hb⟩ := hchild
      cases hb
    · exact ⟨folderD, List.mem_singleton_self _, rfl, by decide⟩

/-- The folder is deleted elsewhere, and after a listing without it it is still cached. -/
theorem listing_leaves_child : ¬ ∀ (nfc : Str → Str) (cacheRoot : Option Str), Normalises nfc →
    ∀ (disk : Disk) (l : List FsServed) (s : FsState),
    (fsService nfc cacheRoot).Sequence Room (.new disk) l s →
    ∀ dir parentPath, s.paths.pathFor dir = some parentPath → ∀ es listed s',
    Exec fsMachine (populateFromList parentPath) s es (.ok (.ok listed)) s' →
    ∀ entries : List ListEntry, (⟨.reply (.list parentPath), .ok entries⟩ : Occ Act.Ret) ∈ es →
    s.paths.next + interned es < inodeSpace → Authoritative nfc dir parentPath entries s' := by
  intro h
  obtain ⟨l, s, hs, hd⟩ := exists_madeD
  have hx := exec_of_listed [] [] (ipcBusy_of_sequence hs)
  have hid : Normalises id := ⟨fun _ => rfl, fun _ => id, rfl, rfl⟩
  have hauth := h id none hid .empty l s hs rootInode [] hd.root _ _ _ hx [] (.tail _ (.head _)) (by
    rw [hd.next]
    show 3 + 0 < inodeSpace
    decide)
  have hext : s.Extends (s.takeListed []).2 := FsState.extends_takeListed s []
  have hchild : DirectChild [] ['/', 'd'] := ⟨['d'], by decide, rfl⟩
  have hsent : ¬ UnsentAt (s.takeListed []).2 ['/', 'd'] := by
    rintro ⟨fh, hh, hget, -⟩
    rw [hext.openHandles, hd.closed] at hget
    cases hget
  obtain ⟨e, he, -⟩ := (hauth.cached _ hchild hsent).1 (hext.cached hd.cached)
  cases he

end UnidriveMount
