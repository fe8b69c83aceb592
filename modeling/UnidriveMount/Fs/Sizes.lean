import UnidriveMount.Fs.Failures

/-!
# Sizes the kernel was told

The kernel clips reads to the size it was told last. `open` compares the length of the cache file with
the *cached* size, and asks for direct I/O when they differ. The two sizes are the same as long as every
listing of the entry shows the size that was reported, no change event drops its attributes, and no open
takes over another length (`open_tells_size`). A listing that is not reported to the kernel changes the
cached size behind its back (`open_clips`).
-/

namespace UnidriveMount

open Lib
open Lib.Prog (fail okOr ofExcept only_perform)

variable {nfc : Str → Str} {cacheRoot : Option Str} {s s₁ s' : FsState} {es es₁ es₂ : List (Occ Act.Ret)}
  {ino : Ino} {n : Nat}

/-! ## The size that is cached -/

/-- The size cached for the inode is `n`. -/
def CachesSize (ino : Ino) (n : Nat) (s : FsState) : Prop := ∃ a, s.attrs.get ino = some a ∧ a.size = n

/-- Listings in the run show the inode with the size `n`, if they show it. -/
def ListsSize (ino : Ino) (n : Nat) (es : List (Occ Act.Ret)) : Prop :=
  ∀ x ∈ takenOver es, x.1 = ino → x.2.size = n

/-- Listings apart, the action does not change a cached size that is `n`. -/
def Act.KeepsSize (ino : Ino) (n : Nat) : Act → Prop
  | attrInsert i _ | attrRemove i => i ≠ ino
  | attrEdit i edit => i = ino → edit = .hydrated
  | attrOpened i len => i = ino → len = n
  | applyInvalidation .. => False
  | _ => True

theorem Act.Adds.keepsSize {a : Act} (h : a.Adds) : a.KeepsSize ino n := by
  cases a with
  | applyInvalidation | attrInsert | attrRemove | attrEdit | attrOpened => exact h.elim
  | _ => trivial

theorem takenOver_cons (x : Occ Act.Ret) (es : List (Occ Act.Ret)) :
    takenOver (x :: es) = takenOver [x] ++ takenOver es := takenOver_append [x] es

theorem ListsSize.cons {x : Occ Act.Ret} (h : ListsSize ino n (x :: es)) :
    ListsSize ino n [x] ∧ ListsSize ino n es := by
  unfold ListsSize at *
  rw [takenOver_cons] at h
  exact ⟨fun y hy => h y (List.mem_append_left _ hy), fun y hy => h y (List.mem_append_right _ hy)⟩

/-- What an occurrence took over is in what the run took over. -/
theorem mem_takenOver {entries : List ListEntry} {out : List (Ino × ListEntry)} {x : Ino × ListEntry}
    (hmem : (⟨.insertListed entries, out⟩ : Occ Act.Ret) ∈ es) (hx : x ∈ out) : x ∈ takenOver es :=
  List.mem_flatMap.2 ⟨_, hmem, hx⟩

/-- **A step keeps the size that is cached.** -/
theorem CachesSize.step {a : Act} {r : a.Ret} (h : CachesSize ino n s) (hst : fsMachine.Step a s r s')
    (ha : a.KeepsSize ino n) (hl : ListsSize ino n [⟨a, r⟩]) : CachesSize ino n s' := by
  obtain ⟨b, hb, hsize⟩ := h
  by_cases hcaches : a.Caches
  · obtain ⟨-, (w : World), (hrun : a.run w s = (r, s'))⟩ := hst
    cases a with
    | attrInsert i attr =>
      cases hrun
      exact ⟨b, (HashMap.get_insert_ne _ _ (Ne.symm ha)).trans hb, hsize⟩
    | attrRemove i =>
      cases hrun
      exact ⟨b, (HashMap.get_remove_ne _ (Ne.symm ha)).trans hb, hsize⟩
    | attrEdit i edit =>
      cases hrun
      by_cases hi : i = ino
      · subst hi
        refine ⟨edit.apply w.clock b, ?_, ?_⟩
        · show (s.attrs.modify i (edit.apply w.clock)).get i = _
          rw [HashMap.get_modify, if_pos rfl, hb]
          rfl
        · rw [ha rfl]
          exact hsize
      · refine ⟨b, ?_, hsize⟩
        show (s.attrs.modify i (edit.apply w.clock)).get ino = _
        rw [HashMap.get_modify, if_neg (Ne.symm hi), hb]
    | attrOpened i len =>
      simp only [Act.run] at hrun
      split at hrun
      · next a₀ ha₀ =>
        cases hrun
        by_cases hi : i = ino
        · subst hi
          exact ⟨_, HashMap.get_insert_self .., ha rfl⟩
        · exact ⟨b, (HashMap.get_insert_ne _ _ (Ne.symm hi)).trans hb, hsize⟩
      · cases hrun
        exact ⟨b, hb, hsize⟩
    | insertListed entries =>
      obtain ⟨rfl, rfl⟩ : r = (s.insertListed entries).1 ∧ s' = (s.insertListed entries).2 :=
        ⟨(congrArg Prod.fst hrun).symm, (congrArg Prod.snd hrun).symm⟩
      rcases s.get_insertListed_eq entries ino with heq | ⟨x, hx, hino, hget⟩
      · exact ⟨b, heq.trans hb, hsize⟩
      · exact ⟨_, hget, hl x (mem_takenOver (List.mem_singleton_self _) hx) hino⟩
    | applyInvalidation => exact ha.elim
    | _ => exact hcaches.elim
  · refine ⟨b, ?_, hsize⟩
    rw [attrs_eq_of_step hst hcaches]
    exact hb

theorem CachesSize.exec {α : Type} {p : FsProg α} {res : Except Errno α} (h : CachesSize ino n s)
    (hx : Exec fsMachine p s es res s') (hp : ∀ x ∈ es, x.1.KeepsSize ino n) (hl : ListsSize ino n es) :
    CachesSize ino n s' := by
  induction hx with
  | ret => exact h
  | act hst _ ih =>
    obtain ⟨ha, hp⟩ := List.forall_mem_cons.1 hp
    exact ih (h.step hst ha hl.cons.1) hp hl.cons.2

/-- The attributes of a listed inode are those of a listed entry. -/
theorem FsState.get_of_mem_insertListed {s : FsState} {entries : List ListEntry} {x : Ino × ListEntry}
    (h : x ∈ (s.insertListed entries).1) : ∃ y ∈ (s.insertListed entries).1, y.1 = x.1 ∧
      (s.insertListed entries).2.attrs.get x.1 = some (.ofListEntry y.2) := by
  induction entries generalizing s with
  | nil => cases h
  | cons e entries ih =>
    rw [insertListed_cons] at h ⊢
    rcases List.mem_cons.1 h with rfl | h
    · rcases (s.takeEntry e).get_insertListed_eq entries (s.paths.intern e.path).1 with
        heq | ⟨y, hy, hino, hget⟩
      · exact ⟨_, List.mem_cons_self, rfl, heq.trans (HashMap.get_insert_self ..)⟩
      · exact ⟨y, List.mem_cons_of_mem _ hy, hino, hget⟩
    · obtain ⟨y, hy, hino, hget⟩ := ih h
      exact ⟨y, List.mem_cons_of_mem _ hy, hino, hget⟩

/-- The size of an inode that was listed is the one it was listed with. -/
theorem listed_cached {α : Type} {p : FsProg α} {res : Except Errno α}
    (hx : Exec fsMachine p s es res s') (hp : ∀ x ∈ es, x.1.KeepsSize ino n) (hl : ListsSize ino n es)
    {x : Ino × ListEntry} (hmem : x ∈ takenOver es) (hino : x.1 = ino) : CachesSize ino n s' := by
  induction hx with
  | ret => cases hmem
  | @act a k s s₁ s' r es res hst hk ih =>
    obtain ⟨-, hp⟩ := List.forall_mem_cons.1 hp
    rw [takenOver_cons] at hmem
    rcases List.mem_append.1 hmem with hmem | hmem
    · refine CachesSize.exec ?_ hk hp hl.cons.2
      cases a with
      | insertListed entries =>
        obtain ⟨-, (w : World), (hrun : s.insertListed entries = (r, s₁))⟩ := hst
        obtain ⟨rfl, rfl⟩ : r = (s.insertListed entries).1 ∧ s₁ = (s.insertListed entries).2 :=
          ⟨(congrArg Prod.fst hrun).symm, (congrArg Prod.snd hrun).symm⟩
        have hmem : x ∈ (s.insertListed entries).1 := (List.append_nil _).subst hmem
        obtain ⟨y, hy, hyx, hget⟩ := FsState.get_of_mem_insertListed hmem
        rw [hino] at hyx hget
        exact ⟨_, hget, hl.cons.1 y (mem_takenOver (List.mem_singleton_self _) hy) hyx⟩
      | _ => cases hmem
    · exact ih hp hl.cons.2 hmem

/-! ## What the kernel is told -/

/-- The attributes a reply tells the kernel; it does not use those of `.` and `..`. -/
def Reply.told : Reply → List FileAttr
  | directoryPlus entries =>
    (entries.filter fun x => x.name ≠ ['.'] ∧ x.name ≠ ['.', '.']).map DirectoryEntryPlus.attr
  | r => r.attr?.toList

/-- The answer reports the size `n` of the inode. -/
def Reports (ino : Ino) (n : Nat) (res : Except Errno Reply) : Prop :=
  ∃ r attr, res = .ok r ∧ attr ∈ r.told ∧ attr.ino = ino ∧ attr.size = n

/-- The attributes that were got are cached, but for the root's. -/
theorem exec_getOrFetchAttr {a : CachedAttr}
    (hx : Exec fsMachine (getOrFetchAttr ino) s es (.ok a) s') (hino : ino ≠ rootInode) :
    s'.attrs.get ino = some a := by
  unfold getOrFetchAttr at hx
  rw [if_neg hino] at hx
  obtain ⟨es₁, rfl, h₁⟩ := exec_perform_bind_of_run hx fun _ => rfl
  cases hget : s.attrs.get ino with
  | some b =>
    rw [hget] at h₁
    obtain ⟨-, hres, rfl⟩ := exec_ret_iff.1 h₁
    cases hres
    exact hget
  | none =>
    rw [hget] at h₁
    obtain ⟨es₂, rfl, h₂⟩ := exec_perform_bind_of_run h₁ fun _ => rfl
    rcases (exec_okOr h₂).symm with ⟨-, -, he, -⟩ | ⟨path, -, h₃⟩
    · cases he
    obtain ⟨r, s₁, es₃, es₄, -, h₄, rfl⟩ := exec_bind_ok h₃
    obtain ⟨listed, s₂, es₅, es₆, -, h₅, rfl⟩ := exec_bind_ok h₄
    obtain ⟨es₇, rfl, h₆⟩ := exec_perform_bind_of_run h₅ fun _ => rfl
    rw [← Prog.bind_pure (okOr ..)] at h₆
    rcases (exec_okOr h₆).symm with ⟨-, -, he, -⟩ | ⟨b, hb, h₇⟩
    · cases he
    obtain ⟨-, hres, rfl⟩ := exec_ret_iff.1 h₇
    cases hres
    exact hb

/-- The entries a listing answers with were taken over. -/
theorem Populates.taken {parent : Str} {listed : List (Ino × ListEntry)}
    (h : Populates parent s es (.ok listed) s') : ∀ y ∈ listed, y ∈ takenOver es := by
  intro y hy
  cases h with
  | listed entries d => exact mem_takenOver (.tail _ (.tail _ (.tail _ (.head _)))) hy

/-- Beside `.` and `..`, `readdirplus` tells what it took over from the listing. -/
theorem exec_readdirplus_told {parent : Ino} {offset : Nat} {out : List DirectoryEntryPlus}
    (hx : Exec fsMachine (readdirplus parent offset) s es (.ok out) s') {x : DirectoryEntryPlus}
    (hmem : x ∈ out) (hdot : x.name ≠ ['.']) (hdotdot : x.name ≠ ['.', '.']) :
    ∃ y ∈ takenOver es, x.attr = fileAttrFromCached y.1 (.ofListEntry y.2) := by
  obtain ⟨es₁, rfl, h₁⟩ := exec_perform_bind_of_run hx fun _ => rfl
  rcases (exec_okOr h₁).symm with ⟨-, -, he, -⟩ | ⟨parentPath, -, h₂⟩
  · cases he
  obtain ⟨r, es₂, es₃, s₁, hp, h₃, rfl⟩ := exec_populateFromList h₂
  rcases (exec_mapErr h₃).symm with ⟨e, -, -, he, -⟩ | ⟨listed, rfl, h₄⟩
  · cases he
  obtain ⟨parentAttr, s₂, es₄, es₅, -, h₅, rfl⟩ := exec_bind_ok h₄
  obtain ⟨dotdot, s₃, es₆, es₇, -, h₆, rfl⟩ := exec_bind_ok h₅
  obtain ⟨es₈, rfl, h₇⟩ := exec_perform_bind_of_run h₆ fun _ => rfl
  obtain ⟨-, hout, rfl⟩ := exec_ret_iff.1 h₇
  cases hout
  rcases List.mem_cons.1 (List.mem_of_mem_drop hmem) with rfl | hmem
  · exact absurd rfl hdot
  rcases List.mem_cons.1 hmem with rfl | hmem
  · exact absurd rfl hdotdot
  obtain ⟨i, hi, rfl⟩ := List.mem_mapIdx.1 hmem
  refine ⟨listed[i], ?_, rfl⟩
  rw [takenOver_cons, takenOver_append]
  exact List.mem_append_right _ (List.mem_append_left _ (hp.taken _ (List.getElem_mem hi)))

/-- The actions of a request that only looks keep a cached size. -/
theorem Op.May.keepsSize {o : Op} (ho : match o with
    | .lookup .. | .getattr .. | .readdir .. | .readdirplus .. => True
    | _ => False) {a : Act} (h : o.May a) : a.KeepsSize ino n := by
  have hadds : a.Adds := by
    rcases h with h | h
    · cases o with
      | readdir | readdirplus => cases a <;> trivial
      | lookup | getattr => exact h.elim
      | _ => exact ho.elim
    · cases o with
      | lookup | getattr | readdir | readdirplus => exact Act.Looks.adds h
      | _ => exact ho.elim
  exact hadds.keepsSize

/-- **A size that is reported is cached**, when the listings of the request show it too. -/
theorem reported_cached {o : Op} {r : Reply} (hx : Exec fsMachine (o.prog nfc cacheRoot) s es (.ok r) s')
    {attr : FileAttr} (hattr : attr ∈ r.told) (hroot : attr.ino ≠ rootInode)
    (hl : ListsSize attr.ino attr.size es) : CachesSize attr.ino attr.size s' := by
  have hmakes : ∀ parent name, o.Makes parent name → CachesSize attr.ino attr.size s' := by
    intro parent name ho
    obtain ⟨n, parentPath, attr', -, hr, hmade⟩ := ho.exec hx
    obtain ⟨a, ha, heq⟩ := hmade.cached
    have hr' : attr = attr' := by
      cases r with
      | entry | attr | created =>
        cases hr
        exact List.mem_singleton.1 hattr
      | _ => cases hr
    subst hr'
    exact ⟨a, ha, (congrArg FileAttr.size heq).symm⟩
  cases o with
  | lookup parent name =>
    have honly := hx.only (Op.prog_only _)
    obtain ⟨r', s₁, es₁, es₂, h₁, h₂, rfl⟩ := exec_bind_ok hx
    obtain ⟨rfl, hr, rfl⟩ := exec_ret_iff.1 h₂
    cases hr
    cases List.mem_singleton.1 hattr
    rw [List.append_nil] at hl honly
    obtain ⟨-, i, a, rfl, ha | ⟨entries, out, e, hmem, he, rfl⟩⟩ := exec_lookup h₁
    · exact ⟨a, ha, rfl⟩
    · exact listed_cached h₁ (fun x hx => (honly x hx).keepsSize trivial) hl (mem_takenOver hmem he) rfl
  | getattr inode =>
    obtain ⟨r', s₁, es₁, es₂, h₁, h₂, rfl⟩ := exec_bind_ok hx
    obtain ⟨-, hr, rfl⟩ := exec_ret_iff.1 h₂
    cases hr
    obtain ⟨a, s₂, es₃, es₄, h₃, h₄, rfl⟩ := exec_bind_ok h₁
    obtain ⟨-, hr, rfl⟩ := exec_ret_iff.1 h₄
    cases hr
    cases List.mem_singleton.1 hattr
    exact ⟨a, exec_getOrFetchAttr h₃ hroot, rfl⟩
  | setattr inode fh size =>
    obtain ⟨r', s₁, es₁, es₂, h₁, h₂, rfl⟩ := exec_bind_ok hx
    obtain ⟨-, hr, rfl⟩ := exec_ret_iff.1 h₂
    cases hr
    obtain ⟨_, s₂, es₃, es₄, -, h₃, rfl⟩ := exec_bind_ok h₁
    obtain ⟨_, s₃, es₅, es₆, -, h₄, rfl⟩ := exec_bind_ok h₃
    obtain ⟨_, s₄, es₇, es₈, -, h₅, rfl⟩ := exec_bind_ok h₄
    obtain ⟨a, s₅, es₉, es₁₀, h₆, h₇, rfl⟩ := exec_bind_ok h₅
    obtain ⟨-, hr, rfl⟩ := exec_ret_iff.1 h₇
    cases hr
    cases List.mem_singleton.1 hattr
    exact ⟨a, exec_getOrFetchAttr h₆ hroot, rfl⟩
  | readdirplus parent offset =>
    have honly := hx.only (Op.prog_only _)
    obtain ⟨out, s₁, es₁, es₂, h₁, h₂, rfl⟩ := exec_bind_ok hx
    obtain ⟨rfl, hr, rfl⟩ := exec_ret_iff.1 h₂
    cases hr
    rw [List.append_nil] at hl honly
    obtain ⟨x, hx', rfl⟩ := List.mem_map.1 hattr
    obtain ⟨hmem, hname⟩ := List.mem_filter.1 hx'
    obtain ⟨hdot, hdotdot⟩ := of_decide_eq_true hname
    obtain ⟨y, hy, hyx⟩ := exec_readdirplus_told h₁ hmem hdot hdotdot
    exact listed_cached h₁ (fun x hx => (honly x hx).keepsSize trivial) hl hy
      (congrArg FileAttr.ino hyx).symm
  | create parent name | mkdir parent name | mknod parent name mode =>
    exact hmakes parent name ⟨rfl, rfl⟩
  | _ =>
    obtain ⟨r', s₁, es₁, es₂, h₁, h₂, rfl⟩ := exec_bind_ok hx
    obtain ⟨-, hr, rfl⟩ := exec_ret_iff.1 h₂
    cases hr
    cases hattr

/-! ## Opening -/

/-- What an open does to the attribute cache: it edits the attributes of its inode. -/
def Act.EditsAt (inode : Ino) (flags : UInt32) : Act → Prop
  | attrEdit i edit => i = inode ∧ edit = openEdit flags
  | attrOpened i _ => i = inode
  | a => ¬ a.Caches

theorem open_edits (inode : Ino) (flags : UInt32) :
    («open» inode flags).Only (Act.EditsAt inode flags) := by
  refine .bind (only_perform id) fun _ => .bind (only_okOr ..) fun _ => ?_
  split
  · exact only_fail _
  · exact .bind (only_perform id) fun _ => .bind (openCacheFile_only ⟨id, id⟩ ⟨id, id⟩) fun _ =>
      .bind (only_perform ⟨rfl, rfl⟩) fun _ => .bind (only_perform id) fun _ =>
      .bind (only_okOr ..) fun _ => .bind (syncSize_only id fun _ => rfl) fun _ =>
      .bind (publish_only id fun _ => id) fun _ => only_pure _

/-- An open of another inode keeps a cached size, and so does one that takes over the same length. -/
theorem Act.EditsAt.keepsSize {inode : Ino} {flags : UInt32} {a : Act} (h : a.EditsAt inode flags)
    (hinode : inode = ino → isTruncating flags = false ∧ ∀ len, a = .attrOpened ino len → len = n) :
    a.KeepsSize ino n := by
  cases a with
  | attrEdit i edit =>
    obtain ⟨rfl, rfl⟩ := h
    intro hi
    unfold openEdit
    rw [if_neg (by rw [(hinode hi).1]; exact Bool.false_ne_true)]
  | attrOpened i len =>
    intro hi
    subst hi
    exact (hinode h.symm).2 len rfl
  | attrInsert | attrRemove | applyInvalidation => exact absurd trivial h
  | _ => trivial

/-- Another size than the length of the file is cached. -/
def FsState.Stale (s : FsState) (inode : Ino) (len : Nat) : Prop :=
  ∃ a, s.attrs.get inode = some a ∧ a.size ≠ len

/-- Unless the length of the file cannot be read, the cached size is compared with it. -/
theorem exec_syncSize {β : Type} {flags : UInt32} {inode : Ino} {file : File} {f : Bool → FsProg β}
    {res : Except Errno β} (htrunc : isTruncating flags = false)
    (hx : Exec fsMachine (syncSize flags inode file >>= f) s es res s') :
    ∃ stale es₁ es₂ s₁, es = es₁ ++ es₂ ∧ Exec fsMachine (f stale) s₁ es₂ res s' ∧ s₁.disk = s.disk ∧
      ((⟨.fileLen file, none⟩ : Occ Act.Ret) ∈ es₁ ∨
        (stale = true ↔ s.Stale inode (s.disk.bytes file).length)) := by
  unfold syncSize at hx
  rw [if_neg (by rw [htrunc]; exact Bool.false_ne_true), Prog.bind_assoc] at hx
  obtain ⟨len, s₁, es₁, ⟨-, (w : World), hrun⟩, rfl, h₁⟩ := exec_perform_bind_iff.1 hx
  cases hrun
  cases hio : w.io with
  | false =>
    rw [hio] at h₁
    exact ⟨false, [_], es₁, s, rfl, h₁, rfl, .inl (List.mem_singleton_self _)⟩
  | true =>
    rw [hio] at h₁
    obtain ⟨stale, s₂, es₂, ⟨-, (w' : World), hrun⟩, rfl, h₂⟩ := exec_perform_bind_iff.1 h₁
    refine ⟨stale, [_, _], es₂, s₂, rfl, h₂, ?_⟩
    change Act.run (.attrOpened inode _) w' s = _ at hrun
    simp only [Act.run] at hrun
    unfold FsState.Stale
    cases ha : s.attrs.get inode with
    | none =>
      rw [ha] at hrun
      cases hrun
      exact ⟨rfl, .inr (by simp)⟩
    | some a =>
      rw [ha] at hrun
      cases hrun
      exact ⟨rfl, .inr (by simp)⟩

theorem exec_publish {β : Type} {h : OpenHandle} {f : Nat → FsProg β} {res : Except Errno β}
    (hx : Exec fsMachine (publish h >>= f) s es res s') :
    ∃ fh es₁ es₂ s₁, es = es₁ ++ es₂ ∧ Exec fsMachine (f fh) s₁ es₂ res s' ∧
      s₁.openHandles.get fh = some h ∧ s₁.disk = s.disk := by
  unfold publish at hx
  rw [Prog.bind_assoc] at hx
  obtain ⟨es₁, rfl, h₁⟩ := exec_perform_bind_of_run hx fun _ => rfl
  rw [Prog.bind_assoc] at h₁
  obtain ⟨es₂, rfl, h₂⟩ := exec_perform_bind_of_run h₁ fun _ => rfl
  exact ⟨_, [_, _], es₂, _, rfl, h₂, HashMap.get_insert_self .., rfl⟩

/-- How an open that does not truncate ends well: its file has a handle, and unless the length of the
file could not be read, direct I/O is asked for when another size is cached. -/
theorem exec_open {inode : Ino} {flags : UInt32} {r : ReplyOpen} (htrunc : isTruncating flags = false)
    (hx : Exec fsMachine («open» inode flags) s es (.ok r) s') :
    ∃ h, s'.openHandles.get r.fh = some h ∧ ((⟨.fileLen h.file, none⟩ : Occ Act.Ret) ∈ es ∨
      (r.flags = fopenDirectIo ↔ s.Stale inode (s'.disk.bytes h.file).length)) := by
  obtain ⟨es₁, rfl, h₁⟩ := exec_perform_bind_of_run hx fun _ => rfl
  rcases (exec_okOr h₁).symm with ⟨-, -, he, -⟩ | ⟨path, -, h₂⟩
  · cases he
  split at h₂
  · cases (exec_ret_iff.1 h₂).2.1
  obtain ⟨id, s₂, es₂, es₃, h₃, h₄, rfl⟩ := exec_bind_ok h₂
  obtain ⟨cachePath, s₃, es₄, es₅, h₅, h₆, rfl⟩ := exec_bind_ok h₄
  have hattrs₂ : s₂.attrs = s.attrs := attrs_eq_of_exec h₃ (only_perform fun h => h)
  have hattrs₃ : s₃.attrs = s₂.attrs :=
    attrs_eq_of_exec h₅ (openCacheFile_only ⟨fun h => h, fun h => h⟩ ⟨fun h => h, fun h => h⟩)
  obtain ⟨_, s₄, es₆, ⟨-, (w : World), hedit⟩, rfl, h₇⟩ := exec_perform_bind_iff.1 h₆
  cases hedit
  obtain ⟨file, s₅, es₇, hopen, rfl, h₈⟩ := exec_perform_bind_iff.1 h₇
  have hattrs₅ := attrs_eq_of_step hopen fun h => h
  rcases (exec_okOr h₈).symm with ⟨-, -, he, -⟩ | ⟨file, rfl, h₉⟩
  · cases he
  obtain ⟨stale, es₈, es₉, s₆, rfl, h₁₀, hdisk₆, hstale⟩ := exec_syncSize htrunc h₉
  obtain ⟨fh, es₁₀, es₁₁, s₇, rfl, h₁₁, hhandle, hdisk₇⟩ := exec_publish h₁₀
  obtain ⟨-, hr, rfl⟩ := exec_ret_iff.1 h₁₁
  cases hr
  refine ⟨_, hhandle, hstale.imp (fun hmem => ?_) fun hstale => ?_⟩
  · refine .tail _ (List.mem_append_right _ (List.mem_append_right _ (.tail _ (.tail _ ?_))))
    exact List.mem_append_left _ hmem
  · rw [hdisk₇, hdisk₆]
    -- hydrating keeps the size
    have hsame : ∀ len, s₅.Stale inode len ↔ s.Stale inode len := by
      intro len
      unfold FsState.Stale
      rw [hattrs₅]
      show (∃ a, (s₃.attrs.modify inode ((openEdit flags).apply w.clock)).get inode = some a ∧ _) ↔ _
      rw [HashMap.get_modify, if_pos rfl, hattrs₃, hattrs₂, openEdit, if_neg (by simp [htrunc])]
      cases s.attrs.get inode with
      | none => simp
      | some a => simp [AttrEdit.apply]
    rw [← hsame, ← hstale]
    cases stale <;> simp [fopenDirectIo]

/-- The root is not a file. -/
theorem open_root {flags : UInt32} {res : Except Errno ReplyOpen}
    (hroot : s.paths.pathFor rootInode = some [])
    (hx : Exec fsMachine («open» rootInode flags) s es res s') : res = .error .EISDIR := by
  obtain ⟨es₁, rfl, h₁⟩ := exec_perform_bind_of_run hx fun _ => rfl
  rw [hroot] at h₁
  exact (exec_ret_iff.1 h₁).2.1

/-! ## Between a report and an open -/

/-- The requests that may come between a report and an open. -/
def Op.Watches : Op → Prop
  | lookup .. | getattr .. | readdir .. | readdirplus .. | «open» .. | apply _ => True
  | _ => False

/-- The request leaves the cached size of the inode at `n`: its listings show the inode with that size
or not at all, an open of the inode takes over a file of that length, and a change event does not drop
its attributes. -/
structure Quiet (ino : Ino) (n : Nat) (_ : List FsServed) (s : FsState) (x : FsServed) : Prop where
  watches : x.req.Watches
  listed : ListsSize ino n x.occs
  opened : ∀ flags, x.req = .open ino flags → isTruncating flags = false ∧ ∀ len stale,
    (⟨.attrOpened ino len, stale⟩ : Occ Act.Ret) ∈ x.occs → len = n
  dropped : ∀ change, x.req = .apply change → s.Concerns ino change → Unsent s ino

/-- **A quiet request keeps the cached size.** -/
theorem CachesSize.quiet {l : List FsServed} {x : FsServed} (h : CachesSize ino n s)
    (hx : Exec fsMachine (x.req.prog nfc cacheRoot) s x.occs x.res s') (hquiet : Quiet ino n l s x) :
    CachesSize ino n s' := by
  obtain ⟨o, es, res⟩ := x
  obtain ⟨hwatches, hlisted, hopened, hdropped⟩ := hquiet
  have honly : ∀ x ∈ es, o.May x.1 := hx.only (Op.prog_only o)
  cases o with
  | lookup | getattr | readdir | readdirplus =>
    exact h.exec hx (fun x hmem => (honly x hmem).keepsSize trivial) hlisted
  | «open» inode flags =>
    refine h.exec hx (fun x hmem => ?_) hlisted
    have hedits : ((Op.open inode flags).prog nfc cacheRoot).Only (Act.EditsAt inode flags) :=
      .bind (open_edits inode flags) fun _ => only_pure _
    refine (hx.only hedits x hmem).keepsSize fun hinode => ?_
    subst hinode
    obtain ⟨htrunc, hlen⟩ := hopened flags rfl
    refine ⟨htrunc, fun len heq => ?_⟩
    obtain ⟨a, stale⟩ := x
    cases heq
    exact hlen len stale hmem
  | apply change =>
    obtain ⟨r, happly, rfl⟩ := exec_map_iff.1 hx
    obtain ⟨-, unsent, rfl, hunsent⟩ := exec_apply happly
    obtain ⟨a, ha, hsize⟩ := h
    refine ⟨a, ?_, hsize⟩
    rcases s.get_invalidatedAttrs change unsent ino with ⟨hconcerns, hkeep, -⟩ | ⟨-, heq⟩
    · exact absurd ((hunsent ino).2 (hdropped change rfl hconcerns)) hkeep
    · exact heq.trans ha
  | _ => exact hwatches.elim

/-- The open tells the kernel, which knows the size `n`, when the file has another length. -/
def TellsSize (n : Nat) (r : ReplyOpen) (s : FsState) : Prop :=
  ∀ h, s.openHandles.get r.fh = some h → n ≠ (s.disk.bytes h.file).length → r.flags = fopenDirectIo

/-- **An open tells the kernel of another length** exactly when another size than that length is
cached; and the size that was reported last is cached, after any requests that leave it as it is. -/
theorem open_tells_size {flags : UInt32} {r : ReplyOpen} (htrunc : isTruncating flags = false)
    (hroot : s.paths.pathFor rootInode = some [])
    (hopen : Exec fsMachine («open» ino flags) s es (.ok r) s')
    (hread : ∀ file, (⟨.fileLen file, none⟩ : Occ Act.Ret) ∉ es) :
    (∀ n, TellsSize n r s' ↔ ∀ h, s'.openHandles.get r.fh = some h →
      n ≠ (s'.disk.bytes h.file).length → s.Stale ino (s'.disk.bytes h.file).length) ∧
    ∀ (n : Nat) (s₁ s₂ : FsState) (x : FsServed) (l : List FsServed),
      Exec fsMachine (x.req.prog nfc cacheRoot) s₁ x.occs x.res s₂ → Reports ino n x.res →
      ListsSize ino n x.occs → (fsService nfc cacheRoot).Sequence (Quiet ino n) s₂ l s →
      TellsSize n r s' := by
  obtain ⟨h, hhandle, htells⟩ := exec_open htrunc hopen
  have htells := htells.resolve_left (hread h.file)
  constructor
  · intro n
    constructor
    · intro ht h' hh' hne
      cases hhandle.symm.trans hh'
      exact htells.1 (ht h hhandle hne)
    · intro hstale h' hh' hne
      cases hhandle.symm.trans hh'
      exact htells.2 (hstale h hhandle hne)
  · intro n s₁ s₂ x l hx hreports hlisted hs h' hh' hne
    cases hhandle.symm.trans hh'
    have hino : ino ≠ rootInode := by
      rintro rfl
      cases open_root hroot hopen
    obtain ⟨o, es', res⟩ := x
    obtain ⟨r', attr, rfl, hattr, rfl, rfl⟩ := hreports
    have hreported : CachesSize attr.ino attr.size s₂ := reported_cached hx hattr hino hlisted
    have hcached : CachesSize attr.ino attr.size s :=
      hs.invariant (I := fun _ s => CachesSize attr.ino attr.size s) hreported
        fun _ _ _ _ h hx hquiet => h.quiet hx hquiet
    obtain ⟨a, ha, hsize⟩ := hcached
    exact htells.2 ⟨a, ha, fun heq => hne (hsize.symm.trans heq)⟩

/-! ## A listing that is not reported -/

/-- The file `/a`, of this size. -/
def sizedA (size : Nat) : List ListEntry := [⟨['/', 'a'], size, 0, true, false, none, false⟩]

/-- A cache folder whose file `c` is three bytes long. -/
def threeBytes : Disk := ⟨(∅ : HashMap Str Nat).insert ['c'] 0, (∅ : HashMap Nat _).insert 0 [1, 2, 3], 1⟩

/-- The file `/a` is looked up with the size 5, its folder is listed by `readdir` with the size `listed`,
and its cache file `c` is opened. -/
def watchA (listed flags : Nat) : Bool :=
  (fsMachine.exec (.lists fun _ => sizedA 5) ((Op.lookup rootInode (some ['a'])).prog id none)
    (.new threeBytes)).any fun x =>
  (fsMachine.exec (.lists fun _ => sizedA listed) ((Op.readdir rootInode 0).prog id none)
    x.2.2).any fun y =>
  (fsMachine.exec .calm («open» 2 0) y.2.2).any fun z =>
    decide (y.2.2.paths.pathFor rootInode = some []) && ((takenOver x.1).all fun e => decide (e.1 = 2 → e.2.size = 5)) &&
    (match x.2.1 with
      | .ok (.entry r) => decide (r.attr.ino = 2 ∧ r.attr.size = 5)
      | _ => false) &&
    ((takenOver y.1).all fun e => decide (e.1 = 2 → e.2.size = listed)) &&
    (match y.2.1 with
      | .ok (.directory _) => true
      | _ => false) &&
    (z.1.all fun e => match e with
      | ⟨.fileLen _, none⟩ => false
      | _ => true) &&
    match z.2.1 with
      | .ok r => decide (r.flags = flags) && (z.2.2.openHandles.get r.fh).any fun h =>
        decide ((z.2.2.disk.bytes h.file).length = 3)
      | .error _ => false

/-- What was evaluated: a report, a listing that reports nothing, and the open. -/
structure WatchedA (listed flags : Nat) (x y : FsServed) (s₂ s : FsState) (es : List (Occ Act.Ret))
    (r : ReplyOpen) (s' : FsState) : Prop where
  looked : Exec fsMachine (x.req.prog id none) (.new threeBytes) x.occs x.res s₂
  reports : Reports 2 5 x.res
  lists : ListsSize 2 5 x.occs
  read : y.req = .readdir rootInode 0 ∧ Exec fsMachine (y.req.prog id none) s₂ y.occs y.res s
  silent : ∀ i m, ¬ Reports i m y.res
  listed : ListsSize 2 listed y.occs
  root : s.paths.pathFor rootInode = some []
  opened : Exec fsMachine («open» 2 0) s es (.ok r) s'
  readable : ∀ file, (⟨.fileLen file, none⟩ : Occ Act.Ret) ∉ es
  flags : r.flags = flags
  length : ∃ h, s'.openHandles.get r.fh = some h ∧ (s'.disk.bytes h.file).length = 3

theorem watchedA_of_bool {listed flags : Nat} (h : watchA listed flags = true) :
    ∃ x y s₂ s es r s', WatchedA listed flags x y s₂ s es r s' := by
  obtain ⟨⟨es₁, res₁, s₂⟩, hlook, h⟩ := (Option.any_eq_true ..).1 h
  obtain ⟨⟨es₂, res₂, s⟩, hread, h⟩ := (Option.any_eq_true ..).1 h
  obtain ⟨⟨es₃, res₃, s'⟩, hopen, h⟩ := (Option.any_eq_true ..).1 h
  simp only [Bool.and_eq_true] at h
  obtain ⟨⟨⟨⟨⟨⟨hroot, hlists⟩, hreports⟩, hlisted⟩, hsilent⟩, hreadable⟩, hend⟩ := h
  have hopen := Machine.exec_sound hopen
  cases res₃ with
  | error e => cases hend
  | ok r =>
    obtain ⟨hflags, hlength⟩ := Bool.and_eq_true_iff.1 hend
    obtain ⟨hh, hhandle, hlen⟩ := (Option.any_eq_true ..).1 hlength
    refine ⟨⟨.lookup rootInode (some ['a']), es₁, res₁⟩, ⟨.readdir rootInode 0, es₂, res₂⟩, s₂, s, es₃, r,
      s', Machine.exec_sound hlook, ?_, fun e he => ?_, ⟨rfl, Machine.exec_sound hread⟩, ?_, fun e he => ?_,
      of_decide_eq_true hroot, hopen, fun file hmem => ?_, of_decide_eq_true hflags, hh, hhandle, of_decide_eq_true hlen⟩
    · cases res₁ with
      | error e => cases hreports
      | ok r₁ =>
        cases r₁ with
        | entry r' => exact ⟨_, r'.attr, rfl, List.mem_singleton_self _, of_decide_eq_true hreports⟩
        | _ => cases hreports
    · exact of_decide_eq_true (List.all_eq_true.1 hlists e he)
    · rintro i m ⟨r', attr, heq, hattr, -⟩
      have heq : res₂ = .ok r' := heq
      rw [heq] at hsilent
      cases r' with
      | directory => cases hattr
      | _ => cases hsilent
    · exact of_decide_eq_true (List.all_eq_true.1 hlisted e he)
    · exact absurd (List.all_eq_true.1 hreadable _ hmem) Bool.false_ne_true

/-- The listing shows the size that was reported, and the open tells of the shorter file. -/
theorem open_tells_size_listed : ∃ s es r s', Exec fsMachine («open» 2 0) s es (.ok r) s' ∧
    (∃ h, s'.openHandles.get r.fh = some h ∧ (s'.disk.bytes h.file).length = 3) ∧ TellsSize 5 r s' := by
  obtain ⟨x, y, s₂, s, es, r, s', h⟩ := watchedA_of_bool (show watchA 5 1 = true by decide +kernel)
  obtain ⟨hreq, hread⟩ := h.read
  have hquiet : Quiet 2 5 [] s₂ y := by
    refine ⟨?_, h.listed, fun flags heq => ?_, fun change heq => ?_⟩
    · rw [hreq]
      trivial
    · cases hreq.symm.trans heq
    · cases hreq.symm.trans heq
  exact ⟨s, es, r, s', h.opened, h.length, (open_tells_size (by decide) h.root h.opened h.readable).2 5 _ _ x
    [y] h.looked h.reports h.lists (.cons .nil hread hquiet)⟩

/-- The file became three bytes long, and a `readdir` that saw it says nothing to the kernel: the open
does not ask for direct I/O. -/
theorem open_clips : ¬ ∀ (nfc : Str → Str) (cacheRoot : Option Str) (disk : Disk) (l₁ : List FsServed)
    (s₁ : FsState), (fsService nfc cacheRoot).Sequence (fun _ _ _ => True) (.new disk) l₁ s₁ →
    ∀ (x : FsServed) (s₂ : FsState) (ino : Ino) (n : Nat),
    Exec fsMachine (x.req.prog nfc cacheRoot) s₁ x.occs x.res s₂ → Reports ino n x.res →
    ∀ l s, (fsService nfc cacheRoot).Sequence (fun _ _ y => y.req.Watches ∧ (∀ m, ¬ Reports ino m y.res) ∧
      ∀ flags, y.req = .open ino flags → isTruncating flags = false) s₂ l s →
    ∀ flags, isTruncating flags = false → ∀ es r s', Exec fsMachine («open» ino flags) s es (.ok r) s' →
      (∀ file, (⟨.fileLen file, none⟩ : Occ Act.Ret) ∉ es) → TellsSize n r s' := by
  intro hall
  obtain ⟨x, y, s₂, s, es, r, s', h⟩ := watchedA_of_bool (show watchA 3 0 = true by decide +kernel)
  obtain ⟨hreq, hread⟩ := h.read
  obtain ⟨hh, hhandle, hlen⟩ := h.length
  have htells : TellsSize 5 r s' := hall id none threeBytes [] _ .nil x s₂ 2 5 h.looked h.reports [y] s
    (.cons .nil hread ⟨by rw [hreq]; trivial, fun m => h.silent 2 m, fun flags heq => by
      cases hreq.symm.trans heq⟩) 0 (by decide) es r s' h.opened h.readable
  have hflags := htells hh hhandle (by rw [hlen]; decide)
  cases h.flags.symm.trans hflags

end UnidriveMount
