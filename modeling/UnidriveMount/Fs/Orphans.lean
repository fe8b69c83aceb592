import UnidriveMount.Fs.Names

/-!
# Attributes without a path

The attribute cache is keyed by inode and the path map drops inodes. `unlink` and `rmdir` drop the
attributes with the path; `PathMap::rename` drops the paths it finds at its destination, and nobody
drops their attributes. `NoOrphans` holds in every state reached by renames onto destinations of
which nothing is cached (`noOrphans_of_sequence`), and is lost by one that is not
(`attrs_orphaned`).
-/

namespace UnidriveMount

open Lib
open Lib.Prog (fail okOr ofExcept only_perform)

variable {nfc : Str → Str} {cacheRoot : Option Str} {s s' : FsState} {es : List (Occ Act.Ret)}

/-! ## One action -/

/-- Every inode with cached attributes has a path, `dropped` apart. -/
def FsState.NamedBut (dropped : Option Ino) (s : FsState) : Prop :=
  ∀ ino a, s.attrs.get ino = some a → dropped = some ino ∨ ∃ p, s.paths.pathFor ino = some p

/-- The action neither takes paths away nor caches attributes for an inode of the caller's. -/
def Act.Quiet : Act → Prop
  | .attrInsert .. | .forget _ | .renamePaths .. => False
  | _ => True

theorem Act.Quiet.not_drops {a : Act} (h : a.Quiet) : ¬ a.Drops := by
  cases a <;> first | exact h.elim | exact id

theorem Act.Quiet.sparesRoot {a : Act} (h : a.Quiet) : a.SparesRoot := by
  cases a <;> first | exact h.elim | trivial

theorem Act.Looks.quiet {a : Act} (h : a.Looks) : a.Quiet := by
  cases a <;> trivial

theorem Act.Asks.quiet {a : Act} (h : a.Asks) : a.Quiet := by
  cases a <;> trivial

/-- A quiet action keeps the path of every inode. -/
theorem pathFor_of_quiet {a : Act} {r : a.Ret} (hst : fsMachine.Step a s r s') (ha : a.Quiet)
    (hs : s.paths.Sound) (hs' : s'.paths.Sound) {ino : Ino} {p : Str}
    (h : s.paths.pathFor ino = some p) : s'.paths.pathFor ino = some p :=
  (hs'.inverse ..).1 (inodeFor_of_step hst ha.not_drops ((hs.inverse ..).2 h))

theorem FsState.NamedBut.quiet {dropped : Option Ino} (h : s.NamedBut dropped) {a : Act} {r : a.Ret}
    (hst : fsMachine.Step a s r s') (ha : a.Quiet) (hs : s.paths.Sound) (hs' : s'.paths.Sound) :
    s'.NamedBut dropped := by
  intro ino b hb
  have hold : (∃ b', s.attrs.get ino = some b') →
      dropped = some ino ∨ ∃ p, s'.paths.pathFor ino = some p := by
    intro ⟨b', hb'⟩
    rcases h ino b' hb' with hd | ⟨p, hp⟩
    · exact .inl hd
    · exact .inr ⟨p, pathFor_of_quiet hst ha hs hs' hp⟩
  by_cases hins : a.Inserts
  · obtain ⟨-, (w : World), (hrun : a.run w s = (r, s'))⟩ := hst
    cases a with
    | attrInsert => exact ha.elim
    | insertListed entries =>
      obtain rfl : s' = (s.insertListed entries).2 := (congrArg Prod.snd hrun).symm
      rcases FsState.get_insertListed hb with hb' | ⟨x, hx, rfl, -⟩
      · exact hold ⟨b, hb'⟩
      · exact .inr ⟨_, (hs'.inverse ..).1 (s.inodeFor_of_mem_insertListed hx)⟩
    | _ => exact hins.elim
  · exact hold (attrs_of_step hst hins hb)

/-- A run of quiet actions orphans nothing. -/
theorem FsState.NamedBut.exec {α : Type} {p : FsProg α} {res : Except Errno α} {dropped : Option Ino}
    (hx : Exec fsMachine p s es res s') (hq : ∀ x ∈ es, x.1.Quiet) (hs : s.paths.Sound)
    (hroom : s.paths.next + interned es < inodeSpace) (h : s.NamedBut dropped) :
    s'.NamedBut dropped := by
  induction hx with
  | ret => exact h
  | act hst _ ih =>
    obtain ⟨hquiet, hq⟩ := List.forall_mem_cons.1 hq
    rw [interned_cons] at hroom
    obtain ⟨hs', -, hnext⟩ := sound_of_step hst hs hquiet.sparesRoot (by omega)
    exact ih hq hs' (by omega) (h.quiet hst hquiet hs hs')

/-! ## The other requests -/

/-- What a request owes to the attribute cache: the inode it dropped, whose attributes it has still
to drop; and an inode that it interned, whose path it has not dropped. -/
structure Owed : Type where
  dropped : Option Ino
  interned : Option Ino

/-- The contract of the requests other than `rename`: attributes are cached for an inode the request
interned, and a path is dropped once the attributes of the one dropped before are. -/
def naming : Contract Act Act.Ret Owed where
  pre g a := match a with
    | .attrInsert ino _ => g.interned = some ino
    | .forget path => g.dropped = none ∧ path ≠ []
    | .renamePaths .. => False
    | _ => True
  allow _ _ _ := True
  next g a r := match a, r with
    | .intern _, ino => { g with interned := some ino }
    | .forget _, ino => ⟨ino, none⟩
    | .attrRemove ino, _ => if g.dropped = some ino then { g with dropped := none } else g
    | _, _ => g

/-- Nothing is owed. -/
def Owed.Settled (g : Owed) : Prop := g.dropped = none

/-- What the contract keeps of the state, with room for the paths still to be interned. -/
structure Owes (g : Owed) (s : FsState) (es : List (Occ Act.Ret)) : Prop where
  sound : s.paths.Sound
  room : s.paths.next + interned es < inodeSpace
  named : s.NamedBut g.dropped
  live : ∀ ino, g.interned = some ino → ∃ p, s.paths.pathFor ino = some p

theorem Owes.step {g : Owed} {a : Act} {r : a.Ret} (h : Owes g s (⟨a, r⟩ :: es)) (hpre : naming.pre g a)
    (hst : fsMachine.Step a s r s') : Owes (naming.next g a r) s' es := by
  obtain ⟨hs, hroom, hnamed, hlive⟩ := h
  rw [interned_cons] at hroom
  have hspares : a.SparesRoot := by
    cases a with
    | forget path => exact hpre.2
    | renamePaths => exact hpre.elim
    | _ => trivial
  obtain ⟨hs', -, hnext⟩ := sound_of_step hst hs hspares (by omega)
  have hroom' : s'.paths.next + interned es < inodeSpace := by omega
  by_cases hq : a.Quiet
  · have hnamed' := hnamed.quiet hst hq hs hs'
    have hlive' : ∀ ino, g.interned = some ino → ∃ p, s'.paths.pathFor ino = some p := by
      intro ino hino
      obtain ⟨p, hp⟩ := hlive ino hino
      exact ⟨p, pathFor_of_quiet hst hq hs hs' hp⟩
    cases a with
    | intern path =>
      obtain ⟨-, (w : World), hrun⟩ := hst
      cases hrun
      refine ⟨hs', hroom', hnamed', fun ino hino => ?_⟩
      cases hino
      exact ⟨path, (hs'.inverse ..).1 (PathMap.intern_inodeFor_self ..)⟩
    | attrRemove ino =>
      obtain ⟨-, (w : World), hrun⟩ := hst
      cases hrun
      show Owes (if g.dropped = some ino then _ else g) _ _
      split
      · next hd =>
        refine ⟨hs', hroom', fun i b hb => ?_, hlive'⟩
        have hne : i ≠ ino := by
          rintro rfl
          rw [HashMap.get_remove_self] at hb
          cases hb
        rcases hnamed' i b hb with hd' | hp
        · exact absurd (Option.some.inj (hd'.symm.trans hd)) hne
        · exact .inr hp
      · exact ⟨hs', hroom', hnamed', hlive'⟩
    | attrInsert | forget | renamePaths => exact hq.elim
    | _ => exact ⟨hs', hroom', hnamed', hlive'⟩
  · obtain ⟨-, (w : World), hrun⟩ := hst
    cases a with
    | attrInsert ino attr =>
      cases hrun
      refine ⟨hs', hroom', fun i b hb => ?_, hlive⟩
      have hb : (s.attrs.insert ino attr).get i = some b := hb
      rw [HashMap.get_insert] at hb
      split at hb
      · next heq => exact .inr (heq ▸ hlive ino hpre)
      · exact hnamed i b hb
    | forget path =>
      cases hrun
      refine ⟨hs', hroom', fun i b hb => ?_, fun i hi => by cases hi⟩
      rcases hnamed i b hb with hd | ⟨p, hp⟩
      · rw [hpre.1] at hd
        cases hd
      · have hfor := (hs.inverse ..).2 hp
        by_cases hpath : p = path
        · rw [hpath] at hfor
          exact .inl ((PathMap.forget_fst ..).trans hfor)
        · refine .inr ⟨p, (hs'.inverse ..).1 ?_⟩
          show (s.paths.forget path).2.inodeFor p = some i
          rw [PathMap.forget_inodeFor, if_neg hpath]
          exact hfor
    | renamePaths => exact hpre.elim
    | _ => exact absurd trivial hq

section
variable {α β : Type} {g : Owed} {post : Except Errno β → Owed → Prop}

/-- A part of a program that asks nothing of the contract can be skipped. -/
theorem naming_bind {p : FsProg α} {f : α → FsProg β} (hp : p.Only Act.Quiet) (hg : g.Settled)
    (herr : ∀ e (g : Owed), g.Settled → post (.error e) g)
    (hf : ∀ x (g : Owed), g.Settled → naming.Obeys post (f x) g) : naming.Obeys post (p >>= f) g := by
  refine Contract.obeys_bind_of_inv hp hg (fun g a _ ha => ?_) (fun g a r hg ha => ?_) herr hf
  · cases a <;> first | exact ha.elim | trivial
  · cases a with
    | attrRemove ino =>
      show Owed.Settled (if g.dropped = some ino then _ else g)
      split
      · rfl
      · exact hg
    | attrInsert | forget | renamePaths => exact ha.elim
    | _ => exact hg

/-- The requests end with nothing owed. -/
abbrev Owing (p : FsProg α) (g : Owed) : Prop := naming.Obeys (fun _ g => g.Settled) p g

theorem owing_of_only {p : FsProg α} (hp : p.Only Act.Quiet) (hg : g.Settled) : Owing p g := by
  rw [← Prog.bind_pure p]
  exact naming_bind hp hg (fun _ _ => id) fun _ _ => id

theorem owing_bind {p : FsProg α} {f : α → FsProg β} (hp : p.Only Act.Quiet) (hg : g.Settled)
    (hf : ∀ x (g : Owed), g.Settled → Owing (f x) g) : Owing (p >>= f) g :=
  naming_bind hp hg (fun _ _ => id) hf

/-- What follows a program that owes nothing. -/
theorem Owing.bind {p : FsProg α} {f : α → FsProg β} (hp : Owing p g)
    (hf : ∀ x (g : Owed), g.Settled → Owing (f x) g) : Owing (p >>= f) g := by
  refine Contract.obeys_bind.2 (hp.mono fun r g hg => ?_)
  cases r with
  | ok x => exact hf x g hg
  | error e => exact hg

/-- A path is interned, its visible name is recorded, and its attributes are cached. -/
theorem owing_intern {cp name : Str} {attr : Int → CachedAttr} {f : Ino → Int → FsProg β}
    (hg : g.Settled) (hf : ∀ ino now (g : Owed), g.Settled → Owing (f ino now) g) :
    Owing (perform (.intern cp) >>= fun ino => recordRawName nfc cp name >>= fun _ =>
      perform .nowMs >>= fun now => perform (.attrInsert ino (attr now)) >>= fun _ =>
      f ino now) g := by
  refine Contract.obeys_perform_bind.2 ⟨trivial, fun ino _ => ?_⟩
  have hrecord : (recordRawName nfc cp name).Only Act.Records := recordRawName_only fun _ => id
  refine Contract.obeys_bind_of_only hrecord (fun a ha => ?_) (fun a r ha => ?_) (fun _ => hg)
    fun _ => ?_
  · cases a <;> first | exact ha.elim | trivial
  · cases a <;> first | exact ha.elim | rfl
  · exact ⟨trivial, fun now _ => ⟨rfl, fun _ _ => hf ino now _ hg⟩⟩

theorem createInternal_owing {parent : Ino} {name : OsStr} (hg : g.Settled) :
    Owing (createInternal nfc parent name) g :=
  owing_bind (only_okOr ..) hg fun _ _ hg => owing_bind (only_perform trivial) hg fun _ _ hg =>
  owing_bind (only_okOr ..) hg fun _ _ hg =>
  owing_bind (refuseNfcCollision_only fun _ => Act.Looks.quiet) hg fun _ _ hg =>
  owing_bind (only_perform trivial) hg fun _ _ hg => owing_bind (only_ipc trivial trivial) hg
  fun _ _ hg => owing_bind (only_mapErr ..) hg fun _ _ hg => owing_bind (only_perform trivial) hg
  fun _ _ hg => owing_bind (only_okOr ..) hg fun _ _ hg => owing_intern hg fun _ _ _ hg =>
  owing_of_only (.bind (publish_only trivial fun _ => trivial) fun _ => only_pure _) hg

theorem forgetEntry_owing {cp : Str} (hcp : cp ≠ []) (hg : g.Settled) : Owing (forgetEntry cp) g := by
  refine Contract.obeys_perform_bind.2 ⟨⟨hg, hcp⟩, fun ino _ =>
    Contract.obeys_perform_bind.2 ⟨trivial, fun _ _ => ?_⟩⟩
  cases ino with
  | none => rfl
  | some ino =>
    refine Contract.obeys_perform.2 ⟨trivial, fun _ _ => ?_⟩
    show Owed.Settled (if some ino = some ino then _ else _)
    rw [if_pos rfl]
    rfl

/-- Only the requests that change the namespace take paths away or cache attributes of their own. -/
theorem Op.May.quiet {o : Op} (ho : match o with
    | .mkdir .. | .create .. | .mknod .. | .unlink .. | .rmdir .. | .rename .. => False
    | _ => True) {a : Act} (h : o.May a) : a.Quiet := by
  cases a with
  | attrInsert | forget | renamePaths =>
    rcases h with h | h <;> cases o <;> first | exact ho.elim | exact h.elim | skip
    all_goals rcases h with h | h <;> exact h.elim
  | _ => trivial

/-- **Every request but `rename` settles what it owes.** -/
theorem Op.prog_owing {o : Op} (ho : ∀ op on np nn, o ≠ .rename op on np nn) (hg : g.Settled) :
    Owing (o.prog nfc cacheRoot) g := by
  cases o with
  | rename op on np nn => exact absurd rfl (ho op on np nn)
  | mkdir parent name =>
    refine Owing.bind ?_ fun _ _ => id
    exact owing_bind (only_okOr ..) hg fun _ _ hg => owing_bind (only_perform trivial) hg
      fun _ _ hg => owing_bind (only_okOr ..) hg fun _ _ hg =>
      owing_bind (refuseNfcCollision_only fun _ => Act.Looks.quiet) hg fun _ _ hg =>
      owing_bind (only_ipc trivial trivial) hg fun _ _ hg => owing_bind (only_mapErr ..) hg
      fun _ _ hg => owing_intern hg fun _ _ _ => id
  | create parent name =>
    exact Owing.bind (Owing.bind (createInternal_owing hg) fun _ _ => id) fun _ _ => id
  | mknod parent name mode =>
    refine Owing.bind ?_ fun _ _ => id
    unfold UnidriveMount.mknod
    split
    · exact hg
    · refine Owing.bind (createInternal_owing hg) fun x g hg =>
        owing_bind (only_perform trivial) hg fun h g hg => ?_
      cases h with
      | none => exact hg
      | some h =>
        exact owing_of_only (.bind (only_ipc trivial trivial) fun _ =>
          .bind (only_ipc trivial trivial) fun _ => only_pure _) hg
  | unlink parent name | rmdir parent name =>
    refine Owing.bind ?_ fun _ _ => id
    refine owing_bind (only_okOr ..) hg fun _ _ hg => owing_bind (only_perform trivial) hg
      fun _ _ hg => owing_bind (only_okOr ..) hg fun _ _ hg => owing_bind (only_ipc trivial trivial) hg
      fun _ _ hg => owing_bind (only_mapErr ..) hg fun _ _ hg =>
      Owing.bind (forgetEntry_owing (childPath_ne_nil _ _ _) hg) fun _ _ hg => ?_
    cases cacheRoot with
    | none => exact hg
    | some root => exact owing_of_only (only_perform trivial) hg
  | _ => exact owing_of_only ((Op.prog_only _).mono fun _ h => h.quiet trivial) hg

end

/-! ## Rename -/

/-- The daemon listed `p` during the request. -/
def ListedIn (es : List (Occ Act.Ret)) (p : Str) : Prop :=
  ∃ parent entries, (⟨.reply (.list parent), .ok entries⟩ : Occ Act.Ret) ∈ es ∧ ListedAt p entries

/-- A rename of `old` to `new` moves something, and finds something in its way that has cached
attributes: the path map and the attribute cache know it, or the daemon listed it during the
request. -/
def Displaces (s : FsState) (es : List (Occ Act.Ret)) (old new : Str) : Prop :=
  (∃ p, AtOrBelow old p ∧ ((∃ ino, s.paths.inodeFor p = some ino) ∨ ListedIn es p)) ∧
    ∃ q, AtOrBelow new q ∧ ¬ AtOrBelow old q ∧ (s.Cached q ∨ ListedIn es q)

theorem Checks.inodeFor {parentPath cp name : Str} {o : Option Errno}
    (h : Checks parentPath cp name s es o s') {q : Str} {ino : Ino}
    (hq : s'.paths.inodeFor q = some ino) : s.paths.inodeFor q = some ino ∨ ListedIn es q := by
  cases h with
  | identical | cached => exact .inl hq
  | listed _ _ _ hp =>
    cases hp with
    | failed => exact .inl hq
    | listed entries d =>
      rcases FsState.inodeFor_insertListed hq with hq | ⟨e, he, rfl⟩
      · exact .inl hq
      · obtain ⟨he, hrep⟩ := List.mem_filter.1 he
        exact .inr ⟨parentPath, entries, by simp, e, he, rfl, hrep⟩

theorem Checks.cached_of {parentPath cp name : Str} {o : Option Errno}
    (h : Checks parentPath cp name s es o s') (hs' : s'.paths.Sound) {q : Str} (hq : s'.Cached q) :
    s.Cached q ∨ ListedIn es q := by
  obtain ⟨ino, a, hino, ha⟩ := hq
  rcases h.inodeFor hino with hold | hlisted
  · cases h with
    | identical | cached => exact .inl ⟨ino, a, hino, ha⟩
    | listed _ _ _ hp =>
      cases hp with
      | failed => exact .inl ⟨ino, a, hino, ha⟩
      | listed entries d =>
        rcases FsState.get_insertListed ha with ha | ⟨x, hx, rfl, -⟩
        · exact .inl ⟨ino, a, hold, ha⟩
        · have hpath := hs'.toWF.inode_inj (FsState.inodeFor_of_mem_insertListed _ hx) hino
          have hmem : x.2 ∈ entries.filter isRepresentable :=
            FsState.takeListed_entries _ entries ▸ List.mem_map_of_mem hx
          obtain ⟨he, hrep⟩ := List.mem_filter.1 hmem
          exact .inr ⟨parentPath, entries, by simp, x.2, he, hpath, hrep⟩
  · exact .inr hlisted

/-- A rename that displaces nothing orphans nothing. -/
theorem FsState.NamedBut.rename (h : s.NamedBut none) (hs : s.paths.Sound) {old new : Str}
    (hstale : (∃ p ino, AtOrBelow old p ∧ s.paths.inodeFor p = some ino) →
      ∀ q, AtOrBelow new q → ¬ AtOrBelow old q → ¬ s.Cached q) {ino : Ino} {a : CachedAttr}
    (ha : s.attrs.get ino = some a) : ∃ p, (s.paths.rename old new).pathFor ino = some p := by
  obtain ⟨p, hp⟩ := (h ino a ha).resolve_left fun hd => by cases hd
  have hino : s.paths.inodeFor p = some ino := (hs.inverse ..).2 hp
  by_cases hm : (s.paths.moving old).isEmpty = true
  · rw [PathMap.rename_of_none new (PathMap.moving_isEmpty_iff.1 hm)]
    exact ⟨p, hp⟩
  by_cases hold : AtOrBelow old p
  · obtain ⟨rest, hrest, rfl⟩ := atOrBelow_iff.1 hold
    exact ⟨_, hs.toWF.pathFor_rename_of_moving new hrest hino⟩
  · have hnot : ∀ q, AtOrBelow old q → s.paths.inodeFor q ≠ some ino := by
      intro q hq hfor
      exact hold (hs.toWF.inode_inj hfor hino ▸ hq)
    refine ⟨p, (hs.toWF.pathFor_rename_of_notMoving new hm hnot p).2 ⟨hino, fun hnew => ?_⟩⟩
    -- something moves, so `p` is in its way
    refine hstale ?_ p hnew hold ⟨ino, a, hino, ha⟩
    obtain ⟨⟨q, i⟩, hq⟩ := List.exists_mem_of_ne_nil _ fun hnil => hm (List.isEmpty_iff.2 hnil)
    obtain ⟨hi, hq⟩ := PathMap.mem_moving.1 hq
    exact ⟨q, i, hq, hi⟩

/-- A run of `rename` that displaces nothing orphans nothing. -/
theorem Moves.named {oldParent newParent : Ino} {oldName newName : OsStr} {old new : Str}
    (h : Moves nfc oldParent oldName newParent newName s es old new s') (hs : s.paths.Sound)
    (hroom : s.paths.next + interned es < inodeSpace) (hnamed : s.NamedBut none)
    (hclear : ¬ Displaces s es old new) : s'.NamedBut none := by
  obtain ⟨name, parentPath, es₁, s₁, d, -, -, -, hx, ⟨pre, post, rfl⟩, rfl⟩ := h.target
  have hlooks : ∀ x ∈ es₁, x.1.Looks := hx.only (refuseNfcCollision_only fun _ => id)
  rw [interned_append, interned_append] at hroom
  have hspares : (refuseNfcCollision parentPath new name).Only Act.SparesRoot :=
    refuseNfcCollision_only fun _ h => h.quiet.sparesRoot
  obtain ⟨hs₁, -, -⟩ := sound_of_exec hx hs hspares (by omega)
  have hnamed₁ : s₁.NamedBut none :=
    hnamed.exec hx (fun x hx => (hlooks x hx).quiet) hs (by omega)
  have hlisted : ∀ p, ListedIn es₁ p → ListedIn (pre ++ es₁ ++ post) p := by
    intro p ⟨parent, entries, hmem, hat⟩
    exact ⟨parent, entries, List.mem_append_left _ (List.mem_append_right _ hmem), hat⟩
  -- what the check leaves is what was known and what it listed
  rw [← Prog.bind_pure (refuseNfcCollision ..)] at hx
  rcases exec_refuseNfcCollision hx with ⟨e, -, he⟩ | ⟨es₂, es₃, s₂, hchecks, hpure, heq⟩
  · cases he
  obtain ⟨rfl, -, rfl⟩ := exec_ret_iff.1 hpure
  rw [List.append_nil] at heq
  subst heq
  refine fun ino a ha => .inr (hnamed₁.rename hs₁ (fun ⟨p, i, hp, hi⟩ q hq hnot hc => ?_) ha)
  refine hclear ⟨⟨p, hp, ?_⟩, q, hq, hnot, ?_⟩
  · exact (hchecks.inodeFor hi).imp (fun h => ⟨i, h⟩) (hlisted p)
  · exact (hchecks.cached_of hs₁ hc).imp id (hlisted q)

/-! ## Every reachable state -/

/-- A handle open at a path of the inode has unsent writes. -/
def Unsent (s : FsState) (ino : Ino) : Prop :=
  ∃ fh h, s.openHandles.get fh = some h ∧ h.dirty = true ∧ s.paths.inodeFor h.remotePath = some ino

/-- Every inode with cached attributes has a path. An inode without one is unknown to `getattr`, and
the attributes of an inode are dropped by an invalidation of its path, unless there are unsent
writes. -/
structure NoOrphans (s : FsState) : Prop where
  named : ∀ ino a, s.attrs.get ino = some a → ∃ p, s.paths.pathFor ino = some p
  gone : ∀ ino, s.paths.pathFor ino = none → fsMachine.Can (getattr ino) s (.error .ENOENT) s ∧
    ∀ es res s', Exec fsMachine (getattr ino) s es res s' → res = .error .ENOENT
  reached : ∀ ino a, s.attrs.get ino = some a → ∃ p, s.paths.pathFor ino = some p ∧
    ∀ es res s', Exec fsMachine (apply (.paths [p])) s es res s' →
      Unsent s ino ∨ s'.attrs.get ino = none

/-- The inode counter does not wrap around, and no rename that the daemon accepts displaces
something. -/
structure Displaceless (l : List FsServed) (s : FsState) (x : FsServed) : Prop where
  room : s.paths.next + interned x.occs < inodeSpace
  clear : ∀ old new, (⟨.reply (.rename old new), .ok ()⟩ : Occ Act.Ret) ∈ x.occs →
    ¬ Displaces s x.occs old new

theorem namedBut_of_exec {o : Op} {res : Except Errno Reply}
    (hx : Exec fsMachine (o.prog nfc cacheRoot) s es res s') (hs : s.paths.Sound)
    (hok : Displaceless [] s ⟨o, es, res⟩) (h : s.NamedBut none) : s'.NamedBut none := by
  by_cases ho : ∀ op on np nn, o ≠ .rename op on np nn
  · have hg : Owed.Settled ⟨none, none⟩ := rfl
    have hI : Owes ⟨none, none⟩ s es := ⟨hs, hok.room, h, fun ino hino => by cases hino⟩
    obtain ⟨g, hsettled, howes⟩ := (Op.prog_owing ho hg).run hx hI
      fun g a r s s' es hpre hst hI => ⟨trivial, hI.step hpre hst⟩
    exact (show g.dropped = none from hsettled) ▸ howes.named
  · obtain ⟨op, on, np, nn, rfl⟩ : ∃ op on np nn, o = .rename op on np nn := by
      by_contra hne
      exact ho fun op on np nn heq => hne ⟨op, on, np, nn, heq⟩
    obtain ⟨r, hrename, rfl⟩ := exec_map_iff.1 hx
    rcases exec_rename hrename with ⟨-, hasks⟩ | ⟨-, old, new, hmoves⟩
    · exact h.exec hrename (fun x hmem => (hasks x hmem).quiet) hs hok.room
    · exact hmoves.named hs hok.room h (hok.clear old new hmoves.accepted)

theorem getattr_gone {ino : Ino} (hroot : ino ≠ rootInode) (hpath : s.paths.pathFor ino = none)
    (hattr : s.attrs.get ino = none) : fsMachine.Can (getattr ino) s (.error .ENOENT) s ∧
      ∀ es res s', Exec fsMachine (getattr ino) s es res s' → res = .error .ENOENT := by
  unfold getattr getOrFetchAttr
  rw [if_neg hroot]
  constructor
  · refine Machine.can_bind_error (Machine.can_perform_bind .calm rfl rfl ?_)
    rw [hattr]
    refine Machine.can_perform_bind .calm rfl rfl ?_
    rw [hpath]
    exact Machine.can_ret ..
  · intro es res s' hx
    rw [Prog.bind_assoc] at hx
    obtain ⟨es₁, rfl, h₁⟩ := exec_perform_bind_of_run hx fun _ => rfl
    rw [hattr, Prog.bind_assoc] at h₁
    obtain ⟨es₂, rfl, h₂⟩ := exec_perform_bind_of_run h₁ fun _ => rfl
    rw [hpath] at h₂
    exact (exec_ret_iff.1 h₂).2.1

/-- A change event changes the attribute cache alone, and spares the entries with unsent writes. -/
theorem exec_apply {change : Invalidation} {res : Except Errno Unit}
    (hx : Exec fsMachine (apply change) s es res s') : res = .ok () ∧
      ∃ unsent, s' = { s with attrs := s.invalidatedAttrs change unsent } ∧
        ∀ ino, ino ∈ unsent.filterMap s.paths.inodeFor ↔ Unsent s ino := by
  obtain ⟨es₁, rfl, h₁⟩ := exec_perform_bind_of_run hx fun _ => rfl
  obtain ⟨r, s₁, es₂, ⟨-, (w : World), hrun⟩, rfl, h₂⟩ := exec_act_iff.1 h₁
  cases hrun
  obtain ⟨rfl, rfl, rfl⟩ := exec_ret_iff.1 h₂
  refine ⟨rfl, _, rfl, fun ino => ?_⟩
  simp only [List.mem_filterMap, List.mem_map, List.mem_filter, HashMap.mem_values]
  constructor
  · rintro ⟨p, ⟨h, ⟨⟨fh, hfh⟩, hdirty⟩, rfl⟩, hino⟩
    exact ⟨fh, h, hfh, hdirty, hino⟩
  · rintro ⟨fh, h, hfh, hdirty, hino⟩
    exact ⟨h.remotePath, ⟨h, ⟨⟨fh, hfh⟩, hdirty⟩, rfl⟩, hino⟩

/-- An invalidation of the path of an inode drops its attributes. -/
theorem apply_reaches {ino : Ino} {p : Str} (hp : s.paths.inodeFor p = some ino)
    {res : Except Errno Unit} (hx : Exec fsMachine (apply (.paths [p])) s es res s') :
    Unsent s ino ∨ s'.attrs.get ino = none := by
  obtain ⟨-, unsent, rfl, hunsent⟩ := exec_apply hx
  have hself : isAtOrBelow p [p] = true := by
    unfold isAtOrBelow
    simp
  have hmem : ino ∈ s.paths.inodesAtOrBelow [p] := PathMap.mem_inodesAtOrBelow.2 ⟨p, hp, hself⟩
  rcases s.get_invalidatedAttrs (.paths [p]) unsent ino with ⟨-, -, hnone⟩ | ⟨hkeep, -⟩
  · exact .inr hnone
  · exact .inl ((hunsent ino).1 (hkeep.resolve_left (not_not_intro hmem)))

theorem noOrphans_of_named (hs : s.paths.Sound) (h : s.NamedBut none) : NoOrphans s := by
  have hnamed : ∀ ino a, s.attrs.get ino = some a → ∃ p, s.paths.pathFor ino = some p :=
    fun ino a ha => (h ino a ha).resolve_left fun hd => by cases hd
  refine ⟨hnamed, fun ino hino => getattr_gone ?_ hino ?_, fun ino a ha => ?_⟩
  · rintro rfl
    cases hino.symm.trans ((hs.inverse ..).1 hs.root)
  · cases ha : s.attrs.get ino with
    | none => rfl
    | some a =>
      obtain ⟨p, hp⟩ := hnamed ino a ha
      cases hino.symm.trans hp
  · obtain ⟨p, hp⟩ := hnamed ino a ha
    exact ⟨p, hp, fun es res s' hx => apply_reaches ((hs.inverse ..).2 hp) hx⟩

/-- **No orphan attributes**, in every state reached while no rename displaces something and the inode
counter has not wrapped around. -/
theorem noOrphans_of_sequence {disk : Disk} {l : List FsServed}
    (h : (fsService nfc cacheRoot).Sequence Displaceless (.new disk) l s) : NoOrphans s := by
  have hI : s.paths.Sound ∧ s.NamedBut none := by
    refine h.invariant (I := fun _ s => s.paths.Sound ∧ s.NamedBut none)
      ⟨.new, fun ino a ha => by cases ha⟩ fun l s x s' hI hx hok => ⟨?_, ?_⟩
    · exact (sound_of_exec hx hI.1 (Op.prog_sparesRoot ..) hok.room).1
    · exact namedBut_of_exec hx hI.1 ⟨hok.room, hok.clear⟩ hI.2
  exact noOrphans_of_named hI.1 hI.2

/-! ## A displaced entry -/

/-- Whether no path known or listed is at or below the target of an accepted rename, its source
apart. -/
def targetsFree (s : FsState) (es : List (Occ Act.Ret)) : Bool :=
  es.all fun x => match x with
    | ⟨.reply (.rename old new), .ok ()⟩ =>
      (s.paths.pathToInode.iter.all fun e => !decide (AtOrBelow new e.1) || AtOrBelow old e.1) &&
      es.all fun y => match y with
        | ⟨.reply (.list _), .ok entries⟩ =>
          entries.all fun e => !decide (AtOrBelow new e.path) || AtOrBelow old e.path
        | _ => true
    | _ => true

theorem not_displaces_of_bool (h : targetsFree s es = true) {old new : Str}
    (hmem : (⟨.reply (.rename old new), .ok ()⟩ : Occ Act.Ret) ∈ es) : ¬ Displaces s es old new := by
  obtain ⟨hknown, hlisted⟩ := Bool.and_eq_true_iff.1 (List.all_eq_true.1 h _ hmem)
  rintro ⟨-, q, hnew, hold, ⟨ino, a, hino, -⟩ | ⟨parent, entries, hentries, e, he, rfl, -⟩⟩
  · have hq := List.all_eq_true.1 hknown (q, ino) (HashMap.mem_iter.2 hino)
    simp [hnew, hold] at hq
  · have he := List.all_eq_true.1 (List.all_eq_true.1 hlisted _ hentries) e he
    simp [hnew, hold] at he

theorem displaceless_of_bool {l : List FsServed} {x : FsServed}
    (h : (decide (s.paths.next + interned x.occs < inodeSpace) && targetsFree s x.occs) = true) :
    Displaceless l s x := by
  obtain ⟨hroom, hfree⟩ := Bool.and_eq_true_iff.1 h
  exact ⟨of_decide_eq_true hroom, fun _ _ hmem => not_displaces_of_bool hfree hmem⟩

/-- The files `/a` and `/b` of a listing. -/
def entriesAB : List ListEntry :=
  [⟨['/', 'a'], 0, 0, true, false, none, false⟩, ⟨['/', 'b'], 0, 0, true, false, none, false⟩]

/-- The files are listed, and `/a` is moved to `/` and the name. -/
def movedTo (name : Str) : List (Op × World) :=
  [(.lookup rootInode (some ['a']), .lists fun _ => entriesAB),
    (.rename rootInode (some ['a']) rootInode (some name), .calm)]

/-- A rename to a new name orphans nothing. -/
theorem noOrphans_of_sequence_moved :
    ∃ l s, plainFs.Sequence Displaceless (.new .empty) l s ∧
      s.paths.pathFor 2 = some ['/', 'c'] ∧ (s.attrs.get 2).isSome ∧ NoOrphans s := by
  have hserve : (plainFs.serveAll (fun _ s x =>
      decide (s.paths.next + interned x.occs < inodeSpace) && targetsFree s x.occs)
      (movedTo ['c']) [] (.new .empty)).any (fun x =>
      x.2.paths.pathFor 2 = some ['/', 'c'] && (x.2.attrs.get 2).isSome) = true := by
    decide +kernel
  obtain ⟨⟨l, s⟩, hs, hcheck⟩ := (Option.any_eq_true ..).1 hserve
  obtain ⟨hpath, hattr⟩ := Bool.and_eq_true_iff.1 hcheck
  have hseq : plainFs.Sequence Displaceless (.new .empty) l s :=
    plainFs.sequence_of_serveAll (fun _ _ _ => displaceless_of_bool) .nil hs
  exact ⟨l, s, hseq, of_decide_eq_true hpath, hattr, noOrphans_of_sequence hseq⟩

/-- `/b`, deleted by somebody else, keeps its attributes when `/a` is moved there. -/
theorem attrs_orphaned : ¬ ∀ (nfc : Str → Str) (cacheRoot : Option Str) (disk : Disk)
    (l : List FsServed) (s : FsState),
    (fsService nfc cacheRoot).Sequence (fun _ _ _ => True) (.new disk) l s → NoOrphans s := by
  intro h
  have hserve : (plainFs.serveAll (fun _ _ _ => true) (movedTo ['b']) [] (.new .empty)).any (fun x =>
      x.2.paths.pathFor 3 = none && (x.2.attrs.get 3).isSome) = true := by decide +kernel
  obtain ⟨⟨l, s⟩, hs, hcheck⟩ := (Option.any_eq_true ..).1 hserve
  obtain ⟨hpath, hattr⟩ := Bool.and_eq_true_iff.1 hcheck
  have hseq : plainFs.Sequence (fun _ _ _ => True) (.new .empty) l s :=
    plainFs.sequence_of_serveAll (fun _ _ _ _ => trivial) .nil hs
  obtain ⟨a, ha⟩ := Option.isSome_iff_exists.1 hattr
  obtain ⟨p, hp⟩ := (h id none .empty l s hseq).named 3 a ha
  cases hp.symm.trans (of_decide_eq_true hpath)

end UnidriveMount
