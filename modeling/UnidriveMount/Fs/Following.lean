import UnidriveMount.Fs.Deleted
import UnidriveMount.Fs.Inodes
import UnidriveMount.Fs.OpenSet
import UnidriveMount.Lib.Pending

/-!
# Handles that follow renames

`rename` changes the path map under one lock and the open handles under another, and `open` and
`create` resolve their path long before they publish a handle with it. A handle names its file when
both agree on the order: each rename that the path map had applied before the path was resolved is
applied to the handles before the handle is published, and each later one after that.

The log tells which renames have reached the path map and not the handles yet (`pendingRenames`), and
what a request has missed since it resolved its path (`sight`). In every run that keeps to the order
(`KeepsOrder`), whenever no request is in progress the remote path of a handle is the one its inode
has in the path map (`handles_follow`).
-/

namespace UnidriveMount

open Lib
open Lib.Prog (only_perform)

/-! ## Renames on their way -/

/-- What a rename of the first path to the second makes of a path. -/
def movedBy (r : Str × Str) (p : Str) : Str := moved r.1 r.2 p

/-- One of the paths is at or below the other. -/
def Related (p q : Str) : Prop := AtOrBelow p q ∨ AtOrBelow q p

instance (p q : Str) : Decidable (Related p q) := inferInstanceAs (Decidable (_ ∨ _))

/-- The renames have nothing to do with each other: neither takes away what is at the places of the
other. -/
structure Apart (r r' : Str × Str) : Prop where
  olds : ¬ Related r.1 r'.1
  left : ¬ Related r.1 r'.2
  right : ¬ Related r.2 r'.1

/-- Renames that have nothing to do with each other commute. -/
theorem Apart.comm {r r' : Str × Str} (h : Apart r r') (p : Str) :
    movedBy r (movedBy r' p) = movedBy r' (movedBy r p) := by
  unfold movedBy
  by_cases hp : AtOrBelow r.1 p
  · have hp' : ¬ AtOrBelow r'.1 p := fun hp' => h.olds (hp.total hp')
    have hm : ¬ AtOrBelow r'.1 (moved r.1 r.2 p) := fun hm => h.right ((atOrBelow_moved hp).total hm)
    rw [moved_of_not hp', moved_of_not hm]
  · rw [moved_of_not hp]
    by_cases hp' : AtOrBelow r'.1 p
    · exact moved_of_not fun hm => h.left (hm.total (atOrBelow_moved hp'))
    · rw [moved_of_not hp', moved_of_not hp]

/-- The renames that have reached the path map and not the handles, with their requests, after an
entry of the log. -/
def pendingNext (q : List (Nat × Str × Str)) : FsEvent → List (Nat × Str × Str)
  | .acted t (.renamePaths old new) _ => q ++ [(t, old, new)]
  | .acted t (.followRenames ..) _ => settle t q
  | _ => q

/-- The renames that have reached the path map and not the handles. -/
def pendingRenames (l : List FsEvent) : List (Nat × Str × Str) := l.foldl pendingNext []

/-- What has happened since a request resolved its path: the renames that have reached the path map
and not the handles, and the old paths of those that have reached both. -/
structure Sight : Type where
  pending : List (Nat × Str × Str)
  applied : List Str

/-- The action resolves a path, or gives one an inode. -/
def Act.resolves : (a : Act) → a.Ret → Option (Ino × Str)
  | .pathFor inode, some path => some (inode, path)
  | .intern path, inode => some (inode, path)
  | _, _ => none

/-- What request `t` has missed after an entry of the log. -/
def Sight.next (t : Nat) (v : Sight) : FsEvent → Sight
  | .acted u (.renamePaths old new) _ => { v with pending := v.pending ++ [(u, old, new)] }
  | .acted u (.followRenames old _) _ =>
    if v.pending.any fun e => e.1 == u then ⟨settle u v.pending, old :: v.applied⟩ else v
  | .acted u a r => if u = t ∧ (a.resolves r).isSome = true then ⟨[], []⟩ else v
  | _ => v

/-- What request `t` has missed since it resolved a path last. -/
def sight (t : Nat) (l : List FsEvent) : Sight := l.foldl (Sight.next t) ⟨[], []⟩

section
variable {l : List FsEvent} {t : Nat} {e : FsEvent}

theorem pendingRenames_snoc : pendingRenames (l ++ [e]) = pendingNext (pendingRenames l) e := by
  simp [pendingRenames]

theorem sight_snoc : sight t (l ++ [e]) = (sight t l).next t e := by
  simp [sight]

/-- The action is one of the two sections of a rename. -/
def Act.Relocates : Act → Prop
  | renamePaths .. | followRenames .. => True
  | _ => False

theorem pendingNext_of_not {a : Act} {r : a.Ret} (ha : ¬ a.Relocates) (q : List (Nat × Str × Str)) :
    pendingNext q (.acted t a r) = q := by
  cases a with
  | renamePaths | followRenames => exact absurd trivial ha
  | _ => rfl

theorem Sight.next_of_not {u : Nat} {a : Act} {r : a.Ret} (ha : ¬ a.Relocates) (v : Sight) :
    v.next t (.acted u a r) = if u = t ∧ (a.resolves r).isSome = true then ⟨[], []⟩ else v := by
  cases a with
  | renamePaths | followRenames => exact absurd trivial ha
  | _ => rfl

/-- What is pending since a request resolved its path came last. -/
theorem sight_pending_suffix : (sight t l).pending <:+ pendingRenames l := by
  induction l using List.reverseRecOn with
  | nil => exact List.suffix_rfl
  | append_singleton l e ih =>
    rw [sight_snoc, pendingRenames_snoc]
    cases e with
    | started | returned => exact ih
    | acted u a r =>
      by_cases ha : a.Relocates
      · obtain ⟨B, hB⟩ := ih
        rw [← hB]
        cases a with
        | renamePaths old new => exact ⟨B, (List.append_assoc ..).symm⟩
        | followRenames old new =>
          rw [pendingNext, settle_append, Sight.next]
          split
          · exact ⟨_, rfl⟩
          · next hu =>
            rw [settle_of_notMem (q := (sight t l).pending) fun r hr => hu (List.any_eq_true.2
              ⟨_, hr, beq_self_eq_true u⟩)]
            exact ⟨_, rfl⟩
        | _ => exact ha.elim
      · rw [pendingNext_of_not ha, Sight.next_of_not ha]
        split
        · exact List.nil_suffix
        · exact ih

end

/-! ## The contract -/

/-- What is known of a request: the inode and the path it has resolved last, and the rename it has
made in the path map and not in the handles. -/
structure Passage : Type where
  resolved : Option (Ino × Str)
  halfway : Option (Str × Str)

/-- A request starts with nothing resolved and nothing renamed. -/
def Passage.init : Passage := ⟨none, none⟩

/-- The contract of the requests with respect to paths: a handle is published with the path resolved
last, and a rename of the handles is the one that was made in the path map. -/
def passages : Contract Act Act.Ret Passage where
  pre
    | g, .handleInsert _ h => ∃ ino, g.resolved = some (ino, h.remotePath)
    | g, .renamePaths .. => g.halfway = none
    | g, .followRenames old new => g.halfway = some (old, new)
    | _, _ => True
  allow _ _ _ := True
  next
    | g, .renamePaths old new, _ => ⟨g.resolved, some (old, new)⟩
    | g, .followRenames .., _ => ⟨g.resolved, none⟩
    | g, a, r => ⟨(a.resolves r).or g.resolved, g.halfway⟩

/-- What a request ends with: no rename half done. -/
def Finished {α : Type} (_ : Except Errno α) (g : Passage) : Prop := g.halfway = none

/-- The action neither publishes a handle nor is a section of a rename. -/
def Act.Stays : Act → Prop
  | handleInsert .. | renamePaths .. | followRenames .. => False
  | _ => True

theorem passages_pre {g : Passage} {a : Act} (ha : a.Stays) : passages.pre g a := by
  cases a with
  | handleInsert | renamePaths | followRenames => exact ha.elim
  | _ => trivial

theorem passages_next {g : Passage} {a : Act} (r : a.Ret) (ha : a.Stays) :
    passages.next g a r = ⟨(a.resolves r).or g.resolved, g.halfway⟩ := by
  cases a with
  | handleInsert | renamePaths | followRenames => exact ha.elim
  | _ => rfl

theorem Act.Lists.stays {a : Act} (h : a.Lists) : a.Stays := by
  cases a <;> trivial

theorem Act.Looks.stays {a : Act} (h : a.Looks) : a.Stays := by
  cases a <;> trivial

theorem Act.Records.stays {a : Act} (h : a.Records) : a.Stays := by
  cases a <;> trivial

/-- No other request than an `open`, a `create`, a `mknod` and a `rename` publishes a handle or
renames. -/
theorem Op.May.stays {o : Op} (ho : match o with
    | .open .. | .create .. | .mknod .. | .rename .. => False
    | _ => True) {a : Act} (h : o.May a) : a.Stays := by
  cases a with
  | handleInsert | renamePaths | followRenames =>
    rcases h with h | h
    · cases o with
      | «open» | create | mknod | rename => exact ho
      | _ => exact h
    · cases o <;> simp [Op.Shared, Act.Looks, Act.Lists, Act.Records, Act.Forgets, Act.Commits] at h
  | _ => trivial

section
variable {nfc : Str → Str} {cacheRoot : Option Str} {α β : Type} {g : Passage}

/-- What neither publishes nor renames can be skipped. -/
theorem passages_skip {p : FsProg α} {f : α → FsProg β} (hp : p.Only Act.Stays)
    (hg : g.halfway = none)
    (hf : ∀ x g, g.halfway = none → passages.Obeys Finished (f x) g) :
    passages.Obeys Finished (p >>= f) g := by
  refine Contract.obeys_bind_of_inv hp (J := fun g : Passage => g.halfway = none) hg
    (fun _ _ _ => passages_pre) (fun g a r hg ha => ?_) (fun _ _ hg => hg) hf
  rw [passages_next r ha]
  exact hg

/-- What resolves nothing either leaves the path that was resolved. -/
theorem passages_hold {P : Act → Prop} {p : FsProg α} {f : α → FsProg β} (hp : p.Only P)
    (hP : ∀ a : Act, P a → a.Stays ∧ ∀ r, a.resolves r = none) (hg : g.halfway = none)
    (hf : ∀ x, passages.Obeys Finished (f x) g) : passages.Obeys Finished (p >>= f) g :=
  Contract.obeys_bind_of_only hp (fun a ha => passages_pre (hP a ha).1)
    (fun a r ha => by rw [passages_next r (hP a ha).1, (hP a ha).2 r]; rfl) (fun _ => hg) hf

theorem passages_publish {h : OpenHandle} {ino : Ino} (hr : g.resolved = some (ino, h.remotePath))
    (hg : g.halfway = none) {f : Nat → β} :
    passages.Obeys Finished (do return f (← publish h)) g :=
  ⟨trivial, fun _ _ => ⟨⟨ino, hr⟩, fun _ _ => hg⟩⟩

/-- An `open` publishes the path of its inode. -/
theorem open_passages {inode : Ino} {flags : UInt32} :
    passages.Obeys Finished («open» inode flags) .init := by
  refine ⟨trivial, fun path _ => ?_⟩
  cases path with
  | none => exact rfl
  | some path =>
    show passages.Obeys Finished (if path.isEmpty then _ else _) ⟨some (inode, path), none⟩
    have hP : ∀ a : Act, (a.Stays ∧ ∀ r, a.resolves r = none) → a.Stays ∧ ∀ r, a.resolves r = none :=
      fun _ h => h
    have quiet : ∀ {a : Act}, (a.Stays ∧ ∀ r, a.resolves r = none) →
        (perform a).Only fun a => a.Stays ∧ ∀ r, a.resolves r = none := fun h => only_perform h
    split
    · exact rfl
    · refine passages_hold (quiet ⟨trivial, fun _ => rfl⟩) hP rfl fun n => ?_
      refine passages_hold (openCacheFile_only ⟨⟨trivial, fun _ => rfl⟩, ⟨trivial, fun _ => rfl⟩⟩
        ⟨⟨trivial, fun _ => rfl⟩, ⟨trivial, fun _ => rfl⟩⟩) hP rfl fun cachePath => ?_
      refine passages_hold (quiet ⟨trivial, fun _ => rfl⟩) hP rfl fun _ => ?_
      refine passages_hold (quiet ⟨trivial, fun _ => rfl⟩) hP rfl fun file => ?_
      refine passages_hold (only_okOr ..) hP rfl fun file => ?_
      refine passages_hold (syncSize_only ⟨trivial, fun _ => rfl⟩ fun _ => ⟨trivial, fun _ => rfl⟩) hP
        rfl fun stale => ?_
      exact passages_publish rfl rfl

/-- What follows starts with no rename half done. -/
theorem passages_bind {p : FsProg α} {f : α → FsProg β} (hp : passages.Obeys Finished p g)
    (hf : ∀ x g, g.halfway = none → passages.Obeys Finished (f x) g) :
    passages.Obeys Finished (p >>= f) g := by
  refine Contract.obeys_bind.2 (hp.mono fun res g hg => ?_)
  cases res with
  | ok x => exact hf x g hg
  | error e => exact hg

/-- A `create` publishes the path it has interned. -/
theorem createInternal_passages {parent : Ino} {name : OsStr} (hg : g.halfway = none) :
    passages.Obeys Finished (createInternal nfc parent name) g := by
  refine passages_skip (only_okOr ..) hg fun name g hg => ?_
  refine passages_skip (only_perform trivial) hg fun _ g hg => ?_
  refine passages_skip (only_okOr ..) hg fun parentPath g hg => ?_
  refine passages_skip (refuseNfcCollision_only fun _ ha => ha.stays) hg fun _ g hg => ?_
  refine passages_skip (only_perform trivial) hg fun n g hg => ?_
  refine passages_skip (only_ipc trivial trivial) hg fun _ g hg => ?_
  refine passages_skip (only_mapErr ..) hg fun reply g hg => ?_
  refine passages_skip (only_perform trivial) hg fun _ g hg => ?_
  refine passages_skip (only_okOr ..) hg fun file g hg =>
    Contract.obeys_perform_bind.2 ⟨trivial, fun newIno _ => ?_⟩
  have hrec : ∀ a : Act, a.Records → a.Stays ∧ ∀ r, a.resolves r = none := fun a ha => by
    cases a <;> first | exact ha.elim | exact ⟨trivial, fun _ => rfl⟩
  refine passages_hold (recordRawName_only fun _ ha => ha) hrec hg fun _ => ?_
  refine ⟨trivial, fun mtimeMs _ => ⟨trivial, fun _ _ => ?_⟩⟩
  exact passages_publish (g := ⟨some (newIno, _), g.halfway⟩) rfl hg

/-- A `rename` renames the handles as it has renamed the path map. -/
theorem rename_passages {oldParent newParent : Ino} {oldName newName : OsStr}
    (hg : g.halfway = none) :
    passages.Obeys Finished (rename nfc oldParent oldName newParent newName) g := by
  refine passages_skip (only_okOr ..) hg fun oldName g hg => ?_
  refine passages_skip (only_okOr ..) hg fun newName g hg => ?_
  refine passages_skip (only_perform trivial) hg fun parents g hg => ?_
  refine passages_skip (only_okOr ..) hg fun oldParentPath g hg => ?_
  refine passages_skip (only_okOr ..) hg fun newParentPath g hg => ?_
  refine passages_skip (refuseNfcCollision_only fun _ ha => ha.stays) hg fun _ g hg => ?_
  refine passages_skip (only_ipc trivial trivial) hg fun _ g hg => ?_
  refine passages_skip (only_mapErr ..) hg fun _ g hg => Contract.obeys_perform_bind.2
    ⟨hg, fun _ _ => Contract.obeys_perform_bind.2 ⟨rfl, fun _ _ => ?_⟩⟩
  refine passages_skip (only_perform trivial) rfl fun _ g hg => ?_
  unfold recordRawName
  split <;> exact ⟨trivial, fun _ _ => hg⟩

/-- **Every request publishes the path it has resolved and finishes its rename.** -/
theorem passages_honoured (nfc : Str → Str) (cacheRoot : Option Str) :
    (fsService nfc cacheRoot).Honours passages (fun _ => .init) (fun _ => Finished) := by
  intro o
  by_cases ho : match o with
    | .open .. | .create .. | .mknod .. | .rename .. => False
    | _ => True
  · exact Contract.obeys_of_only_of_inv (Op.prog_only o) (J := fun g : Passage => g.halfway = none)
      rfl (fun _ _ _ ha => passages_pre (ha.stays ho))
      (fun g a r hg ha => by rw [passages_next r (ha.stays ho)]; exact hg) fun _ _ hg => hg
  · cases o with
    | «open» inode flags => exact passages_bind open_passages fun _ _ hg => hg
    | create parent name =>
      exact passages_bind (passages_bind (createInternal_passages rfl) fun _ _ hg => hg)
        fun _ _ hg => hg
    | mknod parent name mode =>
      refine passages_bind ?_ fun _ _ hg => hg
      unfold UnidriveMount.mknod
      split
      · exact rfl
      · refine passages_bind (createInternal_passages rfl) fun x g hg => ?_
        refine passages_skip (only_perform trivial) hg fun h g hg => ?_
        cases h with
        | none => exact hg
        | some h =>
          exact passages_skip (only_ipc trivial trivial) hg fun _ g hg =>
            passages_skip (only_ipc trivial trivial) hg fun _ g hg => hg
    | rename oldParent oldName newParent newName =>
      exact passages_bind (rename_passages rfl) fun _ _ hg => hg
    | _ => exact absurd trivial ho

end

/-! ## The path map -/

/-- An inode that has a path after a rename had the path it was moved from. -/
theorem PathMap.WF.pathFor_of_rename {m : PathMap} (h : m.WF) {old new p' : Str} {i : Ino}
    (hp : (m.rename old new).pathFor i = some p') :
    ∃ p, m.pathFor i = some p ∧ p' = moved old new p := by
  by_cases hm : (m.moving old).isEmpty = true
  · rw [rename_of_none new (moving_isEmpty_iff.1 hm)] at hp
    refine ⟨p', hp, (moved_of_not fun ho => ?_).symm⟩
    cases ((h.inverse p' i).2 hp).symm.trans (moving_isEmpty_iff.1 hm p' ho)
  · by_cases hi : ∃ rest, IsTail rest ∧ m.inodeFor (old ++ rest) = some i
    · obtain ⟨rest, hrest, hi⟩ := hi
      rw [h.pathFor_rename_of_moving new hrest hi] at hp
      cases hp
      exact ⟨_, (h.inverse _ i).1 hi, (moved_append hrest).symm⟩
    · have hnot : ∀ p, AtOrBelow old p → m.inodeFor p ≠ some i := by
        rintro p hp hc
        obtain ⟨rest, hrest, rfl⟩ := atOrBelow_iff.1 hp
        exact hi ⟨rest, hrest, hc⟩
      have hp' := ((h.pathFor_rename_of_notMoving new hm hnot p').1 hp).1
      exact ⟨p', (h.inverse p' i).1 hp', (moved_of_not fun ho => hnot p' ho hp').symm⟩

theorem PathMap.pathFor_of_intern {m : PathMap} {path p : Str} {i : Ino} (hi : i ≠ m.next)
    (hp : (m.intern path).2.pathFor i = some p) : m.pathFor i = some p := by
  cases h : m.inodeFor path with
  | some ino => rwa [intern_of_some h] at hp
  | none =>
    rw [intern_of_none h] at hp
    exact (HashMap.get_insert_ne _ _ hi).symm.trans hp

section
variable {s s' : FsState} {a : Act} {r : a.Ret}

theorem pathFor_of_insertListed {entries : List ListEntry} (hs : s.paths.Sound)
    (hroom : s.paths.next + entries.length < inodeSpace) {p : Str} {i : Ino} (hi : i < s.paths.next)
    (hp : (s.insertListed entries).2.paths.pathFor i = some p) : s.paths.pathFor i = some p := by
  induction entries generalizing s with
  | nil => exact hp
  | cons e entries ih =>
    rw [List.length_cons] at hroom
    obtain ⟨hsound, hlater, hnext⟩ := hs.intern e.path (by omega)
    refine PathMap.pathFor_of_intern (Nat.ne_of_lt hi) (ih (s := { s with
      paths := (s.paths.intern e.path).2
      attrs := s.attrs.insert (s.paths.intern e.path).1 (.ofListEntry e) }) hsound ?_ ?_ hp)
    · show (s.paths.intern e.path).2.next + _ < _
      omega
    · exact hi.trans_le hlater.next_le

/-- Apart from a rename, an inode that was assigned keeps its path or loses it. -/
theorem pathFor_of_step (hst : fsMachine.Step a s r s') (hs : s.paths.Sound)
    (hroom : s.paths.next + a.interned < inodeSpace) (ha : ¬ ∃ old new, a = .renamePaths old new)
    {p : Str} {i : Ino} (hi : i < s.paths.next) (hp : s'.paths.pathFor i = some p) :
    s.paths.pathFor i = some p := by
  by_cases hpaths : s'.paths = s.paths
  · rwa [hpaths] at hp
  · obtain ⟨-, (w : World), (hrun : a.run w s = (r, s'))⟩ := hst
    cases a with
    | intern path =>
      cases hrun
      exact PathMap.pathFor_of_intern (Nat.ne_of_lt hi) hp
    | insertListed entries =>
      obtain rfl : s' = (s.insertListed entries).2 := (congrArg Prod.snd hrun).symm
      exact pathFor_of_insertListed hs hroom hi hp
    | forget path =>
      cases hrun
      exact PathMap.forget_pathFor_of_some hp
    | renamePaths old new => exact absurd ⟨old, new, rfl⟩ ha
    | handleWrite | handleSetLen | handleClaim =>
      refine absurd ?_ hpaths
      simp only [Act.run, FsState.handleWrite, FsState.handleSetLen, FsState.handleClaim] at hrun
      split at hrun <;> [skip; split at hrun] <;> cases hrun <;> rfl
    | attrOpened | openFile | setLen =>
      refine absurd ?_ hpaths
      simp only [Act.run] at hrun
      split at hrun <;> cases hrun <;> rfl
    | removeFile path | removeDirAll path =>
      cases hrun
      exact absurd (by split <;> rfl) hpaths
    | _ =>
      cases hrun
      exact absurd rfl hpaths

theorem paths_of_renamePaths {old new : Str} {r : Unit}
    (hst : fsMachine.Step (.renamePaths old new) s r s') :
    s'.paths = s.paths.rename old new := by
  obtain ⟨-, (w : World), hrun⟩ := hst
  cases hrun
  rfl

/-- What an action resolves is in the path map afterwards. -/
theorem pathFor_of_resolves (hst : fsMachine.Step a s r s') (hs : s'.paths.Sound) {ino : Ino}
    {q : Str} (hr : a.resolves r = some (ino, q)) : s'.paths.pathFor ino = some q := by
  obtain ⟨-, (w : World), (hrun : a.run w s = (r, s'))⟩ := hst
  cases a with
  | pathFor inode =>
    cases r with
    | none => cases hr
    | some path =>
      cases hr
      obtain ⟨hpath, rfl⟩ := Prod.mk.inj hrun
      exact hpath
  | intern path =>
    cases hrun
    cases hr
    exact (hs.inverse _ _).1 (PathMap.intern_inodeFor_self ..)
  | _ => cases hr

end

/-- What an action makes of the remote path of a handle. -/
def Act.carries : Act → Str → Str
  | followRenames old new, p => moved old new p
  | _, p => p

theorem Act.carries_of_not {a : Act} (ha : ¬ a.Relocates) (p : Str) : a.carries p = p := by
  cases a with
  | followRenames => exact absurd trivial ha
  | _ => rfl

/-- An open handle was published by the action, or the action carries its path. -/
theorem HandleStep.remotePath {fh : Nat} {a : Act} {r : a.Ret} {x x' : Option OpenHandle}
    (hs : HandleStep fh a r x x') {h' : OpenHandle} (hx' : x' = some h') :
    a = .handleInsert fh h' ∨ ∃ h, x = some h ∧ (∀ h₁, a ≠ .handleInsert fh h₁) ∧
      h'.remotePath = a.carries h.remotePath := by
  subst hx'
  generalize hx : some h' = x' at hs
  cases hs with
  | insert => cases hx; exact .inl rfl
  | remove => cases hx
  | write _ _ _ h | setLen _ h | claim _ h => cases hx; exact .inr ⟨h, rfl, nofun, rfl⟩
  | restore =>
    obtain ⟨h, hh, rfl⟩ := Option.map_eq_some_iff.1 hx.symm
    exact .inr ⟨h, hh, nofun, rfl⟩
  | follow old new =>
    obtain ⟨h, hh, rfl⟩ := Option.map_eq_some_iff.1 hx.symm
    exact .inr ⟨h, hh, nofun, h.followRename_remotePath old new⟩
  | frame _ hsp =>
    refine .inr ⟨h', hx.symm, ?_, ?_⟩
    · rintro h₁ rfl
      exact hsp rfl
    · cases a with
      | followRenames => exact hsp.elim
      | _ => rfl

/-! ## Paths catch up -/

/-- The inode and the path that request `t` has resolved or interned last. -/
def resolved (t : Nat) (l : List FsEvent) : Option (Ino × Str) := (passages.ghost .init t l).resolved

/-- The inode the handle `fh` was opened or created with: the one its request had resolved or
interned last when it published the handle. -/
def OpenedOn (l : List FsEvent) (fh : Nat) (ino : Ino) : Prop :=
  ∃ (i t : Nat) (h : OpenHandle) (p : Str), l[i]? = some (.acted t (.handleInsert fh h) ()) ∧
    resolved t (l.take i) = some (ino, p)

/-- The remote path of every open handle is the one its inode has, if it has one. -/
def HandlesFollow (c : FsConfig) : Prop :=
  ∀ (fh : Nat) (h : OpenHandle) (ino : Ino) (p : Str), c.st.openHandles.get fh = some h →
    OpenedOn c.log fh ino → c.st.paths.pathFor ino = some p → h.remotePath = p

/-- The step keeps to the order of the path map. A handle is published with a path that no rename has
moved away both in the path map and in the handles since the path was resolved, and that none will
move away in the handles that had moved it in the path map before; a rename of the handles that
overtakes another one has nothing to do with it. The counters of the handle numbers and of the inodes
do not wrap around. -/
structure KeepsOrder (c : FsConfig) (e : FsEvent) : Prop where
  few : DrawsFew c e
  room : ∀ (t : Nat) (a : Act) (r : a.Ret), e = .acted t a r →
    c.st.paths.next + a.interned < inodeSpace
  published : ∀ (t fh : Nat) (h : OpenHandle), e = .acted t (.handleInsert fh h) () →
    (∀ old ∈ (sight t c.log).applied, ¬ AtOrBelow old h.remotePath) ∧
      ∀ r ∈ pendingRenames c.log, r ∉ (sight t c.log).pending → ¬ AtOrBelow r.2.1 h.remotePath
  renamed : ∀ (t : Nat) (old new : Str), e = .acted t (.followRenames old new) () →
    ∀ A C, pendingRenames c.log = A ++ (t, old, new) :: C → ∀ r ∈ A, Apart r.2 (old, new)

/-- The pending renames are those that requests in progress have half done, and they lead from the
path of a handle, and from a path that was resolved and not overtaken, to the path of the inode. -/
structure Tracks (c : FsConfig) : Prop where
  sound : c.st.paths.Sound
  nodup : ((pendingRenames c.log).map Prod.fst).Nodup
  pending : ∀ t r, (t, r) ∈ pendingRenames c.log ↔
    (c.live t).isSome = true ∧ (passages.ghost .init t c.log).halfway = some r
  handles : ∀ fh h ino, c.st.openHandles.get fh = some h → OpenedOn c.log fh ino →
    ino < c.st.paths.next ∧ ∀ p, c.st.paths.pathFor ino = some p →
      p = catchUp movedBy (pendingRenames c.log) h.remotePath
  requests : ∀ t ino q, resolved t c.log = some (ino, q) →
    (∀ old ∈ (sight t c.log).applied, ¬ AtOrBelow old q) →
    ino < c.st.paths.next ∧ ∀ p, c.st.paths.pathFor ino = some p →
      p = catchUp movedBy (sight t c.log).pending q

section
variable {c : FsConfig} {l : List FsEvent} {fh t u : Nat} {o : Op} {a : Act} {r : a.Ret}
  {p : FsProg Reply} {s : FsState} {k : a.Ret → FsProg Reply} {ino : Ino} {q : Str} {e : FsEvent}

/-- The handle an entry publishes, or an old one. -/
theorem openedOn_snoc (h : OpenedOn (l ++ [e]) fh ino) :
    OpenedOn l fh ino ∨ ∃ (t : Nat) (h : OpenHandle) (p : Str),
      e = .acted t (.handleInsert fh h) () ∧ resolved t l = some (ino, p) := by
  obtain ⟨i, t, h, p, hi, hp⟩ := h
  rcases getElem?_snoc_iff.1 hi with hold | ⟨rfl, rfl⟩
  · rw [List.take_append_of_le_length (getElem?_lt hold).le] at hp
    exact .inl ⟨i, t, h, p, hold, hp⟩
  · rw [List.take_append_of_le_length le_rfl, List.take_length] at hp
    exact .inr ⟨t, h, p, rfl, hp⟩

theorem OpenedOn.published (h : OpenedOn l fh ino) : ∃ id, Published l fh id := by
  obtain ⟨i, t, h, p, hi, -⟩ := h
  exact ⟨_, i, t, h, hi, rfl⟩

theorem passages_next_resolved (g : Passage) (a : Act) (r : a.Ret) :
    (passages.next g a r).resolved = (a.resolves r).or g.resolved := by
  cases a <;> rfl

theorem passages_next_halfway (g : Passage) (r : a.Ret) (ha : ¬ a.Relocates) :
    (passages.next g a r).halfway = g.halfway := by
  cases a with
  | renamePaths | followRenames => exact absurd trivial ha
  | _ => rfl

theorem resolved_snoc_self :
    resolved t (l ++ [.acted t a r]) = (a.resolves r).or (resolved t l) := by
  rw [resolved, Contract.ghost_snoc_acted_self, passages_next_resolved]
  rfl

theorem resolved_snoc_ne (hu : u ≠ t) : resolved t (l ++ [.acted u a r]) = resolved t l := by
  rw [resolved, Contract.ghost_snoc_acted_ne hu]
  rfl

/-- What a section of a rename has resolved. -/
theorem resolved_snoc_of_relocates (ha : a.Relocates) :
    resolved t (l ++ [.acted u a r]) = resolved t l := by
  by_cases hu : u = t
  · subst hu
    rw [resolved_snoc_self]
    cases a with
    | renamePaths | followRenames => rfl
    | _ => exact ha.elim
  · exact resolved_snoc_ne hu

namespace Tracks

theorem initial (disk : Disk) : Tracks (.initial (.new disk)) where
  sound := PathMap.Sound.new
  nodup := List.nodup_nil
  pending t r := by simp [pendingRenames]
  handles fh h ino hget := by simp [FsState.new] at hget
  requests t ino q hq := by
    simp [resolved, Contract.ghost, occs, Passage.init] at hq

/-- An entry that is no action. -/
theorem snoc {c' : FsConfig} (hI : Tracks c) (hst : c'.st = c.st) (hlog : c'.log = c.log ++ [e])
    (he : ∀ t a r, e ≠ .acted t a r)
    (hlive : ∀ t, (passages.ghost .init t c.log).halfway ≠ none →
      ((c'.live t).isSome = true ↔ (c.live t).isSome = true)) : Tracks c' := by
  have hghost : ∀ t, passages.ghost .init t c'.log = passages.ghost .init t c.log := by
    intro t
    rw [hlog]
    cases e with
    | started u o => exact Contract.ghost_snoc_started o
    | returned u o res => exact Contract.ghost_snoc_returned o res
    | acted u a r => exact absurd rfl (he u a r)
  have hpend : pendingRenames c'.log = pendingRenames c.log := by
    rw [hlog, pendingRenames_snoc]
    cases e with
    | acted u a r => exact absurd rfl (he u a r)
    | started | returned => rfl
  have hsight : ∀ t, sight t c'.log = sight t c.log := by
    intro t
    rw [hlog, sight_snoc]
    cases e with
    | acted u a r => exact absurd rfl (he u a r)
    | started | returned => rfl
  refine ⟨hst ▸ hI.sound, hpend ▸ hI.nodup, fun t r => ?_, fun fh h ino hget hop => ?_,
    fun t ino q hq happ => ?_⟩
  · rw [hpend, hghost, hI.pending]
    refine and_congr_left fun hr => (hlive t ?_).symm
    rw [hr]
    exact nofun
  · rw [hst] at hget ⊢
    rw [hpend]
    refine hI.handles fh h ino hget ((openedOn_snoc (hlog ▸ hop)).resolve_right ?_)
    rintro ⟨t, h, p, rfl, -⟩
    exact he _ _ _ rfl
  · rw [hsight] at happ ⊢
    rw [hst]
    refine hI.requests t ino q ?_ happ
    rwa [resolved, hghost] at hq

theorem nodup_act (hI : Tracks c) (hpre : passages.pre (passages.ghost .init t c.log) a) :
    ((pendingRenames (c.log ++ [.acted t a r])).map Prod.fst).Nodup := by
  rw [pendingRenames_snoc]
  cases a with
  | renamePaths old new =>
    have hnot : t ∉ (pendingRenames c.log).map Prod.fst := by
      intro hmem
      obtain ⟨⟨u, r'⟩, hr', rfl⟩ := List.mem_map.1 hmem
      cases ((hI.pending u r').1 hr').2.symm.trans hpre
    rw [pendingNext, List.map_append]
    refine List.nodup_append.2 ⟨hI.nodup, List.nodup_singleton _, fun u hu v hv => ?_⟩
    rw [List.map_singleton, List.mem_singleton] at hv
    rintro rfl
    subst hv
    exact hnot hu
  | followRenames old new => exact nodup_settle hI.nodup
  | _ => exact hI.nodup

theorem pending_act (hI : Tracks c) (hlive : c.live t = some (o, .act a k))
    (hpre : passages.pre (passages.ghost .init t c.log) a) (r' : Str × Str) :
    (u, r') ∈ pendingRenames (c.log ++ [.acted t a r]) ↔ ((c.act t o a r p s).live u).isSome = true ∧
      (passages.ghost .init u (c.log ++ [.acted t a r])).halfway = some r' := by
  have hsome : ((c.act t o a r p s).live u).isSome = true ↔ (c.live u).isSome = true := by
    rw [Config.act_live]
    split
    · next hu => simp [hu, hlive]
    · rfl
  rw [hsome, pendingRenames_snoc]
  by_cases ha : a.Relocates
  · by_cases hu : u = t
    · subst hu
      rw [Contract.ghost_snoc_acted_self, hlive]
      cases a with
      | renamePaths old new =>
        have hnot : (u, r') ∉ pendingRenames c.log := fun hr' => by
          cases ((hI.pending u r').1 hr').2.symm.trans hpre
        simp [pendingNext, passages, hnot, eq_comm]
      | followRenames old new => simp [pendingNext, passages, mem_settle]
      | _ => exact ha.elim
    · rw [Contract.ghost_snoc_acted_ne (Ne.symm hu), ← hI.pending]
      cases a with
      | renamePaths old new => simp [pendingNext, hu]
      | followRenames old new => simp [pendingNext, mem_settle, hu]
      | _ => exact ha.elim
  · rw [pendingNext_of_not ha, hI.pending]
    by_cases hu : u = t
    · subst hu
      rw [Contract.ghost_snoc_acted_self, passages_next_halfway _ r ha]
    · rw [Contract.ghost_snoc_acted_ne (Ne.symm hu)]

/-- The rename that a section of the handles finishes is pending. -/
theorem mem_pending_of_follow {old new : Str} {k : Unit → FsProg Reply} (hI : Tracks c)
    (hlive : c.live t = some (o, .act (.followRenames old new) k))
    (hpre : (passages.ghost .init t c.log).halfway = some (old, new)) :
    (t, old, new) ∈ pendingRenames c.log :=
  (hI.pending t _).2 ⟨by rw [hlive]; rfl, hpre⟩

/-- A handle that is published has the path of its inode once the pending renames have reached it. -/
theorem published_act {h : OpenHandle} (hI : Tracks c)
    (hpre : ∃ ino, resolved t c.log = some (ino, h.remotePath))
    (hok : KeepsOrder c (.acted t (.handleInsert fh h) ()))
    (hres : resolved t c.log = some (ino, q)) :
    ino < c.st.paths.next ∧ ∀ p, c.st.paths.pathFor ino = some p →
      p = catchUp movedBy (pendingRenames c.log) h.remotePath := by
  obtain ⟨ino', hres'⟩ := hpre
  cases hres.symm.trans hres'
  obtain ⟨happlied, hearlier⟩ := hok.published t fh h rfl
  obtain ⟨hlt, hpath⟩ := hI.requests t ino _ hres happlied
  refine ⟨hlt, fun p hp => (hpath p hp).trans ?_⟩
  obtain ⟨B, hB⟩ := sight_pending_suffix (l := c.log) (t := t)
  -- the renames that were pending when the path was resolved do not touch it
  have hfixed : catchUp movedBy B h.remotePath = h.remotePath := by
    refine catchUp_of_fixed fun r hr => moved_of_not ?_
    refine hearlier r (hB ▸ List.mem_append_left _ hr) fun hr' => ?_
    have hnd := hI.nodup
    rw [← hB, List.map_append, List.nodup_append] at hnd
    exact hnd.2.2 r.1 (List.mem_map_of_mem hr) r.1 (List.mem_map_of_mem hr') rfl
  rw [← hB, catchUp_append, hfixed]

theorem handles_act (hI : Tracks c) (hlive : c.live t = some (o, .act a k))
    (hpre : passages.pre (passages.ghost .init t c.log) a) (hok : KeepsOrder c (.acted t a r))
    (honce : HandedOutOnce c (.acted t a r)) (hlater : c.st.paths.Later s.paths)
    (hstep : fsMachine.Step a c.st r s) {h' : OpenHandle} (hget : s.openHandles.get fh = some h')
    (hop : OpenedOn (c.log ++ [.acted t a r]) fh ino) :
    ino < s.paths.next ∧ ∀ p, s.paths.pathFor ino = some p →
      p = catchUp movedBy (pendingRenames (c.log ++ [.acted t a r])) h'.remotePath := by
  have hroom := hok.room t a r rfl
  rw [pendingRenames_snoc]
  rcases (handleStep_of_step hstep fh).remotePath hget with rfl | ⟨h, hold, hins, hpath⟩
  · rcases openedOn_snoc hop with hop | ⟨t', h, q, heq, hres⟩
    · obtain ⟨id, hp⟩ := hop.published
      exact absurd hp (honce id)
    · cases heq
      obtain ⟨hlt, hp⟩ := hI.published_act hpre hok hres
      exact ⟨hlt.trans_le hlater.next_le, fun p' hp' =>
        hp p' (pathFor_of_step hstep hI.sound hroom nofun hlt hp')⟩
  · have hop' := (openedOn_snoc hop).resolve_right (by
      rintro ⟨_, h₁, _, heq, -⟩
      cases heq
      exact hins h₁ rfl)
    obtain ⟨hlt, hp⟩ := hI.handles fh h ino hold hop'
    refine ⟨hlt.trans_le hlater.next_le, fun p' hp' => ?_⟩
    by_cases ha : a.Relocates
    · cases a with
      | renamePaths old new =>
        rw [paths_of_renamePaths hstep] at hp'
        obtain ⟨p, hp₀, rfl⟩ := hI.sound.pathFor_of_rename hp'
        have hcarry : Act.carries (.renamePaths old new) h.remotePath = h.remotePath := rfl
        rw [pendingNext, catchUp_snoc, hpath, hcarry, ← hp p hp₀]
        rfl
      | followRenames old new =>
        obtain ⟨A, C, hAC⟩ := List.append_of_mem (hI.mem_pending_of_follow hlive hpre)
        rw [pendingNext, hpath]
        refine (hp p' (pathFor_of_step hstep hI.sound hroom nofun hlt hp')).trans ?_
        refine (catchUp_settle hI.nodup hAC (fun r hr x => ?_) h.remotePath).symm
        exact (hok.renamed t old new rfl A C hAC r hr).comm x
      | _ => exact ha.elim
    · rw [pendingNext_of_not ha, hpath, Act.carries_of_not ha]
      refine hp p' (pathFor_of_step hstep hI.sound hroom ?_ hlt hp')
      rintro ⟨old, new, rfl⟩
      exact ha trivial

/-- A request that has missed the rename does not find the path it has resolved at the old one. -/
theorem sight_follow {old new : Str} (hI : Tracks c)
    (hmem : (t, old, new) ∈ pendingRenames c.log) (hok : KeepsOrder c (.acted t (.followRenames old new) ()))
    (hany : ((sight u c.log).pending.any fun e => e.1 == t) = true) (hq : ¬ AtOrBelow old q) :
    catchUp movedBy (settle t (sight u c.log).pending) q =
      catchUp movedBy (sight u c.log).pending q := by
  obtain ⟨B, hB⟩ := sight_pending_suffix (l := c.log) (t := u)
  have hnd := hI.nodup
  -- what the request has missed of `t` is this rename
  have hin : (t, old, new) ∈ (sight u c.log).pending := by
    obtain ⟨e, he, het⟩ := List.any_eq_true.1 hany
    have het : e.1 = t := by simpa using het
    rw [← hB] at hmem hnd
    rcases List.mem_append.1 hmem with hmem | hmem
    · rw [List.map_append, List.nodup_append] at hnd
      exact absurd het.symm (hnd.2.2 t (List.mem_map_of_mem hmem) e.1 (List.mem_map_of_mem he))
    · exact hmem
  obtain ⟨A, C, hAC⟩ := List.append_of_mem hin
  have hsub : ((sight u c.log).pending.map Prod.fst).Nodup :=
    hnd.sublist ((sight_pending_suffix (l := c.log) (t := u)).sublist.map _)
  have hsettle := catchUp_settle hsub hAC (fun r hr x => (hok.renamed t old new rfl (B ++ A) C
    (by rw [← hB, hAC, List.append_assoc]) r (List.mem_append_right _ hr)).comm x) q
  rwa [movedBy, moved_of_not hq] at hsettle

theorem requests_act (hI : Tracks c) (hlive : c.live t = some (o, .act a k))
    (hpre : passages.pre (passages.ghost .init t c.log) a) (hok : KeepsOrder c (.acted t a r))
    (hs : s.paths.Sound) (hlater : c.st.paths.Later s.paths) (hstep : fsMachine.Step a c.st r s)
    (hq : resolved u (c.log ++ [.acted t a r]) = some (ino, q))
    (happ : ∀ old ∈ (sight u (c.log ++ [.acted t a r])).applied, ¬ AtOrBelow old q) :
    ino < s.paths.next ∧ ∀ p, s.paths.pathFor ino = some p →
      p = catchUp movedBy (sight u (c.log ++ [.acted t a r])).pending q := by
  have hroom := hok.room t a r rfl
  rw [sight_snoc] at happ ⊢
  by_cases ha : a.Relocates
  · rw [resolved_snoc_of_relocates ha] at hq
    cases a with
    | renamePaths old new =>
      obtain ⟨hlt, hp⟩ := hI.requests u ino q hq happ
      refine ⟨hlt.trans_le hlater.next_le, fun p' hp' => ?_⟩
      rw [paths_of_renamePaths hstep] at hp'
      obtain ⟨p, hp₀, rfl⟩ := hI.sound.pathFor_of_rename hp'
      rw [Sight.next, catchUp_snoc, ← hp p hp₀]
      rfl
    | followRenames old new =>
      rw [Sight.next] at happ ⊢
      split at happ
      · next hany =>
        obtain ⟨hq', happ⟩ := List.forall_mem_cons.1 happ
        obtain ⟨hlt, hp⟩ := hI.requests u ino q hq happ
        refine ⟨hlt.trans_le hlater.next_le, fun p' hp' => ?_⟩
        rw [if_pos hany, hI.sight_follow (hI.mem_pending_of_follow hlive hpre) hok hany hq']
        exact hp p' (pathFor_of_step hstep hI.sound hroom nofun hlt hp')
      · next hany =>
        obtain ⟨hlt, hp⟩ := hI.requests u ino q hq happ
        refine ⟨hlt.trans_le hlater.next_le, fun p' hp' => ?_⟩
        rw [if_neg hany]
        exact hp p' (pathFor_of_step hstep hI.sound hroom nofun hlt hp')
    | _ => exact ha.elim
  · rw [Sight.next_of_not ha] at happ ⊢
    by_cases hres : t = u ∧ (a.resolves r).isSome = true
    · rw [if_pos hres]
      obtain ⟨rfl, hsome⟩ := hres
      rw [resolved_snoc_self, Option.or_of_isSome hsome] at hq
      have hpath := pathFor_of_resolves hstep hs hq
      exact ⟨hs.below _ _ hpath, fun p hp => Option.some.inj (hp.symm.trans hpath)⟩
    · rw [if_neg hres] at happ ⊢
      have hq' : resolved u c.log = some (ino, q) := by
        by_cases hu : t = u
        · subst hu
          rw [resolved_snoc_self, Option.not_isSome_iff_eq_none.1 fun h => hres ⟨rfl, h⟩] at hq
          exact hq
        · rwa [resolved_snoc_ne hu] at hq
      obtain ⟨hlt, hp⟩ := hI.requests u ino q hq' happ
      refine ⟨hlt.trans_le hlater.next_le, fun p' hp' => hp p' (pathFor_of_step hstep hI.sound hroom
        ?_ hlt hp')⟩
      rintro ⟨old, new, rfl⟩
      exact ha trivial

/-- **An action that keeps to the order.** -/
theorem act (hI : Tracks c) (hlive : c.live t = some (o, .act a k))
    (hpre : passages.pre (passages.ghost .init t c.log) a) (hspares : a.SparesRoot)
    (honce : HandedOutOnce c (.acted t a r)) (hok : KeepsOrder c (.acted t a r))
    (hstep : fsMachine.Step a c.st r s) : Tracks (c.act t o a r p s) := by
  obtain ⟨hs, hlater, -⟩ := sound_of_step hstep hI.sound hspares (hok.room t a r rfl)
  exact ⟨hs, hI.nodup_act hpre, fun _ => hI.pending_act hlive hpre,
    fun _ _ _ => hI.handles_act hlive hpre hok honce hlater hstep,
    fun _ _ _ => hI.requests_act hlive hpre hok hs hlater hstep⟩

end Tracks

end

/-! ## Whole runs -/

section
variable {nfc : Str → Str} {cacheRoot : Option Str} {disk : Disk} {c : FsConfig}

theorem run_tracks (h : (fsService nfc cacheRoot).Run KeepsOrder (.initial (.new disk)) c) :
    Tracks c := by
  refine h.invariant_of_contract (passages_honoured nfc cacheRoot)
    (fun _ _ _ _ _ _ _ _ => trivial) (.initial disk) ?_ ?_ ?_
  · intro c t o _ hI hfresh hnone _
    refine hI.snoc rfl rfl nofun fun u hu => ?_
    rw [Config.start_live]
    split
    · next hut =>
      rw [hut, Contract.ghost_eq_init hfresh] at hu
      exact absurd rfl hu
    · rfl
  · intro c t o a k r s hrun hI hlive hpre hok hstep
    exact hI.act hlive hpre (hrun.only (Op.prog_sparesRoot nfc cacheRoot) hlive).1
      (handedOutOnce_of_step (fun _ _ hok => hok.few) hrun (.act hlive hstep)) hok hstep
  · intro c t o res _ hI hlive hpost _
    refine hI.snoc rfl rfl nofun fun u hu => ?_
    rw [Config.finish_live]
    split
    · next hut =>
      rw [hut] at hu
      exact absurd hpost hu
    · rfl

/-- **The handles follow the renames**: in every run that keeps to the order of the path map,
whenever no request is in progress. -/
theorem handles_follow (h : (fsService nfc cacheRoot).Run KeepsOrder (.initial (.new disk)) c)
    (hq : c.Quiet) : HandlesFollow c := by
  intro fh h' ino p hget hop hp
  have hI := run_tracks h
  have hnil : pendingRenames c.log = [] := by
    refine List.eq_nil_iff_forall_not_mem.2 fun ⟨t, r⟩ hr => ?_
    obtain ⟨hlive, -⟩ := (hI.pending t r).1 hr
    rw [hq t] at hlive
    cases hlive
  have hpath := (hI.handles fh h' ino hget hop).2 p hp
  rw [hnil, catchUp_nil] at hpath
  exact hpath.symm

end

/-! ## Runs -/

/-- Create the file `/a`, rename it to `/b`, and open it between the two sections of the rename. -/
def openWithinRename : List (Move World Op) :=
  .start 0 (.create rootInode (some ['a'])) :: List.replicate 12 (.act 0 .calm) ++
  .finish 0 :: .start 1 (.rename rootInode (some ['a']) rootInode (some ['b'])) ::
    List.replicate 5 (.act 1 .calm) ++
  .start 2 (.open 2 0) :: List.replicate 10 (.act 2 .calm) ++
  .finish 2 :: List.replicate 3 (.act 1 .calm) ++ [.finish 1]

/-- Create the file `/a` and open it, and rename it to `/b` after the `open` has resolved the path. -/
def openAcrossRename : List (Move World Op) :=
  .start 0 (.create rootInode (some ['a'])) :: List.replicate 12 (.act 0 .calm) ++
  [.finish 0, .start 1 (.open 2 0), .act 1 .calm,
    .start 2 (.rename rootInode (some ['a']) rootInode (some ['b']))] ++
    List.replicate 8 (.act 2 .calm) ++
  .finish 2 :: List.replicate 9 (.act 1 .calm) ++ [.finish 1]

/-- Whether the step keeps to the order, with at most one rename on its way. -/
def followsInOrder (c : FsConfig) (e : FsEvent) : Bool :=
  decide (DrawsFew c e) && match e with
    | .acted t a _ => decide (c.st.paths.next + a.interned < inodeSpace) && match a with
      | .handleInsert _ h =>
        ((sight t c.log).applied.all fun old => !decide (AtOrBelow old h.remotePath)) &&
          (pendingRenames c.log).all fun r => !decide (AtOrBelow r.2.1 h.remotePath)
      | .followRenames .. => decide ((pendingRenames c.log).length ≤ 1)
      | _ => true
    | _ => true

theorem keepsOrder_of_bool {c : FsConfig} {e : FsEvent} (he : followsInOrder c e = true) :
    KeepsOrder c e := by
  obtain ⟨hfew, he⟩ := Bool.and_eq_true_iff.1 he
  refine ⟨of_decide_eq_true hfew, ?_, ?_, ?_⟩
  · rintro t a r rfl
    exact of_decide_eq_true (Bool.and_eq_true_iff.1 he).1
  · rintro t fh h rfl
    obtain ⟨happlied, hpending⟩ := Bool.and_eq_true_iff.1 (Bool.and_eq_true_iff.1 he).2
    exact ⟨fun old hold => by simpa using List.all_eq_true.1 happlied old hold,
      fun r hr _ => by simpa using List.all_eq_true.1 hpending r hr⟩
  · rintro t old new rfl A C hAC r hr
    have hle : (pendingRenames c.log).length ≤ 1 := of_decide_eq_true (Bool.and_eq_true_iff.1 he).2
    have hpos := List.length_pos_of_mem hr
    rw [hAC, List.length_append, List.length_cons] at hle
    omega

/-- Whether the entry published the handle `fh` for the inode. -/
def opensOn (l : List FsEvent) (fh : Nat) (ino : Ino) (i : Nat) : Bool :=
  match l[i]? with
  | some (.acted t (.handleInsert fh' _) _) =>
    fh' == fh && (resolved t (l.take i)).any fun x => x.1 == ino
  | _ => false

theorem openedOn_of_bool {l : List FsEvent} {fh i : Nat} {ino : Ino}
    (h : opensOn l fh ino i = true) : OpenedOn l fh ino := by
  unfold opensOn at h
  split at h
  · next t fh' handle r hi =>
    obtain ⟨hfh, hres⟩ := Bool.and_eq_true_iff.1 h
    obtain ⟨⟨ino', p⟩, hp, hino⟩ := (Option.any_eq_true ..).1 hres
    obtain rfl : fh' = fh := by simpa using hfh
    obtain rfl : ino' = ino := by simpa using hino
    exact ⟨i, t, handle, p, hi, hp⟩
  · cases h

/-- Two handles follow the file to its new name, one of them opened half-way. -/
theorem handles_follow_openWithinRename :
    ∃ c, plainFs.Run KeepsOrder (.initial (.new .empty)) c ∧
      c.st.paths.pathFor 2 = some ['/', 'b'] ∧ OpenedOn c.log 1 2 ∧ OpenedOn c.log 2 2 ∧
      HandlesFollow c := by
  have hplay : (plainFs.play followsInOrder openWithinRename (.initial (.new .empty))).any
      (fun c => (c.log.all fun e => (c.live e.tid).isNone) &&
        (decide (c.st.paths.pathFor 2 = some ['/', 'b']) &&
          (opensOn c.log 1 2 12 && opensOn c.log 2 2 30))) = true := by
    decide +kernel
  obtain ⟨c, hc, hb⟩ := (Option.any_eq_true ..).1 hplay
  obtain ⟨hquiet, hb⟩ := Bool.and_eq_true_iff.1 hb
  obtain ⟨hpath, hb⟩ := Bool.and_eq_true_iff.1 hb
  obtain ⟨hfirst, hsecond⟩ := Bool.and_eq_true_iff.1 hb
  have hrun : plainFs.Run KeepsOrder (.initial (.new .empty)) c :=
    plainFs.run_of_play .refl hc fun _ _ _ => keepsOrder_of_bool
  exact ⟨c, hrun, of_decide_eq_true hpath, openedOn_of_bool hfirst, openedOn_of_bool hsecond,
    handles_follow hrun (quiet_of_bool hrun hquiet)⟩

/-- The property fails in some run: the handle of the `open` keeps the old name of the file. -/
theorem open_keeps_oldPath :
    ¬ ∀ (nfc : Str → Str) (cacheRoot : Option Str) (disk : Disk) (c : FsConfig),
      (fsService nfc cacheRoot).Run (fun _ _ => True) (.initial (.new disk)) c → c.Quiet →
        HandlesFollow c := by
  intro h
  have hplay : (plainFs.play (fun _ _ => true) openAcrossRename (.initial (.new .empty))).any
      (fun c => (c.log.all fun e => (c.live e.tid).isNone) &&
        (decide (c.st.paths.pathFor 2 = some ['/', 'b']) && (opensOn c.log 2 2 34 &&
          (c.st.openHandles.get 2).any fun h => decide (h.remotePath = ['/', 'a'])))) = true := by
    decide +kernel
  obtain ⟨c, hc, hb⟩ := (Option.any_eq_true ..).1 hplay
  obtain ⟨hquiet, hb⟩ := Bool.and_eq_true_iff.1 hb
  obtain ⟨hpath, hb⟩ := Bool.and_eq_true_iff.1 hb
  obtain ⟨hopened, hb⟩ := Bool.and_eq_true_iff.1 hb
  obtain ⟨handle, hget, hold⟩ := (Option.any_eq_true ..).1 hb
  have hrun : plainFs.Run (fun _ _ => True) (.initial (.new .empty)) c :=
    plainFs.run_of_play .refl hc fun _ _ _ _ => trivial
  have heq := h id none .empty c hrun (quiet_of_bool hrun hquiet) 2 handle 2 _ hget
    (openedOn_of_bool hopened) (of_decide_eq_true hpath)
  cases (of_decide_eq_true hold).symm.trans heq

end UnidriveMount
