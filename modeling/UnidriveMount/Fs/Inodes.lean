import UnidriveMount.Fs.Footprint
import UnidriveMount.PathMapRuns

/-!
# The inode numbers of the filesystem

The critical sections use the path map as `PathMap.runs_correct` asks: they forget and rename only
paths of children, so that the map stays `Sound` as long as its counter does not wrap around.
-/

namespace UnidriveMount

open Lib
open Lib.Prog (only_perform)

/-- How many paths the action interns. -/
def Act.interned : Act → Nat
  | intern _ => 1
  | insertListed entries => entries.length
  | _ => 0

/-- How many paths were interned. -/
def interned (es : List (Occ Act.Ret)) : Nat := (es.map fun e => e.1.interned).sum

@[simp] theorem interned_nil : interned [] = 0 := rfl

@[simp] theorem interned_cons (a : Act) (r : a.Ret) (es : List (Occ Act.Ret)) :
    interned (⟨a, r⟩ :: es) = a.interned + interned es := rfl

theorem interned_append (es es' : List (Occ Act.Ret)) :
    interned (es ++ es') = interned es + interned es' := by
  simp [interned]

/-- The action leaves the root of the path map where it is. -/
def Act.SparesRoot : Act → Prop
  | forget path => path ≠ []
  | renamePaths old new => old ≠ [] ∧ new ≠ []
  | _ => True

namespace PathMap

theorem Sound.back {m : PathMap} (h : m.Sound) : m.Back := fun i p => (h.inverse p i).2

/-- Only the empty path is at the root's inode. -/
theorem Sound.ne_rootInode {m : PathMap} (h : m.Sound) {path : Str} {inode : Ino}
    (hfor : m.inodeFor path = some inode) (hpath : path ≠ []) : inode ≠ rootInode := by
  rintro rfl
  exact hpath (h.toWF.inode_inj hfor h.root)

end PathMap

variable {s s' : FsState}

/-- The path map after a listing was taken over. -/
theorem insertListed_sound {entries : List ListEntry} (h : s.paths.Sound)
    (hroom : s.paths.next + entries.length < inodeSpace) :
    (s.insertListed entries).2.paths.Sound ∧ s.paths.Later (s.insertListed entries).2.paths ∧
      (s.insertListed entries).2.paths.next ≤ s.paths.next + entries.length := by
  induction entries generalizing s with
  | nil => exact ⟨h, .refl _, le_rfl⟩
  | cons e entries ih =>
    rw [List.length_cons] at hroom ⊢
    obtain ⟨hsound, hlater, hnext⟩ := h.intern e.path (by omega)
    obtain ⟨hsound', hlater', hnext'⟩ := ih (s := { s with
      paths := (s.paths.intern e.path).2
      attrs := s.attrs.insert (s.paths.intern e.path).1 (.ofListEntry e) }) hsound
      (by show (s.paths.intern e.path).2.next + _ < _; omega)
    refine ⟨hsound', hlater.trans hlater', hnext'.trans ?_⟩
    show (s.paths.intern e.path).2.next + _ ≤ _
    omega

/-- One action keeps the path map sound and assigns no old inode, if the counter does not wrap
around. -/
theorem sound_of_step {a : Act} {r : a.Ret} (hst : fsMachine.Step a s r s') (h : s.paths.Sound)
    (ha : a.SparesRoot) (hroom : s.paths.next + a.interned < inodeSpace) :
    s'.paths.Sound ∧ s.paths.Later s'.paths ∧ s'.paths.next ≤ s.paths.next + a.interned := by
  by_cases hp : s'.paths = s.paths
  · rw [hp]
    exact ⟨h, .refl _, Nat.le_add_right ..⟩
  · obtain ⟨-, (w : World), (hrun : a.run w s = (r, s'))⟩ := hst
    cases a with
    | intern path =>
      cases hrun
      exact h.intern path hroom
    | insertListed entries =>
      obtain rfl : s' = (s.insertListed entries).2 := (congrArg Prod.snd hrun).symm
      exact insertListed_sound h hroom
    | forget path =>
      cases hrun
      obtain ⟨hsound, hlater⟩ := h.forget ha
      exact ⟨hsound, hlater, (PathMap.forget_next ..).le⟩
    | renamePaths old new =>
      cases hrun
      obtain ⟨hsound, hlater⟩ := h.rename ha.1 ha.2
      exact ⟨hsound, hlater, (PathMap.rename_next ..).le⟩
    | handleWrite | handleSetLen | handleClaim =>
      refine absurd ?_ hp
      simp only [Act.run, FsState.handleWrite, FsState.handleSetLen, FsState.handleClaim] at hrun
      split at hrun <;> [skip; split at hrun] <;> cases hrun <;> rfl
    | attrOpened | openFile | setLen =>
      refine absurd ?_ hp
      simp only [Act.run] at hrun
      split at hrun <;> cases hrun <;> rfl
    | removeFile path | removeDirAll path =>
      cases hrun
      exact absurd (by split <;> rfl) hp
    | _ =>
      cases hrun
      exact absurd rfl hp

/-- A program keeps the path map sound and assigns no old inode, if the counter does not wrap
around. -/
theorem sound_of_exec {α : Type} {p : FsProg α} {es : List (Occ Act.Ret)} {res : Except Errno α}
    (hx : Exec fsMachine p s es res s') (h : s.paths.Sound) (hp : p.Only Act.SparesRoot)
    (hroom : s.paths.next + interned es < inodeSpace) :
    s'.paths.Sound ∧ s.paths.Later s'.paths ∧ s'.paths.next ≤ s.paths.next + interned es := by
  induction hx with
  | ret => exact ⟨h, .refl _, le_rfl⟩
  | act hst _ ih =>
    rw [interned_cons] at hroom ⊢
    obtain ⟨hsound, hlater, hnext⟩ := sound_of_step hst h hp.1 (by omega)
    obtain ⟨hsound', hlater', hnext'⟩ := ih hsound (hp.2 _) (by omega)
    exact ⟨hsound', hlater.trans hlater', by omega⟩

/-! ## The programs -/

/-- Only `unlink`, `rmdir` and `rename` take paths away. -/
theorem Op.May.sparesRoot {o : Op} (ho : match o with
    | .unlink .. | .rmdir .. | .rename .. => False
    | _ => True) {a : Act} (h : o.May a) : a.SparesRoot := by
  cases a with
  | forget path =>
    rcases h with h | h <;> cases o <;> first | exact ho.elim | exact h.elim | skip
    all_goals rcases h with h | h <;> first | exact h.elim | rcases h with h | h <;> exact h.elim
  | renamePaths old new =>
    rcases h with h | h <;> cases o <;> first | exact ho.elim | exact h.elim | skip
    all_goals rcases h with h | h <;> first | exact h.elim | rcases h with h | h <;> exact h.elim
  | _ => trivial

theorem forgetEntry_sparesRoot {cp : Str} (h : cp ≠ []) : (forgetEntry cp).Only Act.SparesRoot := by
  refine .bind (only_perform h) fun ino => .bind (only_perform trivial) fun _ => ?_
  cases ino with
  | some inode => exact only_perform trivial
  | none => exact only_pure _

/-- **No program takes the root away.** -/
theorem Op.prog_sparesRoot (nfc : Str → Str) (cacheRoot : Option Str) (o : Op) :
    (o.prog nfc cacheRoot).Only Act.SparesRoot := by
  cases o with
  | unlink parent name | rmdir parent name =>
    refine .bind (.bind (only_okOr ..) fun _ => .bind (only_perform trivial) fun _ =>
      .bind (only_okOr ..) fun _ => .bind (only_ipc trivial trivial) fun _ =>
      .bind (only_mapErr ..) fun _ =>
      .bind (forgetEntry_sparesRoot (childPath_ne_nil _ _ _)) fun _ => ?_) fun _ => only_pure _
    cases cacheRoot with
    | some root => exact only_perform trivial
    | none => exact only_pure _
  | rename oldParent oldName newParent newName =>
    exact .bind (.bind (only_okOr ..) fun _ => .bind (only_okOr ..) fun _ =>
      .bind (only_perform trivial) fun _ => .bind (only_okOr ..) fun _ =>
      .bind (only_okOr ..) fun _ =>
      .bind (refuseNfcCollision_only fun a h => by cases a <;> trivial) fun _ =>
      .bind (only_ipc trivial trivial) fun _ => .bind (only_mapErr ..) fun _ =>
      .bind (only_perform ⟨childPath_ne_nil _ _ _, childPath_ne_nil _ _ _⟩) fun _ =>
      .bind (only_perform trivial) fun _ => .bind (only_perform trivial) fun _ =>
      recordRawName_only fun a h => by cases a <;> trivial) fun _ => only_pure _
  | _ => exact (Op.prog_only _).mono fun _ h => h.sparesRoot trivial

end UnidriveMount
