import UnidriveMount.Fs.Sizes

/-!
# Truncation without a handle

`setattr` without a handle has the content materialised, cuts the cache copy, uploads it, and asks for
the attributes it answers with. It uploads nothing that was not cut (`bare_truncate_uploads_cut`). What
comes after the cut can still fail, and the copy then stays cut: the whole is all or nothing exactly when
the cut fails or changes no length, or the upload succeeds and the attributes can be had
(`bare_truncate_all_or_nothing_iff`).
-/

namespace UnidriveMount

open Lib
open Lib.Prog (fail okOr ofExcept only_perform)

variable {α β : Type} {nfc : Str → Str} {cacheRoot : Option Str} {s s₁ s' : FsState}
  {es es₁ es₂ : List (Occ Act.Ret)} {ino : Ino} {newSize no : Nat}

/-! ## The cache copy -/

/-- The cache copy a truncation works on, opened for writing. -/
def copyFile (no : Nat) : File := ⟨no, true⟩

/-- The machine while the daemon leaves the bytes of a cache copy as they are. -/
def sparingMachine (no : Nat) : Machine Act Act.Ret FsState where
  World := { w : World // ∀ d : Disk, (w.engine d).bytes (copyFile no) = d.bytes (copyFile no) }
  ready := Act.ready
  run a w := a.run w.1

theorem step_of_sparing {a : Act} {r : a.Ret} (h : (sparingMachine no).Step a s r s') :
    fsMachine.Step a s r s' := by
  obtain ⟨hready, w, hrun⟩ := h
  exact ⟨hready, w.1, hrun⟩

/-- The mount changes the bytes of no cache file with it. -/
def Act.SparesBytes : Act → Prop
  | openFile _ .createTruncate | setLen .. | handleWrite .. | handleSetLen .. => False
  | _ => True

theorem Act.Looks.sparesBytes {a : Act} (h : a.Looks) : a.SparesBytes := by
  cases a with
  | openFile | setLen | handleWrite | handleSetLen => exact h.elim
  | _ => trivial

theorem FsState.insertListed_disk (s : FsState) (entries : List ListEntry) :
    (s.insertListed entries).2.disk = s.disk := by
  induction entries generalizing s with
  | nil => rfl
  | cons e entries ih => exact ih _

theorem sparing_bytes_of_step {a : Act} {r : a.Ret} (hst : (sparingMachine no).Step a s r s')
    (ha : a.SparesBytes) : s'.disk.bytes (copyFile no) = s.disk.bytes (copyFile no) := by
  obtain ⟨-, w, (hrun : a.run w.1 s = (r, s'))⟩ := hst
  cases a with
  | reply verb =>
    cases hrun
    exact w.2 s.disk
  | openFile path mode =>
    simp only [Act.run] at hrun
    split at hrun
    · cases hrun
      unfold Disk.openFile
      cases mode with
      | createTruncate => exact ha.elim
      | read | write => cases s.disk.names.get path <;> rfl
    · cases hrun
      rfl
  | removeFile path | removeDirAll path =>
    cases hrun
    split <;> rfl
  | insertListed entries =>
    have hs' : s' = (s.insertListed entries).2 := (congrArg Prod.snd hrun).symm
    rw [hs', s.insertListed_disk]
  | attrOpened inode len =>
    simp only [Act.run] at hrun
    split at hrun <;> cases hrun <;> rfl
  | handleClaim fh datasync =>
    have hrun : s.handleClaim w.1 fh = (r, s') := hrun
    unfold FsState.handleClaim at hrun
    split at hrun
    · cases hrun
      rfl
    · split at hrun <;> cases hrun <;> rfl
  | setLen | handleWrite | handleSetLen => exact ha.elim
  | _ =>
    cases hrun
    rfl

theorem sparing_bytes_of_exec {p : FsProg α} {res : Except Errno α}
    (hx : Exec (sparingMachine no) p s es res s') (hp : p.Only Act.SparesBytes) :
    s'.disk.bytes (copyFile no) = s.disk.bytes (copyFile no) :=
  hx.invariant hp (I := fun s₁ => s₁.disk.bytes (copyFile no) = s.disk.bytes (copyFile no)) rfl
    fun _ _ _ _ ha _ hst h => (sparing_bytes_of_step hst ha).trans h

theorem length_setLength (bytes : List UInt8) (n : Nat) : (setLength bytes n).length = n := by
  simp only [setLength, List.length_append, List.length_take, List.length_replicate]
  omega

theorem setLength_eq_iff {bytes : List UInt8} {n : Nat} :
    setLength bytes n = bytes ↔ bytes.length = n := by
  constructor
  · intro h
    rw [← h, length_setLength]
  · intro h
    subst h
    simp [setLength]

theorem Disk.bytes_setLen (d : Disk) (f : File) (n : Nat) :
    (d.setLen f n).bytes f = setLength (d.bytes f) n := by
  show ((d.contents.insert f.no _).get f.no).getD [] = _
  rw [HashMap.get_insert_self]
  rfl

/-! ## The program -/

/-- A truncation without a handle up to its cache copy: the handle id, the path, and where the copy is. -/
def materializeCopy (inode : Ino) : FsProg (Str × Str × Str) := do
  let path ← okOr (← perform (.pathFor inode)) .ENOENT
  let handleId := handleIdOf "truncN-" (← perform .nextHandleId)
  let reply ← mapErr ipcErrorToErrno (← ipc (.openRead handleId path))
  return (handleId, path, reply.cachePath)

/-- The cut of the copy, if it could be opened, and its upload. -/
def cutAndUpload (newSize : Nat) (handleId path cachePath : Str) (copy : Option File) : FsProg Unit := do
  match copy with
  | none =>
    let _ ← ipc (.closeHandle handleId)
    fail Errno.EIO
  | some file =>
    if ← perform (.setLen file newSize) then
      let upload ← ipc (.openWrite handleId path cachePath)
      let _ ← ipc (.closeHandle handleId)
      let _ ← mapErr ipcErrorToErrno upload
      return ()
    else
      let _ ← ipc (.closeHandle handleId)
      fail Errno.EIO

/-- The attributes after the truncation. -/
def answerResized (inode : Ino) (newSize : Nat) : FsProg ReplyAttr := do
  perform (.attrEdit inode (if newSize = 0 then .truncated else .resized newSize))
  let a ← getOrFetchAttr inode
  return ⟨ttl, fileAttrFromCached inode a⟩

theorem setattr_bare_eq (hsize : 0 < newSize) :
    setattr ino none (some newSize) = materializeCopy ino >>= fun x => perform (.openFile x.2.2 .write) >>=
      fun copy => cutAndUpload newSize x.1 x.2.1 x.2.2 copy >>= fun _ => answerResized ino newSize := by
  have hne : newSize ≠ 0 := by omega
  unfold setattr materializeCopy setattrSize truncate bareTruncateToSize answerResized cutAndUpload
  simp only [if_neg hne, Prog.bind_assoc, Prog.pure_eq, Prog.ok_bind]
  refine bind_congr fun _ => bind_congr fun path => bind_congr fun n => bind_congr fun r =>
    bind_congr fun reply => bind_congr fun copy => ?_
  cases copy <;> rfl

section
variable {handleId path cachePath : Str}

/-- How a cut of the copy and its upload end. -/
inductive Cuts (newSize no : Nat) (handleId path cachePath : Str) :
    List (Occ Act.Ret) → Except Errno Unit → Prop where
  | uncut (closed : Except IpcError (Verb.closeHandle handleId).Reply) :
    Cuts newSize no handleId path cachePath
      [⟨.setLen (copyFile no) newSize, false⟩, ⟨.call (.closeHandle handleId), ()⟩,
        ⟨.reply (.closeHandle handleId), closed⟩] (.error Errno.EIO)
  | rejected (e : IpcError) (closed : Except IpcError (Verb.closeHandle handleId).Reply) :
    Cuts newSize no handleId path cachePath
      [⟨.setLen (copyFile no) newSize, true⟩, ⟨.call (.openWrite handleId path cachePath), ()⟩,
        ⟨.reply (.openWrite handleId path cachePath), .error e⟩, ⟨.call (.closeHandle handleId), ()⟩,
        ⟨.reply (.closeHandle handleId), closed⟩] (.error (ipcErrorToErrno e))
  | uploaded (reply : OpenReply) (closed : Except IpcError (Verb.closeHandle handleId).Reply) :
    Cuts newSize no handleId path cachePath
      [⟨.setLen (copyFile no) newSize, true⟩, ⟨.call (.openWrite handleId path cachePath), ()⟩,
        ⟨.reply (.openWrite handleId path cachePath), .ok reply⟩, ⟨.call (.closeHandle handleId), ()⟩,
        ⟨.reply (.closeHandle handleId), closed⟩] (.ok ())

/-- No listing is taken over. -/
theorem Cuts.takenOver_append {res : Except Errno Unit} (h : Cuts newSize no handleId path cachePath es res)
    (es' : List (Occ Act.Ret)) : takenOver (es ++ es') = takenOver es' := by
  cases h <;> rfl

/-- The bytes a cut leaves. -/
def cutBytes (cut : Bool) (newSize : Nat) (bytes : List UInt8) : List UInt8 :=
  if cut then setLength bytes newSize else bytes

theorem exec_cutAndUpload {res : Except Errno Unit}
    (hx : Exec (sparingMachine no) (cutAndUpload newSize handleId path cachePath (some (copyFile no))) s es
      res s') :
    Cuts newSize no handleId path cachePath es res ∧ s'.attrs = s.attrs ∧ ∃ cut,
      (⟨.setLen (copyFile no) newSize, cut⟩ : Occ Act.Ret) ∈ es ∧
      s'.disk.bytes (copyFile no) = cutBytes cut newSize (s.disk.bytes (copyFile no)) := by
  obtain ⟨cut, s₁, es₁, ⟨-, w, hrun⟩, rfl, h₁⟩ := exec_perform_bind_iff.1 hx
  have hrun : (if w.1.io && (copyFile no).writable && decide (newSize ≤ maxOffset) then
      (true, { s with disk := s.disk.setLen (copyFile no) newSize }) else (false, s)) = (cut, s₁) := hrun
  have hcut : s₁.attrs = s.attrs ∧
      s₁.disk.bytes (copyFile no) = cutBytes cut newSize (s.disk.bytes (copyFile no)) := by
    split at hrun
    · cases hrun
      exact ⟨rfl, s.disk.bytes_setLen ..⟩
    · cases hrun
      exact ⟨rfl, rfl⟩
  cases cut with
  | false =>
    have hbytes := sparing_bytes_of_exec h₁ (.bind (only_ipc trivial trivial) fun _ => only_fail _)
    have h₁ := h₁.of_step fun _ _ _ _ => step_of_sparing
    obtain ⟨-, closed, d, es₂, rfl, h₂⟩ := exec_ipc h₁
    obtain ⟨rfl, rfl, rfl⟩ := exec_ret_iff.1 h₂
    exact ⟨.uncut closed, hcut.1, false, .head _, hbytes.trans hcut.2⟩
  | true =>
    have hbytes := sparing_bytes_of_exec h₁ (.bind (only_ipc trivial trivial) fun _ =>
      .bind (only_ipc trivial trivial) fun _ => .bind (only_mapErr ..) fun _ => only_pure _)
    have h₁ := h₁.of_step fun _ _ _ _ => step_of_sparing
    obtain ⟨-, upload, d, es₂, rfl, h₂⟩ := exec_ipc h₁
    obtain ⟨-, closed, d', es₃, rfl, h₃⟩ := exec_ipc h₂
    rcases exec_mapErr h₃ with ⟨reply, rfl, h₄⟩ | ⟨e, rfl, rfl, rfl, rfl⟩
    · obtain ⟨rfl, rfl, rfl⟩ := exec_ret_iff.1 h₄
      exact ⟨.uploaded reply closed, hcut.1, true, .head _, hbytes.trans hcut.2⟩
    · exact ⟨.rejected e closed, hcut.1, true, .head _, hbytes.trans hcut.2⟩

end

/-- The attributes of the inode can be had: they are cached, or a listing in the run shows them. -/
def Fetchable (ino : Ino) (s : FsState) (es : List (Occ Act.Ret)) : Prop :=
  ino = rootInode ∨ s.attrs.get ino ≠ none ∨ ∃ x ∈ takenOver es, x.1 = ino

theorem exec_getOrFetchAttr_iff {res : Except Errno CachedAttr}
    (hx : Exec fsMachine (getOrFetchAttr ino) s es res s') :
    ((∃ a, res = .ok a) ↔ Fetchable ino s es) ∧ ∀ e, res = .error e → s'.attrs.get ino = none := by
  unfold getOrFetchAttr at hx
  split at hx
  · next hroot =>
    obtain ⟨-, rfl, -⟩ := exec_ret_iff.1 hx
    exact ⟨⟨fun _ => .inl hroot, fun _ => ⟨_, rfl⟩⟩, fun _ he => by cases he⟩
  next hroot =>
  obtain ⟨es₁, rfl, h₁⟩ := exec_perform_bind_of_run hx fun _ => rfl
  cases hget : s.attrs.get ino with
  | some b =>
    rw [hget] at h₁
    obtain ⟨-, rfl, -⟩ := exec_ret_iff.1 h₁
    exact ⟨⟨fun _ => .inr (.inl (by simp [hget])), fun _ => ⟨_, rfl⟩⟩, fun _ he => by cases he⟩
  | none =>
    rw [hget] at h₁
    have hfail : ∀ {es : List (Occ Act.Ret)} {e : Errno}, takenOver es = [] →
        ((∃ a, (.error e : Except Errno CachedAttr) = .ok a) ↔ Fetchable ino s es) := by
      intro es e hnil
      constructor
      · rintro ⟨a, ha⟩
        cases ha
      · rintro (h | h | ⟨x, hx, -⟩)
        · exact absurd h hroot
        · exact absurd hget h
        · rw [hnil] at hx
          cases hx
    obtain ⟨es₂, rfl, h₂⟩ := exec_perform_bind_of_run h₁ fun _ => rfl
    rcases (exec_okOr h₂).symm with ⟨-, rfl, rfl, rfl⟩ | ⟨path, -, h₃⟩
    · exact ⟨hfail rfl, fun _ _ => hget⟩
    obtain ⟨r, es₃, es₄, s₁, hp, h₄, rfl⟩ := exec_populateFromList h₃
    rcases (exec_mapErr h₄).symm with ⟨e, rfl, rfl, rfl, rfl⟩ | ⟨listed, rfl, h₅⟩
    · cases hp with
      | failed e d => exact ⟨hfail rfl, fun _ _ => hget⟩
    obtain ⟨es₅, rfl, h₆⟩ := exec_perform_bind_of_run h₅ fun _ => rfl
    cases hp with
    | listed entries d =>
      rw [← Prog.bind_pure (okOr ..)] at h₆
      rcases (exec_okOr h₆).symm with ⟨hattr, rfl, rfl, rfl⟩ | ⟨a, hattr, h₇⟩
      · refine ⟨⟨?_, ?_⟩, fun _ _ => hattr⟩
        · rintro ⟨a, ha⟩
          cases ha
        · rintro (h | h | ⟨x, hx, rfl⟩)
          · exact absurd h hroot
          · exact absurd hget h
          have hx : x ∈ ((s.withDisk d).takeListed entries).1 ++ [] := hx
          obtain ⟨a, ha⟩ := (FsState.cached_of_mem_takeListed ((List.append_nil _) ▸ hx)).2
          cases hattr.symm.trans ha
      · obtain ⟨rfl, rfl, -⟩ := exec_ret_iff.1 h₇
        refine ⟨⟨fun _ => ?_, fun _ => ⟨a, rfl⟩⟩, fun e he => by cases he⟩
        have hlisted : ((s.withDisk d).takeListed entries).2.attrs.get ino = s.attrs.get ino ∨
            ∃ x ∈ ((s.withDisk d).takeListed entries).1, x.1 = ino ∧
              ((s.withDisk d).takeListed entries).2.attrs.get ino = some (.ofListEntry x.2) :=
          FsState.get_insertListed_eq _ _ ino
        rcases hlisted with heq | ⟨x, hx, hino, -⟩
        · cases hget.symm.trans (heq.symm.trans hattr)
        · exact .inr (.inr ⟨x, List.mem_append_left [] hx, hino⟩)

/-- The answer can be given exactly when the attributes can be had. -/
theorem exec_answerResized {res : Except Errno ReplyAttr}
    (hx : Exec fsMachine (answerResized ino newSize) s es res s') :
    ((∃ r, res = .ok r) ↔ Fetchable ino s es) ∧
      ∀ e, res = .error e → s.attrs.get ino = none ∧ s'.attrs.get ino = none := by
  obtain ⟨_, s₁, es₁, ⟨-, (w : World), hedit⟩, rfl, h₁⟩ := exec_perform_bind_iff.1 hx
  cases hedit
  obtain ⟨a, hfetch, rfl⟩ := exec_map_iff.1 h₁
  obtain ⟨hiff, hnone⟩ := exec_getOrFetchAttr_iff hfetch
  have hedited : (s.attrs.modify ino (AttrEdit.apply w.clock
      (if newSize = 0 then .truncated else .resized newSize))).get ino = none ↔ s.attrs.get ino = none := by
    rw [HashMap.get_modify, if_pos rfl, Option.map_eq_none_iff]
  have hsame : Fetchable ino { s with attrs := s.attrs.modify ino (AttrEdit.apply w.clock
      (if newSize = 0 then .truncated else .resized newSize)) } es₁ ↔
      Fetchable ino s (⟨.attrEdit ino (if newSize = 0 then .truncated else .resized newSize), ()⟩ :: es₁) :=
    or_congr_right (or_congr_left (not_congr hedited))
  rw [← hsame, ← hiff]
  cases a with
  | ok a => exact ⟨⟨fun _ => ⟨a, rfl⟩, fun _ => ⟨_, rfl⟩⟩, fun e he => by cases he⟩
  | error e =>
    refine ⟨⟨fun ⟨r, hr⟩ => (by cases hr), fun ⟨a, ha⟩ => (by cases ha)⟩, fun _ _ => ⟨?_, hnone e rfl⟩⟩
    -- nothing was cached, or the answer could be given
    refine hedited.1 (by_contra fun hcached => ?_)
    obtain ⟨a, ha⟩ := hiff.2 (.inr (.inl hcached))
    cases ha

/-! ## At the cache copy -/

section
variable {P : Act → Prop} {handleId path cachePath : Str}

theorem materializeCopy_only (hpath : P (.pathFor ino)) (hid : P .nextHandleId)
    (hread : ∀ handleId path, P (.call (.openRead handleId path)) ∧ P (.reply (.openRead handleId path))) :
    (materializeCopy ino).Only P :=
  .bind (only_perform hpath) fun _ => .bind (only_okOr ..) fun _ => .bind (only_perform hid) fun _ =>
    .bind (only_ipc (hread ..).1 (hread ..).2) fun _ => .bind (only_mapErr ..) fun _ => only_pure _

theorem answerResized_only (hedit : ∀ edit, P (.attrEdit ino edit)) (hlooks : ∀ a : Act, a.Looks → P a) :
    (answerResized ino newSize).Only P :=
  .bind (only_perform (hedit _)) fun _ => .bind (getOrFetchAttr_only hlooks) fun _ => only_pure _

/-- The actions of an answer: the attributes are edited and looked up. -/
def Act.Answers : Act → Prop
  | attrEdit .. => True
  | a => a.Looks

theorem Act.Looks.answers {a : Act} (h : a.Looks) : a.Answers := by
  cases a with
  | attrEdit => trivial
  | _ => exact h

/-- A copy that could not be opened is neither cut nor uploaded. -/
theorem cutAndUpload_none_only (hclose : P (.call (.closeHandle handleId)) ∧ P (.reply (.closeHandle handleId))) :
    (cutAndUpload newSize handleId path cachePath none).Only P :=
  .bind (only_ipc hclose.1 hclose.2) fun _ => only_fail _

theorem cutAndUpload_only {copy : Option File} (hcut : ∀ file, P (.setLen file newSize))
    (hdaemon : ∀ verb, P (.call verb) ∧ P (.reply verb)) :
    (cutAndUpload newSize handleId path cachePath copy).Only P := by
  have hipc : ∀ verb, (ipc verb).Only P := fun verb => only_ipc (hdaemon verb).1 (hdaemon verb).2
  cases copy with
  | none => exact cutAndUpload_none_only (hdaemon _)
  | some file =>
    refine .bind (only_perform (hcut file)) fun cut => ?_
    cases cut with
    | true => exact .bind (hipc _) fun _ => .bind (hipc _) fun _ => .bind (only_mapErr ..) fun _ => only_pure _
    | false => exact .bind (hipc _) fun _ => only_fail _

end

/-- The action opens no cache file. -/
def Act.OpensNone : Act → Prop
  | openFile .. => False
  | _ => True

/-- What is left of a truncation that is about to open its copy. -/
theorem reaches_copy {cachePath : Str} {k : Option File → FsProg ReplyAttr} (hsize : 0 < newSize)
    (h : Reaches fsMachine (setattr ino none (some newSize)) s es (.act (.openFile cachePath .write) k) s₁) :
    ∃ handleId path, k = fun copy => cutAndUpload newSize handleId path cachePath copy >>= fun _ =>
      answerResized ino newSize := by
  rw [setattr_bare_eq hsize] at h
  obtain ⟨x, s₂, es₁, es₂, -, h₁, -⟩ :=
    h.bind (materializeCopy_only (P := Act.OpensNone) trivial trivial fun _ _ => ⟨trivial, trivial⟩) id
  have hrest : ∀ copy, (cutAndUpload newSize x.1 x.2.1 x.2.2 copy >>= fun _ =>
      answerResized ino newSize).Only Act.OpensNone := fun copy =>
    .bind (cutAndUpload_only (fun _ => trivial) fun _ => ⟨trivial, trivial⟩) fun _ =>
      answerResized_only (fun _ => trivial) fun a ha => by cases a <;> trivial
  obtain ⟨-, -, heq⟩ := h₁.start hrest id
  cases heq
  exact ⟨x.1, x.2.1, rfl⟩

/-- A truncation that succeeds has come to its copy, and there is one. -/
theorem reaches_copy_of_ok {r : ReplyAttr} (hsize : 0 < newSize)
    (hx : Exec fsMachine (setattr ino none (some newSize)) s es (.ok r) s') :
    ∃ cachePath no k s₁ es₁ es₂, es = es₁ ++ es₂ ∧ s₁.disk.names.get cachePath = some no ∧
      Reaches fsMachine (setattr ino none (some newSize)) s es₁ (.act (.openFile cachePath .write) k) s₁ ∧
      Exec fsMachine (.act (.openFile cachePath .write) k) s₁ es₂ (.ok r) s' := by
  rw [setattr_bare_eq hsize] at hx ⊢
  obtain ⟨x, s₁, es₁, es₂, h₁, h₂, rfl⟩ := exec_bind_ok hx
  obtain ⟨copy, s₂, es₃, ⟨-, (w : World), hrun⟩, rfl, h₃⟩ := exec_perform_bind_iff.1 h₂
  cases hget : s₁.disk.names.get x.2.2 with
  | some no => exact ⟨x.2.2, no, _, s₁, es₁, _, rfl, hget, h₁.reaches, h₂⟩
  | none =>
    have hcopy : copy = none := by
      have hrun : (if w.io then ((s₁.disk.openFile x.2.2 .write).1,
          { s₁ with disk := (s₁.disk.openFile x.2.2 .write).2 }) else (none, s₁)) = (copy, s₂) := hrun
      simp only [Disk.openFile, hget] at hrun
      split at hrun <;> cases hrun <;> rfl
    subst hcopy
    obtain ⟨_, s₃, es₄, es₅, h₄, -, -⟩ := exec_bind_ok h₃
    obtain ⟨-, closed, d, es₆, rfl, h₅⟩ := exec_ipc h₄
    cases (exec_ret_iff.1 h₅).2.1

/-- The action sends no upload. -/
def Act.UploadsNone : Act → Prop
  | call (.openWrite ..) => False
  | _ => True

/-- **What is uploaded was cut**: a truncation that sends an upload has cut a copy. -/
theorem reaches_upload {handleId path cachePath : Str} {k : Unit → FsProg ReplyAttr} (hsize : 0 < newSize)
    (h : Reaches fsMachine (setattr ino none (some newSize)) s es
      (.act (.call (.openWrite handleId path cachePath)) k) s₁) :
    ∃ file, (⟨.setLen file newSize, true⟩ : Occ Act.Ret) ∈ es := by
  rw [setattr_bare_eq hsize] at h
  have hanswer : (answerResized ino newSize).Only Act.UploadsNone :=
    answerResized_only (fun _ => trivial) fun a ha => by
      cases a with
      | call verb => cases verb <;> trivial
      | _ => trivial
  obtain ⟨x, s₂, es₁, es₂, -, h₁, rfl⟩ :=
    h.bind (materializeCopy_only (P := Act.UploadsNone) trivial trivial fun _ _ => ⟨trivial, trivial⟩) id
  obtain ⟨copy, s₃, es₃, es₄, -, h₂, rfl⟩ := h₁.bind (only_perform (P := Act.UploadsNone) trivial) id
  cases copy with
  | none =>
    have hrest : (cutAndUpload newSize x.1 x.2.1 x.2.2 none).Only Act.UploadsNone :=
      cutAndUpload_none_only ⟨trivial, trivial⟩
    exact (h₂.only (hrest.bind fun _ => hanswer)).1.elim
  | some file =>
    unfold cutAndUpload at h₂
    rw [Prog.bind_assoc] at h₂
    obtain ⟨cut, s₄, es₅, es₆, hcut, h₃, rfl⟩ := h₂.bind (only_perform (P := Act.UploadsNone) trivial) id
    cases cut with
    | false =>
      have hrest : (do
          let _ ← ipc (.closeHandle x.1)
          fail Errno.EIO : FsProg Unit).Only Act.UploadsNone :=
        .bind (only_ipc trivial trivial) fun _ => only_fail _
      exact (h₃.only (hrest.bind fun _ => hanswer)).1.elim
    | true =>
      obtain ⟨r, s₅, es₇, -, rfl, h₄⟩ := exec_act_iff.1 hcut
      obtain ⟨rfl, heq, -⟩ := exec_ret_iff.1 h₄
      cases heq
      exact ⟨file, List.mem_append_right _ (List.mem_append_right _ (List.mem_append_left _ (.head _)))⟩

/-! ## All or nothing -/

/-- The size that is cached. -/
def FsState.cachedSize (s : FsState) (ino : Ino) : Option Nat := (s.attrs.get ino).map CachedAttr.size

/-- The copy was cut, and an upload sent after that was answered well. -/
def UploadsCut (newSize no : Nat) (es : List (Occ Act.Ret)) : Prop :=
  ∃ es' handleId path cachePath reply, ⟨.setLen (copyFile no) newSize, true⟩ :: es' <:+ es ∧
    (⟨.reply (.openWrite handleId path cachePath), .ok reply⟩ : Occ Act.Ret) ∈ es'

/-- An error leaves the bytes of the copy and the cached size as they were, and success exactly
`newSize` bytes, which were uploaded. -/
structure AllOrNothing (ino : Ino) (newSize no : Nat) (s : FsState) (es : List (Occ Act.Ret))
    (res : Except Errno ReplyAttr) (s' : FsState) : Prop where
  nothing : ∀ e, res = .error e → s'.disk.bytes (copyFile no) = s.disk.bytes (copyFile no) ∧
    s'.cachedSize ino = s.cachedSize ino
  all : ∀ r, res = .ok r → (s'.disk.bytes (copyFile no)).length = newSize ∧ UploadsCut newSize no es

/-- The copy cannot be opened or cut, or has the length already; or the daemon takes the upload and the
attributes can be had. -/
def CutSettles (ino : Ino) (newSize no : Nat) (s : FsState) (es : List (Occ Act.Ret)) : Prop :=
  (∃ path mode, (⟨.openFile path mode, none⟩ : Occ Act.Ret) ∈ es) ∨
    (⟨.setLen (copyFile no) newSize, false⟩ : Occ Act.Ret) ∈ es ∨
    (s.disk.bytes (copyFile no)).length = newSize ∨
    (∃ handleId path cachePath reply,
      (⟨.reply (.openWrite handleId path cachePath), .ok reply⟩ : Occ Act.Ret) ∈ es) ∧ Fetchable ino s es

/-- A failed truncation that left the attributes alone changed nothing exactly when the cut did not. -/
theorem allOrNothing_error_iff {e : Errno} {cut : Bool}
    (hbytes : s'.disk.bytes (copyFile no) = cutBytes cut newSize (s.disk.bytes (copyFile no)))
    (hattrs : s'.attrs.get ino = s.attrs.get ino) :
    AllOrNothing ino newSize no s es (.error e) s' ↔
      cut = false ∨ (s.disk.bytes (copyFile no)).length = newSize := by
  have hsize : s'.cachedSize ino = s.cachedSize ino := congrArg (Option.map CachedAttr.size) hattrs
  cases cut with
  | false => exact ⟨fun _ => .inl rfl, fun _ => ⟨fun _ _ => ⟨hbytes, hsize⟩, fun _ he => by cases he⟩⟩
  | true =>
    have hbytes : s'.disk.bytes (copyFile no) = setLength (s.disk.bytes (copyFile no)) newSize := hbytes
    constructor
    · intro h
      exact .inr (setLength_eq_iff.1 (hbytes.symm.trans (h.nothing e rfl).1))
    · rintro (h | h)
      · cases h
      · exact ⟨fun _ _ => ⟨hbytes.trans (setLength_eq_iff.2 h), hsize⟩, fun _ he => by cases he⟩

theorem cutAndUpload_all_or_nothing_iff {handleId path cachePath : Str} {res : Except Errno ReplyAttr}
    (hx : Exec (sparingMachine no) (cutAndUpload newSize handleId path cachePath (some (copyFile no)) >>=
      fun _ => answerResized ino newSize) s es res s') :
    (AllOrNothing ino newSize no s es res s' ↔ CutSettles ino newSize no s es) := by
  rcases exec_bind_iff.1 hx with ⟨e, rfl, h₁⟩ | ⟨_, s₁, es₁, es₂, h₁, h₂, rfl⟩
  · obtain ⟨hcuts, hattrs, cut, hmem, hbytes⟩ := exec_cutAndUpload h₁
    rw [allOrNothing_error_iff hbytes (by rw [hattrs])]
    cases hcuts with
    | uncut closed =>
      have hcut : cut = false := by simpa using hmem
      subst hcut
      exact iff_of_true (.inl rfl) (.inr (.inl (.head _)))
    | rejected e closed =>
      have hcut : cut = true := by simpa using hmem
      subst hcut
      simp [CutSettles]
  · obtain ⟨hcuts, hattrs, cut, hmem, hbytes⟩ := exec_cutAndUpload h₁
    have hspares : (answerResized ino newSize).Only Act.SparesBytes :=
      answerResized_only (fun _ => trivial) fun a ha => ha.sparesBytes
    have hanswers : ∀ x ∈ es₂, x.1.Answers :=
      h₂.only (answerResized_only (fun _ => trivial) fun a ha => ha.answers)
    have hbytes := (sparing_bytes_of_exec h₂ hspares).trans hbytes
    have h₂ := h₂.of_step fun _ _ _ _ => step_of_sparing
    obtain ⟨hfetch, hnone⟩ := exec_answerResized h₂
    have hfetch : (∃ r, res = .ok r) ↔ Fetchable ino s (es₁ ++ es₂) := by
      rw [hfetch, Fetchable, Fetchable, hattrs, hcuts.takenOver_append]
    cases hcuts with
    | uploaded reply closed =>
      have hcut : cut = true := by simpa using hmem
      subst hcut
      cases res with
      | ok r =>
        refine iff_of_true ⟨fun _ he => (by cases he), fun _ _ => ⟨?_, ?_⟩⟩
          (.inr (.inr (.inr ⟨⟨_, _, _, reply, .tail _ (.tail _ (.head _))⟩, hfetch.1 ⟨r, rfl⟩⟩)))
        · rw [hbytes]
          exact length_setLength ..
        · exact ⟨_, _, _, _, reply, List.suffix_refl _, .tail _ (.head _)⟩
      | error e =>
        obtain ⟨hbefore, hafter⟩ := hnone e rfl
        rw [allOrNothing_error_iff hbytes (hafter.trans (hattrs ▸ hbefore.symm))]
        constructor
        · rintro (h | h)
          · cases h
          · exact .inr (.inr (.inl h))
        · rintro (⟨path, mode, h⟩ | h | h | ⟨-, h⟩)
          · rcases List.mem_append.1 h with h | h
            · simp at h
            · exact (hanswers _ h).elim
          · rcases List.mem_append.1 h with h | h
            · simp at h
            · exact (hanswers _ h).elim
          · exact .inr h
          · obtain ⟨r, hr⟩ := hfetch.2 h
            cases hr

section
variable {path : Str} {mode : OpenMode} {file : File} {res : Except Errno ReplyAttr}

theorem allOrNothing_opened :
    AllOrNothing ino newSize no s (⟨.openFile path mode, some file⟩ :: es) res s' ↔
      AllOrNothing ino newSize no s es res s' := by
  have huploads : UploadsCut newSize no (⟨.openFile path mode, some file⟩ :: es) ↔
      UploadsCut newSize no es := by
    simp [UploadsCut, List.suffix_cons_iff]
  exact ⟨fun ⟨hnothing, hall⟩ => ⟨hnothing, fun r hr => (hall r hr).imp_right huploads.1⟩,
    fun ⟨hnothing, hall⟩ => ⟨hnothing, fun r hr => (hall r hr).imp_right huploads.2⟩⟩

theorem cutSettles_opened :
    CutSettles ino newSize no s (⟨.openFile path mode, some file⟩ :: es) ↔ CutSettles ino newSize no s es := by
  have htaken : takenOver (⟨.openFile path mode, some file⟩ :: es) = takenOver es := rfl
  simp [CutSettles, Fetchable, htaken]

end

/-- A truncation that stands at its copy is all or nothing exactly when the cut settles it, the daemon
leaving the bytes of the copy alone. -/
theorem copy_all_or_nothing_iff {cachePath : Str} {k : Option File → FsProg ReplyAttr}
    {res : Except Errno ReplyAttr} (hsize : 0 < newSize)
    (hat : Reaches fsMachine (setattr ino none (some newSize)) s es₁ (.act (.openFile cachePath .write) k) s₁)
    (hcopy : s₁.disk.names.get cachePath = some no)
    (hx : Exec (sparingMachine no) (.act (.openFile cachePath .write) k) s₁ es₂ res s') :
    AllOrNothing ino newSize no s₁ es₂ res s' ↔ CutSettles ino newSize no s₁ es₂ := by
  obtain ⟨handleId, path, rfl⟩ := reaches_copy hsize hat
  obtain ⟨copy, s₂, es₃, ⟨-, w, hrun⟩, rfl, h₁⟩ := exec_act_iff.1 hx
  have hrun : (if w.1.io then ((s₁.disk.openFile cachePath .write).1,
      { s₁ with disk := (s₁.disk.openFile cachePath .write).2 }) else (none, s₁)) = (copy, s₂) := hrun
  simp only [Disk.openFile, hcopy] at hrun
  split at hrun
  · cases hrun
    rw [allOrNothing_opened, cutSettles_opened]
    exact cutAndUpload_all_or_nothing_iff h₁
  · cases hrun
    have hbytes := sparing_bytes_of_exec h₁ ((cutAndUpload_none_only ⟨trivial, trivial⟩).bind fun _ =>
      answerResized_only (fun _ => trivial) fun a ha => ha.sparesBytes)
    have h₁ := h₁.of_step fun _ _ _ _ => step_of_sparing
    obtain ⟨-, closed, d, es₄, rfl, h₂⟩ := exec_ipc h₁
    obtain ⟨rfl, rfl, hs'⟩ := exec_ret_iff.1 h₂
    have hbytes : s'.disk.bytes (copyFile no) = cutBytes false newSize (s₁.disk.bytes (copyFile no)) := hbytes
    have hattrs : s'.attrs.get ino = s₁.attrs.get ino := by
      rw [hs']
      rfl
    exact iff_of_true ((allOrNothing_error_iff hbytes hattrs).2 (.inl rfl)) (.inl ⟨_, _, .head _⟩)

/-- **A truncation without a handle** uploads only what it cut; one that succeeds has come to its cache
copy; and from there it is all or nothing exactly when the copy cannot be cut or keeps its length, or
the upload and the fetch of the attributes succeed. -/
theorem bare_truncate (hsize : 0 < newSize) (ino : Ino) (s : FsState) :
    (∀ es handleId path cachePath k s₁, Reaches fsMachine (setattr ino none (some newSize)) s es
      (.act (.call (.openWrite handleId path cachePath)) k) s₁ →
      ∃ file, (⟨.setLen file newSize, true⟩ : Occ Act.Ret) ∈ es) ∧
    (∀ es r s', Exec fsMachine (setattr ino none (some newSize)) s es (.ok r) s' →
      ∃ cachePath no k s₁ es₁ es₂, es = es₁ ++ es₂ ∧ s₁.disk.names.get cachePath = some no ∧
        Reaches fsMachine (setattr ino none (some newSize)) s es₁ (.act (.openFile cachePath .write) k) s₁ ∧
        Exec fsMachine (.act (.openFile cachePath .write) k) s₁ es₂ (.ok r) s') ∧
    ∀ es₁ cachePath k s₁ no es₂ res s', Reaches fsMachine (setattr ino none (some newSize)) s es₁
      (.act (.openFile cachePath .write) k) s₁ → s₁.disk.names.get cachePath = some no →
      Exec (sparingMachine no) (.act (.openFile cachePath .write) k) s₁ es₂ res s' →
      (AllOrNothing ino newSize no s₁ es₂ res s' ↔ CutSettles ino newSize no s₁ es₂) :=
  ⟨fun _ _ _ _ _ _ h => reaches_upload hsize h, fun _ _ _ hx => reaches_copy_of_ok hsize hx,
    fun _ _ _ _ _ _ _ _ hat hcopy hx => copy_all_or_nothing_iff hsize hat hcopy hx⟩

/-! ## An upload that is refused -/

/-- A daemon that takes uploads or is too busy for them, and does nothing in the cache folder. -/
def uploading (takes : Bool) : (sparingMachine 0).World :=
  ⟨{ World.calm with
    reply := fun verb => match verb with
      | .openWrite .. => if takes then .ok ⟨['c']⟩ else .error .busy
      | verb => .ok (verb.okReply ['c']) }, fun _ => rfl⟩

/-- The file `/a`, whose cache file `c` is three bytes long, is looked up and truncated to one byte. -/
def truncateA (takes : Bool) : Bool :=
  (fsMachine.exec (.lists fun _ => sizedA 3) ((Op.lookup rootInode (some ['a'])).prog id none)
    (.new threeBytes)).any fun x =>
  (fsMachine.exec .calm (materializeCopy 2) x.2.2).any fun y => match y.2.1 with
    | .ok c => decide (y.2.2.disk.names.get c.2.2 = some 0 ∧ (y.2.2.disk.bytes (copyFile 0)).length = 3) &&
      (y.2.2.attrs.get 2).isSome &&
      ((sparingMachine 0).exec (uploading takes) (perform (.openFile c.2.2 .write) >>= fun copy =>
        cutAndUpload 1 c.1 c.2.1 c.2.2 copy >>= fun _ => answerResized 2 1) y.2.2).any fun z =>
        decide ((z.2.2.disk.bytes (copyFile 0)).length = 1) &&
        (if takes then z.1.any fun e => match e with
          | ⟨.reply (.openWrite ..), .ok _⟩ => true
          | _ => false
        else match z.2.1 with
          | .error _ => true
          | .ok _ => false)
    | .error _ => false

/-- What was evaluated. -/
structure TruncatedA (l : List FsServed) (s : FsState) (es₁ : List (Occ Act.Ret)) (cachePath : Str)
    (k : Option File → FsProg ReplyAttr) (s₁ : FsState) (es₂ : List (Occ Act.Ret))
    (res : Except Errno ReplyAttr) (s' : FsState) : Prop where
  reached : (fsService id none).Sequence (fun _ _ _ => True) (.new threeBytes) l s
  stands : Reaches fsMachine (setattr 2 none (some 1)) s es₁ (.act (.openFile cachePath .write) k) s₁
  named : s₁.disk.names.get cachePath = some 0
  cached : s₁.attrs.get 2 ≠ none
  before : (s₁.disk.bytes (copyFile 0)).length = 3
  runs : Exec (sparingMachine 0) (.act (.openFile cachePath .write) k) s₁ es₂ res s'
  after : (s'.disk.bytes (copyFile 0)).length = 1

theorem truncatedA_of_bool {takes : Bool} (h : truncateA takes = true) :
    ∃ l s es₁ cachePath k s₁ es₂ res s', TruncatedA l s es₁ cachePath k s₁ es₂ res s' ∧
      (takes = true → ∃ handleId path cachePath reply,
        (⟨.reply (.openWrite handleId path cachePath), .ok reply⟩ : Occ Act.Ret) ∈ es₂) ∧
      (takes = false → ∃ e, res = .error e) := by
  obtain ⟨⟨es₁, res₁, s⟩, hlook, h⟩ := (Option.any_eq_true ..).1 h
  obtain ⟨⟨es₂, res₂, s₁⟩, hcopy, h⟩ := (Option.any_eq_true ..).1 h
  have hcopy := Machine.exec_sound hcopy
  cases res₂ with
  | error e => cases h
  | ok c =>
    simp only [Bool.and_eq_true] at h
    obtain ⟨⟨hnamed, hcached⟩, h⟩ := h
    obtain ⟨hnamed, hbefore⟩ := of_decide_eq_true hnamed
    obtain ⟨⟨es₃, res₃, s'⟩, hrest, h⟩ := (Option.any_eq_true ..).1 h
    simp only [Bool.and_eq_true] at h
    obtain ⟨hafter, hend⟩ := h
    have hstands : Reaches fsMachine (setattr 2 none (some 1)) s es₂ (perform (.openFile c.2.2 .write) >>=
        fun copy => cutAndUpload 1 c.1 c.2.1 c.2.2 copy >>= fun _ => answerResized 2 1) s₁ := by
      rw [setattr_bare_eq Nat.one_pos]
      exact hcopy.reaches
    refine ⟨[⟨.lookup rootInode (some ['a']), es₁, res₁⟩], s, es₂, c.2.2, _, s₁, es₃, res₃, s',
      ⟨.cons .nil (Machine.exec_sound hlook) trivial, hstands, hnamed, fun hnone => ?_, hbefore,
        Machine.exec_sound hrest, of_decide_eq_true hafter⟩, ?_, ?_⟩
    · have hcached : (s₁.attrs.get 2).isSome = true := hcached
      rw [hnone] at hcached
      cases hcached
    · rintro rfl
      obtain ⟨x, hx, hok⟩ := List.any_eq_true.1 hend
      split at hok
      · next handleId path cachePath reply => exact ⟨handleId, path, cachePath, reply, hx⟩
      · cases hok
    · rintro rfl
      cases res₃ with
      | error e => exact ⟨e, rfl⟩
      | ok r => cases hend

/-- The upload is taken: the copy is cut to one byte. -/
theorem bare_truncate_one : ∃ s₁ es₂ res s', (s₁.disk.bytes (copyFile 0)).length = 3 ∧
    AllOrNothing 2 1 0 s₁ es₂ res s' := by
  obtain ⟨l, s, es₁, cachePath, k, s₁, es₂, res, s', h, huploads, -⟩ :=
    truncatedA_of_bool (show truncateA true = true by decide +kernel)
  exact ⟨s₁, es₂, res, s', h.before, ((bare_truncate Nat.one_pos 2 s).2.2 _ _ _ _ _ _ _ _ h.stands h.named
    h.runs).2 (.inr (.inr (.inr ⟨huploads rfl, .inr (.inl h.cached)⟩)))⟩

/-- The daemon refuses the upload: the truncation fails, and the copy stays cut. -/
theorem refused_upload_cuts : ¬ ∀ (nfc : Str → Str) (cacheRoot : Option Str) (disk : Disk) (l : List FsServed)
    (s : FsState), (fsService nfc cacheRoot).Sequence (fun _ _ _ => True) (.new disk) l s →
    ∀ (ino : Ino) (newSize : Nat), 0 < newSize → ∀ es₁ cachePath k s₁ no es₂ res s',
    Reaches fsMachine (setattr ino none (some newSize)) s es₁ (.act (.openFile cachePath .write) k) s₁ →
    s₁.disk.names.get cachePath = some no →
    Exec (sparingMachine no) (.act (.openFile cachePath .write) k) s₁ es₂ res s' →
    AllOrNothing ino newSize no s₁ es₂ res s' := by
  intro hall
  obtain ⟨l, s, es₁, cachePath, k, s₁, es₂, res, s', h, -, hfails⟩ :=
    truncatedA_of_bool (show truncateA false = true by decide +kernel)
  obtain ⟨e, rfl⟩ := hfails rfl
  obtain ⟨hbytes, -⟩ := (hall id none threeBytes l s h.reached 2 1 Nat.one_pos _ _ _ _ _ _ _ _ h.stands h.named
    h.runs).nothing e rfl
  have hlength := congrArg List.length hbytes
  rw [h.before, h.after] at hlength
  cases hlength

end UnidriveMount
