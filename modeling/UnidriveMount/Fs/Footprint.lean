import UnidriveMount.Fs.Ops

/-!
# What each operation can touch

For every request, the actions its program can perform (`Op.May`). An invariant over all runs then
only has to look at the few operations whose actions concern it: every other program obeys a
contract by `Lib.Contract.obeys_of_only` and `Op.prog_only`.
-/

namespace UnidriveMount

open Lib
open Lib.Prog (only_perform)

/-! ## Classes of actions -/

/-- Actions that list a directory and take the entries over. -/
def Act.Lists : Act → Prop
  | call (.list _) | reply (.list _) | warnQuarantined _ | insertListed _ => True
  | _ => False

/-- Actions that look something up, listings included. -/
def Act.Looks : Act → Prop
  | pathFor _ | pathForBoth .. | inodeFor _ | rawName _ | cloneRawNames | attrOf _ | hasAttr _
  | nowMs => True
  | a => a.Lists

theorem Act.Lists.looks {a : Act} (h : a.Lists) : a.Looks := by
  cases a <;> trivial

/-- Actions that record a visible name. -/
def Act.Records : Act → Prop
  | rawInsert .. | rawRemove _ => True
  | _ => False

/-- Actions that drop an entry. -/
def Act.Forgets : Act → Prop
  | forget _ | forgetRawNames _ | attrRemove _ => True
  | _ => False

/-- Calls that upload a handle's bytes or close the handle. -/
def Act.Commits : Act → Prop
  | call (.openWrite ..) | reply (.openWrite ..) | call (.closeHandle _) | reply (.closeHandle _) =>
    True
  | _ => False

/-- Actions that create an entry with an open handle. -/
def Act.Creates : Act → Prop
  | nextHandleId | call (.create ..) | reply (.create ..) | openFile _ .createTruncate | intern _
  | attrInsert .. | nextFh | handleInsert .. => True
  | _ => False

/-- The actions that are a request's own. -/
def Op.Own : Op → Act → Prop
  | «open» .., .nextHandleId | «open» .., .call (.openWriteBegin _ (some _))
  | «open» .., .reply (.openWriteBegin _ (some _)) | «open» .., .call (.openRead ..)
  | «open» .., .reply (.openRead ..) | «open» .., .attrEdit .. | «open» .., .openFile ..
  | «open» .., .fileLen _ | «open» .., .attrOpened .. | «open» .., .nextFh
  | «open» .., .handleInsert .. => True
  | read fh .., .handleRead fh' .. => fh' = fh
  | write _ fh .., .handleWrite fh' .. => fh' = fh
  | write inode .., .attrEdit inode' (.grown _) => inode' = inode
  | fsync fh _, .handleClaim fh' _ | fsync fh _, .handleRestore fh' => fh' = fh
  | release fh, .handleRemove fh' => fh' = fh
  | readdir .., .intern _ | readdirplus .., .intern _ => True
  | mkdir .., .call (.mkdir _) | mkdir .., .reply (.mkdir _) | mkdir .., .intern _
  | mkdir .., .attrInsert .. => True
  | unlink .., .call (.unlink _) | unlink .., .reply (.unlink _) | unlink .., .removeFile _ => True
  | rmdir .., .call (.rmdir _) | rmdir .., .reply (.rmdir _) | rmdir .., .removeDirAll _ => True
  | create .., a => a.Creates
  | mknod .., .handleRemove _ => True
  | mknod .., a => a.Creates
  | setattr _ fh _, .handleSetLen fh' _ => fh = some fh'
  | setattr inode .., .attrEdit inode' _ => inode' = inode
  | setattr .., .nextHandleId | setattr .., .call (.openWriteBegin _ none)
  | setattr .., .reply (.openWriteBegin _ none) | setattr .., .call (.openRead ..)
  | setattr .., .reply (.openRead ..) | setattr .., .openFile _ .write | setattr .., .setLen .. =>
    True
  | rename .., .call (.rename ..) | rename .., .reply (.rename ..) | rename .., .renamePaths ..
  | rename .., .followRenames .. | rename .., .renameRawNames .. => True
  | apply _, .unsentPaths | apply _, .applyInvalidation .. => True
  | _, _ => False

theorem Act.Creates.mknod {a : Act} (h : a.Creates) {parent : Ino} {name : OsStr}
    {mode : UInt32} : (Op.mknod parent name mode).Own a := by
  cases a <;> first | exact h | trivial

/-- The actions a request performs through helpers that others use too. -/
def Op.Shared : Op → Act → Prop
  | read .., _ | write .., _ | apply _, _ => False
  | lookup .., a | getattr .., a | «open» .., a | readdir .., a | readdirplus .., a => a.Looks
  | fsync .., a | release .., a => a.Commits
  | mkdir .., a | create .., a | rename .., a => a.Looks ∨ a.Records
  | unlink .., a | rmdir .., a => a.Looks ∨ a.Forgets
  | mknod .., a => (a.Looks ∨ a.Records) ∨ a.Commits
  | setattr .., a => a.Looks ∨ a.Commits

/-- The actions a request can perform. -/
def Op.May (o : Op) (a : Act) : Prop := o.Own a ∨ o.Shared a

/-! ## The helpers -/

section
variable {P : Act → Prop} {α : Type}

theorem only_fail (e : Errno) : (Prog.fail e : FsProg α).Only P := trivial

theorem only_pure (x : α) : (pure x : FsProg α).Only P := trivial

theorem only_okOr (o : Option α) (e : Errno) : (Prog.okOr o e : FsProg α).Only P := by
  cases o <;> trivial

/-- What follows may use that there was a value. -/
theorem only_okOr_bind {β : Type} {o : Option α} {e : Errno} {f : α → FsProg β}
    (h : ∀ x, o = some x → (f x).Only P) : (Prog.okOr o e >>= f).Only P := by
  cases o with
  | some x => exact h x rfl
  | none => trivial

theorem only_ofExcept (r : Except Errno α) : (Prog.ofExcept r : FsProg α).Only P := trivial

theorem only_mapErr (f : IpcError → Errno) (r : Except IpcError α) :
    (mapErr f r : FsProg α).Only P := by
  cases r <;> trivial

theorem only_ipc {verb : Verb} (hc : P (.call verb)) (hr : P (.reply verb)) :
    (ipc verb).Only P :=
  .bind (only_perform hc) fun _ => only_perform hr

theorem visibleName_only {cp : Str} (h : P (.rawName cp)) : (visibleName cp).Only P := by
  refine .bind (only_perform h) fun r => ?_
  cases r <;> exact only_pure _

theorem populateFromList_only {parent : Str} (h : ∀ a : Act, a.Lists → P a) :
    (populateFromList parent).Only P := by
  refine .bind (only_ipc (h _ trivial) (h _ trivial)) fun r => ?_
  cases r with
  | error e => exact only_pure _
  | ok entries =>
    exact .bind (only_perform (h _ trivial)) fun _ =>
      .bind (only_perform (h _ trivial)) fun _ => only_pure _

theorem getOrFetchAttr_only {inode : Ino} (h : ∀ a : Act, a.Looks → P a) :
    (getOrFetchAttr inode).Only P := by
  unfold getOrFetchAttr
  split
  · exact only_pure _
  · refine .bind (only_perform (h _ trivial)) fun r => ?_
    cases r with
    | some a => exact only_pure _
    | none =>
      exact .bind (only_perform (h _ trivial)) fun _ => .bind (only_okOr ..) fun _ =>
        .bind (populateFromList_only fun a ha => h a ha.looks) fun _ =>
        .bind (only_mapErr ..) fun _ => .bind (only_perform (h _ trivial)) fun _ => only_okOr ..

theorem dotdotInode_only {dirInode : Ino} {dirPath : Str}
    (h : P (.intern (parentPrefix dirPath))) : (dotdotInode dirInode dirPath).Only P := by
  unfold dotdotInode
  split
  · exact only_pure _
  · exact only_perform h

theorem isCached_only {cp : Str} (h : ∀ a : Act, a.Looks → P a) : (isCached cp).Only P := by
  refine .bind (only_perform (h _ trivial)) fun r => ?_
  cases r with
  | some ino => exact only_perform (h _ trivial)
  | none => exact only_pure _

theorem refuseNfcCollision_only {parentPath cp name : Str} (h : ∀ a : Act, a.Looks → P a) :
    (refuseNfcCollision parentPath cp name).Only P := by
  refine .bind (visibleName_only (h _ trivial)) fun visible => ?_
  split
  · exact only_pure _
  · refine .bind (isCached_only h) fun cached => ?_
    split
    · exact only_fail _
    · refine .bind (populateFromList_only fun a ha => h a ha.looks) fun _ =>
        .bind (only_mapErr ..) fun listed => ?_
      split
      · exact only_fail _
      · exact only_pure _

theorem recordRawName_only {nfc : Str → Str} {cp name : Str} (h : ∀ a : Act, a.Records → P a) :
    (recordRawName nfc cp name).Only P := by
  unfold recordRawName
  split <;> exact only_perform (h _ trivial)

theorem cachedEntry_only {cp : Str} (h : ∀ a : Act, a.Looks → P a) : (cachedEntry cp).Only P := by
  refine .bind (only_perform (h _ trivial)) fun r => ?_
  cases r with
  | some ino => exact .bind (only_perform (h _ trivial)) fun _ => only_pure _
  | none => exact only_pure _

theorem openCacheFile_only {flags : UInt32} {handleId path : Str}
    (hw : P (.call (.openWriteBegin path (some handleId))) ∧
      P (.reply (.openWriteBegin path (some handleId))))
    (hr : P (.call (.openRead handleId path)) ∧ P (.reply (.openRead handleId path))) :
    (openCacheFile flags handleId path).Only P := by
  unfold openCacheFile
  split
  · exact .bind (only_ipc hw.1 hw.2) fun _ => .bind (only_mapErr ..) fun _ => only_pure _
  · exact .bind (only_ipc hr.1 hr.2) fun _ => .bind (only_mapErr ..) fun _ => only_pure _

theorem forgetEntry_only {cp : Str} (h : ∀ a : Act, a.Forgets → P a) :
    (forgetEntry cp).Only P := by
  refine .bind (only_perform (h _ trivial)) fun ino => .bind (only_perform (h _ trivial)) fun _ => ?_
  cases ino with
  | some inode => exact only_perform (h _ trivial)
  | none => exact only_pure _

theorem publish_only {h : OpenHandle} (hn : P .nextFh) (hi : ∀ fh, P (.handleInsert fh h)) :
    (publish h).Only P :=
  .bind (only_perform hn) fun _ => .bind (only_perform (hi _)) fun _ => only_pure _

theorem createInternal_only {nfc : Str → Str} {parent : Ino} {name : OsStr}
    (hc : ∀ a : Act, a.Creates → P a) (hl : ∀ a : Act, a.Looks → P a)
    (hr : ∀ a : Act, a.Records → P a) : (createInternal nfc parent name).Only P :=
  .bind (only_okOr ..) fun _ => .bind (only_perform (hl _ trivial)) fun _ =>
  .bind (only_okOr ..) fun _ => .bind (refuseNfcCollision_only hl) fun _ =>
  .bind (only_perform (hc _ trivial)) fun _ =>
  .bind (only_ipc (hc _ trivial) (hc _ trivial)) fun _ => .bind (only_mapErr ..) fun _ =>
  .bind (only_perform (hc _ trivial)) fun _ => .bind (only_okOr ..) fun _ =>
  .bind (only_perform (hc _ trivial)) fun _ => .bind (recordRawName_only hr) fun _ =>
  .bind (only_perform (hl _ trivial)) fun _ => .bind (only_perform (hc _ trivial)) fun _ =>
  .bind (publish_only (hc _ trivial) fun _ => hc _ trivial) fun _ => only_pure _

theorem bareTruncateToZero_only {inode : Ino} {fh size : Option Nat} {path : Str}
    (h : ∀ a, Op.Own (.setattr inode fh size) a → P a) (hc : ∀ a : Act, a.Commits → P a) :
    (bareTruncateToZero path).Only P :=
  .bind (only_ipc (h _ trivial) (h _ trivial)) fun _ => .bind (only_mapErr ..) fun _ =>
  .bind (only_perform (h _ trivial)) fun _ =>
  .bind (only_ipc (hc _ trivial) (hc _ trivial)) fun _ =>
  .bind (only_ipc (hc _ trivial) (hc _ trivial)) fun _ =>
  .bind (only_mapErr ..) fun _ => only_pure _

theorem bareTruncateToSize_only {inode : Ino} {fh size : Option Nat} {path : Str}
    {newSize : Nat} (h : ∀ a, Op.Own (.setattr inode fh size) a → P a)
    (hc : ∀ a : Act, a.Commits → P a) :
    (bareTruncateToSize path newSize).Only P := by
  have hclose : ∀ id, (ipc (.closeHandle id)).Only P := fun id =>
    only_ipc (hc _ trivial) (hc _ trivial)
  refine .bind (only_perform (h _ trivial)) fun _ =>
    .bind (only_ipc (h _ trivial) (h _ trivial)) fun _ => .bind (only_mapErr ..) fun _ =>
    .bind (only_perform (h _ trivial)) fun file => ?_
  cases file with
  | none => exact .bind (hclose _) fun _ => only_fail _
  | some file =>
    refine .bind (only_perform (h _ trivial)) fun ok => ?_
    split
    · exact .bind (only_ipc (hc _ trivial) (hc _ trivial)) fun _ =>
        .bind (hclose _) fun _ => .bind (only_mapErr ..) fun _ => only_pure _
    · exact .bind (hclose _) fun _ => only_fail _

theorem commitIfDirty_only {h : OpenHandle} (hc : ∀ a : Act, a.Commits → P a) :
    (commitIfDirty h).Only P := by
  unfold commitIfDirty
  split
  · exact .bind (only_ipc (hc _ trivial) (hc _ trivial)) fun _ => only_pure _
  · exact only_pure _

theorem syncSize_only {flags : UInt32} {inode : Ino} {file : File} (hf : P (.fileLen file))
    (ha : ∀ len, P (.attrOpened inode len)) : (syncSize flags inode file).Only P := by
  unfold syncSize
  split
  · exact only_pure _
  · refine .bind (only_perform hf) fun len => ?_
    cases len with
    | some len => exact only_perform (ha len)
    | none => exact only_pure _

theorem truncate_only {inode : Ino} {path : Str} {fh size : Option Nat} {newSize : Nat}
    (h : ∀ a, Op.Own (.setattr inode fh size) a → P a) (hc : ∀ a : Act, a.Commits → P a) :
    (truncate path fh newSize).Only P := by
  cases fh with
  | some fh => exact .bind (only_perform (h _ rfl)) fun _ => only_ofExcept _
  | none =>
    unfold truncate
    dsimp only
    split
    · exact bareTruncateToZero_only h hc
    · exact bareTruncateToSize_only h hc

end

/-! ## The operations -/

section
variable {nfc : Str → Str} {cacheRoot : Option Str}

/-- **Every program stays within its footprint.** -/
theorem Op.prog_only (o : Op) : (o.prog nfc cacheRoot).Only o.May := by
  cases o with
  | lookup parent name =>
    refine .bind ?_ fun _ => only_pure _
    refine .bind (only_okOr ..) fun _ => .bind (only_perform (.inr trivial)) fun _ =>
      .bind (only_okOr ..) fun _ => .bind (visibleName_only (.inr trivial)) fun _ => ?_
    split
    · exact only_fail _
    · refine .bind (cachedEntry_only fun _ => .inr) fun r => ?_
      cases r with
      | some e => exact only_pure _
      | none =>
        refine .bind (populateFromList_only fun _ h => .inr h.looks) fun _ =>
          .bind (only_mapErr ..) fun listed => ?_
        split
        · exact only_pure _
        · exact only_fail _
  | getattr inode =>
    exact .bind (.bind (getOrFetchAttr_only fun _ => .inr) fun _ => only_pure _) fun _ =>
      only_pure _
  | «open» inode flags =>
    refine .bind ?_ fun _ => only_pure _
    refine .bind (only_perform (.inr trivial)) fun _ => .bind (only_okOr ..) fun path => ?_
    split
    · exact only_fail _
    · exact .bind (only_perform (.inl trivial)) fun _ =>
        .bind (openCacheFile_only ⟨.inl trivial, .inl trivial⟩ ⟨.inl trivial, .inl trivial⟩) fun _ =>
        .bind (only_perform (.inl trivial)) fun _ => .bind (only_perform (.inl trivial)) fun _ =>
        .bind (only_okOr ..) fun _ => .bind (syncSize_only (.inl trivial) fun _ => .inl trivial) fun _ =>
        .bind (publish_only (.inl trivial) fun _ => .inl trivial) fun _ => only_pure _
  | read fh offset size =>
    exact .bind (.bind (only_perform (.inl rfl)) fun _ => only_ofExcept _) fun _ => only_pure _
  | write inode fh offset data =>
    exact .bind (.bind (only_perform (.inl rfl)) fun _ => .bind (only_ofExcept _) fun _ =>
      .bind (only_perform (.inl rfl)) fun _ => only_pure _) fun _ => only_pure _
  | fsync fh datasync =>
    refine .bind (.bind (only_perform (.inl rfl)) fun _ => .bind (only_ofExcept _) fun claim => ?_)
      fun _ => only_pure _
    split
    · exact only_pure _
    · refine .bind (only_ipc (.inr trivial) (.inr trivial)) fun r => ?_
      cases r with
      | error e => exact .bind (only_perform (.inl rfl)) fun _ => only_fail _
      | ok r => exact only_pure _
  | release fh =>
    refine .bind (.bind (only_perform (.inl rfl)) fun r => ?_) fun _ => only_pure _
    cases r with
    | none => exact only_pure _
    | some h =>
      exact .bind (commitIfDirty_only fun _ => .inr) fun _ =>
        .bind (only_ipc (.inr trivial) (.inr trivial)) fun _ => only_pure _
  | readdir parent offset =>
    exact .bind (.bind (only_perform (.inr trivial)) fun _ => .bind (only_okOr ..) fun _ =>
      .bind (populateFromList_only fun _ h => .inr h.looks) fun _ =>
      .bind (only_mapErr ..) fun _ => .bind (dotdotInode_only (.inl trivial)) fun _ =>
      .bind (only_perform (.inr trivial)) fun _ => only_pure _) fun _ => only_pure _
  | readdirplus parent offset =>
    exact .bind (.bind (only_perform (.inr trivial)) fun _ => .bind (only_okOr ..) fun _ =>
      .bind (populateFromList_only fun _ h => .inr h.looks) fun _ =>
      .bind (only_mapErr ..) fun _ => .bind (getOrFetchAttr_only fun _ => .inr) fun _ =>
      .bind (dotdotInode_only (.inl trivial)) fun _ =>
      .bind (only_perform (.inr trivial)) fun _ => only_pure _) fun _ => only_pure _
  | mkdir parent name =>
    exact .bind (.bind (only_okOr ..) fun _ => .bind (only_perform (.inr (.inl trivial))) fun _ =>
      .bind (only_okOr ..) fun _ =>
      .bind (refuseNfcCollision_only fun _ h => .inr (.inl h)) fun _ =>
      .bind (only_ipc (.inl trivial) (.inl trivial)) fun _ => .bind (only_mapErr ..) fun _ =>
      .bind (only_perform (.inl trivial)) fun _ =>
      .bind (recordRawName_only fun _ h => .inr (.inr h)) fun _ =>
      .bind (only_perform (.inr (.inl trivial))) fun _ => .bind (only_perform (.inl trivial))
      fun _ => only_pure _) fun _ => only_pure _
  | unlink parent name =>
    refine .bind (.bind (only_okOr ..) fun _ => .bind (only_perform (.inr (.inl trivial))) fun _ =>
      .bind (only_okOr ..) fun _ => .bind (only_ipc (.inl trivial) (.inl trivial)) fun _ =>
      .bind (only_mapErr ..) fun _ => .bind (forgetEntry_only fun _ h => .inr (.inr h))
      fun _ => ?_) fun _ => only_pure _
    cases cacheRoot with
    | some root => exact only_perform (.inl trivial)
    | none => exact only_pure _
  | rmdir parent name =>
    refine .bind (.bind (only_okOr ..) fun _ => .bind (only_perform (.inr (.inl trivial))) fun _ =>
      .bind (only_okOr ..) fun _ => .bind (only_ipc (.inl trivial) (.inl trivial)) fun _ =>
      .bind (only_mapErr ..) fun _ => .bind (forgetEntry_only fun _ h => .inr (.inr h))
      fun _ => ?_) fun _ => only_pure _
    cases cacheRoot with
    | some root => exact only_perform (.inl trivial)
    | none => exact only_pure _
  | create parent name =>
    exact .bind (.bind (createInternal_only (fun _ => .inl) (fun _ h => .inr (.inl h))
      fun _ h => .inr (.inr h)) fun _ => only_pure _) fun _ => only_pure _
  | mknod parent name mode =>
    refine .bind ?_ fun _ => only_pure _
    unfold UnidriveMount.mknod
    split
    · exact only_fail _
    · refine .bind (createInternal_only (fun _ h => .inl h.mknod)
        (fun _ h => .inr (.inl (.inl h))) fun _ h => .inr (.inl (.inr h))) fun x =>
        .bind (only_perform (.inl trivial)) fun r => ?_
      cases r with
      | some h =>
        exact .bind (only_ipc (.inr (.inr trivial)) (.inr (.inr trivial))) fun _ =>
          .bind (only_ipc (.inr (.inr trivial)) (.inr (.inr trivial))) fun _ => only_pure _
      | none => exact only_pure _
  | setattr inode fh size =>
    refine .bind (.bind (only_perform (.inr (.inl trivial))) fun _ => .bind (only_okOr ..)
      fun path => .bind ?_ fun _ => .bind (getOrFetchAttr_only fun _ h => .inr (.inl h)) fun _ =>
      only_pure _) fun _ => only_pure _
    cases size with
    | none => exact only_pure _
    | some newSize =>
      exact .bind (truncate_only (fun _ => .inl) fun _ h => .inr (.inr h)) fun _ =>
        only_perform (.inl rfl)
  | rename oldParent oldName newParent newName =>
    exact .bind (.bind (only_okOr ..) fun _ => .bind (only_okOr ..) fun _ =>
      .bind (only_perform (.inr (.inl trivial))) fun _ => .bind (only_okOr ..) fun _ =>
      .bind (only_okOr ..) fun _ =>
      .bind (refuseNfcCollision_only fun _ h => .inr (.inl h)) fun _ =>
      .bind (only_ipc (.inl trivial) (.inl trivial)) fun _ => .bind (only_mapErr ..) fun _ =>
      .bind (only_perform (.inl trivial)) fun _ => .bind (only_perform (.inl trivial)) fun _ =>
      .bind (only_perform (.inl trivial)) fun _ =>
      recordRawName_only fun _ h => .inr (.inr h)) fun _ => only_pure _
  | apply change =>
    exact .bind (.bind (only_perform (.inl trivial)) fun _ => only_perform (.inl trivial))
      fun _ => only_pure _

end

end UnidriveMount
