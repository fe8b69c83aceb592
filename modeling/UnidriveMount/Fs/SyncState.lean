import UnidriveMount.Fs.Sizes
import UnidriveMount.Ipc.Wire

/-!
# The sync state of a file

A user sees whether a file is in the cloud only by its extended attributes, and by its modified time, which
is the provider's as long as nothing has touched the file locally. The provider's time is always one that
the daemon has listed, and nothing has changed the entry through the mount since, whichever requests
overlap; so a file that is shown with it is said to be in the cloud only (`remote_time_untouched`).
-/

namespace UnidriveMount

open Lib
open Lib.Prog (fail okOr ofExcept only_perform)

/-! ## Extended attributes -/

/-- The errnos of the extended attributes. -/
inductive XattrErrno : Type where
  | ENODATA | ERANGE
  deriving DecidableEq, Repr

/-- `ReplyXAttr`. -/
inductive ReplyXAttr : Type where
  | size (n : UInt32)
  | data (bytes : List UInt8)
  deriving DecidableEq, Repr

/-- The byte order of the machine. -/
inductive ByteOrder : Type where
  | little
  | big
  deriving DecidableEq, Repr

/-- `u32::to_ne_bytes`. -/
def neBytes (order : ByteOrder) (n : UInt32) : List UInt8 :=
  let bytes := [n.toUInt8, (n >>> 8).toUInt8, (n >>> 16).toUInt8, (n >>> 24).toUInt8]
  match order with
  | .little => bytes
  | .big => bytes.reverse

/-- `getxattr_size_reply`: the length, and four bytes of padding. -/
def getxattrSizeReply (order : ByteOrder) (len : UInt32) : ReplyXAttr :=
  .data (neBytes order len ++ [0, 0, 0, 0])

/-- `state_comment`. -/
def stateComment (a : CachedAttr) : Option (List UInt8) :=
  if a.isFolder then none
  else if a.pendingUpload then some (utf8 "Waiting to upload".toList)
  else if a.isHydrated then some (utf8 "Available offline".toList)
  else some (utf8 "Cloud only".toList)

/-- The name of the attribute that tells whether a file is hydrated. -/
def hydratedName : Str := "user.unidrive.hydrated".toList

/-- The name of the comment. -/
def commentName : Str := "user.xdg.comment".toList

/-- The programs of the requests about extended attributes. -/
abbrev XattrProg := Prog Act Act.Ret XattrErrno

/-- One action of a request about extended attributes. -/
abbrev performXattr (a : Act) : XattrProg a.Ret := Prog.perform a

/-- The value of an extended attribute. -/
def xattrValue (inode : Ino) (name : Str) : XattrProg (List UInt8) := do
  if name = hydratedName then
    match ← performXattr (.attrOf inode) with
    | some c => return utf8 (if c.isHydrated then "1".toList else "0".toList)
    | none => return utf8 "0".toList
  else if name = commentName then
    okOr ((← performXattr (.attrOf inode)).bind stateComment) .ENODATA
  else
    fail .ENODATA

/-- The reply to a request for an attribute with the value, by a caller with a buffer of the size. -/
def answerXattr (order : ByteOrder) (val : List UInt8) (size : Nat) : Except XattrErrno ReplyXAttr :=
  if size = 0 then .ok (getxattrSizeReply order (UInt32.ofNat val.length))
  else if size < val.length then .error .ERANGE
  else .ok (.data val)

/-- `Filesystem::getxattr`. -/
def getxattr (order : ByteOrder) (inode : Ino) (name : OsStr) (size : Nat) : XattrProg ReplyXAttr := do
  let name ← okOr name .ENODATA
  let val ← xattrValue inode name
  ofExcept (answerXattr order val size)

/-- The names of the attributes, each ended by a NUL. -/
def xattrNames : List UInt8 := utf8 hydratedName ++ [0] ++ utf8 commentName ++ [0]

/-- `Filesystem::listxattr`. -/
def listxattr (size : Nat) : Except XattrErrno ReplyXAttr :=
  if size = 0 then .ok (.size (UInt32.ofNat xattrNames.length))
  else if xattrNames.length ≤ size then .ok (.data xattrNames)
  else .error .ERANGE

/-- `u32::from_ne_bytes` of the first four bytes, which is the size that a probe is told. -/
def sizeTold (order : ByteOrder) : ReplyXAttr → Option UInt32
  | .size n => some n
  | .data bytes =>
    match order, bytes with
    | .little, b₀ :: b₁ :: b₂ :: b₃ :: _ | .big, b₃ :: b₂ :: b₁ :: b₀ :: _ =>
      some (UInt32.ofNat (b₀.toNat + 256 * (b₁.toNat + 256 * (b₂.toNat + 256 * b₃.toNat))))
    | _, _ => none

theorem sizeTold_getxattrSizeReply (order : ByteOrder) (n : UInt32) :
    sizeTold order (getxattrSizeReply order n) = some n := by
  have hbytes : n.toUInt8.toNat + 256 * ((n >>> 8).toUInt8.toNat + 256 * ((n >>> 16).toUInt8.toNat +
      256 * (n >>> 24).toUInt8.toNat)) = n.toNat := by
    have hlt := n.toNat_lt
    simp only [UInt32.toNat_toUInt8, UInt32.toNat_shiftRight, UInt32.reduceToNat, Nat.shiftRight_eq_div_pow,
      Nat.reduceMod, Nat.reducePow]
    omega
  have htold : UInt32.ofNat (n.toUInt8.toNat + 256 * ((n >>> 8).toUInt8.toNat +
      256 * ((n >>> 16).toUInt8.toNat + 256 * (n >>> 24).toUInt8.toNat))) = n := by
    rw [hbytes, UInt32.ofNat_toNat]
  cases order <;> exact congrArg some htold

/-- Whoever asks for the size of a value first, and then for the value, gets the value. -/
theorem answerXattr_of_probe {order : ByteOrder} {val : List UInt8} {reply : ReplyXAttr} {n : UInt32}
    (hval : val ≠ []) (hlength : val.length < 2 ^ 32) (hprobe : answerXattr order val 0 = .ok reply)
    (hsize : sizeTold order reply = some n) : answerXattr order val n.toNat = .ok (.data val) := by
  rw [answerXattr, if_pos rfl] at hprobe
  cases hprobe
  rw [sizeTold_getxattrSizeReply] at hsize
  cases hsize
  have hn : (UInt32.ofNat val.length).toNat = val.length := UInt32.toNat_ofNat_of_lt' hlength
  have hne : val.length ≠ 0 := fun h => hval (List.length_eq_zero_iff.1 h)
  rw [hn, answerXattr, if_neg hne, if_neg (Nat.lt_irrefl _)]

section
variable {order : ByteOrder} {inode : Ino} {a : CachedAttr} {size : Nat} {s s' : FsState}
  {es : List (Occ Act.Ret)} {res : Except XattrErrno ReplyXAttr}

theorem exec_getxattr_hydrated (hget : s.attrs.get inode = some a)
    (hx : Exec fsMachine (getxattr order inode (some hydratedName) size) s es res s') :
    res = answerXattr order (utf8 (if a.isHydrated then "1".toList else "0".toList)) size := by
  unfold getxattr xattrValue at hx
  obtain ⟨es', rfl, hk⟩ := exec_perform_bind_of_run (r := s.attrs.get inode) hx fun _ => rfl
  rw [hget] at hk
  obtain ⟨-, rfl, -⟩ := exec_ret_iff.1 hk
  rfl

/-- A folder has no comment. -/
theorem exec_getxattr_comment (hget : s.attrs.get inode = some a)
    (hx : Exec fsMachine (getxattr order inode (some commentName) size) s es res s') :
    res = match stateComment a with
      | some val => answerXattr order val size
      | none => .error .ENODATA := by
  unfold getxattr xattrValue at hx
  obtain ⟨es', rfl, hk⟩ := exec_perform_bind_of_run (r := s.attrs.get inode) hx fun _ => rfl
  rw [hget] at hk
  have hend : Exec fsMachine (okOr (stateComment a) .ENODATA >>= fun val =>
      ofExcept (answerXattr order val size)) s es' res s' := hk
  cases hcomment : stateComment a with
  | some val =>
    rw [hcomment] at hend
    obtain ⟨-, rfl, -⟩ := exec_ret_iff.1 hend
    rfl
  | none =>
    rw [hcomment] at hend
    obtain ⟨-, rfl, -⟩ := exec_ret_iff.1 hend
    rfl

end

/-! ## The provider's time -/

/-- Attributes that a request caches itself have the local time. -/
def Act.SetsLocal : Act → Prop
  | .attrInsert _ attr => attr.remoteMtimeMs = none
  | _ => True

theorem Act.Looks.setsLocal {a : Act} (h : a.Looks) : a.SetsLocal := by
  cases a <;> first | exact h.elim | trivial

theorem Act.Records.setsLocal {a : Act} (h : a.Records) : a.SetsLocal := by
  cases a <;> first | exact h.elim | trivial

section
variable {nfc : Str → Str} {cacheRoot : Option Str}

theorem createInternal_setsLocal (parent : Ino) (name : OsStr) :
    (createInternal nfc parent name).Only Act.SetsLocal :=
  .bind (only_okOr ..) fun _ => .bind (only_perform trivial) fun _ => .bind (only_okOr ..) fun _ =>
  .bind (refuseNfcCollision_only fun _ h => h.setsLocal) fun _ => .bind (only_perform trivial) fun _ =>
  .bind (only_ipc trivial trivial) fun _ => .bind (only_mapErr ..) fun _ =>
  .bind (only_perform trivial) fun _ => .bind (only_okOr ..) fun _ =>
  .bind (only_perform trivial) fun _ => .bind (recordRawName_only fun _ h => h.setsLocal) fun _ =>
  .bind (only_perform trivial) fun _ => .bind (only_perform rfl) fun _ =>
  .bind (publish_only trivial fun _ => trivial) fun _ => only_pure _

/-- Every request does. -/
theorem Op.prog_setsLocal (o : Op) : (o.prog nfc cacheRoot).Only Act.SetsLocal := by
  have hmay : (∀ ino attr, ¬ o.May (.attrInsert ino attr)) → (o.prog nfc cacheRoot).Only Act.SetsLocal := by
    intro hnone
    refine (Op.prog_only o).mono fun a ha => ?_
    cases a with
    | attrInsert ino attr => exact absurd ha (hnone ino attr)
    | _ => trivial
  cases o with
  | mkdir parent name =>
    exact .bind (.bind (only_okOr ..) fun _ => .bind (only_perform trivial) fun _ =>
      .bind (only_okOr ..) fun _ => .bind (refuseNfcCollision_only fun _ h => h.setsLocal) fun _ =>
      .bind (only_ipc trivial trivial) fun _ => .bind (only_mapErr ..) fun _ =>
      .bind (only_perform trivial) fun _ => .bind (recordRawName_only fun _ h => h.setsLocal) fun _ =>
      .bind (only_perform trivial) fun _ => .bind (only_perform rfl) fun _ => only_pure _)
      fun _ => only_pure _
  | create parent name =>
    exact .bind (.bind (createInternal_setsLocal parent name) fun _ => only_pure _) fun _ => only_pure _
  | mknod parent name mode =>
    refine .bind ?_ fun _ => only_pure _
    unfold UnidriveMount.mknod
    split
    · exact only_fail _
    · refine .bind (createInternal_setsLocal parent name) fun _ => .bind (only_perform trivial) fun r => ?_
      cases r with
      | some h =>
        exact .bind (only_ipc trivial trivial) fun _ => .bind (only_ipc trivial trivial) fun _ => only_pure _
      | none => exact only_pure _
  | _ =>
    refine hmay fun _ _ => ?_
    simp [Op.May, Op.Own, Op.Shared, Act.Looks, Act.Lists, Act.Records, Act.Commits, Act.Forgets]

end

/-- The entry of the log changes what is cached for the inode, the size on an open apart. -/
def Recaches (ino : Ino) : FsEvent → Prop
  | .acted _ (.attrInsert i _) _ | .acted _ (.attrRemove i) _ | .acted _ (.attrEdit i _) _ => i = ino
  | .acted _ (.insertListed _) out => ∃ x ∈ out, x.1 = ino
  | _ => False

/-- The daemon has listed the inode as `e`, and nothing has changed it since. -/
def ListedLast (l : List FsEvent) (ino : Ino) (e : ListEntry) : Prop :=
  ∃ (i t : Nat) (entries : List ListEntry) (out : List (Ino × ListEntry)),
    l[i]? = some (.acted t (.insertListed entries) out) ∧ (ino, e) ∈ out ∧
    ∀ (j : Nat) (ev : FsEvent), i < j → l[j]? = some ev → ¬ Recaches ino ev

section
variable {l : List FsEvent} {ino : Ino} {e : ListEntry} {ev : FsEvent} {s s' : FsState} {b : CachedAttr}

theorem ListedLast.snoc (h : ListedLast l ino e) (hev : ¬ Recaches ino ev) : ListedLast (l ++ [ev]) ino e := by
  obtain ⟨i, t, entries, out, hi, hmem, hlater⟩ := h
  refine ⟨i, t, entries, out, getElem?_snoc ev hi, hmem, fun j ev' hij hj => ?_⟩
  rcases getElem?_snoc_iff.1 hj with hj | ⟨-, rfl⟩
  · exact hlater j ev' hij hj
  · exact hev

theorem listedLast_snoc {t : Nat} {entries : List ListEntry} {out : List (Ino × ListEntry)}
    (hmem : (ino, e) ∈ out) : ListedLast (l ++ [.acted t (.insertListed entries) out]) ino e := by
  refine ⟨l.length, t, entries, out, getElem?_snoc_self .., hmem, fun j ev hij hj => ?_⟩
  have hlt := getElem?_lt hj
  rw [List.length_append, List.length_singleton] at hlt
  omega

/-- No change through the mount leaves the provider's time. -/
theorem AttrEdit.apply_remote (edit : AttrEdit) (now : Int) (a : CachedAttr) :
    (edit.apply now a).remoteMtimeMs = none := by
  cases edit <;> rfl

/-- After a step that leaves the provider's time, the attributes are what they were, the size apart, or
they were listed. -/
theorem remote_of_step {a : Act} {r : a.Ret} (hst : fsMachine.Step a s r s') (hlocal : a.SetsLocal)
    (t : Nat) (hget : s'.attrs.get ino = some b) (hremote : b.remoteMtimeMs ≠ none) :
    (¬ Recaches ino (.acted t a r) ∧ ∃ size, s.attrs.get ino = some { b with size := size }) ∨
    ∃ (entries : List ListEntry) (out : List (Ino × ListEntry)) (e : ListEntry),
      (.acted t a r : FsEvent) = .acted t (.insertListed entries) out ∧ (ino, e) ∈ out ∧
      b = .ofListEntry e := by
  by_cases hcaches : a.Caches
  · obtain ⟨-, (w : World), (hrun : a.run w s = (r, s'))⟩ := hst
    cases a with
    | attrInsert i attr =>
      cases hrun
      rw [HashMap.get_insert] at hget
      split at hget
      · cases hget
        exact absurd hlocal hremote
      · next hne => exact .inl ⟨Ne.symm hne, b.size, hget⟩
    | attrRemove i =>
      cases hrun
      rw [HashMap.get_remove] at hget
      split at hget
      · cases hget
      · next hne => exact .inl ⟨Ne.symm hne, b.size, hget⟩
    | attrEdit i edit =>
      cases hrun
      rw [HashMap.get_modify] at hget
      split at hget
      · obtain ⟨a₀, -, rfl⟩ := Option.map_eq_some_iff.1 hget
        exact absurd (edit.apply_remote ..) hremote
      · next hne => exact .inl ⟨Ne.symm hne, b.size, hget⟩
    | attrOpened i len =>
      left
      refine ⟨id, ?_⟩
      simp only [Act.run] at hrun
      split at hrun
      · next a₀ ha₀ =>
        cases hrun
        rw [HashMap.get_insert] at hget
        split at hget
        · next heq =>
          cases hget
          exact ⟨a₀.size, heq ▸ ha₀⟩
        · exact ⟨b.size, hget⟩
      · cases hrun
        exact ⟨b.size, hget⟩
    | insertListed entries =>
      obtain ⟨rfl, rfl⟩ : r = (s.insertListed entries).1 ∧ s' = (s.insertListed entries).2 :=
        ⟨(congrArg Prod.fst hrun).symm, (congrArg Prod.snd hrun).symm⟩
      by_cases hlisted : ∃ x ∈ (s.insertListed entries).1, x.1 = ino
      · obtain ⟨x, hx, rfl⟩ := hlisted
        obtain ⟨⟨i, e⟩, hy, hino, hget'⟩ := FsState.get_of_mem_insertListed hx
        cases hino
        exact .inr ⟨entries, _, e, rfl, hy, Option.some.inj (hget.symm.trans hget')⟩
      · rcases FsState.get_insertListed hget with hold | ⟨x, hx, hino, -⟩
        · exact .inl ⟨hlisted, b.size, hold⟩
        · exact absurd ⟨x, hx, hino⟩ hlisted
    | applyInvalidation change unsent =>
      cases hrun
      exact .inl ⟨id, b.size, FsState.get_of_get_invalidatedAttrs hget⟩
    | _ => exact hcaches.elim
  · rw [attrs_eq_of_step hst hcaches] at hget
    refine .inl ⟨?_, b.size, hget⟩
    cases a <;> first | exact id | exact absurd trivial hcaches

end

section
variable {nfc : Str → Str} {cacheRoot : Option Str} {disk : Disk} {ok : FsConfig → FsEvent → Prop}
  {c : FsConfig} {ino : Ino} {a : CachedAttr}

/-- The provider's time that is cached was listed last, with everything else but the size. -/
theorem listedLast_of_run (h : (fsService nfc cacheRoot).Run ok (.initial (.new disk)) c)
    (hget : c.st.attrs.get ino = some a) (hremote : a.remoteMtimeMs ≠ none) :
    ∃ e size, ListedLast c.log ino e ∧ a = { CachedAttr.ofListEntry e with size := size } := by
  refine Service.Run.invariant (I := fun c => ∀ ino a, c.st.attrs.get ino = some a → a.remoteMtimeMs ≠ none →
    ∃ e size, ListedLast c.log ino e ∧ a = { CachedAttr.ofListEntry e with size := size }) h
    (fun _ _ hget => by cases hget) (fun c e c' hrun hI hst _ => ?_) ino a hget hremote
  intro ino b hget hremote
  cases hst with
  | start hfresh hnone =>
    obtain ⟨e, size, hlast, rfl⟩ := hI ino b hget hremote
    exact ⟨e, size, hlast.snoc id, rfl⟩
  | @act t o a k r s hlive hstep =>
    have hlocal := (hrun.only Op.prog_setsLocal hlive).1
    rcases remote_of_step hstep hlocal t hget hremote with ⟨hkept, size, hold⟩ |
      ⟨entries, out, e, heq, hmem, rfl⟩
    · obtain ⟨e, size', hlast, heq⟩ := hI ino _ hold hremote
      exact ⟨e, b.size, hlast.snoc hkept, congrArg (fun a : CachedAttr => { a with size := b.size }) heq⟩
    · refine ⟨e, (CachedAttr.ofListEntry e).size, ?_, rfl⟩
      rw [Config.act_log, heq]
      exact listedLast_snoc hmem
  | finish hlive =>
    obtain ⟨e, size, hlast, rfl⟩ := hI ino b hget hremote
    exact ⟨e, size, hlast.snoc id, rfl⟩

/-- **The provider's time is shown only for what is untouched.** If the time cached for an entry is the
provider's, the daemon has listed the entry with it, and nothing has been changed through the mount since:
the entry is a folder, or a file that is neither hydrated nor waits for an upload, and `getxattr` says so. -/
theorem remote_time_untouched (h : (fsService nfc cacheRoot).Run ok (.initial (.new disk)) c) {ms : Int}
    (hget : c.st.attrs.get ino = some a) (hms : a.remoteMtimeMs = some ms) :
    (∃ e : ListEntry, ListedLast c.log ino e ∧ e.remoteModifiedMs = some ms ∧ e.folder = a.isFolder) ∧
      (a.isFolder = false → ∀ (order : ByteOrder) (size : Nat) (es : List (Occ Act.Ret))
        (res : Except XattrErrno ReplyXAttr) (s' : FsState),
        (Exec fsMachine (getxattr order ino (some commentName) size) c.st es res s' →
          res = answerXattr order (utf8 "Cloud only".toList) size) ∧
        (Exec fsMachine (getxattr order ino (some hydratedName) size) c.st es res s' →
          res = answerXattr order (utf8 "0".toList) size)) := by
  obtain ⟨e, size, hlast, rfl⟩ := listedLast_of_run h hget (by simp [hms])
  have htime : (CachedAttr.ofListEntry e).remoteMtimeMs = some ms := hms
  unfold CachedAttr.ofListEntry at htime
  dsimp only at htime
  split at htime
  · next huntouched =>
    refine ⟨⟨e, hlast, htime, rfl⟩, fun hfile order size es res s' => ?_⟩
    have hfolder : e.folder = false := hfile
    obtain ⟨hhydrated, hpending⟩ : e.hydrated = false ∧ e.pendingUpload = false := by
      simpa [hfolder] using huntouched
    constructor
    · intro hx
      rw [exec_getxattr_comment hget hx]
      simp [stateComment, CachedAttr.ofListEntry, hfolder, hhydrated, hpending]
    · intro hx
      rw [exec_getxattr_hydrated hget hx]
      simp [CachedAttr.ofListEntry, hhydrated]
  · cases htime

end

/-- A file that the daemon lists with the provider's time is looked up. -/
def lookupRemote : List (Move World Op) :=
  let listed := World.lists fun _ => [⟨['/', 'a'], 0, 0, false, false, some 7, false⟩]
  [.start 0 (.lookup rootInode (some ['a']))] ++ List.replicate 7 (.act 0 listed) ++ [.finish 0]

/-- The file is shown with that time, and is said to be in the cloud only. -/
theorem remote_time_untouched_lookup :
    ∃ c, plainFs.Run (fun _ _ => True) (.initial (.new .empty)) c ∧
      (∃ e : ListEntry, ListedLast c.log 2 e ∧ e.remoteModifiedMs = some 7 ∧ e.folder = false) ∧
      ∀ (es : List (Occ Act.Ret)) (res : Except XattrErrno ReplyXAttr) (s' : FsState),
        Exec fsMachine (getxattr .little 2 (some commentName) 10) c.st es res s' →
        res = .ok (.data (utf8 "Cloud only".toList)) := by
  have hplay : (plainFs.play (fun _ _ => true) lookupRemote (.initial (.new .empty))).any (fun c =>
      c.st.attrs.get 2 = some ⟨0, 0, some 7, false, false, false⟩) = true := by decide
  simp only [Option.any_eq_true, decide_eq_true_eq] at hplay
  obtain ⟨c, hplay, hget⟩ := hplay
  have hrun := Service.run_of_play .refl hplay fun _ _ _ _ => trivial
  obtain ⟨hlisted, hxattrs⟩ := remote_time_untouched hrun hget rfl
  exact ⟨c, hrun, hlisted, fun es res s' hx => (hxattrs rfl .little 10 es res s').1 hx⟩

end UnidriveMount
