import UnidriveMount.Fs.Alone

/-!
# Attributes of an entry being written

While a handle has bytes that are not uploaded, `getattr` should answer for its inode what was
written locally, not what the cloud's listing says. `ViewCache::apply` spares such entries; a listing
that `populate_from_list` takes over does not, and neither do a write or a truncation that find no
attributes cached. `attrs_kept` proves the property for the sequences of requests in which neither
happens (`LocalInputs`), and `attrs_not_kept` is a sequence in which it fails.

What was written through which handle is read off the history (`Writing`).
-/

namespace UnidriveMount

open Lib
open Lib.Prog (fail only_perform)

/-! ## What was written -/

/-- For every handle number, the inode it was opened on last, and the end of the farthest non-empty
write through it since then and since the last truncation of the inode. -/
structure Writing : Type where
  on : Nat → Option Ino
  written : Nat → Nat

namespace Writing

/-- Nothing was opened. -/
def start : Writing := ⟨fun _ => none, fun _ => 0⟩

/-- The entry `inode` was truncated. -/
def truncate (g : Writing) (inode : Ino) : Writing :=
  { g with written := fun fh => if g.on fh = some inode then 0 else g.written fh }

/-- The handle `fh` was opened on `inode`. -/
def opened (g : Writing) (fh : Nat) (inode : Ino) : Writing :=
  ⟨Function.update g.on fh (some inode), Function.update g.written fh 0⟩

/-- Bytes up to `newEnd` were written through `fh`. -/
def wrote (g : Writing) (fh newEnd : Nat) : Writing :=
  { g with written := Function.update g.written fh (max (g.written fh) newEnd) }

section
variable (g : Writing) (inode : Ino) (fh fh' newEnd : Nat)

@[simp] theorem truncate_on : (g.truncate inode).on fh = g.on fh := rfl

theorem truncate_written :
    (g.truncate inode).written fh = if g.on fh = some inode then 0 else g.written fh := rfl

@[simp] theorem opened_on :
    (g.opened fh inode).on fh' = if fh' = fh then some inode else g.on fh' :=
  Function.update_apply ..

@[simp] theorem opened_written :
    (g.opened fh inode).written fh' = if fh' = fh then 0 else g.written fh' :=
  Function.update_apply ..

@[simp] theorem wrote_on : (g.wrote fh newEnd).on fh' = g.on fh' := rfl

@[simp] theorem wrote_written : (g.wrote fh newEnd).written fh' =
    if fh' = fh then max (g.written fh) newEnd else g.written fh' :=
  Function.update_apply ..

end

end Writing

/-- Whether the request has truncated its entry: the daemon has emptied the cache file, or the file
of the handle was cut. -/
def truncates (x : FsServed) : Bool :=
  x.occs.any fun e => match e with
    | ⟨.reply (.openWriteBegin ..), .ok _⟩ | ⟨.handleSetLen .., .ok _⟩ => true
    | _ => false

/-- What was written after one more request. -/
def Writing.after (g : Writing) (x : FsServed) : Writing :=
  match x.req, x.res with
  | .open inode _, .ok (.opened r) =>
    (if truncates x then g.truncate inode else g).opened r.fh inode
  | .open inode _, _ => if truncates x then g.truncate inode else g
  | .create .., .ok (.created r) => (g.truncate r.attr.ino).opened r.fh r.attr.ino
  | .write _ fh offset _, .ok (.written n) => if n = 0 then g else g.wrote fh (offset + n)
  | .setattr inode _ _, _ => if truncates x then g.truncate inode else g
  | _, _ => g

/-- What was written in a history, its latest request first. -/
def writing : List FsServed → Writing
  | [] => .start
  | x :: l => (writing l).after x

/-! ## The property -/

/-- Whenever a handle is dirty, `getattr` of its inode answers, with a size not below what was
written through the handle, and not with the provider's time. -/
def KeepsLocal (l : List FsServed) (s : FsState) : Prop :=
  ∀ (fh : Nat) (h : OpenHandle) (inode : Ino) (es : List (Occ Act.Ret))
    (res : Except Errno ReplyAttr) (s' : FsState), s.openHandles.get fh = some h →
    h.dirty = true → (writing l).on fh = some inode → Exec fsMachine (getattr inode) s es res s' →
    ∃ a, Exec fsMachine (getOrFetchAttr inode) s es (.ok a) s' ∧
      res = .ok ⟨ttl, fileAttrFromCached inode a⟩ ∧
      (writing l).written fh ≤ (fileAttrFromCached inode a).size ∧ a.remoteMtimeMs = none

/-- The requests of the view: those the property is about. -/
def Op.Views : Op → Prop
  | «open» .. | create .. | write .. | setattr _ (some _) _ | fsync .. | release .. | lookup ..
  | getattr _ | readdir .. | readdirplus .. | apply _ => True
  | _ => False

/-- The request is made on the handle `fh`, as a handle of `inode`. -/
def Op.On (inode : Ino) (fh : Nat) : Op → Prop
  | write inode' fh' _ _ | setattr inode' (some fh') _ => inode' = inode ∧ fh' = fh
  | _ => False

/-- The request is one of the view, and the kernel names a handle by the inode it was opened on. -/
structure ViewRequest (l : List FsServed) (s : FsState) (x : FsServed) : Prop where
  views : x.req.Views
  handle : ∀ (inode : Ino) (fh : Nat) (h : OpenHandle), x.req.On inode fh →
    s.openHandles.get fh = some h → (writing l).on fh = some inode

/-! ## Where it holds -/

/-- The handle `fh` of `inode` is dirty. -/
def DirtyOn (g : Writing) (s : FsState) (inode : Ino) (fh : Nat) : Prop :=
  g.on fh = some inode ∧ ∃ h, s.openHandles.get fh = some h ∧ h.dirty = true

/-- The request leaves a handle of `inode` dirty. -/
def Dirties (inode : Ino) (x : FsServed) : Prop :=
  match x.req with
  | .write inode' _ _ _ => inode' = inode ∧ ∃ r, x.res = .ok r
  | .setattr inode' _ _ => inode' = inode ∧ truncates x = true
  | .open inode' flags => inode' = inode ∧ isTruncating flags = true ∧ ∃ r, x.res = .ok r
  | _ => False

/-- What the request takes over from outside agrees with what is being written: a listing that has
an entry for the inode of a dirty handle gives it at least the size written and no remote time, a
file that is opened has at least the size written, and a handle becomes dirty only when attributes
are cached for its inode, of at least the size written. The inode counter does not wrap around. -/
structure LocalInputs (l : List FsServed) (s : FsState) (x : FsServed) : Prop
    extends ViewRequest l s x where
  listed : ∀ (entries : List ListEntry) (out : List (Ino × ListEntry)),
    ⟨.insertListed entries, out⟩ ∈ x.occs → ∀ e ∈ out, ∀ fh, DirtyOn (writing l) s e.1 fh →
      (writing l).written fh ≤ e.2.size ∧ (CachedAttr.ofListEntry e.2).remoteMtimeMs = none
  opened : ∀ (inode : Ino) (len : Nat) (stale : Bool), ⟨.attrOpened inode len, stale⟩ ∈ x.occs →
    ∀ fh, DirtyOn (writing l) s inode fh → (writing l).written fh ≤ len
  cached : ∀ inode, Dirties inode x → ∃ a, s.attrs.get inode = some a
  regrown : ∀ (inode : Ino) (fh offset : Nat) (data : List UInt8) (n : Nat) (a : CachedAttr),
    x.req = .write inode fh offset data → x.res = .ok (.written n) →
    s.attrs.get inode = some a → (writing l).written fh ≤ max a.size (offset + n)
  room : s.paths.next + interned x.occs < inodeSpace

/-! ## The invariant -/

/-- The attributes are those of an entry that was written up to `n`. -/
def CachedAttr.Covers (a : CachedAttr) (n : Nat) : Prop := n ≤ a.size ∧ a.remoteMtimeMs = none

/-- Every open handle is named by its inode, and an entry with a dirty handle has its local
attributes cached. `marked` adds handles that are to be regarded as dirty. -/
structure Local (g : Writing) (marked : Nat → Prop) (s : FsState) : Prop where
  named : ∀ (fh : Nat) (h : OpenHandle), s.openHandles.get fh = some h →
    ∃ inode, g.on fh = some inode ∧ h.remotePath ≠ [] ∧ s.paths.inodeFor h.remotePath = some inode
  kept : ∀ (fh : Nat) (h : OpenHandle) (inode : Ino), s.openHandles.get fh = some h →
    h.dirty = true ∨ marked fh → g.on fh = some inode →
    ∃ a, s.attrs.get inode = some a ∧ a.Covers (g.written fh)

/-- The action leaves the three tables alone. -/
def Act.Idle : Act → Prop
  | intern _ | forget _ | renamePaths .. | attrInsert .. | attrRemove _ | attrEdit .. | attrOpened ..
  | insertListed _ | applyInvalidation .. | handleInsert .. | handleRemove _ | handleWrite ..
  | handleSetLen .. | handleClaim .. | handleRestore _ | followRenames .. => False
  | _ => True

theorem tables_of_idle {a : Act} {s s' : FsState} {r : a.Ret} (h : fsMachine.Step a s r s')
    (ha : a.Idle) :
    s'.openHandles = s.openHandles ∧ s'.paths = s.paths ∧ s'.attrs = s.attrs := by
  obtain ⟨-, (w : World), (hrun : a.run w s = (r, s'))⟩ := h
  cases a with
  | intern | forget | renamePaths | attrInsert | attrRemove | attrEdit | attrOpened | insertListed
  | applyInvalidation | handleInsert | handleRemove | handleWrite | handleSetLen | handleClaim
  | handleRestore | followRenames => exact ha.elim
  | openFile | setLen =>
    simp only [Act.run] at hrun
    split at hrun <;> cases hrun <;> exact ⟨rfl, rfl, rfl⟩
  | removeFile path | removeDirAll path =>
    cases hrun
    split <;> exact ⟨rfl, rfl, rfl⟩
  | _ => cases hrun; exact ⟨rfl, rfl, rfl⟩

namespace Local

variable {g : Writing} {marked : Nat → Prop} {s s' : FsState}

theorem start (disk : Disk) : Local .start marked (.new disk) where
  named fh h hget := by simp [FsState.new] at hget
  kept fh h inode hget := by simp [FsState.new] at hget

/-- The invariant is about the three tables alone. -/
theorem of_tables (h : Local g marked s) (hh : s'.openHandles = s.openHandles)
    (hp : s'.paths = s.paths) (ha : s'.attrs = s.attrs) : Local g marked s' where
  named := by
    rw [hh, hp]
    exact h.named
  kept := by
    rw [hh, ha]
    exact h.kept

theorem idle (h : Local g marked s) {a : Act} {r : a.Ret} (hst : fsMachine.Step a s r s')
    (ha : a.Idle) : Local g marked s' := by
  obtain ⟨hh, hp, hattrs⟩ := tables_of_idle hst ha
  exact h.of_tables hh hp hattrs

theorem intern (h : Local g marked s) (path : Str) :
    Local g marked { s with paths := (s.paths.intern path).2 } where
  named fh handle hget := by
    obtain ⟨inode, hon, hne, hfor⟩ := h.named fh handle hget
    exact ⟨inode, hon, hne, PathMap.inodeFor_intern_of_some hfor⟩
  kept := h.kept

/-- New attributes for an inode must cover what is written to it. -/
theorem attrInsert (h : Local g marked s) (inode : Ino) (a : CachedAttr)
    (ha : ∀ fh handle, s.openHandles.get fh = some handle → handle.dirty = true ∨ marked fh →
      g.on fh = some inode → a.Covers (g.written fh)) :
    Local g marked { s with attrs := s.attrs.insert inode a } where
  named := h.named
  kept fh handle inode' hget hd hon := by
    rw [HashMap.get_insert]
    split
    · next heq =>
      subst heq
      exact ⟨a, rfl, ha fh handle hget hd hon⟩
    · exact h.kept fh handle inode' hget hd hon

/-- A listing must cover what is written to its entries. -/
theorem insertListed (h : Local g marked s) (entries : List ListEntry)
    (hlist : ∀ e ∈ (s.insertListed entries).1, ∀ fh handle, s.openHandles.get fh = some handle →
      handle.dirty = true ∨ marked fh → g.on fh = some e.1 →
      (CachedAttr.ofListEntry e.2).Covers (g.written fh)) :
    Local g marked (s.insertListed entries).2 := by
  induction entries generalizing s with
  | nil => exact h
  | cons e entries ih =>
    refine ih ((h.intern e.path).attrInsert _ _ fun fh handle hget hd hon => ?_)
      fun e' he' => hlist e' (List.mem_cons_of_mem _ he')
    exact hlist (_, e) (List.mem_cons_self ..) fh handle hget hd hon

/-- An edit must keep the size, or the entry was truncated. -/
theorem attrEdit (h : Local g marked s) (inode : Ino) (f : CachedAttr → CachedAttr)
    (hf : ∀ a fh, g.on fh = some inode → a.Covers (g.written fh) → (f a).Covers (g.written fh)) :
    Local g marked { s with attrs := s.attrs.modify inode f } where
  named := h.named
  kept fh handle inode' hget hd hon := by
    obtain ⟨a, ha, hc⟩ := h.kept fh handle inode' hget hd hon
    rw [HashMap.get_modify]
    split
    · next heq =>
      subst heq
      exact ⟨f a, by rw [ha]; rfl, hf a fh hon hc⟩
    · exact ⟨a, ha, hc⟩

theorem handleRemove (h : Local g marked s) (fh : Nat) :
    Local g marked { s with openHandles := s.openHandles.remove fh } where
  named fh' handle hget := by
    rw [HashMap.get_remove] at hget
    split at hget
    · cases hget
    · exact h.named fh' handle hget
  kept fh' handle inode hget := by
    rw [HashMap.get_remove] at hget
    split at hget
    · cases hget
    · exact h.kept fh' handle inode hget

/-- A handle that becomes dirty must have its local attributes cached. -/
theorem setDirty (h : Local g marked s) (fh : Nat) {handle : OpenHandle}
    (hget : s.openHandles.get fh = some handle) (b : Bool)
    (hb : b = true → ∀ inode, g.on fh = some inode →
      ∃ a, s.attrs.get inode = some a ∧ a.Covers (g.written fh)) (disk : Disk) :
    Local g marked { s with
      openHandles := s.openHandles.insert fh { handle with dirty := b }, disk := disk } where
  named fh' handle' hget' := by
    rw [HashMap.get_insert] at hget'
    split at hget'
    · next heq =>
      subst heq
      cases hget'
      exact h.named _ handle hget
    · exact h.named fh' handle' hget'
  kept fh' handle' inode hget' hd hon := by
    rw [HashMap.get_insert] at hget'
    split at hget'
    · next heq =>
      subst heq
      cases hget'
      rcases hd with hd | hm
      · exact hb hd inode hon
      · exact h.kept _ handle inode hget (.inr hm) hon
    · exact h.kept fh' handle' inode hget' hd hon

/-- Less to cover. -/
theorem mono (h : Local g marked s) {g' : Writing} (hon : g'.on = g.on)
    (hw : ∀ fh, g'.written fh ≤ g.written fh) : Local g' marked s where
  named := hon ▸ h.named
  kept fh handle inode hget hd hon' := by
    obtain ⟨a, ha, hc⟩ := h.kept fh handle inode hget hd (hon ▸ hon')
    exact ⟨a, ha, (hw fh).trans hc.1, hc.2⟩

theorem truncate (h : Local g marked s) (inode : Ino) : Local (g.truncate inode) marked s :=
  h.mono rfl fun fh => by
    rw [Writing.truncate_written]
    split
    · exact Nat.zero_le _
    · exact le_rfl

theorem truncate_if (h : Local g marked s) (inode : Ino) (b : Bool) :
    Local (if b then g.truncate inode else g) marked s := by
  split
  · exact h.truncate inode
  · exact h

/-- Attributes without a remote time cover an entry that was truncated. -/
theorem truncate_covers {a : CachedAttr} (ha : a.remoteMtimeMs = none) (g : Writing) {fh : Nat}
    {inode : Ino} (hon : g.on fh = some inode) : a.Covers ((g.truncate inode).written fh) := by
  rw [Writing.truncate_written, if_pos hon]
  exact ⟨Nat.zero_le _, ha⟩

/-- A new handle, of an entry that has its attributes cached if the handle is dirty. -/
theorem publish (h : Local g marked s) (fh : Nat) (handle : OpenHandle) (inode : Ino)
    (hne : handle.remotePath ≠ []) (hfor : s.paths.inodeFor handle.remotePath = some inode)
    (hd : handle.dirty = true ∨ marked fh →
      ∃ a, s.attrs.get inode = some a ∧ a.remoteMtimeMs = none) :
    Local (g.opened fh inode) marked
      { s with openHandles := s.openHandles.insert fh handle } where
  named fh' handle' hget := by
    rw [Writing.opened_on]
    rw [HashMap.get_insert] at hget
    split at hget
    · next heq =>
      cases hget
      exact ⟨inode, if_pos heq, hne, hfor⟩
    · next hfh =>
      rw [if_neg hfh]
      exact h.named fh' handle' hget
  kept fh' handle' inode' hget hd' hon := by
    rw [Writing.opened_on] at hon
    rw [Writing.opened_written]
    rw [HashMap.get_insert] at hget
    split at hget
    · next heq =>
      subst heq
      rw [if_pos rfl] at hon ⊢
      cases hget
      cases hon
      obtain ⟨a, ha, hr⟩ := hd hd'
      exact ⟨a, ha, Nat.zero_le _, hr⟩
    · next hfh =>
      rw [if_neg hfh] at hon ⊢
      exact h.kept fh' handle' inode' hget hd' hon

/-- Bytes written through a handle, once the attributes cover them. -/
theorem wrote (h : Local g marked s) (fh newEnd : Nat)
    (hc : ∀ inode, g.on fh = some inode →
      ∃ a, s.attrs.get inode = some a ∧ a.Covers (max (g.written fh) newEnd)) :
    Local (g.wrote fh newEnd) marked s where
  named := h.named
  kept fh' handle inode hget hd hon := by
    rw [Writing.wrote_written]
    split
    · next hfh => exact hc inode (hfh ▸ hon)
    · exact h.kept fh' handle inode hget hd hon

/-- A handle that is dirty may be marked. -/
theorem mark (h : Local g (fun _ => False) s) {fh : Nat} {handle : OpenHandle}
    (hget : s.openHandles.get fh = some handle) :
    Local g (fun fh' => fh' = fh ∧ handle.dirty = true) s where
  named := h.named
  kept fh' handle' inode hget' hd hon := by
    refine h.kept fh' handle' inode hget' (hd.elim .inl ?_) hon
    rintro ⟨rfl, hdirty⟩
    cases hget.symm.trans hget'
    exact .inl hdirty

theorem unmark (h : Local g marked s) : Local g (fun _ => False) s where
  named := h.named
  kept fh handle inode hget hd hon :=
    h.kept fh handle inode hget (hd.elim .inl False.elim) hon

/-- A marked handle may be made dirty again. -/
theorem restore (h : Local g marked s) {fh : Nat} (hm : marked fh) :
    Local g (fun _ => False) { s with
      openHandles := s.openHandles.modify fh fun handle => { handle with dirty := true } } where
  named fh' handle' hget := by
    rw [HashMap.get_modify] at hget
    split at hget
    · next heq =>
      obtain ⟨handle, hold, rfl⟩ := Option.map_eq_some_iff.1 hget
      exact heq ▸ h.named fh handle hold
    · exact h.named fh' handle' hget
  kept fh' handle' inode hget hd hon := by
    rw [HashMap.get_modify] at hget
    split at hget
    · next heq =>
      subst heq
      obtain ⟨handle, hold, rfl⟩ := Option.map_eq_some_iff.1 hget
      exact h.kept fh' handle inode hold (.inr hm) hon
    · exact h.kept fh' handle' inode hget (hd.elim .inl False.elim) hon

/-- A truncation through a handle, with the edit of the attributes that follows it. -/
theorem truncated (h : Local g marked s) {fh : Nat} {handle : OpenHandle} {inode : Ino}
    (hget : s.openHandles.get fh = some handle) (hon : g.on fh = some inode) {a : CachedAttr}
    (ha : s.attrs.get inode = some a) {f : CachedAttr → CachedAttr}
    (hf : ∀ a, (f a).remoteMtimeMs = none) (disk : Disk) :
    Local (g.truncate inode) marked { s with
      openHandles := s.openHandles.insert fh { handle with dirty := true }
      attrs := s.attrs.modify inode f
      disk := disk } := by
  have hedit := (h.truncate inode).attrEdit inode f
    fun a fh' hon' _ => truncate_covers (hf a) g hon'
  refine hedit.setDirty fh hget true (fun _ inode' hon' => ?_) disk
  cases hon.symm.trans hon'
  refine ⟨f a, ?_, truncate_covers (hf a) g hon⟩
  rw [HashMap.get_modify, if_pos rfl, ha, Option.map_some]

end Local

/-! ## Requests that only look -/

/-- The action looks, or gives a path an inode, or takes a listing over. -/
def Act.Browses : Act → Prop
  | intern _ | insertListed _ => True
  | a => a.Idle

theorem Act.Looks.browses {a : Act} (h : a.Looks) : a.Browses := by
  cases a <;> trivial

theorem Act.Records.browses {a : Act} (h : a.Records) : a.Browses := by
  cases a <;> trivial

/-- The listings taken over cover what is written through the handles of the table. -/
def Agrees (g : Writing) (handles : HashMap Nat OpenHandle) (es : List (Occ Act.Ret)) : Prop :=
  ∀ (entries : List ListEntry) (out : List (Ino × ListEntry)),
    ⟨.insertListed entries, out⟩ ∈ es → ∀ e ∈ out, ∀ fh handle, handles.get fh = some handle →
      handle.dirty = true → g.on fh = some e.1 → (CachedAttr.ofListEntry e.2).Covers (g.written fh)

section
variable {g : Writing} {s s' : FsState} {α β : Type} {es : List (Occ Act.Ret)}

theorem Local.browse {a : Act} {r : a.Ret} (h : Local g (fun _ => False) s) (ha : a.Browses)
    (hst : fsMachine.Step a s r s') (hl : Agrees g s.openHandles [⟨a, r⟩]) :
    Local g (fun _ => False) s' ∧ s'.openHandles = s.openHandles := by
  by_cases hidle : a.Idle
  · exact ⟨h.idle hst hidle, (tables_of_idle hst hidle).1⟩
  · obtain ⟨-, (w : World), (hrun : a.run w s = (r, s'))⟩ := hst
    cases a with
    | intern path =>
      cases hrun
      exact ⟨h.intern path, rfl⟩
    | insertListed entries =>
      have hs : s' = (s.insertListed entries).2 := (congrArg Prod.snd hrun).symm
      have hr : r = (s.insertListed entries).1 := (congrArg Prod.fst hrun).symm
      subst hs hr
      refine ⟨h.insertListed entries fun e he fh handle hget hd hon => ?_,
        s.insertListed_openHandles entries⟩
      exact hl entries _ (List.mem_singleton_self _) e he fh handle hget
        (hd.resolve_right id) hon
    | _ => exact absurd ha hidle

/-- A program that only looks keeps the invariant and the handles. -/
theorem Local.browses {p : FsProg α} {res : Except Errno α} (h : Local g (fun _ => False) s)
    (hl : Agrees g s.openHandles es) (hx : Exec fsMachine p s es res s')
    (hp : p.Only Act.Browses) :
    Local g (fun _ => False) s' ∧ s'.openHandles = s.openHandles := by
  refine hx.invariant (I := fun s₁ => Local g (fun _ => False) s₁ ∧ s₁.openHandles = s.openHandles)
    hp ⟨h, rfl⟩ fun a r s₁ s₂ ha he hst hI => ?_
  obtain ⟨h₂, heq⟩ := hI.1.browse ha hst fun entries out hmem => by
    rw [List.mem_singleton] at hmem
    rw [hI.2]
    exact hl entries out (hmem ▸ he)
  exact ⟨h₂, heq.trans hI.2⟩

/-- A request that has only looked so far: the handles are what they were, and `es` is the rest of
its occurrences `all`. -/
structure Browsing (g : Writing) (handles : HashMap Nat OpenHandle) (all es : List (Occ Act.Ret))
    (s : FsState) : Prop where
  loc : Local g (fun _ => False) s
  handles : s.openHandles = handles
  rest : ∀ e ∈ es, e ∈ all

/-- A first part that only looks either ends the program or leaves its second part to run. -/
theorem Browsing.skip {handles : HashMap Nat OpenHandle} {all : List (Occ Act.Ret)}
    {p : FsProg α} {f : α → FsProg β} {res : Except Errno β} {R : Prop}
    (hI : Browsing g handles all es s) (hl : Agrees g handles all)
    (hx : Exec fsMachine (p >>= f) s es res s') (hp : p.Only Act.Browses)
    (hk : ∀ x s₁ es₁ es₂, Browsing g handles all es₂ s₁ → Exec fsMachine p s es₁ (.ok x) s₁ →
      Exec fsMachine (f x) s₁ es₂ res s' →
      (∃ e, res = .error e ∧ Local g (fun _ => False) s') ∨ R) :
    (∃ e, res = .error e ∧ Local g (fun _ => False) s') ∨ R := by
  have hl' : Agrees g s.openHandles es := by
    rw [hI.handles]
    exact fun entries out hmem => hl entries out (hI.rest _ hmem)
  rcases exec_bind_iff.1 hx with ⟨e, rfl, he⟩ | ⟨x, s₁, es₁, es₂, h₁, h₂, rfl⟩
  · exact .inl ⟨e, rfl, (hI.loc.browses hl' he hp).1⟩
  · obtain ⟨hloc, heq⟩ := hI.loc.browses
      (fun entries out hmem => hl' entries out (List.mem_append_left _ hmem)) h₁ hp
    exact hk x s₁ es₁ es₂ ⟨hloc, heq.trans hI.handles,
      fun e he => hI.rest e (List.mem_append_right _ he)⟩ h₁ h₂

end

/-! ## The requests -/

section
variable {nfc : Str → Str} {cacheRoot : Option Str} {g : Writing} {s s' : FsState}
  {es : List (Occ Act.Ret)}

/-- Cached attributes are answered as they are. -/
theorem getOrFetchAttr_cached {inode : Ino} {a : CachedAttr} (hne : inode ≠ rootInode)
    (ha : s.attrs.get inode = some a) {res : Except Errno CachedAttr}
    (hx : Exec fsMachine (getOrFetchAttr inode) s es res s') :
    res = .ok a ∧ s' = s ∧ es = [⟨.attrOf inode, some a⟩] := by
  unfold getOrFetchAttr at hx
  rw [if_neg hne] at hx
  obtain ⟨r, s₁, es', ⟨-, (w : World), hrun⟩, rfl, hk⟩ := exec_act_iff.1 hx
  cases hrun
  rw [ha] at hk ⊢
  obtain ⟨rfl, rfl, rfl⟩ := exec_ret_iff.1 hk
  exact ⟨rfl, rfl, rfl⟩

/-- What the invariant says about `getattr`. -/
theorem Local.getattr (h : Local g (fun _ => False) s) (hs : s.paths.Sound) {fh : Nat}
    {handle : OpenHandle} {inode : Ino} {res : Except Errno ReplyAttr}
    (hget : s.openHandles.get fh = some handle) (hd : handle.dirty = true)
    (hon : g.on fh = some inode) (hx : Exec fsMachine (getattr inode) s es res s') :
    ∃ a, Exec fsMachine (getOrFetchAttr inode) s es (.ok a) s' ∧
      res = .ok ⟨ttl, fileAttrFromCached inode a⟩ ∧
      g.written fh ≤ (fileAttrFromCached inode a).size ∧ a.remoteMtimeMs = none := by
  obtain ⟨inode', hon', hpath, hfor⟩ := h.named fh handle hget
  cases hon.symm.trans hon'
  obtain ⟨a, ha, hc⟩ := h.kept fh handle inode hget (.inl hd) hon
  obtain ⟨res, hx', hres⟩ := exec_map_iff.1 hx
  obtain ⟨rfl, rfl, rfl⟩ := getOrFetchAttr_cached (hs.ne_rootInode hfor hpath) ha hx'
  exact ⟨a, hx', hres, hc.1, hc.2⟩

theorem Local.write (h : Local g (fun _ => False) s) {inode : Ino} {fh offset : Nat}
    {data : List UInt8} {res : Except Errno Nat}
    (hx : Exec fsMachine (write inode fh offset data) s es res s')
    (hon : ∀ handle, s.openHandles.get fh = some handle → g.on fh = some inode)
    (hcached : ∀ n, res = .ok n → ∃ a, s.attrs.get inode = some a ∧
      g.written fh ≤ max a.size (offset + n)) :
    (∃ e, res = .error e ∧ Local g (fun _ => False) s') ∨
      ∃ n, res = .ok n ∧ Local (g.wrote fh (offset + n)) (fun _ => False) s' := by
  obtain ⟨r, s₁, es', ⟨-, (w : World), (hrun : s.handleWrite w fh offset data = (r, s₁))⟩, rfl,
    hk⟩ := exec_act_iff.1 hx
  cases r with
  | error e =>
    obtain ⟨-, rfl, rfl⟩ := exec_ret_iff.1 hk
    have hs : s' = s := by
      unfold FsState.handleWrite at hrun
      split at hrun
      · cases hrun; rfl
      · split at hrun <;> cases hrun; rfl
    exact .inl ⟨e, rfl, hs ▸ h⟩
  | ok n =>
    obtain ⟨_, s₂, es'', ⟨-, (w' : World), hrun'⟩, rfl, hret⟩ := exec_act_iff.1 hk
    obtain ⟨-, rfl, rfl⟩ := exec_ret_iff.1 hret
    cases hrun'
    obtain ⟨a, ha, hmax⟩ := hcached n rfl
    unfold FsState.handleWrite at hrun
    split at hrun
    · cases hrun
    · next handle hget =>
      split at hrun
      · obtain ⟨-, rfl⟩ := Prod.mk.inj hrun
        -- the attributes grow first, which leads to the same state
        have hgrown : Local g (fun _ => False) { s with
            attrs := s.attrs.modify inode (AttrEdit.apply w'.clock (.grown (offset + n))) } :=
          h.attrEdit inode _ fun a fh' _ hc => ⟨hc.1.trans (le_max_left ..), rfl⟩
        have hcover : ∀ inode', g.on fh = some inode' → ∃ a',
            (s.attrs.modify inode (AttrEdit.apply w'.clock (.grown (offset + n)))).get inode' =
              some a' ∧ a'.Covers (max (g.written fh) (offset + n)) := by
          intro inode' hon'
          cases (hon handle hget).symm.trans hon'
          rw [HashMap.get_modify, if_pos rfl, ha]
          exact ⟨_, rfl, max_le hmax (le_max_right ..), rfl⟩
        refine .inr ⟨n, rfl, (hgrown.wrote fh (offset + n) hcover).setDirty fh hget true
          (fun _ inode' hon' => ?_) _⟩
        obtain ⟨a', ha', hc⟩ := hcover inode' hon'
        exact ⟨a', ha', by simpa using hc⟩
      · cases hrun

/-- A truncation through a handle leaves the attributes of the truncated file cached. -/
theorem Local.setattr (h : Local g (fun _ => False) s) (hs : s.paths.Sound)
    (hl : Agrees g s.openHandles es) {inode : Ino} {fh : Nat} {size : Option Nat} {res : Except Errno ReplyAttr}
    (hx : Exec fsMachine (setattr inode (some fh) size) s es res s')
    (hon : ∀ handle, s.openHandles.get fh = some handle → g.on fh = some inode)
    (hcached : ∀ newSize, (⟨.handleSetLen fh newSize, .ok ()⟩ : Occ Act.Ret) ∈ es →
      ∃ a, s.attrs.get inode = some a) :
    Local g (fun _ => False) s' ∨
      (∃ newSize, (⟨.handleSetLen fh newSize, .ok ()⟩ : Occ Act.Ret) ∈ es) ∧
        Local (g.truncate inode) (fun _ => False) s' := by
  obtain ⟨path?, s₁, es₁, ⟨-, (w : World), hrun⟩, rfl, hk⟩ := exec_act_iff.1 hx
  cases hrun
  cases hpath : s.paths.pathFor inode with
  | none =>
    rw [hpath] at hk
    obtain ⟨-, -, rfl⟩ := exec_ret_iff.1 hk
    exact .inl h
  | some path =>
    rw [hpath] at hk
    have hl₁ : Agrees g s.openHandles es₁ := fun entries out hmem =>
      hl entries out (List.mem_cons_of_mem _ hmem)
    cases size with
    | none =>
      have hk' : Exec fsMachine (UnidriveMount.getattr inode) s es₁ res s' := hk
      exact .inl (h.browses hl₁ hk' (.bind (getOrFetchAttr_only fun _ ha => ha.browses)
        fun _ => only_pure _)).1
    | some newSize =>
      obtain ⟨r, s₂, es₂, ⟨-, (w' : World), (hrun : s.handleSetLen w' fh newSize = (r, s₂))⟩, rfl,
        hk₂⟩ := exec_act_iff.1 hk
      unfold FsState.handleSetLen at hrun
      split at hrun
      · cases hrun
        obtain ⟨-, -, rfl⟩ := exec_ret_iff.1 hk₂
        exact .inl h
      · next handle hget =>
        split at hrun
        · cases hrun
          obtain ⟨_, s₃, es₃, ⟨-, (w'' : World), hrun⟩, rfl, hk₃⟩ := exec_act_iff.1 hk₂
          have hk₃' : Exec fsMachine (UnidriveMount.getattr inode) s₃ es₃ res s' := hk₃
          obtain ⟨a, ha⟩ := hcached newSize (by simp)
          obtain ⟨inode', hon', hpath, hfor⟩ := h.named fh handle hget
          cases (hon handle hget).symm.trans hon'
          cases hrun
          have hnone : ∀ a : CachedAttr, ((if newSize = 0 then AttrEdit.truncated
              else AttrEdit.resized newSize).apply w''.clock a).remoteMtimeMs = none := by
            intro a
            split <;> rfl
          have htrunc := h.truncated hget hon' ha hnone (s.disk.setLen handle.file newSize)
          obtain ⟨r, hx', -⟩ := exec_map_iff.1 hk₃'
          obtain ⟨-, rfl, -⟩ := getOrFetchAttr_cached (hs.ne_rootInode hfor hpath)
            (by rw [HashMap.get_modify, if_pos rfl, ha, Option.map_some]) hx'
          exact .inr ⟨⟨newSize, by simp⟩, htrunc⟩
        · cases hrun
          obtain ⟨-, -, rfl⟩ := exec_ret_iff.1 hk₂
          exact .inl h

/-- An `fsync` that fails leaves the handle as dirty as it was. -/
theorem Local.fsync (h : Local g (fun _ => False) s) {fh : Nat} {datasync : Bool}
    {res : Except Errno Unit} (hx : Exec fsMachine (fsync fh datasync) s es res s') :
    Local g (fun _ => False) s' := by
  obtain ⟨r, s₁, es₁, ⟨-, (w : World), (hrun : s.handleClaim w fh = (r, s₁))⟩, rfl, hk⟩ :=
    exec_act_iff.1 hx
  unfold FsState.handleClaim at hrun
  split at hrun
  · cases hrun
    obtain ⟨-, -, rfl⟩ := exec_ret_iff.1 hk
    exact h
  · next handle hget =>
    split at hrun
    · cases hrun
      have hclaimed := (h.mark hget).setDirty fh hget false (by simp) s.disk
      have hk' : Exec fsMachine (if !handle.dirty then pure () else _) _ es₁ res s' := hk
      split at hk'
      · obtain ⟨-, -, rfl⟩ := exec_ret_iff.1 hk'
        exact hclaimed.unmark
      · next hd =>
        have hd : handle.dirty = true := by simpa using hd
        obtain ⟨_, s₂, es₂, hst₂, rfl, hk₂⟩ := exec_act_iff.1 hk'
        obtain ⟨r, s₃, es₃, hst₃, rfl, hk₃⟩ := exec_act_iff.1 hk₂
        have hsent := (hclaimed.idle hst₂ trivial).idle hst₃ trivial
        cases r with
        | ok r =>
          obtain ⟨-, -, rfl⟩ := exec_ret_iff.1 hk₃
          exact hsent.unmark
        | error e =>
          obtain ⟨_, s₄, es₄, ⟨-, (w' : World), hrun⟩, rfl, hk₄⟩ := exec_act_iff.1 hk₃
          obtain ⟨-, -, rfl⟩ := exec_ret_iff.1 hk₄
          cases hrun
          exact hsent.restore ⟨rfl, hd⟩
    · cases hrun
      obtain ⟨-, -, rfl⟩ := exec_ret_iff.1 hk
      exact h

theorem Local.release (h : Local g (fun _ => False) s) {fh : Nat} {res : Except Errno Unit}
    (hx : Exec fsMachine (release fh) s es res s') : Local g (fun _ => False) s' := by
  obtain ⟨r, s₁, es₁, ⟨-, (w : World), hrun⟩, rfl, hk⟩ := exec_act_iff.1 hx
  cases hrun
  have hremoved := h.handleRemove fh
  cases hget : s.openHandles.get fh with
  | none =>
    rw [hget] at hk
    obtain ⟨-, -, rfl⟩ := exec_ret_iff.1 hk
    exact hremoved
  | some handle =>
    rw [hget] at hk
    have hk' : Exec fsMachine (commitIfDirty handle >>= fun _ =>
      ipc (.closeHandle handle.handleId) >>= fun _ => pure ()) _ es₁ res s' := hk
    have idle : ∀ a : Act, a.Commits → a.Idle := fun a ha => by cases a <;> trivial
    exact hk'.invariant (.bind (commitIfDirty_only fun _ => idle _) fun _ =>
      .bind (only_ipc trivial trivial) fun _ => only_pure _) hremoved
      fun a r s₁ s₂ ha _ hst hI => hI.idle hst ha

/-- A change event spares the entries of the dirty handles. -/
theorem invalidatedAttrs_get {change : Invalidation} {unsent : List Str} {p : Str} {inode : Ino}
    (hp : p ∈ unsent) (hfor : s.paths.inodeFor p = some inode) :
    (s.invalidatedAttrs change unsent).get inode = s.attrs.get inode := by
  rcases s.get_invalidatedAttrs change unsent inode with ⟨-, hkeep, -⟩ | ⟨-, heq⟩
  · exact absurd (List.mem_filterMap.2 ⟨p, hp, hfor⟩) hkeep
  · exact heq

theorem Local.apply (h : Local g (fun _ => False) s) {change : Invalidation}
    {res : Except Errno Unit} (hx : Exec fsMachine (apply change) s es res s') :
    Local g (fun _ => False) s' := by
  obtain ⟨unsent, s₁, es₁, ⟨-, (w : World), hrun⟩, rfl, hk⟩ := exec_act_iff.1 hx
  obtain ⟨_, s₂, es₂, ⟨-, (w' : World), hrun'⟩, rfl, hret⟩ := exec_act_iff.1 hk
  obtain ⟨-, -, rfl⟩ := exec_ret_iff.1 hret
  cases hrun
  cases hrun'
  refine ⟨h.named, fun fh handle inode hget hd hon => ?_⟩
  obtain ⟨inode', hon', -, hfor⟩ := h.named fh handle hget
  cases hon.symm.trans hon'
  have hunsent : handle.remotePath ∈
      (s.openHandles.values.filter fun h => h.dirty).map OpenHandle.remotePath :=
    List.mem_map.2 ⟨handle, List.mem_filter.2
      ⟨HashMap.mem_values.2 ⟨fh, hget⟩, hd.resolve_right id⟩, rfl⟩
  obtain ⟨a, ha, hc⟩ := h.kept fh handle inode hget hd hon
  exact ⟨a, (invalidatedAttrs_get hunsent hfor).trans ha, hc⟩

/-- A program of idle actions leaves the tables alone. -/
theorem tables_of_exec_idle {α : Type} {p : FsProg α} {res : Except Errno α}
    (hx : Exec fsMachine p s es res s') (hp : p.Only Act.Idle) :
    s'.openHandles = s.openHandles ∧ s'.paths = s.paths ∧ s'.attrs = s.attrs := by
  refine hx.invariant (I := fun s₁ => s₁.openHandles = s.openHandles ∧ s₁.paths = s.paths ∧
    s₁.attrs = s.attrs) hp ⟨rfl, rfl, rfl⟩ fun a r s₁ s₂ ha _ hst hI => ?_
  obtain ⟨hh, hp, hattrs⟩ := tables_of_idle hst ha
  exact ⟨hh.trans hI.1, hp.trans hI.2.1, hattrs.trans hI.2.2⟩

/-- The file that is opened must cover what is written to the entry. -/
theorem Local.attrOpened (h : Local g (fun _ => False) s) {inode : Ino} {len : Nat} {stale : Bool}
    (hst : fsMachine.Step (.attrOpened inode len) s stale s')
    (hlen : ∀ fh handle, s.openHandles.get fh = some handle → handle.dirty = true →
      g.on fh = some inode → g.written fh ≤ len) : Local g (fun _ => False) s' := by
  obtain ⟨-, (w : World), hrun⟩ := hst
  simp only [fsMachine, Act.run] at hrun
  split at hrun
  · next a ha =>
    cases hrun
    refine h.attrInsert inode _ fun fh handle hget hd hon => ?_
    obtain ⟨a', ha', hc⟩ := h.kept fh handle inode hget hd hon
    cases ha.symm.trans ha'
    exact ⟨hlen fh handle hget (hd.resolve_right id) hon, hc.2⟩
  · cases hrun
    exact h

theorem Local.syncSize (h : Local g (fun _ => False) s) {flags : UInt32} {inode : Ino}
    {file : File} {res : Except Errno Bool}
    (hx : Exec fsMachine (syncSize flags inode file) s es res s')
    (hlen : ∀ len stale, (⟨.attrOpened inode len, stale⟩ : Occ Act.Ret) ∈ es →
      ∀ fh handle, s.openHandles.get fh = some handle → handle.dirty = true →
        g.on fh = some inode → g.written fh ≤ len) :
    (∃ stale, res = .ok stale) ∧ Local g (fun _ => False) s' ∧ s'.openHandles = s.openHandles ∧
      s'.paths = s.paths ∧ (isTruncating flags = true → s'.attrs = s.attrs) := by
  unfold UnidriveMount.syncSize at hx
  split at hx
  · obtain ⟨-, rfl, rfl⟩ := exec_ret_iff.1 hx
    exact ⟨⟨_, rfl⟩, h, rfl, rfl, fun _ => rfl⟩
  · next hflags =>
    obtain ⟨len?, s₁, es₁, hst, rfl, hk⟩ := exec_act_iff.1 hx
    obtain ⟨hh, hp, -⟩ := tables_of_idle hst trivial
    have h₁ := h.idle hst trivial
    cases len? with
    | none =>
      obtain ⟨-, rfl, rfl⟩ := exec_ret_iff.1 hk
      exact ⟨⟨_, rfl⟩, h₁, hh, hp, fun ht => absurd ht hflags⟩
    | some len =>
      obtain ⟨b, s₂, es₂, hst₂, rfl, hret⟩ := exec_act_iff.1 hk
      obtain ⟨-, rfl, rfl⟩ := exec_ret_iff.1 hret
      have h₂ := h₁.attrOpened hst₂ fun fh handle hget hd hon =>
        hlen len b (by simp) fh handle (hh ▸ hget) hd hon
      obtain ⟨-, (w : World), hrun⟩ := hst₂
      simp only [fsMachine, Act.run] at hrun
      split at hrun <;> cases hrun <;>
        exact ⟨⟨_, rfl⟩, h₂, hh, hp, fun ht => absurd ht hflags⟩

theorem openCacheFile_idle {flags : UInt32} {handleId path : Str} :
    (openCacheFile flags handleId path).Only Act.Idle :=
  openCacheFile_only ⟨trivial, trivial⟩ ⟨trivial, trivial⟩

/-- A truncating open that got its cache file has the daemon's word for the empty one. -/
theorem openCacheFile_truncates {flags : UInt32} {handleId path cachePath : Str}
    (hx : Exec fsMachine (openCacheFile flags handleId path) s es (.ok cachePath) s')
    (hflags : isTruncating flags = true) :
    ∃ r, (⟨.reply (.openWriteBegin path (some handleId)), .ok r⟩ : Occ Act.Ret) ∈ es := by
  unfold openCacheFile at hx
  rw [if_pos hflags] at hx
  obtain ⟨_, s₁, es₁, -, rfl, hk⟩ := exec_act_iff.1 hx
  obtain ⟨r, s₂, es₂, -, rfl, hret⟩ := exec_act_iff.1 hk
  cases r with
  | error e => cases (exec_ret_iff.1 hret).2.1
  | ok r => exact ⟨r, by simp⟩

/-- Publication of a handle at the end of a request. -/
theorem Local.publishes {marked : Nat → Prop} (h : Local g marked s) {handle : OpenHandle}
    {inode : Ino} {res : Except Errno Nat}
    (hx : Exec fsMachine (UnidriveMount.publish handle) s es res s')
    (hne : handle.remotePath ≠ [])
    (hfor : s.paths.inodeFor handle.remotePath = some inode)
    (hd : ∀ fh, res = .ok fh → handle.dirty = true ∨ marked fh →
      ∃ a, s.attrs.get inode = some a ∧ a.remoteMtimeMs = none) :
    ∃ fh, res = .ok fh ∧ Local (g.opened fh inode) marked s' := by
  obtain ⟨n, s₁, es₁, hst₁, rfl, hk⟩ := exec_perform_bind_iff.1 hx
  obtain ⟨_, s₂, es₂, ⟨-, (w : World), hrun⟩, rfl, hret⟩ := exec_perform_bind_iff.1 hk
  obtain ⟨-, rfl, rfl⟩ := exec_ret_iff.1 hret
  cases hrun
  obtain ⟨-, hp, hattrs⟩ := tables_of_idle hst₁ trivial
  exact ⟨n, rfl, (h.idle hst₁ trivial).publish n handle inode hne (hp ▸ hfor)
    (hattrs ▸ hd n rfl)⟩

/-- An `open`, which truncates the entry or takes over the length of its file. `t` says whether the
entry counts as truncated. -/
theorem Local.open (h : Local g (fun _ => False) s) (hs : s.paths.Sound) {inode : Ino}
    {flags : UInt32} {res : Except Errno ReplyOpen} (hx : Exec fsMachine («open» inode flags) s es res s') (t : Bool)
    (ht : ∀ path id r, (⟨.reply (.openWriteBegin path id), .ok r⟩ : Occ Act.Ret) ∈ es → t = true)
    (hlen : ∀ len stale, (⟨.attrOpened inode len, stale⟩ : Occ Act.Ret) ∈ es →
      ∀ fh handle, s.openHandles.get fh = some handle → handle.dirty = true →
        g.on fh = some inode → g.written fh ≤ len)
    (hcached : isTruncating flags = true → ∀ r, res = .ok r → ∃ a, s.attrs.get inode = some a) :
    (∃ e, res = .error e ∧ Local (if t then g.truncate inode else g) (fun _ => False) s') ∨
      ∃ r, res = .ok r ∧
        Local ((if t then g.truncate inode else g).opened r.fh inode) (fun _ => False) s' := by
  have hG := h.truncate_if inode t
  obtain ⟨path?, s₁, es₁, ⟨-, (w : World), hrun⟩, rfl, hk⟩ := exec_perform_bind_iff.1 hx
  cases hrun
  cases hpath : s.paths.pathFor inode with
  | none =>
    rw [hpath] at hk
    obtain ⟨-, rfl, rfl⟩ := exec_ret_iff.1 hk
    exact .inl ⟨_, rfl, hG⟩
  | some path =>
    rw [hpath] at hk
    rw [Prog.okOr, Prog.ok_bind] at hk
    split at hk
    · obtain ⟨-, rfl, rfl⟩ := exec_ret_iff.1 hk
      exact .inl ⟨_, rfl, hG⟩
    · next hroot =>
      obtain ⟨n, s₂, es₂, hst₂, rfl, hk₂⟩ := exec_perform_bind_iff.1 hk
      have hG₂ := hG.idle hst₂ trivial
      rcases exec_bind_iff.1 hk₂ with ⟨e, rfl, he⟩ | ⟨cachePath, s₃, es₃, es₄, h₃, hk₃, rfl⟩
      · obtain ⟨hh, hp, hattrs⟩ := tables_of_exec_idle he openCacheFile_idle
        exact .inl ⟨e, rfl, hG₂.of_tables hh hp hattrs⟩
      · obtain ⟨hh₂, hp₂, hattrs₂⟩ := tables_of_idle hst₂ trivial
        obtain ⟨hh₃, hp₃, hattrs₃⟩ := tables_of_exec_idle h₃ openCacheFile_idle
        have hG₃ := hG₂.of_tables hh₃ hp₃ hattrs₃
        obtain ⟨_, s₄, es₅, ⟨-, (w' : World), hrun₄⟩, rfl, hk₄⟩ := exec_perform_bind_iff.1 hk₃
        cases hrun₄
        -- a truncating open counts as one
        have htrunc : isTruncating flags = true → t = true := fun hflags => by
          obtain ⟨r, hr⟩ := openCacheFile_truncates h₃ hflags
          exact ht _ _ r (by simp [hr])
        have hG₄ := hG₃.attrEdit inode (AttrEdit.apply w'.clock
            (if isTruncating flags then .truncated else .hydrated)) fun a fh hon hc => by
          split
          · next hflags =>
            rw [htrunc hflags, if_pos rfl] at hon ⊢
            exact truncate_covers rfl g hon
          · exact ⟨hc.1, rfl⟩
        obtain ⟨file?, s₅, es₆, hst₅, rfl, hk₅⟩ := exec_perform_bind_iff.1 hk₄
        obtain ⟨hh₅, hp₅, hattrs₅⟩ := tables_of_idle hst₅ trivial
        have hG₅ := hG₄.idle hst₅ trivial
        cases file? with
        | none =>
          obtain ⟨-, rfl, rfl⟩ := exec_ret_iff.1 hk₅
          exact .inl ⟨_, rfl, hG₅⟩
        | some file =>
          rw [Prog.okOr, Prog.ok_bind] at hk₅
          have hh : s₅.openHandles = s.openHandles := hh₅.trans (hh₃.trans hh₂)
          have hp : s₅.paths = s.paths := hp₅.trans (hp₃.trans hp₂)
          have hlen₅ : ∀ es₇ : List (Occ Act.Ret), (∀ e ∈ es₇, e ∈ es₆) → ∀ len stale,
              (⟨.attrOpened inode len, stale⟩ : Occ Act.Ret) ∈ es₇ → ∀ fh handle,
                s₅.openHandles.get fh = some handle → handle.dirty = true →
                (if t then g.truncate inode else g).on fh = some inode →
                (if t then g.truncate inode else g).written fh ≤ len := by
            intro es₇ hsub len stale hmem fh handle hget hd hon
            have hon' : g.on fh = some inode := by split at hon <;> exact hon
            have hle := hlen len stale (by simp [hsub _ hmem]) fh handle (hh ▸ hget) hd hon'
            split
            · rw [Writing.truncate_written, if_pos hon']
              exact Nat.zero_le _
            · exact hle
          rcases exec_bind_iff.1 hk₅ with ⟨e, rfl, he⟩ | ⟨stale, s₆, es₇, es₈, h₆, hk₆, rfl⟩
          · obtain ⟨⟨b, hb⟩, -⟩ := hG₅.syncSize he (hlen₅ _ fun _ => id)
            cases hb
          · obtain ⟨-, hG₆, hh₆, hp₆, hattrs₆⟩ := hG₅.syncSize h₆
              (hlen₅ _ fun _ => List.mem_append_left _)
            have hfor : s₆.paths.inodeFor path = some inode := by
              rw [hp₆, hp]
              exact (hs.inverse path inode).2 hpath
            rcases exec_map_iff.1 hk₆ with ⟨r, hpub, rfl⟩
            obtain ⟨fh, rfl, hG₇⟩ := hG₆.publishes hpub
              (by simpa using hroot) hfor fun fh hfh hd => by
                have hflags : isTruncating flags = true := hd.resolve_right id
                obtain ⟨a, ha⟩ := hcached hflags _ (by rw [hfh]; rfl)
                refine ⟨AttrEdit.apply w'.clock .truncated a, ?_, rfl⟩
                rw [hattrs₆ hflags, hattrs₅]
                show (s₃.attrs.modify inode _).get inode = _
                rw [HashMap.get_modify, if_pos rfl, hattrs₃, hattrs₂, ha, if_pos hflags]
                rfl
            exact .inr ⟨_, rfl, hG₇⟩

/-- A `create`, whose entry counts as truncated. -/
theorem Local.create (h : Local g (fun _ => False) s) (hl : Agrees g s.openHandles es)
    {parent : Ino} {name : OsStr} {res : Except Errno (Nat × FileAttr × Ino)}
    (hx : Exec fsMachine (createInternal nfc parent name) s es res s') :
    (∃ e, res = .error e ∧ Local g (fun _ => False) s') ∨
      ∃ fh attr ino, res = .ok (fh, attr, ino) ∧ attr.ino = ino ∧
        Local ((g.truncate ino).opened fh ino) (fun _ => False) s' := by
  refine Browsing.skip ⟨h, rfl, fun _ => id⟩ hl hx (only_okOr ..) fun name _ _ _ hI _ hx =>
    hI.skip hl hx (only_perform trivial) fun _ _ _ _ hI _ hx =>
    hI.skip hl hx (only_okOr ..) fun path _ _ _ hI _ hx =>
    hI.skip hl hx (refuseNfcCollision_only fun _ ha => ha.browses) fun _ _ _ _ hI _ hx =>
    hI.skip hl hx (only_perform trivial) fun n _ _ _ hI _ hx =>
    hI.skip hl hx (only_ipc trivial trivial) fun _ _ _ _ hI _ hx =>
    hI.skip hl hx (only_mapErr ..) fun reply _ _ _ hI _ hx =>
    hI.skip hl hx (only_perform trivial) fun _ _ _ _ hI _ hx =>
    hI.skip hl hx (only_okOr ..) fun file s₀ _ _ hI _ hx =>
    hI.skip hl hx (only_perform trivial) fun ino s₁ _ _ hI hintern hx =>
    hI.skip hl hx (recordRawName_only fun _ ha => ha.browses) fun _ s₂ _ _ hI hrec hx =>
    hI.skip hl hx (only_perform trivial) fun mtimeMs s₃ _ _ hI hnow hx => ?_
  have hfor : s₃.paths.inodeFor (childPath nfc path name) = some ino := by
    have hrec' : (recordRawName nfc (childPath nfc path name) name).Only Act.Idle :=
      recordRawName_only fun a ha => by cases a <;> trivial
    obtain ⟨-, hp₂, -⟩ := tables_of_exec_idle hrec hrec'
    obtain ⟨-, hp₃, -⟩ := tables_of_exec_idle hnow (only_perform trivial)
    obtain ⟨r, s₀', es', ⟨-, (w : World), hrun⟩, -, hret⟩ := exec_act_iff.1 hintern
    obtain ⟨-, hr, rfl⟩ := exec_ret_iff.1 hret
    cases hr
    cases hrun
    rw [hp₃, hp₂]
    exact PathMap.intern_inodeFor_self ..
  obtain ⟨_, s₄, es₄, ⟨-, (w : World), hrun⟩, rfl, hk⟩ := exec_perform_bind_iff.1 hx
  cases hrun
  have hloc := (hI.loc.truncate ino).attrInsert ino (.newFile mtimeMs)
    fun fh handle _ _ hon => truncate_covers rfl g hon
  obtain ⟨r, hpub, rfl⟩ := exec_map_iff.1 hk
  obtain ⟨fh, rfl, hloc⟩ := hloc.publishes hpub (childPath_ne_nil _ _ _) hfor fun _ _ _ => ⟨_, HashMap.get_insert_self .., rfl⟩
  exact .inr ⟨fh, _, ino, rfl, rfl, hloc⟩

/-- What `lookup`, `getattr` and the directory listings do is looking. -/
theorem Op.May.browses {o : Op} (ho : match o with
    | .lookup .. | .getattr _ | .readdir .. | .readdirplus .. => True
    | _ => False) {a : Act} (h : o.May a) : a.Browses := by
  cases o with
  | lookup | getattr =>
    rcases h with h | h
    · exact h.elim
    · exact Act.Looks.browses h
  | readdir | readdirplus =>
    rcases h with h | h
    · cases a <;> trivial
    · exact Act.Looks.browses h
  | _ => exact ho.elim

/-- One request keeps the invariant, if what it takes over agrees with what is being written. -/
theorem Local.serve {l : List FsServed} {x : FsServed} (h : Local (writing l) (fun _ => False) s)
    (hs : s.paths.Sound) (hx : Exec fsMachine (x.req.prog nfc cacheRoot) s x.occs x.res s')
    (hok : LocalInputs l s x) : Local (writing (x :: l)) (fun _ => False) s' := by
  have hl : Agrees (writing l) s.openHandles x.occs := fun entries out hmem e he fh handle hget hd hon =>
    hok.listed entries out hmem e he fh ⟨hon, handle, hget, hd⟩
  have hviews := hok.views
  obtain ⟨o, es, res⟩ := x
  show Local ((writing l).after ⟨o, es, res⟩) _ s'
  cases o with
  | lookup | getattr | readdir | readdirplus =>
    exact (h.browses hl hx ((Op.prog_only _).mono fun _ ha => ha.browses trivial)).1
  | fsync fh datasync =>
    obtain ⟨r, hx, rfl⟩ := exec_map_iff.1 hx
    exact h.fsync hx
  | release fh =>
    obtain ⟨r, hx, rfl⟩ := exec_map_iff.1 hx
    exact h.release hx
  | apply change =>
    obtain ⟨r, hx, rfl⟩ := exec_map_iff.1 hx
    exact h.apply hx
  | write inode fh offset data =>
    obtain ⟨r, hx, rfl⟩ := exec_map_iff.1 hx
    have hcached : ∀ n, r = .ok n → ∃ a, s.attrs.get inode = some a ∧
        (writing l).written fh ≤ max a.size (offset + n) := by
      rintro n rfl
      obtain ⟨a, ha⟩ := hok.cached inode ⟨rfl, _, rfl⟩
      exact ⟨a, ha, hok.regrown inode fh offset data n a rfl rfl ha⟩
    rcases h.write hx (fun handle => hok.handle inode fh handle ⟨rfl, rfl⟩) hcached with
      ⟨e, rfl, hloc⟩ | ⟨n, rfl, hloc⟩
    · exact hloc
    · show Local (if n = 0 then _ else _) _ s'
      split
      · refine hloc.mono rfl fun fh' => ?_
        rw [Writing.wrote_written]
        split
        · next heq => exact heq ▸ le_max_left ..
        · exact le_rfl
      · exact hloc
  | setattr inode fh size =>
    cases fh with
    | none => exact hviews.elim
    | some fh =>
      obtain ⟨r, hx, rfl⟩ := exec_map_iff.1 hx
      show Local (if _ then _ else _) _ s'
      have htrunc : ∀ newSize, (⟨.handleSetLen fh newSize, .ok ()⟩ : Occ Act.Ret) ∈ es →
          truncates (⟨.setattr inode (some fh) size, es, r.map .attr⟩ : FsServed) = true :=
        fun newSize hmem => List.any_eq_true.2 ⟨_, hmem, rfl⟩
      rcases h.setattr hs hl hx (fun handle => hok.handle inode fh handle ⟨rfl, rfl⟩)
        fun newSize hmem => hok.cached inode ⟨rfl, htrunc newSize hmem⟩ with
        hloc | ⟨⟨newSize, hmem⟩, hloc⟩
      · exact hloc.truncate_if inode _
      · rw [if_pos (htrunc newSize hmem)]
        exact hloc
  | «open» inode flags =>
    obtain ⟨r, hx, rfl⟩ := exec_map_iff.1 hx
    rcases h.open hs hx (truncates ⟨.open inode flags, es, r.map .opened⟩)
      (fun handleId path r hmem => List.any_eq_true.2 ⟨_, hmem, rfl⟩)
      (fun len stale hmem fh handle hget hd hon =>
        hok.opened inode len stale hmem fh ⟨hon, handle, hget, hd⟩)
      (fun hflags r' hr => hok.cached inode ⟨rfl, hflags, .opened r', by rw [hr]; rfl⟩) with
      ⟨e, rfl, hloc⟩ | ⟨r', rfl, hloc⟩
    · exact hloc
    · exact hloc
  | create parent name =>
    obtain ⟨r, hx, rfl⟩ := exec_map_iff.1 hx
    obtain ⟨r, hx, rfl⟩ := exec_map_iff.1 hx
    rcases h.create hl hx with ⟨e, rfl, hloc⟩ | ⟨fh, attr, ino, rfl, hino, hloc⟩
    · exact hloc
    · show Local ((Writing.truncate _ attr.ino).opened fh attr.ino) _ s'
      rw [hino]
      exact hloc
  | read | mkdir | unlink | rmdir | mknod | rename => exact hviews.elim

/-- **An entry being written keeps its local attributes**, after every sequence of requests whose
inputs agree with what is being written. -/
theorem attrs_kept {disk : Disk} {l : List FsServed}
    (h : (fsService nfc cacheRoot).Sequence LocalInputs (.new disk) l s) : KeepsLocal l s := by
  have hinv : s.paths.Sound ∧ Local (writing l) (fun _ => False) s := by
    refine h.invariant (I := fun l s => s.paths.Sound ∧ Local (writing l) (fun _ => False) s)
      ⟨.new, .start disk⟩ fun l s x s' hI hx hok => ⟨?_, hI.2.serve hI.1 hx hok⟩
    exact (sound_of_exec hx hI.1 (Op.prog_sparesRoot ..) hok.room).1
  exact fun fh handle inode es res s' hget hd hon hx => hinv.2.getattr hinv.1 hget hd hon hx

end

/-! ## Two histories -/

/-- Create the file `/a`, and write five bytes through its handle, `1`. -/
def createdAndWritten : List (Op × World) :=
  [(.create rootInode (some ['a']), .calm), (.write 2 1 0 [1, 2, 3, 4, 5], .calm)]

/-- Whether the handle of a request is one of its inode. -/
def namesHandle (l : List FsServed) (x : FsServed) : Bool :=
  match x.req with
  | .create .. | .readdir .. | .apply _ => true
  | .write inode fh .. => (writing l).on fh = some inode
  | _ => false

theorem viewRequest_of_bool {l : List FsServed} {s : FsState} {x : FsServed}
    (h : namesHandle l x = true) : ViewRequest l s x := by
  obtain ⟨o, es, res⟩ := x
  cases o with
  | create | readdir | apply => exact ⟨trivial, fun _ _ _ hon => hon.elim⟩
  | write inode fh offset data =>
    refine ⟨trivial, fun inode' fh' handle hon _ => ?_⟩
    obtain ⟨rfl, rfl⟩ := hon
    exact of_decide_eq_true h
  | _ => cases h

/-- Whether a listed entry has all that was written through any handle, and no remote time. -/
def coversWritten (l : List FsServed) (s : FsState) (e : ListEntry) : Bool :=
  (s.openHandles.iter.all fun h => decide ((writing l).written h.1 ≤ e.size)) &&
    (CachedAttr.ofListEntry e).remoteMtimeMs.isNone

/-- Whether the request takes over only listed entries that have all that was written, and writes only
where attributes are cached. -/
def staysLocal (l : List FsServed) (s : FsState) (x : FsServed) : Bool :=
  namesHandle l x && decide (s.paths.next + interned x.occs < inodeSpace) &&
    (x.occs.all fun
      | ⟨.insertListed _, out⟩ => out.all fun (e : Ino × ListEntry) => coversWritten l s e.2
      | ⟨.attrOpened .., _⟩ => false
      | _ => true) &&
    match x.req with
    | .write inode fh .. => (s.attrs.get inode).any fun a => decide ((writing l).written fh ≤ a.size)
    | _ => true

theorem localInputs_of_bool {l : List FsServed} {s : FsState} {x : FsServed}
    (h : staysLocal l s x = true) : LocalInputs l s x := by
  simp only [staysLocal, Bool.and_eq_true, decide_eq_true_eq, List.all_eq_true] at h
  obtain ⟨⟨⟨hview, hroom⟩, hocc⟩, hwrite⟩ := h
  refine
    { toViewRequest := viewRequest_of_bool hview
      listed := fun entries out hmem e he fh hdirty => ?_
      opened := fun _ _ _ hmem => absurd (hocc _ hmem) (by simp)
      cached := fun inode hd => ?_
      regrown := fun inode fh offset data n a hreq _ ha => ?_
      room := hroom }
  · obtain ⟨-, handle, hget, -⟩ := hdirty
    have hcovers : coversWritten l s e.2 = true := List.all_eq_true.1 (hocc _ hmem) e he
    obtain ⟨hall, hnone⟩ := Bool.and_eq_true_iff.1 hcovers
    exact ⟨of_decide_eq_true (List.all_eq_true.1 hall (fh, handle) (HashMap.mem_iter.2 hget)),
      Option.isNone_iff_eq_none.1 hnone⟩
  · obtain ⟨o, es, res⟩ := x
    cases o with
    | write inode' fh offset data =>
      obtain ⟨rfl, -⟩ := hd
      obtain ⟨a, ha, -⟩ := (Option.any_eq_true ..).1 hwrite
      exact ⟨a, ha⟩
    | create | readdir | apply => exact hd.elim
    | _ => cases hview
  · rw [hreq] at hwrite
    obtain ⟨a', ha', hle⟩ := (Option.any_eq_true ..).1 hwrite
    cases ha.symm.trans ha'
    exact (of_decide_eq_true hle).trans (le_max_left ..)

/-- The directory of the file is listed, with what was written and not yet sent, and then all attributes
are dropped that may be. -/
def listedAndDropped : List (Op × World) :=
  createdAndWritten ++ [(.readdir rootInode 0, .lists fun _ => [⟨['/', 'a'], 5, 0, true, false, none, true⟩]),
    (.apply .all, .calm)]

/-- The file that was created and written to keeps its five bytes. -/
theorem attrs_kept_write :
    ∃ l s, plainFs.Sequence LocalInputs (.new .empty) l s ∧ (writing l).written 1 = 5 ∧
      KeepsLocal l s := by
  have hserve : (plainFs.serveAll staysLocal listedAndDropped [] (.new .empty)).any
      (fun x => (writing x.1).written 1 = 5) = true := by decide +kernel
  obtain ⟨⟨l, s⟩, hs, hwritten⟩ := (Option.any_eq_true ..).1 hserve
  have hseq : plainFs.Sequence LocalInputs (.new .empty) l s :=
    plainFs.sequence_of_serveAll (fun _ _ _ => localInputs_of_bool) .nil hs
  exact ⟨l, s, hseq, of_decide_eq_true hwritten, attrs_kept hseq⟩

/-- An outside whose listings have the file `/a` without content. -/
def World.listsEmptyFile : World where
  clock := 0
  reply verb := match verb with
    | .list _ => .ok [⟨['/', 'a'], 0, 0, true, false, none, false⟩]
    | verb => .ok (verb.okReply ['c'])
  engine := id
  io := true
  count := 4096

/-- List the directory of the file while it is being written. -/
def listedWhileWritten : List (Op × World) :=
  createdAndWritten ++ [(.readdir rootInode 0, .listsEmptyFile)]

/-- Whether `getattr` of the dirty handle's inode answers less than what was written. -/
def losesLocal (fh : Nat) (inode : Ino) (l : List FsServed) (s : FsState) : Bool :=
  (s.openHandles.get fh).any OpenHandle.dirty && decide ((writing l).on fh = some inode) &&
    (fsMachine.exec .calm (getattr inode) s).any fun x => match x.2.1 with
      | .ok r => decide (r.attr.size < (writing l).written fh)
      | .error _ => true

theorem not_keepsLocal_of_bool {fh : Nat} {inode : Ino} {l : List FsServed} {s : FsState}
    (h : losesLocal fh inode l s = true) : ¬ KeepsLocal l s := by
  intro hk
  obtain ⟨h, hless⟩ := Bool.and_eq_true_iff.1 h
  obtain ⟨hdirty, hon⟩ := Bool.and_eq_true_iff.1 h
  obtain ⟨handle, hget, hd⟩ := (Option.any_eq_true ..).1 hdirty
  obtain ⟨⟨es, res, s'⟩, hx, hless⟩ := (Option.any_eq_true ..).1 hless
  obtain ⟨a, -, rfl, hsize, -⟩ := hk fh handle inode es res s' hget hd (of_decide_eq_true hon)
    (Machine.exec_sound hx)
  exact absurd (of_decide_eq_true hless) (Nat.not_lt.2 hsize)

/-- A listing replaces the size of a file that is being written. -/
theorem attrs_not_kept :
    ¬ ∀ l s, plainFs.Sequence ViewRequest (.new .empty) l s → KeepsLocal l s := by
  intro h
  have hserve : (plainFs.serveAll (fun l _ x => namesHandle l x) listedWhileWritten []
      (.new .empty)).any (fun x => losesLocal 1 2 x.1 x.2) = true := by decide +kernel
  obtain ⟨⟨l, s⟩, hs, hloses⟩ := (Option.any_eq_true ..).1 hserve
  have hseq : plainFs.Sequence ViewRequest (.new .empty) l s :=
    plainFs.sequence_of_serveAll (fun _ _ _ => viewRequest_of_bool) .nil hs
  exact not_keepsLocal_of_bool hloses (h l s hseq)

end UnidriveMount
