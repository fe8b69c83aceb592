import UnidriveMount.Fs.Inodes
import UnidriveMount.Fs.Handles

/-!
# The helpers, run alone

What the helpers of `fuse_fs.rs` answer when nobody else acts, and the state they leave. Most are
stated for a program that goes on after the helper, so that a run of an operation is taken apart from
its front (`exec_visibleName`, `exec_populateFromList`).
-/

namespace UnidriveMount

open Lib
open Lib.Prog (fail okOr ofExcept)

variable {α β : Type} {s s' : FsState} {es : List (Occ Act.Ret)} {res : Except Errno β}

/-! ## Reading the tables -/

/-- The name the entry at `cp` is visible under. -/
def FsState.visibleName (s : FsState) (cp : Str) : Str := (s.rawNames.get cp).getD (basename cp)

/-- The inode of `cp` has cached attributes. -/
def FsState.Cached (s : FsState) (cp : Str) : Prop :=
  ∃ ino a, s.paths.inodeFor cp = some ino ∧ s.attrs.get ino = some a

theorem exec_okOr {o : Option α} {e : Errno} {f : α → FsProg β}
    (hx : Exec fsMachine (okOr o e >>= f) s es res s') :
    (∃ x, o = some x ∧ Exec fsMachine (f x) s es res s') ∨
      o = none ∧ es = [] ∧ res = .error e ∧ s' = s := by
  cases o with
  | some x => exact .inl ⟨x, rfl, hx⟩
  | none => exact .inr ⟨rfl, exec_ret_iff.1 hx⟩

theorem exec_mapErr {g : IpcError → Errno} {r : Except IpcError α} {f : α → FsProg β}
    (hx : Exec fsMachine (mapErr g r >>= f) s es res s') :
    (∃ x, r = .ok x ∧ Exec fsMachine (f x) s es res s') ∨
      ∃ e, r = .error e ∧ es = [] ∧ res = .error (g e) ∧ s' = s := by
  cases r with
  | ok x => exact .inl ⟨x, rfl, hx⟩
  | error e => exact .inr ⟨e, rfl, exec_ret_iff.1 hx⟩

theorem exec_visibleName {cp : Str} {f : Str → FsProg β}
    (hx : Exec fsMachine (visibleName cp >>= f) s es res s') :
    ∃ es', es = ⟨.rawName cp, s.rawNames.get cp⟩ :: es' ∧
      Exec fsMachine (f (s.visibleName cp)) s es' res s' := by
  unfold visibleName at hx
  rw [Prog.bind_assoc] at hx
  obtain ⟨es', rfl, hk⟩ := exec_perform_bind_of_run hx fun _ => rfl
  refine ⟨es', rfl, ?_⟩
  unfold FsState.visibleName
  cases h : s.rawNames.get cp with
  | some raw =>
    rw [h] at hk
    exact hk
  | none =>
    rw [h] at hk
    exact hk

theorem exec_isCached {cp : Str} {f : Bool → FsProg β}
    (hx : Exec fsMachine (isCached cp >>= f) s es res s') :
    ∃ b es₁ es₂, (b = true ↔ s.Cached cp) ∧ (∀ e ∈ es₁, e.1.Looks) ∧ es = es₁ ++ es₂ ∧
      Exec fsMachine (f b) s es₂ res s' := by
  unfold isCached at hx
  rw [Prog.bind_assoc] at hx
  obtain ⟨es', rfl, hk⟩ := exec_perform_bind_of_run hx fun _ => rfl
  cases h : s.paths.inodeFor cp with
  | some ino =>
    rw [h] at hk
    obtain ⟨es'', rfl, hf⟩ := exec_perform_bind_of_run hk fun _ => rfl
    refine ⟨s.attrs.containsKey ino, [⟨.inodeFor cp, some ino⟩, ⟨.hasAttr ino, _⟩], es'', ?_, ?_,
      rfl, hf⟩
    · rw [HashMap.containsKey_iff]
      constructor
      · intro ⟨a, ha⟩
        exact ⟨ino, a, h, ha⟩
      · intro ⟨ino', a, h', ha⟩
        cases h.symm.trans h'
        exact ⟨a, ha⟩
    · simp [Act.Looks]
  | none =>
    rw [h] at hk
    refine ⟨false, [⟨.inodeFor cp, none⟩], es', ?_, ?_, rfl, hk⟩
    · simp [FsState.Cached, h]
    · simp [Act.Looks]

/-! ## Asking the daemon -/

/-- The same state over another cache folder. -/
def FsState.withDisk (s : FsState) (d : Disk) : FsState := { s with disk := d }

section
variable (s : FsState) (d : Disk)

@[simp] theorem FsState.withDisk_paths : (s.withDisk d).paths = s.paths := rfl

@[simp] theorem FsState.withDisk_attrs : (s.withDisk d).attrs = s.attrs := rfl

@[simp] theorem FsState.withDisk_rawNames : (s.withDisk d).rawNames = s.rawNames := rfl

@[simp] theorem FsState.withDisk_openHandles : (s.withDisk d).openHandles = s.openHandles := rfl

@[simp] theorem FsState.withDisk_ipcBusy : (s.withDisk d).ipcBusy = s.ipcBusy := rfl

end

/-- A call is answered, and changes nothing but the cache folder. -/
theorem exec_ipc {verb : Verb} {f : Except IpcError verb.Reply → FsProg β}
    (hx : Exec fsMachine (ipc verb >>= f) s es res s') :
    s.ipcBusy = false ∧ ∃ r d es', es = ⟨.call verb, ()⟩ :: ⟨.reply verb, r⟩ :: es' ∧
      Exec fsMachine (f r) (s.withDisk d) es' res s' := by
  unfold ipc at hx
  rw [Prog.bind_assoc] at hx
  obtain ⟨r₁, s₁, es₁, ⟨hready, w₁, hrun₁⟩, rfl, hk⟩ := exec_perform_bind_iff.1 hx
  cases hrun₁
  obtain ⟨r₂, s₂, es₂, ⟨-, (w : World), hrun₂⟩, rfl, hf⟩ := exec_perform_bind_iff.1 hk
  cases hrun₂
  have hbusy : s.ipcBusy = false := by simpa [fsMachine, Act.ready] using hready
  refine ⟨hbusy, w.reply verb, w.engine s.disk, es₂, rfl, ?_⟩
  have hst : ({ s with ipcBusy := false, disk := w.engine s.disk } : FsState) =
      s.withDisk (w.engine s.disk) := by
    rw [FsState.withDisk, ← hbusy]
  exact hst ▸ hf

/-! ## Listings -/

namespace FsState

variable (s)

/-- The state with one listed entry taken over. -/
def takeEntry (e : ListEntry) : FsState :=
  { s with
    paths := (s.paths.intern e.path).2
    attrs := s.attrs.insert (s.paths.intern e.path).1 (.ofListEntry e) }

theorem insertListed_cons (e : ListEntry) (entries : List ListEntry) :
    s.insertListed (e :: entries) =
      (((s.paths.intern e.path).1, e) :: ((s.takeEntry e).insertListed entries).1,
        ((s.takeEntry e).insertListed entries).2) := rfl

theorem insertListed_rawNames (entries : List ListEntry) :
    (s.insertListed entries).2.rawNames = s.rawNames := by
  induction entries generalizing s with
  | nil => rfl
  | cons e entries ih => exact ih _

/-- What was listed, in the order of the listing. -/
theorem insertListed_entries (entries : List ListEntry) :
    (s.insertListed entries).1.map Prod.snd = entries := by
  induction entries generalizing s with
  | nil => rfl
  | cons e entries ih => exact congrArg (e :: ·) (ih _)

/-- A listing keeps the inodes of the paths that have one. -/
theorem insertListed_inodeFor {entries : List ListEntry} {p : Str} {ino : Ino}
    (h : s.paths.inodeFor p = some ino) :
    (s.insertListed entries).2.paths.inodeFor p = some ino := by
  induction entries generalizing s with
  | nil => exact h
  | cons e entries ih => exact ih _ (PathMap.inodeFor_intern_of_some h)

/-- A path that has an inode after a listing had it before, or was listed. -/
theorem inodeFor_insertListed {s : FsState} {entries : List ListEntry} {p : Str} {ino : Ino}
    (h : (s.insertListed entries).2.paths.inodeFor p = some ino) :
    s.paths.inodeFor p = some ino ∨ ∃ e ∈ entries, e.path = p := by
  induction entries generalizing s with
  | nil => exact .inl h
  | cons e entries ih =>
    rcases ih h with hp | ⟨e', he', hp⟩
    · by_cases heq : e.path = p
      · exact .inr ⟨e, List.mem_cons_self .., heq⟩
      · exact .inl ((PathMap.intern_inodeFor_ne _ (Ne.symm heq)).symm.trans hp)
    · exact .inr ⟨e', List.mem_cons_of_mem _ he', hp⟩

/-- A listed entry has the inode it is listed with. -/
theorem inodeFor_of_mem_insertListed {entries : List ListEntry} {x : Ino × ListEntry}
    (h : x ∈ (s.insertListed entries).1) :
    (s.insertListed entries).2.paths.inodeFor x.2.path = some x.1 := by
  induction entries generalizing s with
  | nil => cases h
  | cons e entries ih =>
    rw [insertListed_cons] at h ⊢
    rcases List.mem_cons.1 h with rfl | h
    · have hself : (s.takeEntry e).paths.inodeFor e.path = some (s.paths.intern e.path).1 :=
        PathMap.intern_inodeFor_self ..
      exact insertListed_inodeFor _ hself
    · exact ih _ h

/-- The inodes listed depend on the path map alone. -/
theorem insertListed_fst {s s' : FsState} (h : s.paths = s'.paths) (entries : List ListEntry) :
    (s.insertListed entries).1 = (s'.insertListed entries).1 := by
  induction entries generalizing s s' with
  | nil => rfl
  | cons e entries ih =>
    have htake : (s.takeEntry e).paths = (s'.takeEntry e).paths := by
      show (s.paths.intern e.path).2 = (s'.paths.intern e.path).2
      rw [h]
    rw [insertListed_cons, insertListed_cons, ← h, ih htake]

/-- The entries of a reply whose names cannot be local are noted. -/
def warned (entries : List ListEntry) : FsState :=
  { s with
    quarantineWarned := ((entries.filter fun e => !isRepresentable e).map ListEntry.path).foldl
      (fun l p => l.insert p) s.quarantineWarned }

/-- The other entries are taken over. -/
def takeListed (entries : List ListEntry) : List (Ino × ListEntry) × FsState :=
  (s.warned entries).insertListed (entries.filter isRepresentable)

theorem takeListed_entries (entries : List ListEntry) :
    (s.takeListed entries).1.map Prod.snd = entries.filter isRepresentable :=
  insertListed_entries ..

theorem takeListed_withDisk (d : Disk) (entries : List ListEntry) :
    ((s.withDisk d).takeListed entries).1 = (s.takeListed entries).1 := by
  have hpaths : ((s.withDisk d).warned entries).paths = (s.warned entries).paths := rfl
  exact insertListed_fst hpaths _

end FsState

/-- How listing `parent` from `s` ends: the daemon's error, or its entries taken over. -/
inductive Populates (parent : Str) (s : FsState) :
    List (Occ Act.Ret) → Except IpcError (List (Ino × ListEntry)) → FsState → Prop where
  | failed (e : IpcError) (d : Disk) :
    Populates parent s [⟨.call (.list parent), ()⟩, ⟨.reply (.list parent), .error e⟩] (.error e)
      (s.withDisk d)
  | listed (entries : List ListEntry) (d : Disk) :
    Populates parent s
      [⟨.call (.list parent), ()⟩, ⟨.reply (.list parent), .ok entries⟩,
        ⟨.warnQuarantined ((entries.filter fun e => !isRepresentable e).map ListEntry.path), ()⟩,
        ⟨.insertListed (entries.filter isRepresentable), ((s.withDisk d).takeListed entries).1⟩]
      (.ok ((s.withDisk d).takeListed entries).1) ((s.withDisk d).takeListed entries).2

theorem exec_populateFromList {parent : Str}
    {f : Except IpcError (List (Ino × ListEntry)) → FsProg β}
    (hx : Exec fsMachine (populateFromList parent >>= f) s es res s') :
    ∃ r es₁ es₂ s₁, Populates parent s es₁ r s₁ ∧ Exec fsMachine (f r) s₁ es₂ res s' ∧
      es = es₁ ++ es₂ := by
  unfold populateFromList at hx
  rw [Prog.bind_assoc] at hx
  obtain ⟨-, r, d, es₁, rfl, h₁⟩ := exec_ipc hx
  cases r with
  | error e => exact ⟨_, _, es₁, _, .failed e d, h₁, rfl⟩
  | ok entries =>
    obtain ⟨es₂, rfl, h₂⟩ := exec_perform_bind_of_run h₁ fun _ => rfl
    obtain ⟨es₃, rfl, h₃⟩ := exec_perform_bind_of_run h₂ fun _ => rfl
    exact ⟨_, _, es₃, _, .listed entries d, h₃, rfl⟩

theorem Populates.lists {parent : Str} {r : Except IpcError (List (Ino × ListEntry))}
    (h : Populates parent s es r s') : ∀ e ∈ es, e.1.Lists := by
  cases h <;> simp [Act.Lists]

/-! ## The attribute cache -/

/-- What is cached after a listing was so before, or is what was listed. -/
theorem FsState.get_insertListed_eq (s : FsState) (entries : List ListEntry) (ino : Ino) :
    (s.insertListed entries).2.attrs.get ino = s.attrs.get ino ∨
      ∃ x ∈ (s.insertListed entries).1, x.1 = ino ∧
        (s.insertListed entries).2.attrs.get ino = some (.ofListEntry x.2) := by
  induction entries generalizing s with
  | nil => exact .inl rfl
  | cons e entries ih =>
    rw [insertListed_cons]
    rcases ih (s.takeEntry e) with hget | ⟨x, hx, hino, ha⟩
    · have htake : (s.takeEntry e).attrs.get ino =
          if ino = (s.paths.intern e.path).1 then some (.ofListEntry e) else s.attrs.get ino :=
        HashMap.get_insert ..
      split at htake
      · next heq => exact .inr ⟨_, List.mem_cons_self .., heq.symm, hget.trans htake⟩
      · exact .inl (hget.trans htake)
    · exact .inr ⟨x, List.mem_cons_of_mem _ hx, hino, ha⟩

theorem FsState.get_insertListed {s : FsState} {entries : List ListEntry} {ino : Ino} {a : CachedAttr}
    (h : (s.insertListed entries).2.attrs.get ino = some a) :
    s.attrs.get ino = some a ∨
      ∃ x ∈ (s.insertListed entries).1, x.1 = ino ∧ a = .ofListEntry x.2 := by
  rcases s.get_insertListed_eq entries ino with heq | ⟨x, hx, hino, hget⟩
  · exact .inl (heq.symm.trans h)
  · exact .inr ⟨x, hx, hino, Option.some.inj (h.symm.trans hget)⟩

/-- The change is about the inode. -/
def FsState.Concerns (s : FsState) (ino : Ino) : Invalidation → Prop
  | .all => True
  | .paths roots => ino ∈ s.paths.inodesAtOrBelow roots

/-- What an invalidation leaves: it drops the attributes of the inodes it is about, but for those with
unsent writes. -/
theorem FsState.get_invalidatedAttrs (s : FsState) (change : Invalidation) (unsent : List Str)
    (ino : Ino) :
    (s.Concerns ino change ∧ ino ∉ unsent.filterMap s.paths.inodeFor ∧
      (s.invalidatedAttrs change unsent).get ino = none) ∨
    (¬ s.Concerns ino change ∨ ino ∈ unsent.filterMap s.paths.inodeFor) ∧
      (s.invalidatedAttrs change unsent).get ino = s.attrs.get ino := by
  unfold invalidatedAttrs
  generalize unsent.filterMap s.paths.inodeFor = keep
  cases change with
  | all =>
    dsimp only
    rw [HashMap.get_retain]
    by_cases hkeep : ino ∈ keep
    · refine .inr ⟨.inr hkeep, ?_⟩
      rw [List.contains_iff_mem.2 hkeep]
      cases s.attrs.get ino <;> rfl
    · refine .inl ⟨trivial, hkeep, Option.filter_eq_none_iff.2 fun a _ hc => hkeep ?_⟩
      exact List.contains_iff_mem.1 hc
  | paths roots =>
    have hfold : ∀ (l : List Ino) (attrs : HashMap Ino CachedAttr),
        (l.foldl (fun attrs ino => if keep.contains ino then attrs else attrs.remove ino)
          attrs).get ino = if ino ∈ l ∧ ino ∉ keep then none else attrs.get ino := by
      intro l
      induction l with
      | nil => simp
      | cons j l ih =>
        intro attrs
        rw [List.foldl_cons, ih]
        by_cases hkeep : j ∈ keep
        · rw [if_pos (List.contains_iff_mem.2 hkeep)]
          by_cases hj : ino = j <;> simp [hj, hkeep]
        · rw [if_neg (fun hc => hkeep (List.contains_iff_mem.1 hc)), HashMap.get_remove]
          by_cases hj : ino = j <;> simp [hj, hkeep]
    dsimp only
    rw [hfold]
    by_cases h : ino ∈ s.paths.inodesAtOrBelow roots ∧ ino ∉ keep
    · exact .inl ⟨h.1, h.2, if_pos h⟩
    · refine .inr ⟨?_, if_neg h⟩
      by_cases hmem : ino ∈ s.paths.inodesAtOrBelow roots
      · exact .inr (not_not.1 fun hkeep => h ⟨hmem, hkeep⟩)
      · exact .inl hmem

/-- An invalidation adds no attributes. -/
theorem FsState.get_of_get_invalidatedAttrs {s : FsState} {change : Invalidation} {unsent : List Str}
    {ino : Ino} {a : CachedAttr} (h : (s.invalidatedAttrs change unsent).get ino = some a) :
    s.attrs.get ino = some a := by
  rcases s.get_invalidatedAttrs change unsent ino with ⟨-, -, hnone⟩ | ⟨-, heq⟩
  · cases hnone.symm.trans h
  · exact heq.symm.trans h

/-- The action may cache attributes for an inode that has none. -/
def Act.Inserts : Act → Prop
  | .attrInsert .. | .insertListed _ => True
  | _ => False

/-- Other actions add no attributes. -/
theorem attrs_of_step {a : Act} {r : a.Ret} (hst : fsMachine.Step a s r s') (ha : ¬ a.Inserts)
    {ino : Ino} {b : CachedAttr} (h : s'.attrs.get ino = some b) :
    ∃ b', s.attrs.get ino = some b' := by
  obtain ⟨-, (w : World), (hrun : a.run w s = (r, s'))⟩ := hst
  cases a with
  | attrInsert | insertListed => exact absurd trivial ha
  | attrRemove i =>
    cases hrun
    rw [HashMap.get_remove] at h
    split at h
    · cases h
    · exact ⟨b, h⟩
  | attrEdit i edit =>
    cases hrun
    rw [HashMap.get_modify] at h
    split at h
    · next heq =>
      obtain ⟨b', hb', -⟩ := Option.map_eq_some_iff.1 h
      exact ⟨b', heq ▸ hb'⟩
    · exact ⟨b, h⟩
  | attrOpened i len =>
    simp only [Act.run] at hrun
    split at hrun
    · next a₀ ha₀ =>
      cases hrun
      rw [HashMap.get_insert] at h
      split at h
      · next heq => exact ⟨a₀, heq ▸ ha₀⟩
      · exact ⟨b, h⟩
    · cases hrun
      exact ⟨b, h⟩
  | applyInvalidation change unsent =>
    cases hrun
    exact ⟨b, FsState.get_of_get_invalidatedAttrs h⟩
  | handleWrite | handleSetLen | handleClaim =>
    simp only [Act.run, FsState.handleWrite, FsState.handleSetLen, FsState.handleClaim] at hrun
    split at hrun <;> [skip; split at hrun] <;> cases hrun <;> exact ⟨b, h⟩
  | openFile | setLen =>
    simp only [Act.run] at hrun
    split at hrun <;> cases hrun <;> exact ⟨b, h⟩
  | removeFile path | removeDirAll path =>
    cases hrun
    split at h <;> exact ⟨b, h⟩
  | _ => cases hrun; exact ⟨b, h⟩

/-! ## The path map -/

/-- The action takes paths away. -/
def Act.Drops : Act → Prop
  | .forget _ | .renamePaths .. => True
  | _ => False

/-- Other actions keep the inode of every path that has one. -/
theorem inodeFor_of_step {a : Act} {r : a.Ret} (hst : fsMachine.Step a s r s') (ha : ¬ a.Drops)
    {p : Str} {ino : Ino} (h : s.paths.inodeFor p = some ino) : s'.paths.inodeFor p = some ino := by
  obtain ⟨-, (w : World), (hrun : a.run w s = (r, s'))⟩ := hst
  cases a with
  | forget | renamePaths => exact absurd trivial ha
  | intern path =>
    cases hrun
    exact PathMap.inodeFor_intern_of_some h
  | insertListed entries =>
    obtain rfl : s' = (s.insertListed entries).2 := (congrArg Prod.snd hrun).symm
    exact s.insertListed_inodeFor h
  | handleWrite | handleSetLen | handleClaim =>
    simp only [Act.run, FsState.handleWrite, FsState.handleSetLen, FsState.handleClaim] at hrun
    split at hrun <;> [skip; split at hrun] <;> cases hrun <;> exact h
  | attrOpened | openFile | setLen =>
    simp only [Act.run] at hrun
    split at hrun <;> cases hrun <;> exact h
  | removeFile path | removeDirAll path =>
    cases hrun
    split <;> exact h
  | _ => cases hrun; exact h

/-! ## What looking up leaves -/

/-- Everything known before is known after, the visible names and the open handles are the same, and
attributes may have been refreshed. -/
structure FsState.Extends (s s' : FsState) : Prop where
  rawNames : s'.rawNames = s.rawNames
  openHandles : s'.openHandles = s.openHandles
  inodeFor : ∀ p ino, s.paths.inodeFor p = some ino → s'.paths.inodeFor p = some ino
  attrs : ∀ ino a, s.attrs.get ino = some a → ∃ a', s'.attrs.get ino = some a'

namespace FsState

theorem Extends.refl (s : FsState) : s.Extends s :=
  ⟨rfl, rfl, fun _ _ => id, fun _ a h => ⟨a, h⟩⟩

theorem Extends.trans {s₁ s₂ s₃ : FsState} (h : s₁.Extends s₂) (h' : s₂.Extends s₃) :
    s₁.Extends s₃ where
  rawNames := h'.rawNames.trans h.rawNames
  openHandles := h'.openHandles.trans h.openHandles
  inodeFor p ino hp := h'.inodeFor p ino (h.inodeFor p ino hp)
  attrs ino a ha := by
    obtain ⟨a₁, h₁⟩ := h.attrs ino a ha
    exact h'.attrs ino a₁ h₁

theorem Extends.cached {cp : Str} (h : s.Extends s') (hc : s.Cached cp) : s'.Cached cp := by
  obtain ⟨ino, a, hino, ha⟩ := hc
  obtain ⟨a', ha'⟩ := h.attrs ino a ha
  exact ⟨ino, a', h.inodeFor cp ino hino, ha'⟩

theorem extends_takeEntry (s : FsState) (e : ListEntry) : s.Extends (s.takeEntry e) where
  rawNames := rfl
  openHandles := rfl
  inodeFor _ _ := PathMap.inodeFor_intern_of_some
  attrs ino a ha := by
    show ∃ a', (s.attrs.insert (s.paths.intern e.path).1 (.ofListEntry e)).get ino = some a'
    rw [HashMap.get_insert]
    split
    · exact ⟨_, rfl⟩
    · exact ⟨a, ha⟩

theorem extends_insertListed (s : FsState) (entries : List ListEntry) :
    s.Extends (s.insertListed entries).2 := by
  induction entries generalizing s with
  | nil => exact .refl s
  | cons e entries ih => exact (s.extends_takeEntry e).trans (ih _)

/-- A listed entry has attributes. -/
theorem attrs_of_mem_insertListed {s : FsState} {entries : List ListEntry} {x : Ino × ListEntry}
    (h : x ∈ (s.insertListed entries).1) :
    ∃ a, (s.insertListed entries).2.attrs.get x.1 = some a := by
  induction entries generalizing s with
  | nil => cases h
  | cons e entries ih =>
    rw [insertListed_cons] at h ⊢
    rcases List.mem_cons.1 h with rfl | h
    · exact ((s.takeEntry e).extends_insertListed entries).attrs _ _ (HashMap.get_insert_self ..)
    · exact ih h

/-- A listed entry is known. -/
theorem cached_of_mem_takeListed {s : FsState} {entries : List ListEntry} {x : Ino × ListEntry}
    (h : x ∈ (s.takeListed entries).1) :
    (s.takeListed entries).2.paths.inodeFor x.2.path = some x.1 ∧
      ∃ a, (s.takeListed entries).2.attrs.get x.1 = some a :=
  ⟨inodeFor_of_mem_insertListed _ h, attrs_of_mem_insertListed h⟩

end FsState

/-- An action that looks something up, or interns a path. -/
def Act.Adds : Act → Prop
  | .intern _ => True
  | a => a.Looks

theorem Act.Looks.adds {a : Act} (h : a.Looks) : a.Adds := by
  cases a <;> trivial

theorem Act.Adds.sparesRoot {a : Act} (h : a.Adds) : a.SparesRoot := by
  cases a <;> trivial

theorem extends_of_step {a : Act} {r : a.Ret} (hst : fsMachine.Step a s r s') (ha : a.Adds) :
    s.Extends s' := by
  obtain ⟨-, (w : World), (hrun : a.run w s = (r, s'))⟩ := hst
  cases a with
  | insertListed entries =>
    obtain rfl : s' = (s.insertListed entries).2 := (congrArg Prod.snd hrun).symm
    exact s.extends_insertListed entries
  | intern path =>
    cases hrun
    exact ⟨rfl, rfl, fun _ _ => PathMap.inodeFor_intern_of_some, fun _ a ha => ⟨a, ha⟩⟩
  | pathFor | pathForBoth | inodeFor | rawName | cloneRawNames | attrOf | hasAttr | nowMs
  | warnQuarantined | call | reply =>
    cases hrun
    exact ⟨rfl, rfl, fun _ _ => id, fun _ a ha => ⟨a, ha⟩⟩
  | _ => exact ha.elim

/-- A program that looks things up keeps what is known. -/
theorem extends_of_exec {p : FsProg β} (hx : Exec fsMachine p s es res s')
    (hp : p.Only Act.Adds) : s.Extends s' :=
  hx.invariant hp (I := fun s₁ => s.Extends s₁) (.refl s)
    fun _ _ _ _ ha _ hst h => h.trans (extends_of_step hst ha)

/-- Taking over a listing keeps what is known. -/
theorem FsState.extends_takeListed (s : FsState) (entries : List ListEntry) :
    s.Extends (s.takeListed entries).2 := by
  have hwarned : s.Extends (s.warned entries) := ⟨rfl, rfl, fun _ _ => id, fun _ a h => ⟨a, h⟩⟩
  exact hwarned.trans (extends_insertListed ..)

theorem FsState.extends_withDisk (s : FsState) (d : Disk) : s.Extends (s.withDisk d) :=
  ⟨rfl, rfl, fun _ _ => id, fun _ a h => ⟨a, h⟩⟩

theorem Populates.extends {parent : Str} {r : Except IpcError (List (Ino × ListEntry))}
    (h : Populates parent s es r s') : s.Extends s' := by
  cases h with
  | failed => exact s.extends_withDisk _
  | listed entries d => exact (s.extends_withDisk d).trans (FsState.extends_takeListed ..)

theorem exec_dotdotInode {dirInode : Ino} {dirPath : Str} {f : Ino → FsProg β}
    (hx : Exec fsMachine (dotdotInode dirInode dirPath >>= f) s es res s') :
    ∃ dotdot es₁ es₂ s₁, s.Extends s₁ ∧
      (dirInode = rootInode ∧ dotdot = rootInode ∨
        s₁.paths.inodeFor (parentPrefix dirPath) = some dotdot) ∧
      Exec fsMachine (f dotdot) s₁ es₂ res s' ∧ es = es₁ ++ es₂ := by
  unfold dotdotInode at hx
  by_cases hroot : dirInode = rootInode
  · rw [if_pos hroot] at hx
    exact ⟨rootInode, [], es, s, .refl s, .inl ⟨hroot, rfl⟩, hx, rfl⟩
  · rw [if_neg hroot] at hx
    obtain ⟨es', rfl, hk⟩ := exec_perform_bind_of_run hx fun _ => rfl
    refine ⟨_, [_], es', _, ?_, .inr (PathMap.intern_inodeFor_self ..), hk, rfl⟩
    exact ⟨rfl, rfl, fun _ _ => PathMap.inodeFor_intern_of_some, fun _ a ha => ⟨a, ha⟩⟩

/-! ## Runs that are possible -/

/-- An outside in which the daemon refuses everything. -/
def World.refuses : World := { World.calm with reply := fun _ => .error .busy }

/-- A call can be answered by anything. -/
theorem can_ipc (verb : Verb) (w : World) (hfree : s.ipcBusy = false) :
    fsMachine.Can (ipc verb) s (.ok (w.reply verb)) (s.withDisk (w.engine s.disk)) := by
  have hready : fsMachine.ready (.call verb) s = true := by simp [fsMachine, Act.ready, hfree]
  have hs : ({ s with ipcBusy := false, disk := w.engine s.disk } : FsState) =
      s.withDisk (w.engine s.disk) := by rw [FsState.withDisk, ← hfree]
  have hreply : fsMachine.run (.reply verb) w { s with ipcBusy := true } =
      (w.reply verb, s.withDisk (w.engine s.disk)) := Prod.ext rfl hs
  exact Machine.can_perform_bind w hready rfl ⟨_, .act ⟨rfl, w, hreply⟩ .ret⟩

/-- A call can be refused. -/
theorem can_ipc_refused (verb : Verb) (hfree : s.ipcBusy = false) :
    fsMachine.Can (ipc verb) s (.ok (.error .busy)) s := can_ipc verb .refuses hfree

/-- A directory can be listed with any entries. -/
theorem exec_of_listed (parent : Str) (entries : List ListEntry) (hfree : s.ipcBusy = false) :
    Exec fsMachine (populateFromList parent) s
      [⟨.call (.list parent), ()⟩, ⟨.reply (.list parent), .ok entries⟩,
        ⟨.warnQuarantined ((entries.filter fun e => !isRepresentable e).map ListEntry.path), ()⟩,
        ⟨.insertListed (entries.filter isRepresentable), (s.takeListed entries).1⟩]
      (.ok (.ok (s.takeListed entries).1)) (s.takeListed entries).2 := by
  have hready : fsMachine.ready (.call (.list parent)) s = true := by
    simp [fsMachine, Act.ready, hfree]
  have hs : ({ s with ipcBusy := false } : FsState) = s := by rw [← hfree]
  have hreply : fsMachine.run (.reply (.list parent)) (.lists fun _ => entries)
      { s with ipcBusy := true } = (.ok entries, s) := Prod.ext rfl hs
  exact .act ⟨hready, .calm, rfl⟩ (.act ⟨rfl, .lists fun _ => entries, hreply⟩
    (.act ⟨rfl, .calm, rfl⟩ (.act ⟨rfl, .calm, rfl⟩ .ret)))

theorem can_visibleName (cp : Str) :
    fsMachine.Can (visibleName cp) s (.ok (s.visibleName cp)) s := by
  refine Machine.can_perform_bind .calm rfl rfl ?_
  unfold FsState.visibleName
  cases s.rawNames.get cp <;> exact Machine.can_ret ..

theorem can_isCached (cp : Str) : ∃ b, fsMachine.Can (isCached cp) s (.ok b) s := by
  cases h : s.paths.inodeFor cp with
  | none =>
    refine ⟨false, Machine.can_perform_bind .calm rfl rfl ?_⟩
    rw [h]
    exact Machine.can_ret ..
  | some ino =>
    refine ⟨s.attrs.containsKey ino, Machine.can_perform_bind .calm rfl rfl ?_⟩
    rw [h]
    exact ⟨_, .act ⟨rfl, .calm, rfl⟩ .ret⟩

/-! ## The lock of the client -/

/-- A run of the program ends with the lock of the client free, if it was free at its start. -/
def Unlocks (p : FsProg α) : Prop :=
  ∀ s es res s', Exec fsMachine p s es res s' → s.ipcBusy = false → s'.ipcBusy = false

theorem Unlocks.ret {r : Except Errno α} : Unlocks (.ret r) := by
  intro s es res s' hx hs
  obtain ⟨-, -, rfl⟩ := exec_ret_iff.1 hx
  exact hs

theorem Unlocks.bind {p : FsProg α} {f : α → FsProg β} (hp : Unlocks p) (hf : ∀ x, Unlocks (f x)) :
    Unlocks (p >>= f) := by
  intro s es res s' hx hs
  rcases exec_bind_iff.1 hx with ⟨e, -, he⟩ | ⟨x, s₁, es₁, es₂, h₁, h₂, -⟩
  · exact hp _ _ _ _ he hs
  · exact hf x _ _ _ _ h₂ (hp _ _ _ _ h₁ hs)

theorem unlocks_ipc (verb : Verb) : Unlocks (ipc verb) := by
  intro s es res s' hx hs
  rw [← Prog.bind_pure (ipc verb)] at hx
  obtain ⟨-, r, d, es', rfl, h⟩ := exec_ipc hx
  obtain ⟨-, -, rfl⟩ := exec_ret_iff.1 h
  exact hs

/-- The action takes no lock. -/
def Act.Lockless : Act → Prop
  | .call _ => False
  | _ => True

theorem FsState.insertListed_ipcBusy (s : FsState) (entries : List ListEntry) :
    (s.insertListed entries).2.ipcBusy = s.ipcBusy := by
  induction entries generalizing s with
  | nil => rfl
  | cons e entries ih => exact ih _

theorem unlocks_perform {a : Act} (ha : a.Lockless) : Unlocks (perform a) := by
  intro s es res s' hx hs
  obtain ⟨r, s₁, es', ⟨-, (w : World), (hrun : a.run w s = (r, s₁))⟩, -, h⟩ := exec_act_iff.1 hx
  obtain ⟨-, -, rfl⟩ := exec_ret_iff.1 h
  cases a with
  | call => exact ha.elim
  | insertListed entries =>
    obtain rfl : s' = (s.insertListed entries).2 := (congrArg Prod.snd hrun).symm
    rwa [FsState.insertListed_ipcBusy]
  | handleWrite | handleSetLen | handleClaim =>
    simp only [Act.run, FsState.handleWrite, FsState.handleSetLen, FsState.handleClaim] at hrun
    split at hrun <;> [skip; split at hrun] <;> cases hrun <;> exact hs
  | attrOpened | openFile | setLen =>
    simp only [Act.run] at hrun
    split at hrun <;> cases hrun <;> exact hs
  | removeFile path | removeDirAll path =>
    cases hrun
    split <;> exact hs
  | reply => cases hrun; rfl
  | _ => cases hrun; exact hs

/-- **A request served alone ends with the lock of the client free.** -/
theorem Op.prog_unlocks (nfc : Str → Str) (cacheRoot : Option Str) (o : Op) :
    Unlocks (o.prog nfc cacheRoot) := by
  -- The programs are taken apart as they are written: `bind`, `perform`, `ipc` and case splits.
  cases o <;> unfold Op.prog <;> refine .bind ?_ fun _ => .ret
  all_goals
    simp only [UnidriveMount.lookup, UnidriveMount.getattr, UnidriveMount.open, UnidriveMount.read,
      UnidriveMount.write, UnidriveMount.fsync, UnidriveMount.release, UnidriveMount.readdir,
      UnidriveMount.readdirplus, UnidriveMount.mkdir, UnidriveMount.unlink, UnidriveMount.rmdir,
      UnidriveMount.create, UnidriveMount.mknod, UnidriveMount.setattr, UnidriveMount.rename,
      UnidriveMount.apply, createInternal, getOrFetchAttr, refuseNfcCollision, populateFromList,
      visibleName, isCached, recordRawName, cachedEntry, openCacheFile, syncSize, publish,
      commitIfDirty, dotdotInode, forgetEntry, setattrSize, UnidriveMount.truncate,
      bareTruncateToZero, bareTruncateToSize]
    repeat' first
      | exact .ret
      | exact unlocks_ipc _
      | exact unlocks_perform trivial
      | refine .bind ?_ fun _ => ?_
      | (unfold okOr; split)
      | (unfold mapErr; split)
      | split

/-- The lock of the client is free between complete requests. -/
theorem ipcBusy_of_sequence {nfc : Str → Str} {cacheRoot : Option Str} {disk : Disk}
    {ok : List FsServed → FsState → FsServed → Prop}
    {l : List FsServed}
    (h : (fsService nfc cacheRoot).Sequence ok (.new disk) l s) : s.ipcBusy = false :=
  h.invariant (I := fun _ s => s.ipcBusy = false) rfl fun _ _ _ _ hs hx _ =>
    Op.prog_unlocks _ _ _ _ _ _ _ hx hs

end UnidriveMount
