import UnidriveMount.Fs.Names
import UnidriveMount.Fs.LocalAttrs

/-!
# Names spelled differently

An entry should be reached only under the name it is visible under. `lookup` compares the two;
`unlink`, `rmdir` and the source of a `rename` fold the name to NFC and go on, so that another
spelling deletes or moves the entry (`spelled_otherwise`). `exactly_named` says when they do not.
-/

namespace UnidriveMount

open Lib
open Lib.Prog (fail okOr ofExcept)

variable {s s' : FsState} {es : List (Occ Act.Ret)}

/-! ## The property -/

/-- The request is about the entry `name` of `parent`. -/
def Op.Names (parent : Ino) (name : Str) : Op → Prop
  | lookup p n | unlink p n | rmdir p n | rename p n _ _ => p = parent ∧ n = some name
  | _ => False

/-- The verb names the path `cp`. -/
def Verb.Names (cp : Str) : Verb → Prop
  | openRead _ p | openWrite _ p _ | openWriteBegin p _ | hydrate p | dehydrate p | lastSynced p
  | list p | mkdir p | unlink p | rmdir p | create _ p => p = cp
  | rename p q => p = cp ∨ q = cp
  | closeHandle _ | daemonStatus => False

/-- Under another name than the one it is visible under, the entry at `cp` is not found: ENOENT, no
verb names it, and nothing changes. -/
def Exact (nfc : Str → Str) (cacheRoot : Option Str) (s : FsState) (o : Op) (cp name : Str) : Prop :=
  s.visibleName cp ≠ name → ∀ es res s', Exec fsMachine (o.prog nfc cacheRoot) s es res s' →
    res = .error .ENOENT ∧ (∀ verb, (⟨.call verb, ()⟩ : Occ Act.Ret) ∈ es → ¬ verb.Names cp) ∧ s' = s

/-- When it holds: for `lookup`, for the visible name, and for a `rename` that fails on its target. -/
def NamesExactly (s : FsState) (cp name : Str) : Op → Prop
  | .lookup .. => True
  | .rename _ _ newParent newName =>
    s.visibleName cp = name ∨ newName ≠ none ∧ s.paths.pathFor newParent = none
  | _ => s.visibleName cp = name

/-! ## Requests that are not turned away -/

/-- The check of a name lets it pass, or can fail with another errno than ENOENT. -/
theorem can_refuseNfcCollision (parentPath cp name : Str) (hfree : s.ipcBusy = false) :
    ∃ r, fsMachine.Can (refuseNfcCollision parentPath cp name) s r s ∧ r ≠ .error .ENOENT := by
  by_cases hv : s.visibleName cp = name
  · refine ⟨.ok (), Machine.can_bind (can_visibleName cp) ?_, by simp⟩
    rw [if_pos hv]
    exact Machine.can_ret ..
  obtain ⟨b, hcached⟩ := can_isCached (s := s) cp
  cases b with
  | true =>
    refine ⟨.error .EEXIST, Machine.can_bind (can_visibleName cp) ?_, by simp⟩
    rw [if_neg hv]
    exact Machine.can_bind hcached (Machine.can_ret ..)
  | false =>
    refine ⟨.error .EBUSY, Machine.can_bind (can_visibleName cp) ?_, by simp⟩
    rw [if_neg hv]
    refine Machine.can_bind hcached ?_
    rw [if_neg Bool.false_ne_true]
    have hlist : fsMachine.Can (populateFromList parentPath) s (.ok (.error .busy)) s :=
      Machine.can_bind (can_ipc_refused (.list parentPath) hfree) (Machine.can_ret ..)
    exact Machine.can_bind hlist (Machine.can_ret ..)

section
variable {nfc : Str → Str} {cacheRoot : Option Str} {parent : Ino} {name parentPath : Str} {o : Op}

/-- `lookup` is exact. -/
theorem lookup_exact (hparent : s.paths.pathFor parent = some parentPath) :
    Exact nfc cacheRoot s (.lookup parent (some name)) (childPath nfc parentPath name) name := by
  intro hne es res s' hx
  obtain ⟨r, h, rfl⟩ := exec_map_iff.1 hx
  obtain ⟨es₁, rfl, h₁⟩ := exec_parent hparent h
  obtain ⟨es₂, rfl, h₂⟩ := exec_visibleName h₁
  rw [if_pos hne] at h₂
  obtain ⟨rfl, rfl, rfl⟩ := exec_ret_iff.1 h₂
  exact ⟨rfl, by simp, rfl⟩

/-- A `rename` whose target's directory is not known fails before it does anything. -/
theorem rename_of_lost_target {oldParent newParent : Ino} {newName : Str}
    (hparent : s.paths.pathFor oldParent = some parentPath)
    (hnew : s.paths.pathFor newParent = none) {res : Except Errno Reply}
    (hx : Exec fsMachine ((Op.rename oldParent (some name) newParent (some newName)).prog nfc cacheRoot)
      s es res s') :
    res = .error .ENOENT ∧ (∀ verb, (⟨.call verb, ()⟩ : Occ Act.Ret) ∈ es → ¬ verb.Names
      (childPath nfc parentPath name)) ∧ s' = s := by
  obtain ⟨r, h, rfl⟩ := exec_map_iff.1 hx
  obtain ⟨es₁, rfl, h₁⟩ := exec_perform_bind_of_run h fun _ => rfl
  rw [hparent, hnew] at h₁
  obtain ⟨rfl, rfl, rfl⟩ := exec_ret_iff.1 h₁
  exact ⟨rfl, by simp, rfl⟩

theorem NamesExactly.of_visible {cp : Str} (ho : o.Names parent name) (h : s.visibleName cp = name) :
    NamesExactly s cp name o := by
  cases o with
  | lookup => trivial
  | rename => exact .inl h
  | unlink | rmdir => exact h
  | _ => exact ho.elim

/-- Otherwise the request can end in another errno. -/
theorem Op.Names.exec (ho : o.Names parent name)
    (hparent : s.paths.pathFor parent = some parentPath) (hfree : s.ipcBusy = false)
    (hnot : ¬ NamesExactly s (childPath nfc parentPath name) name o) :
    ∃ res s', fsMachine.Can (o.prog nfc cacheRoot) s res s' ∧ res ≠ .error .ENOENT := by
  cases o with
  | lookup => exact absurd trivial hnot
  | unlink p n =>
    obtain ⟨rfl, rfl⟩ := ho
    refine ⟨.error .EBUSY, s, Machine.can_bind_error (Machine.can_perform_bind .calm rfl rfl ?_), by simp⟩
    rw [hparent]
    exact Machine.can_bind (Machine.can_ret _ (.ok parentPath) s)
      (Machine.can_bind (can_ipc_refused _ hfree) (Machine.can_ret ..))
  | rmdir p n =>
    obtain ⟨rfl, rfl⟩ := ho
    refine ⟨.error .EBUSY, s, Machine.can_bind_error (Machine.can_perform_bind .calm rfl rfl ?_), by simp⟩
    rw [hparent]
    exact Machine.can_bind (Machine.can_ret _ (.ok parentPath) s)
      (Machine.can_bind (can_ipc_refused _ hfree) (Machine.can_ret ..))
  | rename p n q m =>
    obtain ⟨rfl, rfl⟩ := ho
    cases m with
    | none => exact ⟨.error .EINVAL, s, Machine.can_ret .., by simp⟩
    | some newName =>
      obtain ⟨newParent, hnew⟩ : ∃ newParent, s.paths.pathFor q = some newParent := by
        refine Option.ne_none_iff_exists'.1 fun hnone => hnot (.inr ⟨by simp, hnone⟩)
      obtain ⟨r, hcheck, hr⟩ := can_refuseNfcCollision newParent (childPath nfc newParent newName)
        newName hfree
      cases r with
      | error e =>
        refine ⟨.error e, s, Machine.can_bind_error (Machine.can_perform_bind .calm rfl rfl ?_), by simpa using hr⟩
        rw [hparent, hnew]
        exact Machine.can_bind (Machine.can_ret _ (.ok parentPath) s)
          (Machine.can_bind (Machine.can_ret _ (.ok newParent) s) (Machine.can_bind_error hcheck))
      | ok =>
        refine ⟨.error .EBUSY, s, Machine.can_bind_error (Machine.can_perform_bind .calm rfl rfl ?_), by simp⟩
        rw [hparent, hnew]
        exact Machine.can_bind (Machine.can_ret _ (.ok parentPath) s)
          (Machine.can_bind (Machine.can_ret _ (.ok newParent) s) (Machine.can_bind hcheck
            (Machine.can_bind (can_ipc_refused _ hfree) (Machine.can_ret ..))))
  | _ => exact ho.elim

/-- **A name reaches an entry it is not visible under** by every request but `lookup`. -/
theorem exactly_named {disk : Disk} {l : List FsServed}
    (hs : (fsService nfc cacheRoot).Sequence (fun _ _ _ => True) (.new disk) l s)
    (ho : o.Names parent name) (hparent : s.paths.pathFor parent = some parentPath) :
    Exact nfc cacheRoot s o (childPath nfc parentPath name) name ↔
      NamesExactly s (childPath nfc parentPath name) name o := by
  constructor
  · intro hexact
    by_contra hnot
    obtain ⟨res, s', ⟨es, hx⟩, hres⟩ := ho.exec hparent (ipcBusy_of_sequence hs) hnot
    have hne : s.visibleName (childPath nfc parentPath name) ≠ name := fun heq =>
      hnot (.of_visible ho heq)
    exact hres (hexact hne es res s' hx).1
  · intro hcond hne es res s' hx
    cases o with
    | lookup p n =>
      obtain ⟨rfl, rfl⟩ := ho
      exact lookup_exact hparent hne es res s' hx
    | rename p n q m =>
      obtain ⟨rfl, rfl⟩ := ho
      obtain ⟨hm, hq⟩ := hcond.resolve_left hne
      obtain ⟨newName, rfl⟩ := Option.ne_none_iff_exists'.1 hm
      exact rename_of_lost_target hparent hq hx
    | unlink | rmdir => exact absurd hcond hne
    | _ => exact ho.elim

end

/-! ## Another spelling of a file -/

/-- The file `K` is created. -/
def createdK : List (Op × World) := [(.create rootInode (some ['K']), .calm)]

/-- `lookup` does not find the file under the Kelvin sign, and `unlink` can delete it under that name. -/
theorem exactly_named_lookup :
    ∃ l s, (fsService foldsKelvin none).Sequence (fun _ _ _ => True) (.new .empty) l s ∧
      s.visibleName ['/', 'K'] = ['K'] ∧
      Exact foldsKelvin none s (.lookup rootInode (some [kelvinSign])) ['/', 'K'] [kelvinSign] ∧
      ¬ Exact foldsKelvin none s (.unlink rootInode (some [kelvinSign])) ['/', 'K'] [kelvinSign] := by
  have hserve : ((fsService foldsKelvin none).serveAll (fun _ _ _ => true) createdK [] (.new .empty)).any
      (fun x => x.2.visibleName ['/', 'K'] = ['K'] && x.2.paths.pathFor rootInode = some []) = true := by
    decide +kernel
  obtain ⟨⟨l, s⟩, hs, hcheck⟩ := (Option.any_eq_true ..).1 hserve
  obtain ⟨hvisible, hroot⟩ := Bool.and_eq_true_iff.1 hcheck
  have hvisible : s.visibleName ['/', 'K'] = ['K'] := of_decide_eq_true hvisible
  have hseq := (fsService foldsKelvin none).sequence_of_serveAll (fun _ _ _ _ => trivial) .nil hs
  have hcp : childPath foldsKelvin [] [kelvinSign] = ['/', 'K'] := by decide
  rw [← hcp] at hvisible ⊢
  have hlookup : (Op.lookup rootInode (some [kelvinSign])).Names rootInode [kelvinSign] := ⟨rfl, rfl⟩
  have hunlink : (Op.unlink rootInode (some [kelvinSign])).Names rootInode [kelvinSign] := ⟨rfl, rfl⟩
  refine ⟨l, s, hseq, hvisible,
    (exactly_named hseq hlookup (of_decide_eq_true hroot)).2 trivial, fun hexact => ?_⟩
  have hcond := (exactly_named hseq hunlink (of_decide_eq_true hroot)).1 hexact
  exact absurd (hvisible.symm.trans hcond) (by decide)

/-- The request succeeded. -/
def isDone : Except Errno Reply → Bool
  | .ok .done => true
  | _ => false

/-- The file is deleted under the other spelling. -/
theorem spelled_otherwise :
    ¬ ∀ (nfc : Str → Str) (cacheRoot : Option Str), (∀ n, nfc (nfc n) = nfc n) →
      (∀ n, '/' ∉ n → '/' ∉ nfc n) → ∀ (disk : Disk) (l : List FsServed) (s : FsState) (o : Op)
      (parent : Ino) (name parentPath : Str),
      (fsService nfc cacheRoot).Sequence (fun _ _ _ => True) (.new disk) l s →
      o.Names parent name → s.paths.pathFor parent = some parentPath →
      Exact nfc cacheRoot s o (childPath nfc parentPath name) name := by
  intro h
  have hserve : ((fsService foldsKelvin none).serveAll (fun _ _ _ => true) createdK [] (.new .empty)).any
      (fun x => x.2.visibleName ['/', 'K'] = ['K'] && x.2.paths.pathFor rootInode = some [] &&
        (fsMachine.exec .calm ((Op.unlink rootInode (some [kelvinSign])).prog foldsKelvin none) x.2).any
          fun y => isDone y.2.1) = true := by decide +kernel
  obtain ⟨⟨l, s⟩, hs, hcheck⟩ := (Option.any_eq_true ..).1 hserve
  obtain ⟨hcheck, hdeleted⟩ := Bool.and_eq_true_iff.1 hcheck
  obtain ⟨hvisible, hroot⟩ := Bool.and_eq_true_iff.1 hcheck
  have hvisible : s.visibleName ['/', 'K'] = ['K'] := of_decide_eq_true hvisible
  obtain ⟨⟨es, res, s'⟩, hx, hok⟩ := (Option.any_eq_true ..).1 hdeleted
  have hseq := (fsService foldsKelvin none).sequence_of_serveAll (fun _ _ _ _ => trivial) .nil hs
  have hexact := h foldsKelvin none foldsKelvin_idem foldsKelvin_slash .empty l s (.unlink rootInode (some [kelvinSign]))
    rootInode [kelvinSign] [] hseq ⟨rfl, rfl⟩ (of_decide_eq_true hroot)
  have hne : s.visibleName (childPath foldsKelvin [] [kelvinSign]) ≠ [kelvinSign] := by
    show s.visibleName ['/', 'K'] ≠ [kelvinSign]
    rw [hvisible]
    decide
  obtain ⟨rfl, -, -⟩ := hexact hne es res s' (Machine.exec_sound hx)
  cases hok

end UnidriveMount
