import UnidriveMount.Fs.Alone

/-!
# Colliding names

Two names that differ in code points but are equal after NFC have one remote path, and the entry there
is visible under one of them. `refuse_nfc_collision` refuses to create, make or move an entry onto the
other (`collisions_refused`).
-/

namespace UnidriveMount

open Lib
open Lib.Prog (fail okOr ofExcept)

variable {β : Type} {s s' : FsState} {es : List (Occ Act.Ret)} {res : Except Errno β}

/-! ## The check -/

/-- What the check makes of a listing of the parent. -/
def collision (cp : Str) : Except IpcError (List (Ino × ListEntry)) → Option Errno
  | .error e => some (ipcErrorToErrno e)
  | .ok listed => if listed.any fun e => e.2.path = cp then some .EEXIST else none

/-- How the check of `name` at `cp` ends: with an errno, or by letting the name pass. -/
inductive Checks (parentPath cp name : Str) (s : FsState) :
    List (Occ Act.Ret) → Option Errno → FsState → Prop where
  | identical (h : s.visibleName cp = name) :
    Checks parentPath cp name s [⟨.rawName cp, s.rawNames.get cp⟩] none s
  | cached {es : List (Occ Act.Ret)} (hne : s.visibleName cp ≠ name) (hc : s.Cached cp)
      (hlooks : ∀ e ∈ es, e.1.Looks) : Checks parentPath cp name s es (some .EEXIST) s
  | listed {es₁ es₂ : List (Occ Act.Ret)} {r : Except IpcError (List (Ino × ListEntry))}
      {s₁ : FsState} (hne : s.visibleName cp ≠ name) (hc : ¬ s.Cached cp)
      (hlooks : ∀ e ∈ es₁, e.1.Looks) (hp : Populates parentPath s es₂ r s₁) :
    Checks parentPath cp name s (es₁ ++ es₂) (collision cp r) s₁

theorem exec_refuseNfcCollision {parentPath cp name : Str} {f : Unit → FsProg β}
    (hx : Exec fsMachine (refuseNfcCollision parentPath cp name >>= f) s es res s') :
    (∃ e, Checks parentPath cp name s es (some e) s' ∧ res = .error e) ∨
      ∃ es₁ es₂ s₁, Checks parentPath cp name s es₁ none s₁ ∧
        Exec fsMachine (f ()) s₁ es₂ res s' ∧ es = es₁ ++ es₂ := by
  unfold refuseNfcCollision at hx
  rw [Prog.bind_assoc] at hx
  obtain ⟨es₁, rfl, h₁⟩ := exec_visibleName hx
  by_cases hv : s.visibleName cp = name
  · rw [if_pos hv] at h₁
    exact .inr ⟨_, es₁, s, .identical hv, h₁, rfl⟩
  rw [if_neg hv, Prog.bind_assoc] at h₁
  obtain ⟨b, es₂, es₃, hb, hlooks, rfl, h₂⟩ := exec_isCached h₁
  have hlooks' : ∀ e ∈ (⟨.rawName cp, s.rawNames.get cp⟩ : Occ Act.Ret) :: es₂, e.1.Looks :=
    List.forall_mem_cons.2 ⟨trivial, hlooks⟩
  cases b with
  | true =>
    obtain ⟨rfl, rfl, rfl⟩ := exec_ret_iff.1 h₂
    refine .inl ⟨_, .cached hv (hb.1 rfl) ?_, rfl⟩
    rwa [List.append_nil]
  | false =>
    have hc : ¬ s.Cached cp := fun hc => by cases hb.2 hc
    rw [if_neg Bool.false_ne_true, Prog.bind_assoc] at h₂
    obtain ⟨r, es₄, es₅, s₁, hp, h₃, rfl⟩ := exec_populateFromList h₂
    have hchecks := Checks.listed hv hc hlooks' hp
    rw [Prog.bind_assoc] at h₃
    rcases exec_mapErr h₃ with ⟨listed, rfl, h₄⟩ | ⟨e, rfl, rfl, rfl, rfl⟩
    · by_cases hany : (listed.any fun e => e.2.path = cp) = true
      · rw [if_pos hany] at h₄
        obtain ⟨rfl, rfl, rfl⟩ := exec_ret_iff.1 h₄
        rw [collision, if_pos hany] at hchecks
        exact .inl ⟨_, by simpa using hchecks, rfl⟩
      · rw [if_neg hany] at h₄
        rw [collision, if_neg hany] at hchecks
        exact .inr ⟨_, es₅, s₁, hchecks, h₄, by simp⟩
    · exact .inl ⟨_, by simpa [collision] using hchecks, rfl⟩

section
variable {parentPath cp name : Str} {o : Option Errno}

theorem Checks.looks (h : Checks parentPath cp name s es o s') : ∀ e ∈ es, e.1.Looks := by
  cases h with
  | identical => simp [Act.Looks]
  | cached _ _ hlooks => exact hlooks
  | listed _ _ hlooks hp =>
    intro e he
    rcases List.mem_append.1 he with he | he
    · exact hlooks e he
    · exact (hp.lists e he).looks

theorem Checks.extends (h : Checks parentPath cp name s es o s') : s.Extends s' := by
  cases h with
  | identical | cached => exact .refl s
  | listed _ _ _ hp => exact hp.extends

end

/-! ## The requests -/

/-- The daemon's listing has an entry at `cp` whose name can be local. -/
def ListedAt (cp : Str) (entries : List ListEntry) : Prop :=
  ∃ e ∈ entries, e.path = cp ∧ isRepresentable e = true

/-- An entry exists at `cp`, a child of `parentPath`: its attributes are cached, or the daemon lists
it whenever it lists the parent. -/
def Occupied (s : FsState) (parentPath cp : Str) (es : List (Occ Act.Ret)) : Prop :=
  s.Cached cp ∨
    ∀ entries, (⟨.reply (.list parentPath), .ok entries⟩ : Occ Act.Ret) ∈ es → ListedAt cp entries

/-- No entry exists at `cp`: no attributes are cached, and the daemon does not list it. -/
def Vacant (s : FsState) (parentPath cp : Str) (es : List (Occ Act.Ret)) : Prop :=
  ¬ s.Cached cp ∧
    ∀ entries, (⟨.reply (.list parentPath), .ok entries⟩ : Occ Act.Ret) ∈ es → ¬ ListedAt cp entries

/-- The request puts an entry at `name` in `parent`. -/
def Op.Places (parent : Ino) (name : Str) : Op → Prop
  | create p n | mkdir p n | mknod p n _ | rename _ _ p n => p = parent ∧ n = some name
  | _ => False

/-- The verb puts an entry somewhere. -/
def Verb.Places : Verb → Prop
  | create .. | mkdir _ | rename .. => True
  | _ => False

/-- A listing has an entry at `cp` with a local name exactly when the check finds one. -/
theorem listedAt_iff {cp : Str} {entries : List ListEntry} :
    ((s.takeListed entries).1.any fun e => e.2.path = cp) = true ↔ ListedAt cp entries := by
  have hentries := s.takeListed_entries entries
  simp only [List.any_eq_true, decide_eq_true_eq]
  constructor
  · intro ⟨x, hx, hcp⟩
    have hmem : x.2 ∈ (s.takeListed entries).1.map Prod.snd := List.mem_map_of_mem hx
    rw [hentries, List.mem_filter] at hmem
    exact ⟨x.2, hmem.1, hcp, hmem.2⟩
  · intro ⟨e, he, hcp, hrep⟩
    have hmem : e ∈ (s.takeListed entries).1.map Prod.snd := by
      rw [hentries, List.mem_filter]
      exact ⟨he, hrep⟩
    obtain ⟨x, hx, rfl⟩ := List.mem_map.1 hmem
    exact ⟨x, hx, hcp⟩

/-- A name other than the one an existing entry is visible under does not pass the check. -/
theorem Checks.not_pass {parentPath cp name : Str} {o : Option Errno}
    (h : Checks parentPath cp name s es o s') (hocc : Occupied s parentPath cp es)
    (hne : s.visibleName cp ≠ name) : o ≠ none := by
  cases h with
  | identical heq => exact absurd heq hne
  | cached => simp
  | listed _ hc hlooks hp =>
    cases hp with
    | failed => simp [collision]
    | listed entries d =>
      have hlisted := hocc.resolve_left hc entries (by simp)
      rw [collision, if_pos (listedAt_iff.2 hlisted)]
      simp

theorem ipcErrorToErrno_ne_eexist (e : IpcError) : ipcErrorToErrno e ≠ .EEXIST := by
  cases e with
  | serverError msg =>
    have h : ipcErrorToErrno (.serverError msg) = .ENOENT ∨
        ipcErrorToErrno (.serverError msg) = Errno.EIO := ite_eq_or_eq ..
    rcases h with h | h <;> rw [h] <;> decide
  | _ => exact fun h => by cases h

/-- A name that collides with nothing is not answered by EEXIST. -/
theorem Checks.ne_eexist {parentPath cp name : Str} {o : Option Errno}
    (h : Checks parentPath cp name s es o s')
    (hfree : s.visibleName cp = name ∨ Vacant s parentPath cp es) : o ≠ some .EEXIST := by
  cases h with
  | identical => simp
  | cached hne hc => exact absurd hc (hfree.resolve_left hne).1
  | listed hne hc hlooks hp =>
    cases hp with
    | failed e =>
      have hne := ipcErrorToErrno_ne_eexist e
      simpa [collision] using hne
    | listed entries d =>
      have hlisted := (hfree.resolve_left hne).2 entries (by simp)
      rw [collision, if_neg fun hany => hlisted (listedAt_iff.1 hany)]
      simp

/-- The run reads tables, then checks `name` at `cp`, and ends there if the check fails. -/
def ChecksFirst (parentPath cp name : Str) (s : FsState) (es : List (Occ Act.Ret))
    (res : Except Errno β) (s' : FsState) : Prop :=
  ∃ pre es₁ es₂ c s₁, es = pre ++ es₁ ++ es₂ ∧ (∀ x ∈ pre, x.1.Looks) ∧
    Checks parentPath cp name s es₁ c s₁ ∧ ∀ e, c = some e → res = .error e ∧ es₂ = [] ∧ s' = s₁

namespace ChecksFirst

variable {α : Type} {parentPath cp name : Str}

theorem of_refuse {f : Unit → FsProg β}
    (hx : Exec fsMachine (refuseNfcCollision parentPath cp name >>= f) s es res s') :
    ChecksFirst parentPath cp name s es res s' := by
  rcases exec_refuseNfcCollision hx with ⟨e, hc, rfl⟩ | ⟨es₁, es₂, s₁, hc, -, rfl⟩
  · refine ⟨[], es, [], some e, s', by simp, by simp, hc, fun e' he => ?_⟩
    cases he
    exact ⟨rfl, rfl, rfl⟩
  · exact ⟨[], es₁, es₂, none, s₁, rfl, by simp, hc, fun e he => by cases he⟩

theorem cons {x : Occ Act.Ret} (hlooks : x.1.Looks) (h : ChecksFirst parentPath cp name s es res s') :
    ChecksFirst parentPath cp name s (x :: es) res s' := by
  obtain ⟨pre, es₁, es₂, c, s₁, rfl, hpre, hc, hend⟩ := h
  exact ⟨x :: pre, es₁, es₂, c, s₁, rfl, List.forall_mem_cons.2 ⟨hlooks, hpre⟩, hc, hend⟩

/-- What comes after a run that checks first does not matter. -/
theorem bind {p : FsProg α} {f : α → FsProg β}
    (hp : ∀ es (r : Except Errno α) s₁, Exec fsMachine p s es r s₁ →
      ChecksFirst parentPath cp name s es r s₁)
    (hx : Exec fsMachine (p >>= f) s es res s') : ChecksFirst parentPath cp name s es res s' := by
  rcases exec_bind_iff.1 hx with ⟨e, rfl, he⟩ | ⟨x, s₁, es₁, es₂, h₁, h₂, rfl⟩
  · obtain ⟨pre, es₁, es₂, c, s₁, rfl, hpre, hc, hend⟩ := hp _ _ _ he
    refine ⟨pre, es₁, es₂, c, s₁, rfl, hpre, hc, fun e' hc' => ?_⟩
    obtain ⟨hres, rest⟩ := hend e' hc'
    cases hres
    exact ⟨rfl, rest⟩
  · obtain ⟨pre, es₃, es₄, c, s₂, rfl, hpre, hc, hend⟩ := hp _ _ _ h₁
    refine ⟨pre, es₃, es₄ ++ es₂, c, s₂, by simp, hpre, hc, fun e hc' => ?_⟩
    obtain ⟨hres, -⟩ := hend e hc'
    cases hres

end ChecksFirst

/-- A run from the resolution of a directory on. -/
theorem exec_parent {α : Type} {parent : Ino} {parentPath : Str} {f : Str → FsProg α}
    {res : Except Errno α} (hparent : s.paths.pathFor parent = some parentPath)
    (hx : Exec fsMachine (perform (.pathFor parent) >>= fun r => okOr r .ENOENT >>= f) s es res s') :
    ∃ es', es = ⟨.pathFor parent, some parentPath⟩ :: es' ∧
      Exec fsMachine (f parentPath) s es' res s' := by
  obtain ⟨es', rfl, h⟩ := exec_perform_bind_of_run hx fun _ => rfl
  rw [hparent] at h ⊢
  exact ⟨es', rfl, h⟩

section
variable {nfc : Str → Str} {cacheRoot : Option Str} {parent : Ino} {name parentPath : Str}

theorem createInternal_checks {r : Except Errno (Nat × FileAttr × Ino)}
    (hparent : s.paths.pathFor parent = some parentPath)
    (hx : Exec fsMachine (createInternal nfc parent (some name)) s es r s') :
    ChecksFirst parentPath (childPath nfc parentPath name) name s es r s' := by
  obtain ⟨es, rfl, h⟩ := exec_parent hparent hx
  exact .cons trivial (.of_refuse h)

/-- A request that puts an entry somewhere fails at once, or checks the name first. -/
theorem Op.Places.exec {o : Op} (ho : o.Places parent name) {res : Except Errno Reply}
    (hparent : s.paths.pathFor parent = some parentPath)
    (hx : Exec fsMachine (o.prog nfc cacheRoot) s es res s') :
    ((∃ e, res = .error e) ∧ s' = s ∧ ∀ x ∈ es, x.1.Looks) ∨
      ChecksFirst parentPath (childPath nfc parentPath name) name s es res s' := by
  cases o with
  | create p n =>
    obtain ⟨rfl, rfl⟩ := ho
    refine .inr (.bind (fun es r s₁ h => ?_) hx)
    exact .bind (fun es r s₁ h => createInternal_checks hparent h) h
  | mknod p n mode =>
    obtain ⟨rfl, rfl⟩ := ho
    obtain ⟨r, h, rfl⟩ := exec_map_iff.1 hx
    unfold UnidriveMount.mknod at h
    by_cases hmode : isSpecialNode mode = true
    · rw [if_pos hmode] at h
      obtain ⟨rfl, rfl, rfl⟩ := exec_ret_iff.1 h
      exact .inl ⟨⟨_, rfl⟩, rfl, by simp⟩
    · refine .inr (.bind (fun es r s₁ h => ?_) hx)
      unfold UnidriveMount.mknod at h
      rw [if_neg hmode] at h
      exact .bind (fun es r s₁ h => createInternal_checks hparent h) h
  | mkdir p n =>
    obtain ⟨rfl, rfl⟩ := ho
    refine .inr (.bind (fun es r s₁ h => ?_) hx)
    obtain ⟨es', rfl, h'⟩ := exec_parent hparent h
    exact .cons trivial (.of_refuse h')
  | rename op on p n =>
    obtain ⟨rfl, rfl⟩ := ho
    obtain ⟨r, h, rfl⟩ := exec_map_iff.1 hx
    cases on with
    | none =>
      obtain ⟨rfl, rfl, rfl⟩ := exec_ret_iff.1 h
      exact .inl ⟨⟨_, rfl⟩, rfl, by simp⟩
    | some old =>
      obtain ⟨es₁, rfl, h₁⟩ := exec_perform_bind_of_run h fun _ => rfl
      rcases exec_okOr h₁ with ⟨oldParent, -, h₂⟩ | ⟨-, rfl, rfl, rfl⟩
      · rw [hparent] at h₂
        refine .inr (.cons trivial (.bind (fun es r s₁ h => ?_) (exec_map_iff.2 ⟨r, h₂, rfl⟩)))
        exact .of_refuse h
      · exact .inl ⟨⟨_, rfl⟩, rfl, by simp [Act.Looks]⟩
  | _ => exact ho.elim

/-- The request failed without a trace: no verb that puts an entry somewhere was sent, and no raw
name, no path of an existing entry and no open handle changed. The inodes answer their paths as
before as long as the inode counter does not wrap around. -/
structure Refused (s : FsState) (es : List (Occ Act.Ret)) (res : Except Errno β) (s' : FsState) :
    Prop where
  failed : ∃ e, res = .error e
  unsent : ∀ verb, (⟨.call verb, ()⟩ : Occ Act.Ret) ∈ es → ¬ verb.Places
  rawNames : s'.rawNames = s.rawNames
  openHandles : s'.openHandles = s.openHandles
  inodeFor : ∀ p ino, s.paths.inodeFor p = some ino → s'.paths.inodeFor p = some ino
  pathFor : s.paths.Sound → s.paths.next + interned es < inodeSpace →
    ∀ p ino, s.paths.pathFor ino = some p → s'.paths.pathFor ino = some p

theorem Act.Looks.unsent {es : List (Occ Act.Ret)} (h : ∀ x ∈ es, x.1.Looks) (verb : Verb)
    (hmem : (⟨.call verb, ()⟩ : Occ Act.Ret) ∈ es) : ¬ verb.Places := by
  have hlooks : (Act.call verb).Looks := h _ hmem
  cases verb with
  | create | mkdir | rename => exact hlooks.elim
  | _ => exact id

/-- A request onto the place of an entry that is visible under another name is refused. -/
theorem Op.Places.refused {o : Op} (ho : o.Places parent name) {res : Except Errno Reply}
    (hparent : s.paths.pathFor parent = some parentPath)
    (hx : Exec fsMachine (o.prog nfc cacheRoot) s es res s')
    (hocc : Occupied s parentPath (childPath nfc parentPath name) es)
    (hne : s.visibleName (childPath nfc parentPath name) ≠ name) : Refused s es res s' := by
  have hpath : (∀ p ino, s.paths.inodeFor p = some ino → s'.paths.inodeFor p = some ino) →
      s.paths.Sound → s.paths.next + interned es < inodeSpace →
      ∀ p ino, s.paths.pathFor ino = some p → s'.paths.pathFor ino = some p := by
    intro hkeep hs hroom p ino hp
    have hs' : s'.paths.Sound := (sound_of_exec hx hs (Op.prog_sparesRoot ..) hroom).1
    exact (hs'.inverse p ino).1 (hkeep p ino ((hs.inverse p ino).2 hp))
  rcases ho.exec hparent hx with
    ⟨hfail, rfl, hlooks⟩ | ⟨pre, es₁, es₂, c, s₁, rfl, hpre, hc, hend⟩
  · exact ⟨hfail, Act.Looks.unsent hlooks, rfl, rfl, fun _ _ => id, hpath fun _ _ => id⟩
  · have hocc₁ : Occupied s parentPath (childPath nfc parentPath name) es₁ :=
      hocc.imp id fun h entries hmem => h entries (by simp [hmem])
    obtain ⟨e, rfl⟩ := Option.ne_none_iff_exists'.1 (hc.not_pass hocc₁ hne)
    obtain ⟨rfl, rfl, rfl⟩ := hend e rfl
    refine ⟨⟨e, rfl⟩, Act.Looks.unsent ?_, hc.extends.rawNames, hc.extends.openHandles,
      hc.extends.inodeFor, hpath hc.extends.inodeFor⟩
    rw [List.append_nil]
    exact List.forall_mem_append.2 ⟨hpre, hc.looks⟩

/-- **Colliding names are refused before anything is sent**, and no other name is. -/
theorem collisions_refused (hparent : s.paths.pathFor parent = some parentPath) :
    (∀ (o : Op) (es : List (Occ Act.Ret)) (res : Except Errno Reply) (s' : FsState),
      o.Places parent name → Exec fsMachine (o.prog nfc cacheRoot) s es res s' →
      Occupied s parentPath (childPath nfc parentPath name) es →
      s.visibleName (childPath nfc parentPath name) ≠ name → Refused s es res s') ∧
    ∀ (es : List (Occ Act.Ret)) (res : Except Errno Unit) (s' : FsState),
      Exec fsMachine (refuseNfcCollision parentPath (childPath nfc parentPath name) name) s es
        res s' →
      Vacant s parentPath (childPath nfc parentPath name) es ∨
        s.visibleName (childPath nfc parentPath name) = name → res ≠ .error .EEXIST := by
  constructor
  · exact fun o es res s' ho hx hocc hne => ho.refused hparent hx hocc hne
  · intro es res s' hx hfree
    rw [← Prog.bind_pure (refuseNfcCollision ..)] at hx
    rcases exec_refuseNfcCollision hx with ⟨e, hc, rfl⟩ | ⟨es₁, es₂, s₁, hc, hpure, rfl⟩
    · intro he
      cases he
      exact hc.ne_eexist hfree.symm rfl
    · obtain ⟨rfl, rfl, rfl⟩ := exec_ret_iff.1 hpure
      exact fun he => by cases he

end

/-! ## Rename -/

/-- The action asks: it looks something up, or is an exchange with the daemon. -/
def Act.Asks : Act → Prop
  | .call _ | .reply _ => True
  | a => a.Looks

theorem Act.Looks.asks {a : Act} (h : a.Looks) : a.Asks := by
  cases a <;> trivial

/-- The raw names once the entry at `cp` is visible as `name`. -/
def recorded (nfc : Str → Str) (rawNames : HashMap Str Str) (cp name : Str) : HashMap Str Str :=
  if isNfcName nfc name then rawNames.remove cp else rawNames.insert cp name

theorem exec_recordRawName {nfc : Str → Str} {cp name : Str} {f : Unit → FsProg β}
    (hx : Exec fsMachine (recordRawName nfc cp name >>= f) s es res s') :
    ∃ x es', es = x :: es' ∧ x.1.Records ∧
      Exec fsMachine (f ()) { s with rawNames := recorded nfc s.rawNames cp name } es' res s' := by
  unfold recordRawName at hx
  unfold recorded
  split at hx
  · next h =>
    obtain ⟨es', rfl, hf⟩ := exec_perform_bind_of_run hx fun _ => rfl
    exact ⟨_, es', rfl, trivial, by rwa [if_pos h]⟩
  · next h =>
    obtain ⟨es', rfl, hf⟩ := exec_perform_bind_of_run hx fun _ => rfl
    exact ⟨_, es', rfl, trivial, by rwa [if_neg h]⟩

/-- The state after the daemon moved `old` to `new`, where the entry is visible as `newName`. -/
def FsState.renamed (nfc : Str → Str) (s : FsState) (old new newName : Str) : FsState :=
  { s with
    paths := s.paths.rename old new
    openHandles := s.openHandles.mapValues fun h => h.followRename old new
    rawNames := recorded nfc (s.renamedRawNames old new) new newName }

/-- A run of `rename` that moved something: the names and paths, the check, and what came after. -/
structure Moves (nfc : Str → Str) (oldParent : Ino) (oldName : OsStr) (newParent : Ino)
    (newName : OsStr) (s : FsState) (es : List (Occ Act.Ret)) (old new : Str) (s' : FsState) :
    Prop where
  source : ∃ name parentPath, oldName = some name ∧ s.paths.pathFor oldParent = some parentPath ∧
    old = childPath nfc parentPath name
  accepted : (⟨.reply (.rename old new), .ok ()⟩ : Occ Act.Ret) ∈ es
  only : ∀ old' new', (⟨.reply (.rename old' new'), .ok ()⟩ : Occ Act.Ret) ∈ es →
    old' = old ∧ new' = new
  target : ∃ name parentPath es₁ s₁ d, newName = some name ∧
    s.paths.pathFor newParent = some parentPath ∧ new = childPath nfc parentPath name ∧
    Exec fsMachine (refuseNfcCollision parentPath new name) s es₁ (.ok ()) s₁ ∧
    (∃ pre post, es = pre ++ es₁ ++ post) ∧ s' = (s₁.withDisk d).renamed nfc old new name

/-- **How a rename ends**: with an errno after asking only, or having moved something. -/
theorem exec_rename {nfc : Str → Str} {oldParent newParent : Ino} {oldName newName : OsStr}
    {res : Except Errno Unit}
    (hx : Exec fsMachine (rename nfc oldParent oldName newParent newName) s es res s') :
    ((∃ e, res = .error e) ∧ ∀ x ∈ es, x.1.Asks) ∨
      res = .ok () ∧ ∃ old new, Moves nfc oldParent oldName newParent newName s es old new s' := by
  rcases (exec_okOr hx).symm with ⟨-, rfl, rfl, rfl⟩ | ⟨oldName, rfl, h₁⟩
  · exact .inl ⟨⟨_, rfl⟩, by simp⟩
  rcases (exec_okOr h₁).symm with ⟨-, rfl, rfl, rfl⟩ | ⟨newName, rfl, h₂⟩
  · exact .inl ⟨⟨_, rfl⟩, by simp⟩
  obtain ⟨es₁, rfl, h₃⟩ := exec_perform_bind_of_run h₂ fun _ => rfl
  rcases (exec_okOr h₃).symm with ⟨-, rfl, rfl, rfl⟩ | ⟨oldParentPath, hold, h₄⟩
  · exact .inl ⟨⟨_, rfl⟩, by simp [Act.Asks, Act.Looks]⟩
  rcases (exec_okOr h₄).symm with ⟨-, rfl, rfl, rfl⟩ | ⟨newParentPath, hnew, h₅⟩
  · exact .inl ⟨⟨_, rfl⟩, by simp [Act.Asks, Act.Looks]⟩
  have hchecks : (refuseNfcCollision newParentPath (childPath nfc newParentPath newName) newName).Only
      Act.Looks := refuseNfcCollision_only fun _ => id
  rcases exec_bind_iff.1 h₅ with ⟨e, rfl, h₆⟩ | ⟨_, s₁, es₂, es₃, h₆, h₇, rfl⟩
  · refine .inl ⟨⟨e, rfl⟩, List.forall_mem_cons.2 ⟨trivial, fun x hx => ?_⟩⟩
    exact (h₆.only hchecks x hx).asks
  have hlooks : ∀ x ∈ es₂, x.1.Looks := h₆.only hchecks
  obtain ⟨-, r, d, es₄, rfl, h₈⟩ := exec_ipc h₇
  rcases (exec_mapErr h₈).symm with ⟨e, rfl, rfl, rfl, rfl⟩ | ⟨⟨⟩, rfl, h₉⟩
  · refine .inl ⟨⟨_, rfl⟩, List.forall_mem_cons.2 ⟨trivial, List.forall_mem_append.2 ⟨?_, ?_⟩⟩⟩
    · exact fun x hx => (hlooks x hx).asks
    · simp [Act.Asks]
  -- the tables are updated
  obtain ⟨es₅, rfl, h₁₀⟩ := exec_perform_bind_of_run h₉ fun _ => rfl
  obtain ⟨es₆, rfl, h₁₁⟩ := exec_perform_bind_of_run h₁₀ fun _ => rfl
  obtain ⟨es₇, rfl, h₁₂⟩ := exec_perform_bind_of_run h₁₁ fun _ => rfl
  rw [← Prog.bind_pure (recordRawName ..)] at h₁₂
  obtain ⟨record, es₈, rfl, hrecord, h₁₃⟩ := exec_recordRawName h₁₂
  obtain ⟨rfl, rfl, rfl⟩ := exec_ret_iff.1 h₁₃
  refine .inr ⟨rfl, _, _, ⟨_, _, rfl, hold, rfl⟩, ?_, fun old' new' hmem => ?_,
    ⟨_, _, es₂, s₁, d, rfl, hnew, rfl, h₆, ⟨[_], _, rfl⟩, rfl⟩⟩
  · exact .tail _ (List.mem_append_right _ (.tail _ (.head _)))
  · rcases List.mem_cons.1 hmem with heq | hmem
    · cases heq
    · rcases List.mem_append.1 hmem with hmem | hmem
      · exact (hlooks _ hmem).elim
      · simp only [List.mem_cons, List.not_mem_nil, or_false] at hmem
        rcases hmem with heq | heq | heq | heq | heq | heq
        · cases heq
        · cases heq
          exact ⟨rfl, rfl⟩
        · cases heq
        · cases heq
        · cases heq
        · rw [← heq] at hrecord
          exact hrecord.elim

/-! ## A collision -/

/-- The character U+212A, which looks like the letter K. -/
def kelvinSign : Char := Char.ofNat 0x212A

/-- A normalisation that takes the Kelvin sign for the letter, as NFC does. -/
def foldsKelvin (name : Str) : Str := name.map fun c => if c = kelvinSign then 'K' else c

theorem foldsKelvin_idem (name : Str) : foldsKelvin (foldsKelvin name) = foldsKelvin name := by
  unfold foldsKelvin
  rw [List.map_map]
  refine List.map_congr_left fun c _ => ?_
  by_cases h : c = kelvinSign
  · rw [Function.comp_apply, if_pos h]
    decide
  · simp [h]

theorem foldsKelvin_slash (name : Str) (h : '/' ∉ name) : '/' ∉ foldsKelvin name := by
  intro hmem
  obtain ⟨c, hc, heq⟩ := List.mem_map.1 hmem
  by_cases hK : c = kelvinSign
  · simp [hK] at heq
  · rw [if_neg hK] at heq
    exact h (heq ▸ hc)

/-- Whether every listing in the run has an entry at `cp`. -/
def listsAt (cp : Str) (es : List (Occ Act.Ret)) : Bool :=
  es.all fun x => match x with
    | ⟨.reply (.list _), .ok entries⟩ => entries.any fun e => e.path = cp && isRepresentable e
    | _ => true

theorem occupied_of_bool {parentPath cp : Str} (h : listsAt cp es = true) :
    Occupied s parentPath cp es := by
  refine .inr fun entries hmem => ?_
  obtain ⟨e, he, hcp⟩ := List.any_eq_true.1 (List.all_eq_true.1 h _ hmem)
  obtain ⟨hpath, hrep⟩ := Bool.and_eq_true_iff.1 hcp
  exact ⟨e, he, of_decide_eq_true hpath, hrep⟩

/-- A folder is refused whose name is the Kelvin sign, beside the file `K`, which the daemon lists. -/
theorem collisions_refused_mkdir :
    ∃ es res s', Exec fsMachine ((Op.mkdir rootInode (some [kelvinSign])).prog foldsKelvin none)
      (.new .empty) es res s' ∧ es.length = 7 ∧ Refused (.new .empty) es res s' := by
  have hexec : (fsMachine.exec (World.lists fun _ => [⟨['/', 'K'], 0, 0, true, false, none, false⟩])
      ((Op.mkdir rootInode (some [kelvinSign])).prog foldsKelvin none) (.new .empty)).any
      (fun x => x.1.length = 7 && listsAt ['/', 'K'] x.1) = true := by decide +kernel
  obtain ⟨⟨es, res, s'⟩, hx, hcheck⟩ := (Option.any_eq_true ..).1 hexec
  obtain ⟨hlen, hlists⟩ := Bool.and_eq_true_iff.1 hcheck
  have hx := Machine.exec_sound hx
  have hroot : (FsState.new .empty).paths.pathFor rootInode = some [] := by decide +kernel
  have hparent : (Op.mkdir rootInode (some [kelvinSign])).Places rootInode [kelvinSign] := ⟨rfl, rfl⟩
  have hrefused := (collisions_refused hroot).1 _ es res s' hparent hx (occupied_of_bool hlists)
    (by decide +kernel)
  exact ⟨es, res, s', hx, of_decide_eq_true hlen, hrefused⟩

end UnidriveMount
