import UnidriveMount.Fs.Failures
import UnidriveMount.Fs.Subtrees

/-!
# Accepted names that are not shown

`create`, `mknod`, `mkdir` and `rename` take a name as the kernel passes it and send its NFC form to the
daemon; a listing leaves out the entries whose remote name is no local name. The two limits are set on
different strings, and normalisation can make a name longer. A name stays visible exactly when its NFC
form is at most `nameMax` bytes long (`stays_visible`).
-/

namespace UnidriveMount

open Lib
open Lib.Prog (fail okOr ofExcept only_perform)

variable {nfc : Str → Str} {cacheRoot : Option Str} {s s₁ s' : FsState} {es : List (Occ Act.Ret)}

/-! ## Names -/

/-- What the code relies on of the normalisation, for names that are to be names still: `.`, `/` and
NUL are the normal forms of nothing else. -/
structure KeepsNames (nfc : Str → Str) : Prop extends Normalises nfc where
  nil : ∀ n, nfc n = [] → n = []
  onlyDot : ∀ n, nfc n = ['.'] → n = ['.']
  onlyDotdot : ∀ n, nfc n = ['.', '.'] → n = ['.', '.']
  nul : ∀ n, Char.ofNat 0 ∉ n → Char.ofNat 0 ∉ nfc n

/-- A name the kernel can pass. -/
structure KernelName (name : Str) : Prop where
  ne_nil : name ≠ []
  ne_dot : name ≠ ['.']
  ne_dotdot : name ≠ ['.', '.']
  slash : '/' ∉ name
  nul : Char.ofNat 0 ∉ name
  short : byteLen name ≤ nameMax

theorem isRepresentableComponent_iff {name : Str} :
    isRepresentableComponent name = true ↔ KernelName name := by
  unfold isRepresentableComponent
  constructor
  · intro h
    split at h
    · cases h
    split at h
    · cases h
    split at h
    · cases h
    next h₁ h₂ h₃ =>
    simp only [Bool.or_eq_true, List.isEmpty_iff, decide_eq_true_eq, not_or] at h₁
    simp only [Bool.or_eq_true, List.contains_iff_mem, not_or] at h₂
    exact ⟨h₁.1.1, h₁.1.2, h₁.2, h₂.1, h₂.2, by omega⟩
  · intro h
    have hshort := h.short
    rw [if_neg, if_neg, if_neg]
    · omega
    · simpa using ⟨h.slash, h.nul⟩
    · simpa using ⟨⟨h.ne_nil, h.ne_dot⟩, h.ne_dotdot⟩

/-- The NFC form of a name is a name, if it is short enough. -/
theorem KernelName.nfc_iff (hnfc : KeepsNames nfc) {name : Str} (h : KernelName name) :
    KernelName (nfc name) ↔ byteLen (nfc name) ≤ nameMax := by
  refine ⟨fun h => h.short, fun hshort => ⟨?_, ?_, ?_, hnfc.slash _ h.slash, hnfc.nul _ h.nul, hshort⟩⟩
  · exact fun heq => h.ne_nil (hnfc.nil _ heq)
  · exact fun heq => h.ne_dot (hnfc.onlyDot _ heq)
  · exact fun heq => h.ne_dotdot (hnfc.onlyDotdot _ heq)

/-- A child's path says which directory it is in, and under which name in NFC. -/
theorem childPath_inj (hnfc : Normalises nfc) {parentPath parentPath' name name' : Str}
    (hname : '/' ∉ name) (hname' : '/' ∉ name')
    (h : childPath nfc parentPath name = childPath nfc parentPath' name') :
    parentPath = parentPath' ∧ nfc name = nfc name' := by
  have hbase := congrArg basename h
  rw [childPath_eq, childPath_eq, basename_child _ (hnfc.slash _ hname),
    basename_child _ (hnfc.slash _ hname')] at hbase
  rw [childPath_eq, childPath_eq, hbase] at h
  exact ⟨List.append_cancel_right h, hbase⟩

/-! ## Names that are recorded -/

/-- The name recorded for a path is the one it is visible under. -/
theorem visibleName_of_recorded (hnfc : Normalises nfc) {parentPath name : Str} (hname : '/' ∉ name)
    {rawNames : HashMap Str Str}
    (h : s'.rawNames = recorded nfc rawNames (childPath nfc parentPath name) name) :
    s'.visibleName (childPath nfc parentPath name) = name := by
  unfold FsState.visibleName
  rw [h]
  unfold recorded isNfcName
  split
  · next heq =>
    rw [HashMap.get_remove_self]
    show basename (childPath nfc parentPath name) = name
    rw [childPath_eq, basename_child _ (hnfc.slash _ hname), of_decide_eq_true heq]
  · rw [HashMap.get_insert_self]
    rfl

/-- Only the raw name of a path matters for its visible name. -/
theorem visibleName_congr {cp : Str} (h : s'.rawNames.get cp = s.rawNames.get cp) :
    s'.visibleName cp = s.visibleName cp := by
  unfold FsState.visibleName
  rw [h]

/-- **After a request that put an entry somewhere, it is visible under its name.** -/
theorem Op.Places.visible (hnfc : Normalises nfc) {o : Op} {parent : Ino} {name parentPath : Str}
    (ho : o.Places parent name) (hname : '/' ∉ name) (hparent : s.paths.pathFor parent = some parentPath)
    {r : Reply} (hx : Exec fsMachine (o.prog nfc cacheRoot) s es (.ok r) s') :
    s'.visibleName (childPath nfc parentPath name) = name := by
  have hmakes : o.Makes parent (some name) → s'.visibleName (childPath nfc parentPath name) = name := by
    intro ho
    obtain ⟨n, parentPath', attr, -, -, hmade⟩ := ho.exec hx
    cases hmade.name
    cases hparent.symm.trans hmade.parent
    exact visibleName_of_recorded hnfc hname hmade.rawNames
  cases o with
  | create | mkdir | mknod => exact hmakes ho
  | rename oldParent oldName p n =>
    obtain ⟨rfl, rfl⟩ := ho
    obtain ⟨_, s₁, es₁, es₂, h₁, h₂, rfl⟩ := exec_bind_ok hx
    obtain ⟨-, -, rfl⟩ := exec_ret_iff.1 h₂
    rcases exec_rename h₁ with ⟨⟨e, he⟩, -⟩ | ⟨-, old, new, hmoves⟩
    · cases he
    obtain ⟨n', parentPath', es₁, s₁, d, hn', hparent', rfl, -, -, rfl⟩ := hmoves.target
    cases hn'
    cases hparent.symm.trans hparent'
    exact visibleName_of_recorded hnfc hname rfl
  | _ => exact ho.elim

/-! ## Requests that leave the entry where it is -/

/-- The entries a request takes away, or puts another in the place of. -/
def Op.displaced : Op → List (Ino × OsStr)
  | unlink p n | rmdir p n => [(p, n)]
  | rename p n q m => [(p, n), (q, m)]
  | _ => []

/-- The request takes away or replaces the entry at `cp`, or a directory above it. -/
def Op.Displaces (nfc : Str → Str) (cp : Str) (s : FsState) (o : Op) : Prop :=
  ∃ x ∈ o.displaced, ∃ name parentPath, x.2 = some name ∧ s.paths.pathFor x.1 = some parentPath ∧
    AtOrBelow (childPath nfc parentPath name) cp

/-- The daemon lists the entry at `cp` whenever it lists the directory. -/
def ListsEntry (parentPath cp : Str) (es : List (Occ Act.Ret)) : Prop :=
  ∀ entries : List ListEntry, (⟨.reply (.list parentPath), .ok entries⟩ : Occ Act.Ret) ∈ es →
    ∃ e ∈ entries, e.path = cp

/-- The request leaves the entry `name` of `parentPath` where it is: unless it fails it displaces no
such entry, and when it is to make one, the daemon lists the entry whenever it lists the directory. -/
structure Spares (nfc : Str → Str) (parentPath name : Str) (l : List FsServed) (s : FsState)
    (x : FsServed) : Prop extends Roomy l s x where
  kept : ∀ r, x.res = .ok r → ¬ x.req.Displaces nfc (childPath nfc parentPath name) s
  listed : (∃ p n, x.req.Makes p n) → ListsEntry parentPath (childPath nfc parentPath name) x.occs

/-- The other requests change no raw names. -/
theorem Op.May.not_renames {o : Op} (ho : match o with
    | .mkdir .. | .unlink .. | .rmdir .. | .create .. | .mknod .. | .rename .. => False
    | _ => True) {a : Act} (h : o.May a) : ¬ a.Renames := by
  cases a with
  | rawInsert | rawRemove | forgetRawNames | renameRawNames =>
    rcases h with h | h <;> cases o <;> first | exact ho.elim | exact h.elim | skip
    all_goals rcases h with h | h <;> exact h.elim
  | _ => exact id

/-- A removal elsewhere keeps the visible name. -/
theorem EntryRemoved.visible {parent : Ino} {name : OsStr} {n parentPath cp : Str}
    (h : EntryRemoved nfc parent name n parentPath s s')
    (hcp : ¬ AtOrBelow (childPath nfc parentPath n) cp) : s'.visibleName cp = s.visibleName cp := by
  obtain ⟨d, rfl⟩ := h.state
  refine visibleName_congr (HashMap.get_retain .. |>.trans ?_)
  cases s.rawNames.get cp with
  | none => rfl
  | some raw => exact Option.filter_eq_some_iff.2 ⟨rfl, decide_eq_true (not_or.1 hcp)⟩

/-- A request that makes an entry at the place of one that is there must name it exactly. -/
theorem Op.Makes.visible (hnfc : Normalises nfc) {o : Op} {parent : Ino} {name : OsStr}
    (ho : o.Makes parent name) (hnames : o.KernelNames) {parentPath n : Str} (hn : '/' ∉ n)
    (hlisted : ∀ entries, (⟨.reply (.list parentPath), .ok entries⟩ : Occ Act.Ret) ∈ es →
      ListedAt (childPath nfc parentPath n) entries)
    {r : Reply} (hx : Exec fsMachine (o.prog nfc cacheRoot) s es (.ok r) s')
    (hv : s.visibleName (childPath nfc parentPath n) = n) :
    s'.visibleName (childPath nfc parentPath n) = n := by
  obtain ⟨n', parentPath', attr, -, -, hmade⟩ := ho.exec hx
  cases hmade.name
  have hn' : '/' ∉ n' := by
    refine hnames n' ?_
    cases o with
    | create | mkdir | mknod => exact List.mem_singleton.2 ho.2.symm
    | _ => exact ho.elim
  by_cases hcp : childPath nfc parentPath n = childPath nfc parentPath' n'
  · obtain ⟨rfl, -⟩ := childPath_inj hnfc hn hn' hcp
    have hplaces : o.Places parent n' := by
      cases o with
      | create | mkdir | mknod => exact ho
      | _ => exact ho.elim
    by_cases hname : n' = n
    · subst hname
      exact visibleName_of_recorded hnfc hn hmade.rawNames
    · have hrefused := hplaces.refused hmade.parent hx (.inr (hcp ▸ hlisted))
        fun heq => hname (heq.symm.trans (hcp ▸ hv))
      obtain ⟨e, he⟩ := hrefused.failed
      cases he
  · refine (visibleName_congr ?_).trans hv
    rw [hmade.rawNames]
    exact get_recorded_ne hcp

/-- **A request that spares an entry keeps its visible name.** -/
theorem Spares.visible (hnfc : Normalises nfc) {parentPath name : Str} {l : List FsServed}
    {x : FsServed} (h : Spares nfc parentPath name l s x) (hname : KernelName name)
    (hshort : KernelName (nfc name))
    (hx : Exec fsMachine (x.req.prog nfc cacheRoot) s x.occs x.res s')
    (hv : s.visibleName (childPath nfc parentPath name) = name) :
    s'.visibleName (childPath nfc parentPath name) = name := by
  obtain ⟨o, es, res⟩ := x
  obtain ⟨⟨hnames, -⟩, hkept, hlisted⟩ := h
  have hlistedAt : (∃ p n, o.Makes p n) → ∀ entries,
      (⟨.reply (.list parentPath), .ok entries⟩ : Occ Act.Ret) ∈ es →
      ListedAt (childPath nfc parentPath name) entries := by
    intro ho entries hmem
    obtain ⟨e, he, hpath⟩ := hlisted ho entries hmem
    refine ⟨e, he, hpath, ?_⟩
    unfold isRepresentable
    rw [hpath, childPath_eq, basename_child _ (hnfc.slash _ hname.slash)]
    exact isRepresentableComponent_iff.2 hshort
  have hkeep : s'.rawNames = s.rawNames →
      s'.visibleName (childPath nfc parentPath name) = name := by
    intro hraw
    rw [FsState.visibleName, hraw]
    exact hv
  have hfailed : ∀ {e}, o.Changes → res = .error e →
      s'.visibleName (childPath nfc parentPath name) = name := by
    intro e ho he
    cases he
    exact hkeep (failed_unchanged ho hx).rawNames
  have hother : (∀ a, o.May a → ¬ a.Renames) → s'.visibleName (childPath nfc parentPath name) = name :=
    fun ho => hkeep (rawNames_of_exec hx ((Op.prog_only o).mono ho))
  have hmakes : ∀ {p n}, o.Changes → o.Makes p n →
      s'.visibleName (childPath nfc parentPath name) = name := by
    intro p n hchanges ho
    cases res with
    | error e => exact hfailed hchanges rfl
    | ok r => exact ho.visible hnfc hnames hname.slash (hlistedAt ⟨p, n, ho⟩) hx hv
  cases o with
  | create p n => exact hmakes trivial ⟨rfl, rfl⟩
  | mknod p n mode => exact hmakes trivial ⟨rfl, rfl⟩
  | mkdir p n => exact hmakes trivial ⟨rfl, rfl⟩
  | unlink p n =>
    cases res with
    | error e => exact hfailed trivial rfl
    | ok r =>
      obtain ⟨_, s₁, es₁, es₂, h₁, h₂, rfl⟩ := exec_bind_ok hx
      obtain ⟨-, -, rfl⟩ := exec_ret_iff.1 h₂
      obtain ⟨n', path, hrem⟩ := exec_unlink h₁
      exact (hrem.visible fun hcp => hkept r rfl
        ⟨_, List.mem_singleton_self _, n', path, hrem.name, hrem.parent, hcp⟩).trans hv
  | rmdir p n =>
    cases res with
    | error e => exact hfailed trivial rfl
    | ok r =>
      obtain ⟨_, s₁, es₁, es₂, h₁, h₂, rfl⟩ := exec_bind_ok hx
      obtain ⟨-, -, rfl⟩ := exec_ret_iff.1 h₂
      obtain ⟨n', path, hrem⟩ := exec_rmdir h₁
      exact (hrem.visible fun hcp => hkept r rfl
        ⟨_, List.mem_singleton_self _, n', path, hrem.name, hrem.parent, hcp⟩).trans hv
  | rename p n q m =>
    cases res with
    | error e => exact hfailed trivial rfl
    | ok r =>
      obtain ⟨_, s₁, es₁, es₂, h₁, h₂, rfl⟩ := exec_bind_ok hx
      obtain ⟨-, -, rfl⟩ := exec_ret_iff.1 h₂
      rcases exec_rename h₁ with ⟨⟨e, he⟩, -⟩ | ⟨-, old, new, hmoves⟩
      · cases he
      obtain ⟨n', path, hn, hpath, rfl⟩ := hmoves.source
      obtain ⟨m', path', es₃, s₂, d, hm, hpath', rfl, hcheck, -, rfl⟩ := hmoves.target
      have hold : ¬ AtOrBelow (childPath nfc path n') (childPath nfc parentPath name) := fun hcp =>
        hkept r rfl ⟨_, List.mem_cons_self, n', path, hn, hpath, hcp⟩
      have hnew : ¬ AtOrBelow (childPath nfc path' m') (childPath nfc parentPath name) := fun hcp =>
        hkept r rfl ⟨_, List.mem_cons_of_mem _ (List.mem_singleton_self _), m', path', hm, hpath', hcp⟩
      have hraw : s₂.rawNames = s.rawNames :=
        rawNames_of_exec hcheck (refuseNfcCollision_not_renames ..)
      refine (visibleName_congr ((get_renamed_outside hold hnew).trans ?_)).trans hv
      exact congrArg (HashMap.get · _) hraw
  | _ => exact hother fun a ha => ha.not_renames trivial

/-! ## Staying visible -/

/-- The entry `name` of the directory at `parentPath` stays visible from `s₁` on: after any requests
that spare it, a `readdir` for which the daemon lists the entry shows it under exactly that name, and
`lookup` of the name answers the inode shown. -/
def StaysVisible (nfc : Str → Str) (cacheRoot : Option Str) (parentPath name : Str) (s₁ : FsState) :
    Prop :=
  ∀ l s₂, (fsService nfc cacheRoot).Sequence (Spares nfc parentPath name) s₁ l s₂ →
  ∀ dir es out s₃, s₂.paths.pathFor dir = some parentPath →
    Exec fsMachine (readdir dir 0) s₂ es (.ok out) s₃ → s₂.paths.next + interned es < inodeSpace →
    ListsEntry parentPath (childPath nfc parentPath name) es →
    ∃ x ∈ out, x.name = name ∧ ∃ r : ReplyEntry, r.attr.ino = x.inode ∧
      fsMachine.Can (lookup nfc dir (some name)) s₃ (.ok r) s₃ ∧
      ∀ es' res s', Exec fsMachine (lookup nfc dir (some name)) s₃ es' res s' → res = .ok r

/-- Sparing requests keep the path map sound and the entry visible. -/
theorem visible_of_sequence (hnfc : Normalises nfc) {parentPath name : Str} (hname : KernelName name)
    (hshort : KernelName (nfc name)) (hsound : s₁.paths.Sound)
    (hv : s₁.visibleName (childPath nfc parentPath name) = name) {l : List FsServed}
    (hs : (fsService nfc cacheRoot).Sequence (Spares nfc parentPath name) s₁ l s) :
    s.paths.Sound ∧ s.visibleName (childPath nfc parentPath name) = name := by
  refine hs.invariant (I := fun _ s => s.paths.Sound ∧
    s.visibleName (childPath nfc parentPath name) = name) ⟨hsound, hv⟩ fun l s x s' hI hx hok => ?_
  exact ⟨(sound_of_exec hx hI.1 (Op.prog_sparesRoot ..) hok.room).1,
    hok.visible hnfc hname hshort hx hI.2⟩

/-- A visible entry whose remote name is short enough stays visible. -/
theorem staysVisible_of_short (hnfc : Normalises nfc) {parentPath name : Str} (hname : KernelName name)
    (hshort : KernelName (nfc name)) (hsound : s₁.paths.Sound)
    (hv : s₁.visibleName (childPath nfc parentPath name) = name) :
    StaysVisible nfc cacheRoot parentPath name s₁ := by
  intro l s₂ hs dir es out s₃ hdir hx hroom hlists
  obtain ⟨hsound₂, hv₂⟩ := visible_of_sequence hnfc hname hshort hsound hv hs
  obtain ⟨path, entries, dotdot, hscan, rfl⟩ := exec_readdir hx
  cases hdir.symm.trans hscan.path
  have hdir₃ := hscan.pathFor hx ((readdir_adds ..).mono fun _ => Act.Adds.sparesRoot) hsound₂ hroom
  -- the entry is taken over, and shown under its visible name
  obtain ⟨e, he, hpath⟩ := hlists entries hscan.reply
  have hrep : isRepresentable e = true := by
    unfold isRepresentable
    rw [hpath, childPath_eq, basename_child _ (hnfc.slash _ hname.slash)]
    exact isRepresentableComponent_iff.2 hshort
  obtain ⟨x, hx', rfl⟩ : ∃ x ∈ (s₂.takeListed entries).1, x.2 = e := by
    rw [← List.mem_map, s₂.takeListed_entries]
    exact List.mem_filter.2 ⟨he, hrep⟩
  have hshown : shownName s₂.rawNames x.2 = name := by
    rw [← hpath] at hv₂
    exact hv₂
  obtain ⟨i, hi, rfl⟩ := List.mem_iff_getElem.1 hx'
  refine ⟨_, List.mem_cons_of_mem _ (List.mem_cons_of_mem _ (List.mem_mapIdx.2 ⟨i, hi, rfl⟩)), hshown, ?_⟩
  obtain ⟨hino, a, ha⟩ := hscan.known _ hx'
  rw [hpath] at hino
  have hv₃ : s₃.visibleName (childPath nfc parentPath name) = name := by
    rw [FsState.visibleName, hscan.kept.rawNames]
    exact hv₂
  exact ⟨_, rfl, lookup_cached hdir₃ hv₃ hino ha⟩

/-- A directory whose one entry has no local name can be listed as empty. -/
theorem exec_of_readdir_hidden {dir : Ino} {parentPath : Str} {e : ListEntry}
    (hfree : s.ipcBusy = false) (hdir : s.paths.pathFor dir = some parentPath)
    (hrep : isRepresentable e = false) :
    ∃ es dotdot s', Exec fsMachine (readdir dir 0) s es
        (.ok (directoryEntries dir dotdot s'.rawNames [])) s' ∧ interned es ≤ 1 ∧
      ∀ entries : List ListEntry, (⟨.reply (.list parentPath), .ok entries⟩ : Occ Act.Ret) ∈ es →
        entries = [e] := by
  have hfilter : [e].filter isRepresentable = [] := by simp [hrep]
  have htaken : s.takeListed [e] = ([], s.warned [e]) := by
    unfold FsState.takeListed
    rw [hfilter]
    rfl
  have hlisted := exec_of_listed parentPath [e] hfree
  rw [htaken, hfilter] at hlisted
  have hpath : fsMachine.run (.pathFor dir) .calm s = (some parentPath, s) := Prod.ext hdir rfl
  have hrest : ∀ dotdot (s₁ : FsState), Exec fsMachine (perform .cloneRawNames >>= fun rawNames => pure
      (directoryEntries dir dotdot rawNames [])) s₁ [⟨.cloneRawNames, s₁.rawNames⟩] _ _ :=
    fun _ _ => .act ⟨rfl, .calm, rfl⟩ .ret
  obtain ⟨es', dotdot, s', hdot, hcount, hreplies⟩ : ∃ es' dotdot s', Exec fsMachine
      (dotdotInode dir parentPath >>= fun dotdot => perform .cloneRawNames >>= fun rawNames =>
        pure ((directoryEntries dir dotdot rawNames []).drop (0 : Int).toNat)) (s.warned [e]) es'
        (.ok (directoryEntries dir dotdot s'.rawNames [])) s' ∧ interned es' ≤ 1 ∧
      ∀ entries : List ListEntry, (⟨.reply (.list parentPath), .ok entries⟩ : Occ Act.Ret) ∉ es' := by
    unfold dotdotInode
    split
    · exact ⟨_, _, _, hrest rootInode _, Nat.zero_le 1, by simp⟩
    · exact ⟨_, _, _, .act ⟨rfl, .calm, rfl⟩ (hrest _ _), Nat.le_refl 1, by simp⟩
  have hscan : Exec fsMachine (populateFromList parentPath >>= fun r => mapErr ipcErrorToErrno r >>=
      fun listed => dotdotInode dir parentPath >>= fun dotdot => perform .cloneRawNames >>=
      fun rawNames => pure ((directoryEntries dir dotdot rawNames listed).drop
        (0 : Int).toNat)) s _ _ _ :=
    exec_bind_iff.2 (.inr ⟨_, _, _, _, hlisted, hdot, rfl⟩)
  refine ⟨_, dotdot, s', .act ⟨rfl, .calm, hpath⟩ hscan, ?_, fun entries hmem => ?_⟩
  · simpa [interned, Act.interned] using hcount
  · have hnot := hreplies entries
    simp [hnot] at hmem
    exact Except.ok.inj hmem

/-- An entry whose remote name is too long is not shown. -/
theorem not_staysVisible (hnfc : Normalises nfc) {dir : Ino} {parentPath name : Str}
    (hname : KernelName name) (hlong : ¬ KernelName (nfc name)) (hfree : s₁.ipcBusy = false)
    (hdir : s₁.paths.pathFor dir = some parentPath) (hroom : s₁.paths.next + 1 < inodeSpace) :
    ¬ StaysVisible nfc cacheRoot parentPath name s₁ := by
  intro h
  have hrep : isRepresentable ⟨childPath nfc parentPath name, 0, 0, true, false, none, false⟩ = false := by
    unfold isRepresentable
    rw [childPath_eq, basename_child _ (hnfc.slash _ hname.slash)]
    exact Bool.eq_false_iff.2 fun hrep => hlong (isRepresentableComponent_iff.1 hrep)
  obtain ⟨es, dotdot, s', hx, hcount, hreplies⟩ := exec_of_readdir_hidden hfree hdir hrep
  obtain ⟨x, hx, hxname, -⟩ := h [] s₁ .nil dir es _ s' hdir hx (by omega) fun entries hmem => by
    rw [hreplies entries hmem]
    exact ⟨_, List.mem_singleton_self _, rfl⟩
  rcases List.mem_cons.1 hx with rfl | hx
  · exact hname.ne_dot hxname.symm
  rcases List.mem_cons.1 hx with rfl | hx
  · exact hname.ne_dotdot hxname.symm
  · cases hx

/-- **An accepted name stays visible exactly when its NFC form is at most 255 bytes long.** -/
theorem stays_visible (hnfc : KeepsNames nfc) {disk : Disk} {l : List FsServed}
    (hs : (fsService nfc cacheRoot).Sequence Roomy (.new disk) l s) {o : Op} {parent : Ino}
    {name parentPath : Str} (ho : o.Places parent name) (hname : KernelName name)
    (hparent : s.paths.pathFor parent = some parentPath) {r : Reply}
    (hx : Exec fsMachine (o.prog nfc cacheRoot) s es (.ok r) s₁)
    (hroom : s.paths.next + interned es < inodeSpace) :
    (byteLen (nfc name) ≤ nameMax → StaysVisible nfc cacheRoot parentPath name s₁) ∧
      (∀ dir, s₁.paths.pathFor dir = some parentPath → s₁.paths.next + 1 < inodeSpace →
        StaysVisible nfc cacheRoot parentPath name s₁ → byteLen (nfc name) ≤ nameMax) := by
  have hnormalises := hnfc.toNormalises
  obtain ⟨hsound, -⟩ := foldsToBasename_of_sequence hnormalises hs
  have hsound₁ : s₁.paths.Sound := (sound_of_exec hx hsound (Op.prog_sparesRoot ..) hroom).1
  have hfree : s₁.ipcBusy = false := Op.prog_unlocks _ _ _ _ _ _ _ hx (ipcBusy_of_sequence hs)
  constructor
  · intro hshort
    exact staysVisible_of_short hnormalises hname ((hname.nfc_iff hnfc).2 hshort) hsound₁
      (ho.visible hnormalises hname.slash hparent hx)
  · intro dir hdir hroom₁ hstays
    by_contra hlong
    have hlong := mt (hname.nfc_iff hnfc).1 hlong
    exact not_staysVisible hnormalises hname hlong hfree hdir hroom₁ hstays

/-! ## Two spellings -/

/-- A normalisation that spells some characters differently, and the others, `.`, `/` and NUL among them,
as they are. -/
theorem keepsNames_of_flatMap {f : Char → Str} (hdot : f '.' = ['.'])
    (hf : ∀ c, f c = [c] ∨ f c ≠ [] ∧ ∀ d ∈ f c, f d = [d] ∧ d ≠ '.' ∧ d ≠ '/' ∧ d ≠ Char.ofNat 0) :
    KeepsNames fun n : Str => n.flatMap f := by
  have hmem : ∀ {n : Str} {d : Char}, d = '.' ∨ d = '/' ∨ d = Char.ofNat 0 → d ∈ n.flatMap f → d ∈ n := by
    intro n d hd hmem
    obtain ⟨c, hc, hdc⟩ := List.mem_flatMap.1 hmem
    rcases hf c with heq | ⟨-, hall⟩
    · rw [heq, List.mem_singleton] at hdc
      exact hdc ▸ hc
    · obtain ⟨-, h₁, h₂, h₃⟩ := hall d hdc
      rcases hd with h | h | h
      · exact absurd h h₁
      · exact absurd h h₂
      · exact absurd h h₃
  have hdots : ∀ n s : Str, (∀ d ∈ s, d = '.') → n.flatMap f = s → n = s := by
    intro n
    induction n with
    | nil => exact fun s _ h => h
    | cons c n ih =>
      rintro s hs rfl
      rw [List.flatMap_cons] at hs ⊢
      rcases hf c with heq | ⟨hne, hall⟩
      · rw [heq] at hs ⊢
        exact congrArg (c :: ·) (ih _ (fun d hd => hs d (List.mem_append_right _ hd)) rfl)
      · obtain ⟨d, t, hd⟩ := List.exists_cons_of_ne_nil hne
        have hdc : d ∈ f c := hd ▸ List.mem_cons_self
        exact absurd (hs d (List.mem_append_left _ hdc)) (hall d hdc).2.1
  refine ⟨⟨fun n => ?_, fun n hn h => hn (hmem (.inr (.inl rfl)) h), ?_, ?_⟩, fun n h => ?_, fun n h => ?_,
    fun n h => ?_, fun n hn h => hn (hmem (.inr (.inr rfl)) h)⟩
  · rw [List.flatMap_assoc]
    refine List.flatMap_congr fun c _ => ?_
    rcases hf c with heq | ⟨-, hall⟩
    · rw [heq]
      simp [heq]
    · calc (f c).flatMap f = (f c).flatMap fun d => [d] :=
            List.flatMap_congr fun d hd => (hall d hd).1
        _ = f c := List.flatMap_singleton' _
  · simp [hdot]
  · simp [hdot]
  · exact hdots n _ (by simp) h
  · exact hdots n _ (by simp) h
  · exact hdots n _ (by simp) h

theorem foldsKelvin_keepsNames : KeepsNames foldsKelvin := by
  have heq : foldsKelvin = fun n : Str => n.flatMap fun c => [if c = kelvinSign then 'K' else c] := by
    funext n
    exact List.map_eq_flatMap
  rw [heq]
  refine keepsNames_of_flatMap (by decide) fun c => ?_
  by_cases hc : c = kelvinSign
  · refine .inr ⟨by simp, fun d hd => ?_⟩
    rw [if_pos hc, List.mem_singleton] at hd
    subst hd
    decide
  · exact .inl (by rw [if_neg hc])

/-- A normalisation that decomposes one letter, as NFC does with the characters that are excluded from
composition. -/
def decomposesQa (n : Str) : Str :=
  n.flatMap fun c => if c = Char.ofNat 0x958 then [Char.ofNat 0x915, Char.ofNat 0x93C] else [c]

theorem decomposesQa_keepsNames : KeepsNames decomposesQa := by
  refine keepsNames_of_flatMap (by decide) fun c => ?_
  by_cases hc : c = Char.ofNat 0x958
  · refine .inr ⟨by simp [hc], fun d hd => ?_⟩
    simp only [hc, if_pos, List.mem_cons, List.not_mem_nil, or_false] at hd
    rcases hd with rfl | rfl <;> decide
  · exact .inl (by rw [if_neg hc])

/-- The file of the Kelvin sign, which the daemon calls `K`, stays visible under its own name. -/
theorem stays_visible_raw :
    ∃ l s es r s₁, (fsService foldsKelvin none).Sequence Roomy (.new .empty) l s ∧
      Exec fsMachine ((Op.create rootInode (some [kelvinSign])).prog foldsKelvin none) s es (.ok r) s₁ ∧
      StaysVisible foldsKelvin none [] [kelvinSign] s₁ := by
  have hrun : (fsMachine.exec .calm ((Op.create rootInode (some [kelvinSign])).prog foldsKelvin none)
      (.new .empty)).any (fun x => decide ((FsState.new .empty).paths.next + interned x.1 < inodeSpace) &&
      x.2.1.isOk) = true := by decide +kernel
  obtain ⟨⟨es, res, s₁⟩, hx, hcheck⟩ := (Option.any_eq_true ..).1 hrun
  obtain ⟨hroom, hok⟩ := Bool.and_eq_true_iff.1 hcheck
  cases res with
  | error e => cases hok
  | ok r =>
    have hx := Machine.exec_sound hx
    have hplaces : (Op.create rootInode (some [kelvinSign])).Places rootInode [kelvinSign] := ⟨rfl, rfl⟩
    have hname : KernelName [kelvinSign] := isRepresentableComponent_iff.1 (by decide)
    have hroot : (FsState.new .empty).paths.pathFor rootInode = some [] := by decide +kernel
    exact ⟨[], _, es, r, s₁, .nil, hx, (stays_visible foldsKelvin_keepsNames .nil hplaces hname hroot hx
      (of_decide_eq_true hroom)).1 (by decide)⟩

/-- A name of 43 letters, of 129 bytes, and of 258 bytes in NFC. -/
def longName : Str := List.replicate 43 (Char.ofNat 0x958)

/-- A file with the long name is created and not shown. -/
theorem long_name_hidden : ¬ ∀ (nfc : Str → Str) (cacheRoot : Option Str), KeepsNames nfc →
    ∀ (disk : Disk) (l : List FsServed) (s : FsState),
    (fsService nfc cacheRoot).Sequence Roomy (.new disk) l s →
    ∀ (o : Op) (parent : Ino) (name parentPath : Str), o.Places parent name → KernelName name →
    s.paths.pathFor parent = some parentPath → ∀ es r s₁,
    Exec fsMachine (o.prog nfc cacheRoot) s es (.ok r) s₁ →
    s.paths.next + interned es < inodeSpace → StaysVisible nfc cacheRoot parentPath name s₁ := by
  intro h
  have hrun : (fsMachine.exec .calm ((Op.create rootInode (some longName)).prog decomposesQa none)
      (.new .empty)).any (fun x => decide ((FsState.new .empty).paths.next + interned x.1 < inodeSpace ∧
      x.2.2.paths.pathFor rootInode = some [] ∧ x.2.2.paths.next + 1 < inodeSpace) && x.2.1.isOk)
      = true := by decide +kernel
  obtain ⟨⟨es, res, s₁⟩, hx, hcheck⟩ := (Option.any_eq_true ..).1 hrun
  obtain ⟨hroom, hok⟩ := Bool.and_eq_true_iff.1 hcheck
  obtain ⟨hroom, hroot₁, hroom₁⟩ := of_decide_eq_true hroom
  cases res with
  | error e => cases hok
  | ok r =>
    have hx := Machine.exec_sound hx
    have hname : KernelName longName := isRepresentableComponent_iff.1 (by decide +kernel)
    have hlong : ¬ KernelName (decomposesQa longName) := by
      rw [← isRepresentableComponent_iff]
      decide +kernel
    have hroot : (FsState.new .empty).paths.pathFor rootInode = some [] := by decide +kernel
    have hplaces : (Op.create rootInode (some longName)).Places rootInode longName := ⟨rfl, rfl⟩
    have hstays := h _ none decomposesQa_keepsNames .empty [] _ .nil _ _ _ _ hplaces hname hroot _ _ _
      hx hroom
    exact not_staysVisible decomposesQa_keepsNames.toNormalises hname hlong
      (Op.prog_unlocks _ _ _ _ _ _ _ hx rfl) hroot₁ hroom₁ hstays

end UnidriveMount
