import UnidriveMount.Fs.Listing
import UnidriveMount.Lib.Pages

/-!
# Scans of a directory

A scan reads a directory by successive `readdir` or `readdirplus` calls, each of which lists the
directory afresh and resumes by position. Of the entries that exist during the whole scan, each is
returned once and in order when the changes between two calls leave as many of them before the
position where the second resumes (`scan_complete`); otherwise one can be missed (`scan_misses`).
-/

namespace UnidriveMount

open Lib

variable {nfc : Str → Str} {cacheRoot : Option Str} {s s' : FsState}

/-! ## Pages -/

/-- A call of a scan: the states before and after it, the actions performed, the offset asked for,
what the daemon listed, what was returned, and how much of that was consumed. -/
structure Page : Type where
  start : FsState
  stop : FsState
  occs : List (Occ Act.Ret)
  offset : Nat
  entries : List ListEntry
  shown : List (Str × Ino × Int)
  consumed : Nat

/-- The names of the directory's entries at the time of the call. -/
def Page.names (p : Page) : List Str :=
  ['.'] :: ['.', '.'] :: (p.entries.filter isRepresentable).map (shownName p.start.rawNames)

/-- The offset of the last entry consumed, where the next call resumes. -/
def Page.resume (p : Page) : Nat :=
  match (p.shown.take p.consumed).getLast? with
  | some x => x.2.2.toNat
  | none => p.offset

/-- The call is a `readdir` or `readdirplus` of `parent` that succeeded, and the daemon lists the
directory as the page has it. -/
structure Page.Served (parent : Ino) (p : Page) : Prop where
  answer : (∃ out, Exec fsMachine (readdir parent p.offset) p.start p.occs (.ok out) p.stop ∧
      p.shown = out.map DirectoryEntry.shown) ∨
    ∃ out, Exec fsMachine (readdirplus parent p.offset) p.start p.occs (.ok out) p.stop ∧
      p.shown = out.map DirectoryEntryPlus.shown
  listed : ∀ parentPath entries, p.start.paths.pathFor parent = some parentPath →
    (⟨.reply (.list parentPath), .ok entries⟩ : Occ Act.Ret) ∈ p.occs → entries = p.entries

/-- A scan of `parent` from the state `s` and the offset `o` on, with any requests between its calls,
until a call returns nothing. -/
inductive Scan (nfc : Str → Str) (cacheRoot : Option Str) (parent : Ino) :
    FsState → Nat → List Page → Prop where
  | done {s : FsState} {l : List FsServed} {p : Page}
      (hrun : (fsService nfc cacheRoot).Sequence (fun _ _ x => x.req.KernelNames) s l p.start)
      (h : p.Served parent) (hend : p.shown = []) : Scan nfc cacheRoot parent s p.offset [p]
  | more {s : FsState} {l : List FsServed} {p : Page} {pages : List Page}
      (hrun : (fsService nfc cacheRoot).Sequence (fun _ _ x => x.req.KernelNames) s l p.start)
      (h : p.Served parent) (hconsumed : p.consumed ≤ p.shown.length)
      (hrest : Scan nfc cacheRoot parent p.stop p.resume pages) :
      Scan nfc cacheRoot parent s p.offset (p :: pages)

/-- The names a scan returned. -/
def returned (pages : List Page) : List Str :=
  pages.flatMap fun p => (p.shown.take p.consumed).map Prod.fst

/-- The entry exists during the whole scan. -/
def survives (pages : List Page) (name : Str) : Bool := pages.all fun p => p.names.contains name

/-- The lists of the pages, and the positions where the reader stops. -/
def readOf (pages : List Page) : List (List Str × Nat) := pages.map fun p => (p.names, p.resume)

/-- The surviving entries are listed in the same order every time. -/
def SameOrder (pages : List Page) : Prop :=
  ∀ p ∈ pages, ∀ q ∈ pages, p.names.filter (survives pages) = q.names.filter (survives pages)

instance (pages : List Page) : Decidable (SameOrder pages) :=
  inferInstanceAs (Decidable (∀ p ∈ pages, ∀ q ∈ pages, _ = _))

/-- The daemon lists the children of the directory every time. -/
def ListsChildrenOf (nfc : Str → Str) (parent : Ino) (pages : List Page) : Prop :=
  ∀ p ∈ pages, ∀ parentPath, p.start.paths.pathFor parent = some parentPath →
    ListsChildren nfc parentPath p.entries

/-- Where a call resumes, as many surviving entries stand before it as did at the call before. -/
def KeepsPlace (pages : List Page) : Prop := Balanced (survives pages) (readOf pages)

instance (pages : List Page) : Decidable (KeepsPlace pages) :=
  inferInstanceAs (Decidable (Balanced _ _))

/-! ## What a page returns -/

/-- The position of an entry is its offset less one. -/
theorem shownEntries_offset {parent dotdot : Ino} {rawNames : HashMap Str Str}
    {listed : List (Ino × ListEntry)} {i : Nat} {x : Str × Ino × Int}
    (h : (shownEntries parent dotdot rawNames listed)[i]? = some x) : x.2.2 = i + 1 := by
  rcases i with _ | _ | i
  · cases h
    rfl
  · cases h
    rfl
  · have h : (listed.mapIdx fun i e => (shownName rawNames e.2, e.1, (i : Int) + 3))[i]? = some x := h
    rw [List.getElem?_mapIdx] at h
    obtain ⟨e, -, rfl⟩ := Option.map_eq_some_iff.1 h
    push_cast
    omega

/-- A page returns the entries of the directory from its offset on. -/
theorem Page.Served.shown_eq {parent : Ino} {p : Page} (h : p.Served parent) :
    ∃ parentPath dotdot, p.start.paths.pathFor parent = some parentPath ∧
      p.shown = (shownEntries parent dotdot p.start.rawNames
        (p.start.takeListed p.entries).1).drop p.offset := by
  rcases h.answer with ⟨out, hx, hshown⟩ | ⟨out, hx, hshown⟩
  · obtain ⟨parentPath, entries, dotdot, hscan, rfl⟩ := exec_readdir hx
    cases h.listed _ _ hscan.path hscan.reply
    refine ⟨parentPath, dotdot, hscan.path, ?_⟩
    rw [hshown, List.map_drop, directoryEntries_shown, Int.toNat_natCast]
  · obtain ⟨parentPath, entries, dotdot, parentAttr, hscan, rfl⟩ := exec_readdirplus hx
    cases h.listed _ _ hscan.path hscan.reply
    refine ⟨parentPath, dotdot, hscan.path, ?_⟩
    rw [hshown, List.map_drop, directoryEntriesPlus_shown]

theorem Page.Served.names_eq {parent : Ino} {p : Page} (h : p.Served parent) :
    p.shown.map Prod.fst = p.names.drop p.offset := by
  obtain ⟨parentPath, dotdot, -, hshown⟩ := h.shown_eq
  rw [hshown, List.map_drop, shownEntries_names, FsState.takeListed_entries]
  rfl

/-- The next call resumes after what was consumed. -/
theorem Page.Served.resume_eq {parent : Ino} {p : Page} (h : p.Served parent)
    (hconsumed : p.consumed ≤ p.shown.length) : p.resume = p.offset + p.consumed := by
  obtain ⟨parentPath, dotdot, -, hshown⟩ := h.shown_eq
  unfold Page.resume
  rw [List.getLast?_take]
  by_cases hzero : p.consumed = 0
  · simp [hzero]
  · rw [if_neg hzero]
    have hlt : p.consumed - 1 < p.shown.length := by omega
    rw [List.getElem?_eq_getElem hlt]
    have hget : p.shown[p.consumed - 1]? = some p.shown[p.consumed - 1] :=
      List.getElem?_eq_getElem hlt
    conv_lhs at hget => rw [hshown, List.getElem?_drop]
    have hoffset := shownEntries_offset hget
    simp only [Option.some_or]
    omega

/-- What is consumed of a page is what is between its offset and the next. -/
theorem Page.Served.consumed_eq {parent : Ino} {p : Page} (h : p.Served parent)
    (hconsumed : p.consumed ≤ p.shown.length) : (p.shown.take p.consumed).map Prod.fst =
      (p.names.drop p.offset).take (p.resume - p.offset) := by
  rw [List.map_take, h.names_eq, h.resume_eq hconsumed, Nat.add_sub_cancel_left]

/-- A scan has a call. -/
theorem Scan.exists_cons {parent : Ino} {o : Nat} {pages : List Page}
    (h : Scan nfc cacheRoot parent s o pages) : ∃ p pages', pages = p :: pages' := by
  cases h with
  | done => exact ⟨_, _, rfl⟩
  | more => exact ⟨_, _, rfl⟩

/-- A scan reads the directory by pages, to the end. -/
theorem Scan.reads {parent : Ino} {o : Nat} {pages : List Page}
    (h : Scan nfc cacheRoot parent s o pages) :
    returned pages = readPages o (readOf pages) ∧ ReadsToEnd o (readOf pages) := by
  induction h with
  | @done s l p hrun h hend =>
    have hshown : p.shown.take p.consumed = [] := by rw [hend, List.take_nil]
    have hresume : p.resume = p.offset := by
      unfold Page.resume
      rw [hshown]
      rfl
    have hlen : p.names.length ≤ p.offset := by
      have hnames := h.names_eq
      rw [hend] at hnames
      exact List.drop_eq_nil_iff.1 hnames.symm
    constructor
    · show (p.shown.take p.consumed).map Prod.fst ++ [] = _ ++ []
      rw [hshown, hresume, Nat.sub_self, List.take_zero]
      rfl
    · exact ⟨hresume.ge, hresume.symm ▸ hlen⟩
  | @more s l p pages hrun h hconsumed hrest ih =>
    obtain ⟨hread, hend⟩ := ih
    have hle : p.offset ≤ p.resume := by
      rw [h.resume_eq hconsumed]
      exact Nat.le_add_right ..
    constructor
    · show (p.shown.take p.consumed).map Prod.fst ++ returned pages = _ ++ _
      rw [h.consumed_eq hconsumed, hread]
      rfl
    · obtain ⟨p', pages', rfl⟩ := hrest.exists_cons
      exact ⟨hle, hend⟩

/-! ## The whole scan -/

/-- A scan begins in a state where the raw names fold to the paths. -/
theorem Scan.folds (hnfc : Normalises nfc) {disk : Disk} {parent : Ino} {o : Nat} {p : Page}
    {pages : List Page} (h : Scan nfc cacheRoot parent (.new disk) o (p :: pages)) :
    p.Served parent ∧ FoldsToBasename nfc p.start.rawNames := by
  cases h with
  | done hrun h => exact ⟨h, folds_of_sequence hnfc hrun⟩
  | more hrun h => exact ⟨h, folds_of_sequence hnfc hrun⟩

/-- **A scan returns every entry that survives it once**, when the changes between its calls keep the
place where it resumes. -/
theorem scan_complete (hnfc : Normalises nfc) {disk : Disk} {parent : Ino} {pages : List Page}
    (h : Scan nfc cacheRoot parent (.new disk) 0 pages) (hl : ListsChildrenOf nfc parent pages)
    (horder : SameOrder pages) (hplace : KeepsPlace pages) (name : Str)
    (hname : survives pages name = true) : (returned pages).count name = 1 := by
  obtain ⟨hread, hend⟩ := h.reads
  obtain ⟨p, pages', rfl⟩ := h.exists_cons
  obtain ⟨hserved, hraw⟩ := h.folds hnfc
  obtain ⟨parentPath, dotdot, hpath, -⟩ := hserved.shown_eq
  have hfirst := List.mem_cons_self (a := p) (l := pages')
  have hnodup : p.names.Nodup := by
    have hshown : ((shownEntries parent dotdot _ (p.start.takeListed p.entries).1).map Prod.fst).Nodup :=
      shownEntries_nodup hnfc hraw (p.start.takeListed_entries p.entries) (hl p hfirst parentPath hpath)
    rwa [shownEntries_names, FsState.takeListed_entries] at hshown
  have hmem : name ∈ p.names := by
    have := List.all_eq_true.1 hname p hfirst
    exact List.contains_iff_mem.1 this
  have hfilter := filter_readPages (T := p.names.filter (survives (p :: pages')))
    (fun page (hpage : page ∈ readOf (p :: pages')) => by
      obtain ⟨q, hq, rfl⟩ := List.mem_map.1 hpage
      exact horder q hq p hfirst) hend hplace
  rw [List.take_zero, List.filter_nil, List.nil_append] at hfilter
  calc (returned (p :: pages')).count name
      = ((returned (p :: pages')).filter (survives (p :: pages'))).count name :=
        (List.count_filter hname).symm
    _ = (p.names.filter (survives (p :: pages'))).count name := by
      rw [hread]
      exact congrArg (List.count name) hfilter
    _ = p.names.count name := List.count_filter hname
    _ = 1 := List.count_eq_one_of_mem hnodup hmem

/-! ## Where an entry goes -/

/-- A page of the root, read with the listing and consumed in part. -/
def pageOf (entries : List ListEntry) (offset consumed : Nat) (s : FsState) : Option Page :=
  match fsMachine.exec (.lists fun _ => entries) (readdir rootInode offset) s with
  | some (es, .ok out, s') =>
    if listsOnly (fun _ => entries) es then
      some ⟨s, s', es, offset, entries, out.map DirectoryEntry.shown, consumed⟩
    else none
  | _ => none

theorem served_of_pageOf {entries : List ListEntry} {offset consumed : Nat} {p : Page}
    (h : pageOf entries offset consumed s = some p) :
    p.Served rootInode ∧ p.start = s ∧ p.offset = offset := by
  unfold pageOf at h
  split at h
  · next es out s' hx =>
    split at h
    · next hlists =>
      cases h
      refine ⟨⟨.inl ⟨out, Machine.exec_sound hx, rfl⟩, fun parentPath entries' _ hmem => ?_⟩, rfl, rfl⟩
      exact eq_of_listsOnly hlists hmem
    · cases h
  · cases h

/-- The file of that name in the root. -/
def rootFile (name : Str) : ListEntry := ⟨'/' :: name, 0, 0, true, false, none, false⟩

/-- The files `a`, `b` and `c`. -/
def entriesABC : List ListEntry := [rootFile ['a'], rootFile ['b'], rootFile ['c']]

/-- The root is listed in three calls, and `gone` is removed after the first. -/
def scanOf (gone : Str) : Option (List Page) :=
  let after := entriesABC.filter fun e => e ≠ rootFile gone
  (pageOf entriesABC 0 3 (.new .empty)).bind fun p =>
  (plainFs.serveAll (fun _ _ x => kernelNames x.req) [(.unlink rootInode (some gone), .calm)] []
    p.stop).bind fun x =>
  (pageOf after p.resume 1 x.2).bind fun p' =>
  (pageOf after p'.resume 0 p'.stop).map fun p'' => [p, p', p'']

/-- What is checked of the pages of a scan. -/
def wellScanned (pages : List Page) : Bool :=
  (pages.all fun p => decide (p.consumed ≤ p.shown.length ∧ p.start.paths.pathFor rootInode = some [] ∧
    p.entries.Sublist entriesABC)) && (pages.getLast?.all fun p => decide (p.shown = [])) &&
  decide (SameOrder pages)

theorem rootFiles_children {entries : List ListEntry} (h : entries.Sublist entriesABC) :
    ListsChildren id [] entries := by
  refine ⟨(h.map ListEntry.path).nodup (by decide), fun e he => ?_⟩
  have he := h.subset he
  simp only [entriesABC, List.mem_cons, List.not_mem_nil, or_false] at he
  rcases he with rfl | rfl | rfl
  · exact ⟨['a'], by decide, rfl, rfl⟩
  · exact ⟨['b'], by decide, rfl, rfl⟩
  · exact ⟨['c'], by decide, rfl, rfl⟩

theorem scan_of_scanOf {gone : Str} {pages : List Page} (h : scanOf gone = some pages)
    (hwell : wellScanned pages = true) : Scan id none rootInode (.new .empty) 0 pages ∧
      ListsChildrenOf id rootInode pages ∧ SameOrder pages := by
  obtain ⟨hwell, horder⟩ := Bool.and_eq_true_iff.1 hwell
  obtain ⟨hall, hend⟩ := Bool.and_eq_true_iff.1 hwell
  have hpage := fun p hp => of_decide_eq_true (List.all_eq_true.1 hall p hp)
  refine ⟨?_, fun p hp parentPath hpath => ?_, of_decide_eq_true horder⟩
  · unfold scanOf at h
    obtain ⟨p, hp, h⟩ := Option.bind_eq_some_iff.1 h
    obtain ⟨⟨l, s⟩, hserve, h⟩ := Option.bind_eq_some_iff.1 h
    obtain ⟨p', hp', h⟩ := Option.bind_eq_some_iff.1 h
    obtain ⟨p'', hp'', rfl⟩ := Option.map_eq_some_iff.1 h
    obtain ⟨hserved, hstart, hoffset⟩ := served_of_pageOf hp
    obtain ⟨hserved', hstart', hoffset'⟩ := served_of_pageOf hp'
    obtain ⟨hserved'', hstart'', hoffset''⟩ := served_of_pageOf hp''
    have hseq := plainFs.sequence_of_serveAll (fun _ _ _ => kernelNames_of_bool) .nil hserve
    rw [← hoffset]
    refine .more (l := []) (hstart ▸ .nil) hserved (hpage p (by simp)).1 ?_
    rw [← hoffset']
    refine .more (l := l) (hstart' ▸ hseq) hserved' (hpage p' (by simp)).1 ?_
    rw [← hoffset'']
    exact .done (l := []) (hstart'' ▸ .nil) hserved'' (of_decide_eq_true hend)
  · obtain ⟨-, hroot, hsub⟩ := hpage p hp
    cases hroot.symm.trans hpath
    exact rootFiles_children hsub

/-- The last file is removed after the first was read, and the other one is returned. -/
theorem scan_complete_deleteAfter :
    ∃ pages, Scan id none rootInode (.new .empty) 0 pages ∧ survives pages ['b'] = true ∧
      (returned pages).count ['b'] = 1 := by
  have hscan : (scanOf ['c']).any (fun pages => wellScanned pages && decide (KeepsPlace pages) &&
      survives pages ['b']) = true := by decide +kernel
  obtain ⟨pages, hpages, hcheck⟩ := (Option.any_eq_true ..).1 hscan
  obtain ⟨hcheck, hb⟩ := Bool.and_eq_true_iff.1 hcheck
  obtain ⟨hwell, hplace⟩ := Bool.and_eq_true_iff.1 hcheck
  obtain ⟨h, hl, horder⟩ := scan_of_scanOf hpages hwell
  exact ⟨pages, h, hb, scan_complete ⟨fun _ => rfl, fun _ => id, rfl, rfl⟩ h hl horder
    (of_decide_eq_true hplace) _ hb⟩

/-- A file is missed when another before it is removed. -/
theorem scan_misses :
    ¬ ∀ (nfc : Str → Str) (cacheRoot : Option Str), Normalises nfc → ∀ (disk : Disk) (parent : Ino)
      (pages : List Page), Scan nfc cacheRoot parent (.new disk) 0 pages →
      ListsChildrenOf nfc parent pages → SameOrder pages → ∀ name, survives pages name = true →
      (returned pages).count name = 1 := by
  intro hall
  have hscan : (scanOf ['a']).any (fun pages => wellScanned pages && survives pages ['b'] &&
      decide ((returned pages).count ['b'] = 0)) = true := by decide +kernel
  obtain ⟨pages, hpages, hcheck⟩ := (Option.any_eq_true ..).1 hscan
  obtain ⟨hcheck, hzero⟩ := Bool.and_eq_true_iff.1 hcheck
  obtain ⟨hwell, hb⟩ := Bool.and_eq_true_iff.1 hcheck
  obtain ⟨h, hl, horder⟩ := scan_of_scanOf hpages hwell
  have hone := hall id none ⟨fun _ => rfl, fun _ => id, rfl, rfl⟩ _ _ _ h hl horder ['b'] hb
  cases (of_decide_eq_true hzero).symm.trans hone

end UnidriveMount
