import UnidriveMount.Recovery.Scanner

/-!
# What the walk collects

The walk over the cache folder comes to its end (`collectFiles_drains`), fails only where the iteration
over a directory does (`collectFiles_ok`), and otherwise collects every file that is found from the root
through readable directories and can be canonicalized, once each (`collectFiles_perm`).
-/

namespace UnidriveMount

open Lib

namespace CacheNode

/-- The node is found below `n` at a relative path: every directory on the way can be canonicalized and
read, and no link is followed. -/
inductive Finds : CacheNode → PathBuf → CacheNode → Prop where
  | entry {resolves : Bool} {entries : List (FileName × CacheNode)} {name : FileName} {n : CacheNode}
    (h : (name, n) ∈ entries) : Finds (.dir resolves true entries) [name] n
  | deeper {resolves : Bool} {entries : List (FileName × CacheNode)} {name : FileName} {n m : CacheNode}
    {rel : PathBuf} (h : (name, n) ∈ entries) (hresolves : n.resolves = true) (hm : n.Finds rel m) :
    Finds (.dir resolves true entries) (name :: rel) m

mutual
/-- The relative paths of the files the walk collects below a node. -/
def files : CacheNode → List PathBuf
  | .dir _ true entries => filesIn entries
  | _ => []

/-- The relative paths of the files the walk collects from some entries. -/
def filesIn : List (FileName × CacheNode) → List PathBuf
  | [] => []
  | (name, .file true _) :: entries => [name] :: filesIn entries
  | (name, .dir true readable sub) :: entries =>
    (CacheNode.dir true readable sub).files.map (name :: ·) ++ filesIn entries
  | _ :: entries => filesIn entries
end

/-- The path `rel` leads to a file by the entry `e`. -/
def Leads (e : FileName × CacheNode) (rel : PathBuf) : Prop :=
  (∃ modified, rel = [e.1] ∧ e.2 = .file true modified) ∨
    ∃ q modified, rel = e.1 :: q ∧ e.2.resolves = true ∧ e.2.Finds q (.file true modified)

mutual
theorem mem_files_iff : (n : CacheNode) → (rel : PathBuf) →
    (rel ∈ n.files ↔ ∃ modified, n.Finds rel (.file true modified))
  | .dir resolves true entries, rel => by
    rw [files, mem_filesIn_iff entries rel]
    constructor
    · rintro ⟨⟨name, n⟩, he, ⟨modified, rfl, rfl⟩ | ⟨q, modified, rfl, hresolves, hfinds⟩⟩
      · exact ⟨modified, .entry he⟩
      · exact ⟨modified, .deeper he hresolves hfinds⟩
    · rintro ⟨modified, h⟩
      cases h with
      | entry he => exact ⟨_, he, .inl ⟨modified, rfl, rfl⟩⟩
      | deeper he hresolves hfinds => exact ⟨_, he, .inr ⟨_, modified, rfl, hresolves, hfinds⟩⟩
  | .dir resolves false entries, rel => by
    constructor
    · intro h
      cases h
    · rintro ⟨modified, h⟩
      cases h
  | .file .., rel | .symlink, rel | .other, rel | .broken, rel => by
    constructor
    · intro h
      cases h
    · rintro ⟨modified, h⟩
      cases h

theorem mem_filesIn_iff : (entries : List (FileName × CacheNode)) → (rel : PathBuf) →
    (rel ∈ filesIn entries ↔ ∃ e ∈ entries, Leads e rel)
  | [], rel => by simp [filesIn]
  | (name, .file true modified) :: entries, rel => by
    rw [filesIn, List.mem_cons, mem_filesIn_iff entries rel, List.exists_mem_cons_iff]
    refine or_congr_left ⟨fun h => .inl ⟨modified, h, rfl⟩, ?_⟩
    rintro (⟨_, h, _⟩ | ⟨q, _, _, _, h⟩)
    · exact h
    · cases h
  | (name, .dir true readable sub) :: entries, rel => by
    rw [filesIn, List.mem_append, mem_filesIn_iff entries rel, List.exists_mem_cons_iff, List.mem_map]
    refine or_congr_left ⟨?_, ?_⟩
    · rintro ⟨q, hq, rfl⟩
      obtain ⟨modified, h⟩ := (mem_files_iff (.dir true readable sub) q).1 hq
      exact .inr ⟨q, modified, rfl, rfl, h⟩
    · rintro (⟨_, _, h⟩ | ⟨q, modified, rfl, _, h⟩)
      · cases h
      · exact ⟨q, (mem_files_iff (.dir true readable sub) q).2 ⟨modified, h⟩, rfl⟩
  | (name, .file false _) :: entries, rel | (name, .dir false _ _) :: entries, rel
  | (name, .symlink) :: entries, rel | (name, .other) :: entries, rel
  | (name, .broken) :: entries, rel => by
    show rel ∈ filesIn entries ↔ _
    rw [mem_filesIn_iff entries rel, List.exists_mem_cons_iff]
    refine (or_iff_right ?_).symm
    rintro (⟨_, _, h⟩ | ⟨q, _, _, hresolves, h⟩)
    · cases h
    · cases h <;> cases hresolves
end

/-- A collected path starts with the name of an entry. -/
theorem head_of_mem_filesIn {entries : List (FileName × CacheNode)} {name : FileName} {q : PathBuf}
    (h : name :: q ∈ filesIn entries) : name ∈ entries.map Prod.fst := by
  obtain ⟨e, he, ⟨_, heq, _⟩ | ⟨_, _, heq, _, _⟩⟩ := (mem_filesIn_iff entries _).1 h
  · exact (List.cons.inj heq).1 ▸ List.mem_map_of_mem he
  · exact (List.cons.inj heq).1 ▸ List.mem_map_of_mem he

mutual
theorem nodup_files : (n : CacheNode) → n.Distinct → n.files.Nodup
  | .dir _ true entries, .dir hnames hentries => nodup_filesIn entries hnames hentries
  | .dir _ false _, _ | .file .., _ | .symlink, _ | .other, _ | .broken, _ => List.nodup_nil

theorem nodup_filesIn : (entries : List (FileName × CacheNode)) → (entries.map Prod.fst).Nodup →
    (∀ e ∈ entries, e.2.Distinct) → (filesIn entries).Nodup
  | [], _, _ => List.nodup_nil
  | (name, .file true modified) :: entries, hnames, hentries => by
    obtain ⟨hname, hnames⟩ := List.nodup_cons.1 hnames
    refine List.nodup_cons.2 ⟨fun h => hname ?_,
      nodup_filesIn entries hnames fun e he => hentries e (List.mem_cons_of_mem _ he)⟩
    exact head_of_mem_filesIn h
  | (name, .dir true readable sub) :: entries, hnames, hentries => by
    obtain ⟨hname, hnames⟩ := List.nodup_cons.1 hnames
    have hsub := nodup_files (.dir true readable sub) (hentries _ List.mem_cons_self)
    refine List.Nodup.append (hsub.map fun _ _ h => (List.cons.inj h).2)
      (nodup_filesIn entries hnames fun e he => hentries e (List.mem_cons_of_mem _ he)) ?_
    intro rel hrel hrel'
    obtain ⟨q, -, rfl⟩ := List.mem_map.1 hrel
    exact hname (head_of_mem_filesIn hrel')
  | (_, .file false _) :: entries, hnames, hentries | (_, .dir false _ _) :: entries, hnames, hentries
  | (_, .symlink) :: entries, hnames, hentries | (_, .other) :: entries, hnames, hentries
  | (_, .broken) :: entries, hnames, hentries =>
    nodup_filesIn entries (List.nodup_cons.1 hnames).2 fun e he => hentries e (List.mem_cons_of_mem _ he)
end

/-! ## Paths in the folder -/

theorem lookup_of_mem {entries : List (FileName × CacheNode)} (hnames : (entries.map Prod.fst).Nodup)
    {e : FileName × CacheNode} (he : e ∈ entries) : entries.lookup e.1 = some e.2 := by
  induction entries with
  | nil => cases he
  | cons e' entries ih =>
    obtain ⟨hname, hnames⟩ := List.nodup_cons.1 hnames
    rcases List.mem_cons.1 he with rfl | he
    · exact List.lookup_cons_self
    · have hne : e.1 ≠ e'.1 := fun heq => hname (heq ▸ List.mem_map_of_mem he)
      show (match e.1 == e'.1 with | true => some e'.2 | false => entries.lookup e.1) = some e.2
      rw [beq_eq_false_iff_ne.2 hne]
      exact ih hnames he

theorem mem_of_lookup {entries : List (FileName × CacheNode)} {name : FileName} {n : CacheNode}
    (h : entries.lookup name = some n) : (name, n) ∈ entries := by
  obtain ⟨l₁, l₂, rfl, -⟩ := List.lookup_eq_some_iff.1 h
  exact List.mem_append_right _ List.mem_cons_self

theorem nodeAt_append (n : CacheNode) (rel rel' : PathBuf) :
    n.nodeAt (rel ++ rel') = (n.nodeAt rel).bind fun m => m.nodeAt rel' := by
  induction rel generalizing n with
  | nil => rfl
  | cons name rel ih =>
    cases n with
    | dir resolves readable entries =>
      simp only [List.cons_append, nodeAt]
      cases entries.lookup name with
      | none => rfl
      | some m => exact ih m
    | _ => rfl

theorem Distinct.nodeAt {n m : CacheNode} (h : n.Distinct) {rel : PathBuf} (hm : n.nodeAt rel = some m) :
    m.Distinct := by
  induction rel generalizing n with
  | nil =>
    cases hm
    exact h
  | cons name rel ih =>
    cases h with
    | dir hnames hentries =>
      obtain ⟨k, hk, hm⟩ := Option.bind_eq_some_iff.1 hm
      exact ih (hentries (name, k) (mem_of_lookup hk)) hm
    | _ => cases hm

/-- What is found is at its path. -/
theorem Finds.nodeAt {n m : CacheNode} {rel : PathBuf} (h : n.Finds rel m) (hn : n.Distinct) :
    n.nodeAt rel = some m := by
  induction h with
  | entry he =>
    cases hn with
    | dir hnames hentries =>
      rw [CacheNode.nodeAt, lookup_of_mem hnames he]
      rfl
  | deeper he _ _ ih =>
    cases hn with
    | dir hnames hentries =>
      rw [CacheNode.nodeAt, lookup_of_mem hnames he]
      exact ih (hentries _ he)

end CacheNode

namespace CacheRoot

variable {root : CacheRoot} {dir : PathBuf} {resolves readable : Bool}
  {entries : List (FileName × CacheNode)}

theorem stripPrefix_append (p rel : PathBuf) : PathBuf.stripPrefix (p ++ rel) p = some rel := by
  rw [PathBuf.stripPrefix, if_pos (List.prefix_append ..), List.drop_left]

theorem nodeAt_append (root : CacheRoot) (rel : PathBuf) :
    root.nodeAt (root.path ++ rel) = root.node.nodeAt rel := by
  rw [nodeAt, stripPrefix_append]
  rfl

theorem nodeAt_path (root : CacheRoot) : root.nodeAt root.path = some root.node := by
  have hat := nodeAt_append root []
  rw [List.append_nil] at hat
  exact hat

/-- The entries of a directory are at their paths. -/
theorem nodeAt_entry {rel : PathBuf} (h : root.node.nodeAt rel = some (.dir resolves readable entries))
    {e : FileName × CacheNode} (he : e ∈ entries) :
    root.nodeAt (root.path ++ rel ++ [e.1]) = some e.2 := by
  rw [List.append_assoc, nodeAt_append, CacheNode.nodeAt_append, h]
  have hdistinct : (CacheNode.dir resolves readable entries).Distinct := root.distinct.nodeAt h
  cases hdistinct with
  | dir hnames hentries =>
    show (entries.lookup e.1).bind (fun n => some n) = _
    rw [CacheNode.lookup_of_mem hnames he]
    rfl

/-! ## A visit -/

/-- What is collected for the file at a relative path. -/
def collected (root : CacheRoot) (rel : PathBuf) : PathBuf × Str := (root.path ++ rel, remoteOf rel)

/-- What is collected from a directory on. -/
def collect (root : CacheRoot) (p : PathBuf) : List (PathBuf × Str) :=
  match p.stripPrefix root.path, root.nodeAt p with
  | some rel, some n => n.files.map fun q => root.collected (rel ++ q)
  | _, _ => []

/-- How many directories there are from a directory on. -/
def weight (root : CacheRoot) (p : PathBuf) : Nat :=
  match root.nodeAt p with
  | some n => n.dirs
  | none => 0

theorem canonicalize_of_nodeAt {p : PathBuf} {n : CacheNode} (h : root.nodeAt p = some n) :
    root.canonicalize p = if n.resolves then some p else none := by
  rw [canonicalize, h]

theorem visitEntry_eq {rel : PathBuf} {name : FileName} {n : CacheNode}
    (h : root.nodeAt (root.path ++ rel ++ [name]) = some n) :
    visitEntry root (root.path ++ rel) (name, n.kind) = match n with
      | .file true _ => .ok ([root.collected (rel ++ [name])], [])
      | .dir true _ _ => .ok ([], [root.path ++ rel ++ [name]])
      | .broken => .error .walk
      | _ => .ok ([], []) := by
  have hprefix : root.path <+: root.path ++ rel ++ [name] := by
    rw [List.append_assoc]
    exact List.prefix_append ..
  cases n with
  | file resolves modified =>
    cases resolves with
    | true =>
      have hcanon : root.canonicalize (root.path ++ rel ++ [name]) =
          some (root.path ++ rel ++ [name]) := canonicalize_of_nodeAt h
      simp only [visitEntry, CacheNode.kind, hcanon, decide_eq_true hprefix]
      rw [List.append_assoc, stripPrefix_append]
      rfl
    | false =>
      have hcanon : root.canonicalize (root.path ++ rel ++ [name]) = none := canonicalize_of_nodeAt h
      simp only [visitEntry, CacheNode.kind, hcanon]
  | dir resolves readable entries =>
    cases resolves with
    | true =>
      have hcanon : root.canonicalize (root.path ++ rel ++ [name]) =
          some (root.path ++ rel ++ [name]) := canonicalize_of_nodeAt h
      simp only [visitEntry, CacheNode.kind, hcanon, if_pos hprefix]
    | false =>
      have hcanon : root.canonicalize (root.path ++ rel ++ [name]) = none := canonicalize_of_nodeAt h
      simp only [visitEntry, CacheNode.kind, hcanon]
  | symlink | other | broken => rfl

/-- **What a visit of entries does**: it fails at a broken one; or it yields the files, pushes the
directories, and together they are what is to be collected. -/
theorem visitEntries_cases {rel : PathBuf} {es : List (FileName × CacheNode)}
    (hat : ∀ e ∈ es, root.nodeAt (root.path ++ rel ++ [e.1]) = some e.2) :
    (visitEntries root (root.path ++ rel) (es.map fun e => (e.1, e.2.kind)) = .error .walk ∧
      ∃ name, (name, CacheNode.broken) ∈ es) ∨
    ∃ rs ns, visitEntries root (root.path ++ rel) (es.map fun e => (e.1, e.2.kind)) = .ok (rs, ns) ∧
      (∀ p ∈ ns, ∃ name readable sub, p = root.path ++ rel ++ [name] ∧
        (name, CacheNode.dir true readable sub) ∈ es) ∧
      (ns.map root.weight).sum ≤ CacheNode.dirsIn es ∧
      ((CacheNode.filesIn es).map fun q => root.collected (rel ++ q)).Perm
        (rs ++ ns.flatMap root.collect) := by
  induction es with
  | nil => exact .inr ⟨[], [], rfl, fun p hp => (by cases hp), le_rfl, .nil⟩
  | cons e es ih =>
    obtain ⟨name, n⟩ := e
    have hvisit := visitEntry_eq (hat (name, n) List.mem_cons_self)
    have hcons : visitEntries root (root.path ++ rel) (((name, n) :: es).map fun e => (e.1, e.2.kind)) =
        (visitEntry root (root.path ++ rel) (name, n.kind) >>= fun x =>
          visitEntries root (root.path ++ rel) (es.map fun e => (e.1, e.2.kind)) >>= fun y =>
            pure (x.1 ++ y.1, x.2 ++ y.2)) := rfl
    rw [hvisit] at hcons
    rcases ih fun e he => hat e (List.mem_cons_of_mem _ he) with
      ⟨hrest, name', hbroken⟩ | ⟨rs, ns, hrest, hns, hweight, hperm⟩
    · refine .inl ⟨?_, name', List.mem_cons_of_mem _ hbroken⟩
      rw [hcons, hrest]
      cases n with
      | file resolves | dir resolves => cases resolves <;> rfl
      | _ => rfl
    · rw [hrest] at hcons
      have hns : ∀ p ∈ ns, ∃ name' readable sub, p = root.path ++ rel ++ [name'] ∧
          (name', CacheNode.dir true readable sub) ∈ (name, n) :: es := fun p hp =>
        let ⟨name', readable, sub, heq, hmem⟩ := hns p hp
        ⟨name', readable, sub, heq, List.mem_cons_of_mem _ hmem⟩
      cases n with
      | broken => exact .inl ⟨hcons, name, List.mem_cons_self⟩
      | symlink | other =>
        exact .inr ⟨rs, ns, hcons, hns, Nat.le_trans hweight (Nat.le_add_left ..), hperm⟩
      | file resolves modified =>
        cases resolves with
        | false => exact .inr ⟨rs, ns, hcons, hns, Nat.le_trans hweight (Nat.le_add_left ..), hperm⟩
        | true => exact .inr ⟨_, ns, hcons, hns, Nat.le_trans hweight (Nat.le_add_left ..), hperm.cons _⟩
      | dir resolves readable sub =>
        cases resolves with
        | false => exact .inr ⟨rs, ns, hcons, hns, Nat.le_trans hweight (Nat.le_add_left ..), hperm⟩
        | true =>
          have hnode := hat (name, .dir true readable sub) List.mem_cons_self
          refine .inr ⟨rs, (root.path ++ rel ++ [name]) :: ns, hcons, ?_, ?_, ?_⟩
          · intro p hp
            rcases List.mem_cons.1 hp with rfl | hp
            · exact ⟨name, readable, sub, rfl, List.mem_cons_self⟩
            · exact hns p hp
          · have hhead : root.weight (root.path ++ rel ++ [name]) =
                (CacheNode.dir true readable sub).dirs := by
              rw [weight, hnode]
            rw [List.map_cons, List.sum_cons, hhead]
            exact Nat.add_le_add_left hweight _
          · have hhead : root.collect (root.path ++ rel ++ [name]) =
                (CacheNode.dir true readable sub).files.map
                  fun q => root.collected (rel ++ [name] ++ q) := by
              rw [collect, hnode, List.append_assoc, stripPrefix_append]
            have hsplit : (CacheNode.filesIn ((name, .dir true readable sub) :: es)).map
                (fun q => root.collected (rel ++ q)) =
                ((CacheNode.dir true readable sub).files.map fun q => root.collected (rel ++ [name] ++ q)) ++
                  (CacheNode.filesIn es).map fun q => root.collected (rel ++ q) := by
              rw [CacheNode.filesIn, List.map_append, List.map_map]
              simp [Function.comp_def]
            rw [List.flatMap_cons, hhead, hsplit]
            exact (hperm.append_left _).trans (List.perm_append_comm_assoc ..)

/-! ## The whole walk -/

/-- A directory the walk comes to: what is found below it is found. -/
def Visited (root : CacheRoot) (p : PathBuf) : Prop :=
  ∃ rel resolves readable entries, p = root.path ++ rel ∧
    root.node.nodeAt rel = some (.dir resolves readable entries) ∧
    ∀ q m, (CacheNode.dir resolves readable entries).Finds q m → root.node.Finds (rel ++ q) m

theorem visited_root (root : CacheRoot) : root.Visited root.path :=
  ⟨[], true, root.readable, root.entries, (List.append_nil _).symm, rfl, fun _ _ h => h⟩

/-- A visit of a directory the walk comes to. -/
theorem visitDir_cases {p : PathBuf} (hp : root.Visited p) :
    (visitDir root p = .error .walk ∧ ∃ rel, root.node.Finds rel .broken) ∨
    ∃ rs ns, visitDir root p = .ok (rs, ns) ∧ (∀ q ∈ ns, root.Visited q) ∧
      (ns.map root.weight).sum < root.weight p ∧ (root.collect p).Perm (rs ++ ns.flatMap root.collect) := by
  obtain ⟨rel, resolves, readable, entries, rfl, hnode, hfinds⟩ := hp
  have hat := nodeAt_append root rel
  rw [hnode] at hat
  have hweight : root.weight (root.path ++ rel) = CacheNode.dirsIn entries + 1 := by
    rw [weight, hat]
    rfl
  have hcollect : root.collect (root.path ++ rel) =
      (CacheNode.dir resolves readable entries).files.map fun q => root.collected (rel ++ q) := by
    rw [collect, hat, stripPrefix_append]
  cases readable with
  | false =>
    have hread : root.readDir (root.path ++ rel) = none := by rw [readDir, hat]
    refine .inr ⟨[], [], ?_, fun q hq => (by cases hq), ?_, ?_⟩
    · rw [visitDir, hread]
    · rw [hweight]
      exact Nat.succ_pos _
    · rw [hcollect]
      exact .nil
  | true =>
    have hread : root.readDir (root.path ++ rel) = some (entries.map fun e => (e.1, e.2.kind)) := by
      rw [readDir, hat]
    rw [visitDir, hread]
    rcases visitEntries_cases fun e he => nodeAt_entry hnode he with
      ⟨hvisit, name, hbroken⟩ | ⟨rs, ns, hvisit, hns, hsum, hperm⟩
    · exact .inl ⟨hvisit, rel ++ [name], hfinds _ _ (.entry hbroken)⟩
    · refine .inr ⟨rs, ns, hvisit, fun q hq => ?_, ?_, hcollect ▸ hperm⟩
      · obtain ⟨name, readable, sub, rfl, hmem⟩ := hns q hq
        refine ⟨rel ++ [name], true, readable, sub, List.append_assoc .., ?_, fun q m hm => ?_⟩
        · rw [← nodeAt_append, ← List.append_assoc]
          exact nodeAt_entry hnode hmem
        · rw [List.append_assoc]
          exact hfinds _ _ (.deeper hmem rfl hm)
      · rw [hweight]
        omega

theorem weighs (root : CacheRoot) : Weighs (visitDir root) root.Visited root.weight where
  pos p hp := by
    obtain ⟨rel, resolves, readable, entries, rfl, hnode, -⟩ := hp
    rw [weight, nodeAt_append, hnode]
    exact Nat.succ_pos _
  good p rs ns hp hvisit := by
    rcases visitDir_cases hp with ⟨h, -⟩ | ⟨rs', ns', h, hgood, -, -⟩
    · cases h.symm.trans hvisit
    · cases h.symm.trans hvisit
      exact hgood
  push p rs ns hp hvisit := by
    rcases visitDir_cases hp with ⟨h, -⟩ | ⟨rs', ns', h, -, hsum, -⟩
    · cases h.symm.trans hvisit
    · cases h.symm.trans hvisit
      exact hsum

theorem visited_stack (root : CacheRoot) : ∀ p ∈ [root.path], root.Visited p := by
  intro p hp
  rw [List.mem_singleton.1 hp]
  exact visited_root root

/-- **The walk comes to its end.** -/
theorem collectFiles_drains (root : CacheRoot) :
    drain (visitDir root) root.node.dirs [root.path] [] = some (collectFiles root) := by
  have hfuel : ([root.path].map root.weight).sum ≤ root.node.dirs := by
    rw [List.map_singleton, List.sum_singleton, weight, nodeAt_path]
  have hne : drain (visitDir root) root.node.dirs [root.path] [] ≠ none :=
    drain_ne_none (weighs root) (visited_stack root) hfuel
  unfold collectFiles
  cases h : drain (visitDir root) root.node.dirs [root.path] [] with
  | none => exact absurd h hne
  | some r => rfl

/-- **The walk fails only where an iteration does.** -/
theorem collectFiles_ok (h : ∀ rel, ¬ root.node.Finds rel .broken) : ∃ out, collectFiles root = .ok out := by
  cases hc : collectFiles root with
  | ok out => exact ⟨out, rfl⟩
  | error e =>
    have hd := collectFiles_drains root
    rw [hc] at hd
    obtain ⟨p, hp, hvisit⟩ := drain_error (weighs root) (visited_stack root) hd
    rcases visitDir_cases hp with ⟨-, rel, hbroken⟩ | ⟨rs, ns, hok, -⟩
    · exact absurd hbroken (h rel)
    · cases hok.symm.trans hvisit

/-- **The walk collects every file once.** -/
theorem collectFiles_perm {out : List (PathBuf × Str)} (h : collectFiles root = .ok out) :
    out.Perm (root.node.files.map root.collected) := by
  have hd := collectFiles_drains root
  rw [h] at hd
  have hcollect : ∀ p rs ns, root.Visited p → visitDir root p = .ok (rs, ns) →
      (root.collect p).Perm (rs ++ ns.flatMap root.collect) := by
    intro p rs ns hp hvisit
    rcases visitDir_cases hp with ⟨hfail, -⟩ | ⟨rs', ns', hok, -, -, hperm⟩
    · cases hfail.symm.trans hvisit
    · cases hok.symm.trans hvisit
      exact hperm
  have hstrip := stripPrefix_append root.path []
  rw [List.append_nil] at hstrip
  have hroot : root.collect root.path = root.node.files.map root.collected := by
    rw [collect, hstrip, nodeAt_path]
    rfl
  have hperm := drain_perm (weighs root) hcollect (visited_stack root) hd
  rwa [List.nil_append, List.flatMap_singleton, hroot] at hperm

/-- A file is collected exactly when it is found and can be canonicalized. -/
theorem mem_collectFiles {out : List (PathBuf × Str)} (h : collectFiles root = .ok out) {x : PathBuf × Str} :
    x ∈ out ↔ ∃ rel modified, root.node.Finds rel (.file true modified) ∧ x = root.collected rel := by
  rw [(collectFiles_perm h).mem_iff, List.mem_map]
  constructor
  · rintro ⟨rel, hrel, rfl⟩
    obtain ⟨modified, hfinds⟩ := (CacheNode.mem_files_iff _ _).1 hrel
    exact ⟨rel, modified, hfinds, rfl⟩
  · rintro ⟨rel, modified, hfinds, rfl⟩
    exact ⟨rel, (CacheNode.mem_files_iff _ _).2 ⟨modified, hfinds⟩, rfl⟩

/-- No file is collected twice. -/
theorem nodup_collectFiles {out : List (PathBuf × Str)} (h : collectFiles root = .ok out) :
    (out.map Prod.fst).Nodup := by
  rw [((collectFiles_perm h).map Prod.fst).nodup_iff, List.map_map]
  exact (CacheNode.nodup_files _ root.distinct).map fun _ _ heq => List.append_cancel_left heq

end CacheRoot

end UnidriveMount
