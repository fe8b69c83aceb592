import UnidriveMount.Recovery.Collect

/-!
# The remote paths of cache files

`unlink` and `rmdir` look for the cache file of a remote path at the same relative path below the cache
root, and the scan goes back from the cache file to the remote path. The scan takes a backslash for a
separator, so it comes back to the path exactly when the path has none (`collected_under_iff`), and
mistakes one file for another otherwise (`backslash_mistaken`).
-/

namespace UnidriveMount

open CacheRoot

/-! ## There -/

/-- A name that can be a component of a path. -/
structure IsComponent (name : Str) : Prop where
  ne_nil : name ≠ []
  slash : '/' ∉ name
  nul : Char.ofNat 0 ∉ name
  ne_dot : name ≠ ['.']
  ne_dotdot : name ≠ ['.', '.']

/-- The remote path with these components. -/
def remotePath (comps : List Str) : Str := comps.flatMap fun name => '/' :: name

theorem components_word {w : Str} (hne : w ≠ []) (hslash : '/' ∉ w) : components w = [w] := by
  induction w with
  | nil => exact absurd rfl hne
  | cons c w ih =>
    have hc : c ≠ '/' := fun h => hslash (h ▸ List.mem_cons_self)
    rw [components_cons hc]
    cases w with
    | nil => rfl
    | cons d w =>
      have hd : d ≠ '/' := fun h => hslash (h ▸ List.mem_cons_of_mem _ List.mem_cons_self)
      rw [ih (List.cons_ne_nil d w) fun h => hslash (List.mem_cons_of_mem _ h)]
      simp [consWord, hd]

theorem components_append_slash (b : Str) : components (b ++ ['/']) = components b := by
  induction b with
  | nil => rfl
  | cons c b ih =>
    by_cases hc : c = '/'
    · subst hc
      exact ih
    · rw [List.cons_append, components_cons hc, components_cons hc, ih]
      cases b <;> rfl

theorem components_remotePath {comps : List Str} (h : ∀ name ∈ comps, IsComponent name) :
    components (remotePath comps) = comps := by
  induction comps with
  | nil => rfl
  | cons name comps ih =>
    obtain ⟨hname, hcomps⟩ := List.forall_mem_cons.1 h
    have hword := components_word hname.ne_nil hname.slash
    show components (name ++ remotePath comps) = name :: comps
    cases comps with
    | nil =>
      show components (name ++ []) = [name]
      rw [List.append_nil, hword]
    | cons name' comps =>
      have hbase : IsBase (name ++ ['/']) := .inr ⟨name, rfl⟩
      have hsplit : name ++ remotePath (name' :: comps) =
          (name ++ ['/']) ++ (name' ++ remotePath comps) := by
        simp [remotePath]
      rw [hsplit, components_append hbase, components_append_slash, hword]
      exact congrArg (name :: ·) (ih hcomps)

/-- The location of a cache file has the components of the cache root and those of the path. -/
theorem components_evictionPath (cacheRoot p : Str) :
    components (evictionPath cacheRoot p) = components cacheRoot ++ components p := by
  unfold evictionPath joinPath
  split
  · next h =>
    have hbase : IsBase cacheRoot := by
      rcases Bool.or_eq_true_iff.1 h with h | h
      · exact .inl (List.isEmpty_iff.1 h)
      · exact .inr (List.getLast?_eq_some_iff.1 (of_decide_eq_true h))
    rw [components_append hbase, components_trimStartSlashes]
  · have hbase : IsBase (cacheRoot ++ ['/']) := .inr ⟨cacheRoot, rfl⟩
    rw [List.append_cons, components_append hbase, components_append_slash, components_trimStartSlashes]

/-- The cache file of a remote path: `cache_root.join(p.trim_start_matches('/'))`. -/
def locationOf (root : CacheRoot) (p : Str) : PathBuf :=
  root.path ++ (components (trimStartSlashes p)).map .ofStr

/-- It is where `unlink` and `rmdir` look for the cache file, in a cache root that is canonical. -/
theorem locationOf_eq {root : CacheRoot} {cacheRoot : Str}
    (hroot : root.path = (components cacheRoot).map .ofStr) (p : Str) :
    locationOf root p = (components (evictionPath cacheRoot p)).map .ofStr := by
  rw [locationOf, hroot, components_evictionPath, components_trimStartSlashes, List.map_append]

/-! ## And back -/

theorem lossy_ofStr (s : Str) : (FileName.ofStr s).map NameChunk.lossy = s := by
  simp [FileName.ofStr, NameChunk.lossy, Function.comp_def]

theorem slash_intercalate {comps : List Str} (hne : comps ≠ []) :
    '/' :: List.intercalate ['/'] comps = remotePath comps := by
  induction comps with
  | nil => exact absurd rfl hne
  | cons name comps ih =>
    cases comps with
    | nil => simp [remotePath]
    | cons name' comps =>
      have ih := ih (List.cons_ne_nil name' comps)
      have hsplit : List.intercalate ['/'] (name :: name' :: comps) =
          name ++ '/' :: List.intercalate ['/'] (name' :: comps) := by
        simp [List.intercalate]
      rw [hsplit, ih]
      rfl

/-- The remote path the scan makes of a cache file's. -/
theorem remoteOf_ofStr {comps : List Str} (hne : comps ≠ []) :
    remoteOf (comps.map .ofStr) = (remotePath comps).map fun c => if c = '\\' then '/' else c := by
  unfold remoteOf relToStringLossy
  have hlossy : (comps.map FileName.ofStr).map (fun name => name.map NameChunk.lossy) = comps := by
    rw [List.map_map]
    exact (List.map_congr_left fun name _ => lossy_ofStr name).trans (List.map_id _)
  rw [hlossy, ← slash_intercalate hne]
  rfl

theorem map_backslash_eq_iff (p : Str) :
    (p.map fun c => if c = '\\' then '/' else c) = p ↔ '\\' ∉ p := by
  induction p with
  | nil => simp
  | cons c p ih =>
    rw [List.map_cons, List.cons.injEq, ih, List.mem_cons, not_or]
    refine and_congr_left fun _ => ?_
    by_cases hc : c = '\\'
    · subst hc
      simp
    · simp [hc, Ne.symm hc]

variable {root : CacheRoot} {comps : List Str} {out : List (PathBuf × Str)}

/-- The cache file of a remote path is collected, under this path and no other. -/
def CollectedUnder (root : CacheRoot) (out : List (PathBuf × Str)) (p : Str) : Prop :=
  (locationOf root p, p) ∈ out ∧ ∀ p', (locationOf root p, p') ∈ out → p' = p

theorem locationOf_remotePath (root : CacheRoot) (hcomps : ∀ name ∈ comps, IsComponent name) :
    locationOf root (remotePath comps) = root.path ++ comps.map .ofStr := by
  rw [locationOf, components_trimStartSlashes, components_remotePath hcomps]

/-- What a cache file is collected under. -/
theorem mem_collected_iff (hne : comps ≠ [])
    (hcomps : ∀ name ∈ comps, IsComponent name) (hout : collectFiles root = .ok out) {p : Str} :
    (locationOf root (remotePath comps), p) ∈ out ↔
      (∃ modified, root.node.Finds (comps.map .ofStr) (.file true modified)) ∧
        p = (remotePath comps).map fun c => if c = '\\' then '/' else c := by
  rw [mem_collectFiles hout, locationOf_remotePath root hcomps]
  constructor
  · rintro ⟨rel, modified, hfinds, heq⟩
    obtain ⟨hrel, rfl⟩ := Prod.mk.inj heq
    cases List.append_cancel_left hrel
    exact ⟨⟨modified, hfinds⟩, remoteOf_ofStr hne⟩
  · rintro ⟨⟨modified, hfinds⟩, rfl⟩
    exact ⟨_, modified, hfinds, Prod.ext rfl (remoteOf_ofStr hne).symm⟩

/-- **A cache file is collected under its own remote path exactly when the walk finds it and the path has no
backslash**; and then it is the only one under this path that has none. -/
theorem collected_under_iff (hne : comps ≠ [])
    (hcomps : ∀ name ∈ comps, IsComponent name) (hout : collectFiles root = .ok out) :
    (CollectedUnder root out (remotePath comps) ↔
      (∃ modified, root.node.Finds (comps.map .ofStr) (.file true modified)) ∧ '\\' ∉ remotePath comps) ∧
    ∀ comps', comps' ≠ [] → (∀ name ∈ comps', IsComponent name) → '\\' ∉ remotePath comps →
      '\\' ∉ remotePath comps' → ∀ p, (locationOf root (remotePath comps), p) ∈ out →
      (locationOf root (remotePath comps'), p) ∈ out → comps' = comps := by
  refine ⟨?_, fun comps' hne' hcomps' hback hback' p hp hp' => ?_⟩
  · unfold CollectedUnder
    simp only [mem_collected_iff hne hcomps hout]
    constructor
    · rintro ⟨⟨hfound, heq⟩, -⟩
      exact ⟨hfound, (map_backslash_eq_iff _).1 heq.symm⟩
    · rintro ⟨hfound, hback⟩
      have heq := (map_backslash_eq_iff _).2 hback
      exact ⟨⟨hfound, heq.symm⟩, fun p' hp' => hp'.2.trans heq⟩
  · have heq := ((mem_collected_iff hne hcomps hout).1 hp).2
    have heq' := ((mem_collected_iff hne' hcomps' hout).1 hp').2
    rw [(map_backslash_eq_iff _).2 hback] at heq
    rw [(map_backslash_eq_iff _).2 hback'] at heq'
    have hcomponents := congrArg components (heq'.symm.trans heq)
    rwa [components_remotePath hcomps', components_remotePath hcomps] at hcomponents

/-! ## A backslash -/

/-- A cache folder `/r` with the files `a\b`, of the remote path `/a\b`, and `b` in the directory `a`. -/
def backslashRoot : CacheRoot where
  path := [.ofStr ['r']]
  readable := true
  entries := [(.ofStr ['a', '\\', 'b'], .file true (some 0)),
    (.ofStr ['a'], .dir true true [(.ofStr ['b'], .file true (some 0))])]
  distinct := by
    refine .dir (by decide) fun e he => ?_
    rcases List.mem_cons.1 he with rfl | he
    · exact .file
    · rw [List.mem_singleton.1 he]
      refine .dir (by decide) fun e he => ?_
      rw [List.mem_singleton.1 he]
      exact .file

theorem collectFiles_backslashRoot : collectFiles backslashRoot = .ok
    [([.ofStr ['r'], .ofStr ['a', '\\', 'b']], ['/', 'a', '/', 'b']),
      ([.ofStr ['r'], .ofStr ['a'], .ofStr ['b']], ['/', 'a', '/', 'b'])] := by
  decide +kernel

/-- The file of `/a/b` is collected under its path. -/
theorem collected_under_a_b : ∃ out, collectFiles backslashRoot = .ok out ∧
    CollectedUnder backslashRoot out ['/', 'a', '/', 'b'] := by
  have hcomps : ∀ name ∈ [['a'], ['b']], IsComponent name := by
    intro name hname
    rcases List.mem_pair.1 hname with rfl | rfl <;> exact ⟨by decide, by decide, by decide, by decide, by decide⟩
  refine ⟨_, collectFiles_backslashRoot, (collected_under_iff (by decide) hcomps
    collectFiles_backslashRoot).1.2 ⟨⟨some 0, ?_⟩, by decide⟩⟩
  exact .deeper (.tail _ (.head _)) rfl (.entry (.head _))

/-- The file of `/a\b` is collected under `/a/b`, as the file of `/a/b` is. -/
theorem backslash_mistaken : ¬ ∀ (root : CacheRoot) (comps : List Str), comps ≠ [] →
    (∀ name ∈ comps, IsComponent name) → ∀ out, collectFiles root = .ok out → ∀ modified,
    root.node.Finds (comps.map .ofStr) (.file true modified) →
    CollectedUnder root out (remotePath comps) := by
  intro hall
  have hcomps : ∀ name ∈ [['a', '\\', 'b']], IsComponent name := by
    intro name hname
    rw [List.mem_singleton.1 hname]
    exact ⟨by decide, by decide, by decide, by decide, by decide⟩
  have h := (hall backslashRoot [['a', '\\', 'b']] (by decide) hcomps _
    collectFiles_backslashRoot (some 0) (.entry (.head _))).1
  revert h
  decide

end UnidriveMount
