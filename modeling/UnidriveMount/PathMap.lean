import UnidriveMount.Lib.HashMap
import UnidriveMount.Path

/-!
# The path map

`PathMap` of `path_map.rs`: the two tables between inodes and remote paths, with `intern`, `forget`
and `rename`. `rename` is the one that is not a single table update: it collects the entries at or
below the old path, drops what lies at or below the new one, removes the collected entries and
stores them under their new paths. `relocate` says what that amounts to on the lookup function
alone, for any two paths, one below the other or not (`PathMap.get_rename`), and `PathMap.WF` is
what every operation keeps: the two tables are inverse to each other.
-/

namespace UnidriveMount

open Lib

/-- An inode number of the mount. -/
abbrev Ino := Nat

/-- The root's inode. -/
def rootInode : Ino := 1

/-- Number of values of the inode counter, a `u64` that wraps around. -/
def inodeSpace : Nat := 2 ^ 64

/-- The two tables, and the next inode to assign. -/
structure PathMap where
  next : Nat
  pathToInode : HashMap Str Ino
  inodeToPath : HashMap Ino Str

namespace PathMap

/-- The map that knows the root alone, at the empty path. -/
def new : PathMap where
  next := rootInode + 1
  pathToInode := HashMap.insert ∅ [] rootInode
  inodeToPath := HashMap.insert ∅ rootInode []

/-- The path of `inode`. -/
def pathFor (m : PathMap) (inode : Ino) : Option Str := m.inodeToPath.get inode

/-- The inode of `path`. -/
def inodeFor (m : PathMap) (path : Str) : Option Ino := m.pathToInode.get path

/-- The inode of `path`, a new one if it has none. -/
def intern (m : PathMap) (path : Str) : Ino × PathMap :=
  match m.pathToInode.get path with
  | some ino => (ino, m)
  | none =>
    (m.next,
      { next := (m.next + 1) % inodeSpace
        pathToInode := m.pathToInode.insert path m.next
        inodeToPath := m.inodeToPath.insert m.next path })

/-- Drop both halves of the mapping of `path`. -/
def forget (m : PathMap) (path : Str) : Option Ino × PathMap :=
  match m.pathToInode.get path with
  | none => (none, m)
  | some ino =>
    (some ino,
      { m with
        pathToInode := m.pathToInode.remove path
        inodeToPath := m.inodeToPath.remove ino })

/-- The entries a rename of `oldPath` carries along. -/
def moving (m : PathMap) (oldPath : Str) : List (Str × Ino) :=
  m.pathToInode.iter.filter fun e => AtOrBelow oldPath e.1

/-- The paths a rename of `oldPath` to `newPath` finds in its way. -/
def stale (m : PathMap) (oldPath newPath : Str) : List Str :=
  (m.pathToInode.iter.filter fun e =>
    ¬ AtOrBelow oldPath e.1 ∧ AtOrBelow newPath e.1).map Prod.fst

/-- Move everything at or below `oldPath` to `newPath`, inodes kept. -/
def rename (m : PathMap) (oldPath newPath : Str) : PathMap :=
  let moving := m.moving oldPath
  if moving.isEmpty then m
  else
    let m' := (m.stale oldPath newPath).foldl (fun m path => (m.forget path).2) m
    let moved := moving.map fun e => (newPath ++ e.1.drop oldPath.length, e.2)
    { m' with
      pathToInode := ((moving.map Prod.fst).foldl HashMap.remove m'.pathToInode).extend moved
      inodeToPath := m'.inodeToPath.extend (moved.map Prod.swap) }

/-- The inodes of the interned paths that are one of `roots` or lie below one. -/
def inodesAtOrBelow (m : PathMap) (roots : List Str) : List Ino :=
  (m.pathToInode.iter.filter fun e => isAtOrBelow e.1 roots).map Prod.snd

theorem mem_inodesAtOrBelow {m : PathMap} {roots : List Str} {ino : Ino} :
    ino ∈ m.inodesAtOrBelow roots ↔ ∃ p, m.inodeFor p = some ino ∧ isAtOrBelow p roots = true := by
  simp only [inodesAtOrBelow, List.mem_map, List.mem_filter, Prod.exists, exists_eq_right,
    HashMap.mem_iter, inodeFor]

/-! ## The tables are inverse -/

/-- The two tables say the same thing. -/
structure WF (m : PathMap) : Prop where
  inverse : ∀ p i, m.inodeFor p = some i ↔ m.pathFor i = some p

theorem WF.inode_inj {m : PathMap} (h : m.WF) {p q : Str} {i : Ino} (hp : m.inodeFor p = some i)
    (hq : m.inodeFor q = some i) : p = q :=
  Option.some.inj (((h.inverse p i).1 hp).symm.trans ((h.inverse q i).1 hq))

theorem new_inodeFor (p : Str) : new.inodeFor p = if p = [] then some rootInode else none := by
  simp [new, inodeFor, HashMap.get_insert]

theorem new_pathFor (i : Ino) : new.pathFor i = if i = rootInode then some [] else none := by
  simp [new, pathFor, HashMap.get_insert]

theorem WF.new : PathMap.new.WF where
  inverse p i := by
    rw [new_inodeFor, new_pathFor]
    split <;> split <;> simp_all [eq_comm]

/-! ### `intern` -/

theorem intern_of_some {m : PathMap} {path : Str} {ino : Ino} (h : m.inodeFor path = some ino) :
    m.intern path = (ino, m) := by
  unfold inodeFor at h
  simp [intern, h]

theorem intern_of_none {m : PathMap} {path : Str} (h : m.inodeFor path = none) :
    m.intern path = (m.next,
      { next := (m.next + 1) % inodeSpace
        pathToInode := m.pathToInode.insert path m.next
        inodeToPath := m.inodeToPath.insert m.next path }) := by
  unfold inodeFor at h
  simp [intern, h]

/-- After `intern` the path has the inode answered. -/
theorem intern_inodeFor_self (m : PathMap) (path : Str) :
    (m.intern path).2.inodeFor path = some (m.intern path).1 := by
  cases h : m.inodeFor path with
  | some ino => rw [intern_of_some h, h]
  | none => rw [intern_of_none h]; exact HashMap.get_insert_self ..

theorem intern_inodeFor_ne (m : PathMap) {path q : Str} (hq : q ≠ path) :
    (m.intern path).2.inodeFor q = m.inodeFor q := by
  cases h : m.inodeFor path with
  | some ino => rw [intern_of_some h]
  | none => rw [intern_of_none h]; exact HashMap.get_insert_ne _ _ hq

/-- `intern` keeps every mapping that is there. -/
theorem inodeFor_intern_of_some {m : PathMap} {path q : Str} {i : Ino}
    (h : m.inodeFor q = some i) : (m.intern path).2.inodeFor q = some i := by
  by_cases hq : q = path
  · subst hq; rw [intern_of_some h]; exact h
  · rw [intern_inodeFor_ne m hq, h]

theorem WF.intern {m : PathMap} (h : m.WF) (path : Str) (hfresh : m.pathFor m.next = none) :
    (m.intern path).2.WF := by
  cases hp : m.inodeFor path with
  | some ino => rw [intern_of_some hp]; exact h
  | none =>
    rw [intern_of_none hp]
    refine ⟨fun q i => ?_⟩
    have hne : ∀ j, m.pathFor j ≠ some path := fun j hj => by
      rw [(h.inverse path j).2 hj] at hp; cases hp
    have hne' : ∀ r, m.inodeFor r ≠ some m.next := fun r hr => by
      rw [(h.inverse r m.next).1 hr] at hfresh; cases hfresh
    have hinv := h.inverse q i
    simp only [inodeFor, pathFor, HashMap.get_insert] at hinv hne hne' ⊢
    split <;> split <;> grind

/-- Every inode's path leads back to the inode. Unlike `WF`, this survives a counter that wraps
around. -/
def Back (m : PathMap) : Prop := ∀ i p, m.pathFor i = some p → m.inodeFor p = some i

theorem Back.new : PathMap.new.Back := fun i p => (WF.new.inverse p i).2

theorem Back.intern {m : PathMap} (h : m.Back) (path : Str) : (m.intern path).2.Back := by
  intro i q hi
  cases hp : m.inodeFor path with
  | some ino =>
    rw [intern_of_some hp] at hi ⊢
    exact h i q hi
  | none =>
    rw [intern_of_none hp] at hi ⊢
    simp only [pathFor, inodeFor, HashMap.get_insert] at hi ⊢
    split at hi
    · next heq =>
      cases hi
      rw [if_pos rfl, heq]
    · next hne =>
      have hq : m.inodeFor q = some i := h i q hi
      rw [if_neg fun heq => by rw [heq, hp] at hq; cases hq]
      exact hq

/-! ### `forget` -/

theorem forget_inodeFor (m : PathMap) (path q : Str) :
    (m.forget path).2.inodeFor q = if q = path then none else m.inodeFor q := by
  unfold forget
  cases h : m.pathToInode.get path with
  | none => split <;> simp_all [inodeFor]
  | some ino => exact HashMap.get_remove ..

theorem forget_fst (m : PathMap) (path : Str) : (m.forget path).1 = m.inodeFor path := by
  unfold forget inodeFor
  cases m.pathToInode.get path <;> rfl

theorem WF.forget {m : PathMap} (h : m.WF) (path : Str) : (m.forget path).2.WF := by
  refine ⟨fun q i => ?_⟩
  rw [forget_inodeFor]
  have hinv := h.inverse q i
  unfold PathMap.forget
  cases hp : m.pathToInode.get path with
  | none =>
    have : m.inodeFor path = none := hp
    split <;> simp_all
  | some ino =>
    have hpath : m.inodeFor path = some ino := hp
    show _ ↔ HashMap.get (m.inodeToPath.remove ino) i = some q
    rw [HashMap.get_remove]
    by_cases hq : q = path
    · subst hq
      by_cases hi : i = ino
      · simp [hi]
      · simp only [hi, ↓reduceIte, false_iff, reduceCtorEq]
        intro hc
        exact hi (Option.some.inj (((h.inverse q i).2 hc).symm.trans hpath))
    · by_cases hi : i = ino
      · subst hi
        simp only [hq, ↓reduceIte, reduceCtorEq, iff_false]
        exact fun hc => hq (h.inode_inj hc hpath)
      · simp only [hq, hi, ↓reduceIte]
        exact hinv

@[simp] theorem forget_next (m : PathMap) (path : Str) : (m.forget path).2.next = m.next := by
  unfold forget; split <;> rfl

/-- `forget` adds no inode. -/
theorem forget_pathFor_of_some {m : PathMap} {path q : Str} {i : Ino}
    (h : (m.forget path).2.pathFor i = some q) : m.pathFor i = some q := by
  unfold forget at h
  split at h
  · exact h
  · simp only [pathFor, HashMap.get_remove] at h
    split at h
    · cases h
    · exact h

/-! ## `rename` -/

/-- The lookup function after the move of `old` to `new`, written from the lookup function `f`
before it: `new` and what lies below it answer what `old` and what lay below it did, nothing else
is left at or below `old`, and every other path answers as before. -/
def relocate (f : Str → Option Ino) (old new q : Str) : Option Ino :=
  if AtOrBelow new q then f (old ++ q.drop new.length)
  else if AtOrBelow old q then none
  else f q

theorem mem_moving {m : PathMap} {old p : Str} {i : Ino} :
    (p, i) ∈ m.moving old ↔ m.inodeFor p = some i ∧ AtOrBelow old p := by
  simp [moving, List.mem_filter, HashMap.mem_iter, inodeFor]

theorem mem_moving_paths {m : PathMap} {old p : Str} :
    p ∈ (m.moving old).map Prod.fst ↔ (m.inodeFor p).isSome ∧ AtOrBelow old p := by
  simp only [List.mem_map, Prod.exists, exists_and_right, exists_eq_right, mem_moving,
    Option.isSome_iff_exists]

theorem mem_stale {m : PathMap} {old new p : Str} :
    p ∈ m.stale old new ↔ (m.inodeFor p).isSome ∧ ¬ AtOrBelow old p ∧ AtOrBelow new p := by
  simp only [stale, List.mem_map, List.mem_filter, Prod.exists, exists_and_right, exists_eq_right,
    decide_eq_true_eq, HashMap.mem_iter, Option.isSome_iff_exists, inodeFor]

/-- A rename moves something exactly when a path at or below the old one has an inode. -/
theorem moving_isEmpty_iff {m : PathMap} {old : Str} :
    (m.moving old).isEmpty = true ↔ ∀ p, AtOrBelow old p → m.inodeFor p = none := by
  rw [List.isEmpty_iff, List.eq_nil_iff_forall_not_mem]
  constructor
  · intro h p hp
    cases hi : m.inodeFor p with
    | none => rfl
    | some i => exact absurd (mem_moving.2 ⟨hi, hp⟩) (h _)
  · rintro h ⟨p, i⟩ hm
    obtain ⟨hi, hp⟩ := mem_moving.1 hm
    rw [h p hp] at hi
    cases hi

/-- Forgetting a list of paths drops exactly these. -/
theorem foldl_forget_inodeFor (m : PathMap) (l : List Str) (q : Str) :
    (l.foldl (fun m path => (m.forget path).2) m).inodeFor q =
      if q ∈ l then none else m.inodeFor q := by
  induction l generalizing m with
  | nil => simp
  | cons p l ih =>
    rw [List.foldl_cons, ih, forget_inodeFor]
    by_cases h1 : q ∈ l <;> by_cases h2 : q = p <;> simp [h1, h2]

theorem WF.foldl_forget {m : PathMap} (h : m.WF) (l : List Str) :
    (l.foldl (fun m path => (m.forget path).2) m).WF := by
  induction l generalizing m with
  | nil => exact h
  | cons p l ih => exact ih (h.forget p)

theorem foldl_forget_next (m : PathMap) (l : List Str) :
    (l.foldl (fun m path => (m.forget path).2) m).next = m.next := by
  induction l generalizing m with
  | nil => rfl
  | cons p l ih => rw [List.foldl_cons, ih, forget_next]

/-- Removing a list of keys drops exactly these. -/
theorem get_foldl_remove (t : HashMap Str Ino) (l : List Str) (q : Str) :
    (l.foldl HashMap.remove t).get q = if q ∈ l then none else t.get q := by
  induction l generalizing t with
  | nil => simp
  | cons p l ih =>
    rw [List.foldl_cons, ih, HashMap.get_remove]
    by_cases h1 : q ∈ l <;> by_cases h2 : q = p <;> simp [h1, h2]

/-- The entries `rename` stores at the end. -/
def movedEntries (m : PathMap) (old new : Str) : List (Str × Ino) :=
  (m.moving old).map fun e => (new ++ e.1.drop old.length, e.2)

theorem mem_movedEntries {m : PathMap} {old new q : Str} {i : Ino} :
    (q, i) ∈ m.movedEntries old new ↔
      ∃ rest, IsTail rest ∧ q = new ++ rest ∧ m.inodeFor (old ++ rest) = some i := by
  simp only [movedEntries, List.mem_map, Prod.mk.injEq, Prod.exists, mem_moving]
  constructor
  · rintro ⟨p, j, ⟨hp, hold⟩, rfl, rfl⟩
    obtain ⟨rest, hrest, rfl⟩ := atOrBelow_iff.1 hold
    exact ⟨rest, hrest, by simp, hp⟩
  · rintro ⟨rest, hrest, rfl, hi⟩
    exact ⟨_, _, ⟨hi, atOrBelow_append hrest⟩, by simp, rfl⟩

/-- The new paths of a rename are distinct. -/
theorem movedEntries_paths_nodup (m : PathMap) (old new : Str) :
    ((m.movedEntries old new).map Prod.fst).Nodup := by
  have hkeys : ((m.moving old).map Prod.fst).Nodup :=
    (List.Sublist.map Prod.fst List.filter_sublist).nodup (HashMap.iter_keys_nodup _)
  have heq : (m.movedEntries old new).map Prod.fst =
      ((m.moving old).map Prod.fst).map fun p => new ++ p.drop old.length := by
    simp [movedEntries, Function.comp_def]
  rw [heq]
  refine hkeys.map_on fun p hp q hq h => ?_
  have hp := (mem_moving_paths.1 hp).2
  have hq := (mem_moving_paths.1 hq).2
  have heq : moved old new p = moved old new q := by rwa [moved, moved, if_pos hp, if_pos hq]
  exact moved_inj hp hq heq

/-- The inodes a rename moves are distinct. -/
theorem WF.movedEntries_inodes_nodup {m : PathMap} (h : m.WF) (old new : Str) :
    (((m.movedEntries old new).map Prod.swap).map Prod.fst).Nodup := by
  have heq : ((m.movedEntries old new).map Prod.swap).map Prod.fst =
      (m.moving old).map Prod.snd := by
    simp [movedEntries, Function.comp_def]
  rw [heq]
  have hnd : (m.moving old).Nodup :=
    (List.Sublist.map Prod.fst List.filter_sublist).nodup (HashMap.iter_keys_nodup _) |>.of_map
  refine hnd.map_on fun e he f hf hef => ?_
  obtain ⟨p, i⟩ := e
  obtain ⟨q, j⟩ := f
  cases hef
  rw [h.inode_inj (mem_moving.1 he).1 (mem_moving.1 hf).1]

/-- A rename of a path that has no inode, and has none below it, changes nothing. -/
theorem rename_of_none {m : PathMap} {old : Str} (new : Str)
    (h : ∀ p, AtOrBelow old p → m.inodeFor p = none) : m.rename old new = m :=
  if_pos (moving_isEmpty_iff.2 h)

/-- The tables of a rename that moves something. -/
theorem rename_of_moving {m : PathMap} {old : Str} (new : Str)
    (h : ¬ (m.moving old).isEmpty = true) :
    m.rename old new =
      let m' := (m.stale old new).foldl (fun m path => (m.forget path).2) m
      { m' with
        pathToInode := (((m.moving old).map Prod.fst).foldl HashMap.remove
          m'.pathToInode).extend (m.movedEntries old new)
        inodeToPath := m'.inodeToPath.extend ((m.movedEntries old new).map Prod.swap) } :=
  if_neg h

/-- **What a rename does to the path side.** -/
theorem get_rename {m : PathMap} {old : Str} (new q : Str)
    (hm : ¬ (m.moving old).isEmpty = true) :
    (m.rename old new).inodeFor q = relocate m.inodeFor old new q := by
  rw [rename_of_moving new hm]
  unfold relocate
  show ((((m.moving old).map Prod.fst).foldl HashMap.remove
    (((m.stale old new).foldl (fun m path => (m.forget path).2) m).pathToInode)).extend
      (m.movedEntries old new)).get q = _
  have hkept : ∀ r, (((m.moving old).map Prod.fst).foldl HashMap.remove
      (((m.stale old new).foldl (fun m path => (m.forget path).2) m).pathToInode)).get r =
      if AtOrBelow old r ∨ AtOrBelow new r then none else m.inodeFor r := by
    intro r
    rw [get_foldl_remove]
    change (if _ then none else inodeFor _ r) = _
    rw [foldl_forget_inodeFor]
    simp only [mem_moving_paths, mem_stale]
    cases m.inodeFor r <;> by_cases ho : AtOrBelow old r <;> by_cases hn : AtOrBelow new r <;>
      simp [ho, hn]
  by_cases hq : AtOrBelow new q
  · obtain ⟨rest, hrest, rfl⟩ := atOrBelow_iff.1 hq
    rw [if_pos hq, List.drop_left]
    cases hi : m.inodeFor (old ++ rest) with
    | some i =>
      exact HashMap.get_extend_of_mem _ (m.movedEntries_paths_nodup old new)
        (mem_movedEntries.2 ⟨rest, hrest, rfl, hi⟩)
    | none =>
      rw [HashMap.get_extend_of_notMem, hkept, if_pos (.inr hq)]
      intro hmem
      obtain ⟨⟨q', j⟩, hmem', heq⟩ := List.mem_map.1 hmem
      obtain ⟨rest', -, rfl, hj⟩ := mem_movedEntries.1 hmem'
      rw [List.append_cancel_left heq, hi] at hj
      cases hj
  · rw [if_neg hq, HashMap.get_extend_of_notMem, hkept]
    · simp [hq]
    · intro hmem
      obtain ⟨⟨q', j⟩, hmem', heq⟩ := List.mem_map.1 hmem
      obtain ⟨rest', hrest', rfl, -⟩ := mem_movedEntries.1 hmem'
      exact hq (heq ▸ atOrBelow_append hrest')

/-- An inode a rename does not move keeps its path, unless the path was in the way. -/
theorem WF.pathFor_rename_of_notMoving {m : PathMap} (h : m.WF) {old : Str} (new : Str) {i : Ino}
    (hm : ¬ (m.moving old).isEmpty = true)
    (hi : ∀ p, AtOrBelow old p → m.inodeFor p ≠ some i) (q : Str) :
    (m.rename old new).pathFor i = some q ↔ m.inodeFor q = some i ∧ ¬ AtOrBelow new q := by
  rw [rename_of_moving new hm]
  show (HashMap.extend _ ((m.movedEntries old new).map Prod.swap)).get i = some q ↔ _
  have hnot : i ∉ ((m.movedEntries old new).map Prod.swap).map Prod.fst := by
    intro hmem
    obtain ⟨e, he, rfl⟩ := List.mem_map.1 hmem
    obtain ⟨⟨p, j⟩, hp, rfl⟩ := List.mem_map.1 he
    obtain ⟨rest, hrest, -, hj⟩ := mem_movedEntries.1 hp
    exact hi _ (atOrBelow_append hrest) hj
  rw [HashMap.get_extend_of_notMem _ hnot]
  have hinv := (h.foldl_forget (m.stale old new)).inverse q i
  rw [foldl_forget_inodeFor] at hinv
  refine hinv.symm.trans ?_
  simp only [mem_stale]
  by_cases hq : m.inodeFor q = some i
  · have ho : ¬ AtOrBelow old q := fun ho => hi q ho hq
    by_cases hn : AtOrBelow new q <;> simp [hq, ho, hn]
  · simp only [hq, false_and, iff_false]
    split
    · exact fun hc => by cases hc
    · exact hq

/-- An inode a rename moves gets the new path. -/
theorem WF.pathFor_rename_of_moving {m : PathMap} (h : m.WF) {old : Str} (new : Str) {rest : Str}
    {i : Ino} (hrest : IsTail rest) (hi : m.inodeFor (old ++ rest) = some i) :
    (m.rename old new).pathFor i = some (new ++ rest) := by
  have hm : ¬ (m.moving old).isEmpty = true := fun hm => by
    rw [moving_isEmpty_iff.1 hm _ (atOrBelow_append hrest)] at hi
    cases hi
  rw [rename_of_moving new hm]
  exact HashMap.get_extend_of_mem _ (h.movedEntries_inodes_nodup old new)
    (List.mem_map.2 ⟨_, mem_movedEntries.2 ⟨rest, hrest, rfl, hi⟩, rfl⟩)

/-- A rename keeps the two tables inverse. -/
theorem WF.rename {m : PathMap} (h : m.WF) (old new : Str) : (m.rename old new).WF := by
  by_cases hm : (m.moving old).isEmpty = true
  · rw [rename_of_none new (moving_isEmpty_iff.1 hm)]
    exact h
  refine ⟨fun q i => ?_⟩
  rw [get_rename new q hm]
  by_cases hi : ∃ rest, IsTail rest ∧ m.inodeFor (old ++ rest) = some i
  · -- the inode moves
    obtain ⟨rest, hrest, hi⟩ := hi
    rw [h.pathFor_rename_of_moving new hrest hi, Option.some.injEq]
    unfold relocate
    by_cases hq : AtOrBelow new q
    · obtain ⟨rest', hrest', rfl⟩ := atOrBelow_iff.1 hq
      rw [if_pos hq, List.drop_left]
      constructor
      · intro hp
        rw [List.append_cancel_left (h.inode_inj hp hi)]
      · intro he
        rw [← List.append_cancel_left he, hi]
    · rw [if_neg hq]
      constructor
      · intro hp
        split at hp
        · cases hp
        · next ho => exact absurd (h.inode_inj hp hi ▸ atOrBelow_append hrest) ho
      · rintro rfl
        exact absurd (atOrBelow_append hrest) hq
  · -- it stays, or its path was in the way
    have hnot : ∀ p, AtOrBelow old p → m.inodeFor p ≠ some i := by
      rintro p hp hc
      obtain ⟨rest, hrest, rfl⟩ := atOrBelow_iff.1 hp
      exact hi ⟨rest, hrest, hc⟩
    rw [h.pathFor_rename_of_notMoving new hm hnot]
    unfold relocate
    by_cases hq : AtOrBelow new q
    · obtain ⟨rest, hrest, rfl⟩ := atOrBelow_iff.1 hq
      rw [if_pos hq, List.drop_left]
      simp only [hq, not_true_eq_false, and_false, iff_false]
      exact hnot _ (atOrBelow_append hrest)
    · rw [if_neg hq]
      by_cases ho : AtOrBelow old q
      · simp [ho, hnot q ho]
      · simp [ho, hq]

@[simp] theorem rename_next (m : PathMap) (old new : Str) : (m.rename old new).next = m.next := by
  by_cases hm : (m.moving old).isEmpty = true
  · rw [rename_of_none new (moving_isEmpty_iff.1 hm)]
  · rw [rename_of_moving new hm]
    exact foldl_forget_next _ _

end PathMap

end UnidriveMount
