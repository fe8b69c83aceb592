import UnidriveMount.PathMap
import Mathlib.Tactic.Common

/-!
# Runs of the path map

What holds of a `PathMap` after any sequence of `intern`, `forget` and `rename` calls on the empty
one. The callers pass `forget` and `rename` results of `childPath`, which are not empty. The inode
counter is a `u64` that starts at 2: it takes `2 ^ 64 - 2` new paths to wrap it around to 0, and up
to that point `Sound` is kept by every call (`Sound.apply`) and an inode that has been dropped stays
unassigned (`Later`). `runs_correct` collects this; `runs_correct_needs_bound` shows that the bound
cannot be moved.
-/

namespace UnidriveMount

open Lib

namespace PathMap

/-- One call of the map's users. -/
inductive Call where
  | intern (path : Str)
  | forget (path : Str)
  | rename (oldPath newPath : Str)

/-- The map after a call. -/
def apply (m : PathMap) : Call → PathMap
  | .intern path => (m.intern path).2
  | .forget path => (m.forget path).2
  | .rename oldPath newPath => m.rename oldPath newPath

/-- The map after a sequence of calls. -/
def run (m : PathMap) (calls : List Call) : PathMap := calls.foldl apply m

/-- The paths given to `forget` and `rename` are not empty. -/
def Call.NonEmptyArgs : Call → Prop
  | .intern _ => True
  | .forget path => path ≠ []
  | .rename oldPath newPath => oldPath ≠ [] ∧ newPath ≠ []

/-- Whether the call is an `intern`. -/
def Call.isIntern : Call → Bool
  | .intern _ => true
  | _ => false

/-- Number of `intern` calls. -/
def internCount (calls : List Call) : Nat := calls.countP Call.isIntern

@[simp] theorem run_nil (m : PathMap) : m.run [] = m := rfl

@[simp] theorem run_cons (m : PathMap) (c : Call) (calls : List Call) :
    m.run (c :: calls) = (m.apply c).run calls := rfl

theorem run_append (m : PathMap) (calls calls' : List Call) :
    m.run (calls ++ calls') = (m.run calls).run calls' := List.foldl_append

theorem internCount_append (calls calls' : List Call) :
    internCount (calls ++ calls') = internCount calls + internCount calls' := List.countP_append

/-! ## The invariant -/

/-- The tables are inverse, the root is inode 1, and the live inodes are below the counter. -/
structure Sound (m : PathMap) : Prop extends m.WF where
  root : m.inodeFor [] = some rootInode
  below : ∀ i p, m.pathFor i = some p → i < m.next

theorem Sound.new : PathMap.new.Sound where
  toWF := WF.new
  root := by simp [new_inodeFor]
  below i p h := by
    rw [new_pathFor] at h
    split at h
    · next hi => subst hi; decide
    · cases h

/-- The counter is not a live inode. -/
theorem Sound.pathFor_next {m : PathMap} (h : m.Sound) : m.pathFor m.next = none := by
  cases hp : m.pathFor m.next with
  | none => rfl
  | some p => exact absurd (h.below _ p hp) (Nat.lt_irrefl _)

/-- Every live inode of `m'` below the counter of `m` is live in `m`: between the two no inode
below the counter was assigned, and the counter did not go back. -/
structure Later (m m' : PathMap) : Prop where
  next_le : m.next ≤ m'.next
  live : ∀ i p, m'.pathFor i = some p → i < m.next → ∃ q, m.pathFor i = some q

theorem Later.refl (m : PathMap) : Later m m := ⟨Nat.le_refl _, fun _ p h _ => ⟨p, h⟩⟩

theorem Later.trans {m₁ m₂ m₃ : PathMap} (h : Later m₁ m₂) (h' : Later m₂ m₃) : Later m₁ m₃ where
  next_le := h.next_le.trans h'.next_le
  live i p hp hi := by
    obtain ⟨q, hq⟩ := h'.live i p hp (Nat.lt_of_lt_of_le hi h.next_le)
    exact h.live i q hq hi

theorem Sound.intern {m : PathMap} (h : m.Sound) (path : Str) (hnext : m.next + 1 < inodeSpace) :
    (m.intern path).2.Sound ∧ Later m (m.intern path).2 ∧ (m.intern path).2.next ≤ m.next + 1 := by
  cases hp : m.inodeFor path with
  | some ino => rw [intern_of_some hp]; exact ⟨h, .refl m, Nat.le_succ _⟩
  | none =>
    have hwf := h.toWF.intern path h.pathFor_next
    have hroot : path ≠ [] := by
      rintro rfl
      rw [h.root] at hp
      cases hp
    rw [intern_of_none hp] at hwf ⊢
    have hget : ∀ i p, HashMap.get (m.inodeToPath.insert m.next path) i = some p →
        i = m.next ∨ m.pathFor i = some p := by
      intro i p hi
      rw [HashMap.get_insert] at hi
      split at hi
      · next he => exact .inl he
      · exact .inr hi
    refine ⟨⟨hwf, ?_, fun i p hi => ?_⟩, ⟨?_, fun i p hi hlt => ?_⟩, ?_⟩
    · show HashMap.get (m.pathToInode.insert path m.next) [] = _
      rw [HashMap.get_insert_ne _ _ (Ne.symm hroot)]
      exact h.root
    · show i < (m.next + 1) % inodeSpace
      rw [Nat.mod_eq_of_lt hnext]
      rcases hget i p hi with rfl | hi
      · exact Nat.lt_succ_self _
      · exact Nat.lt_succ_of_lt (h.below i p hi)
    · show m.next ≤ (m.next + 1) % inodeSpace
      rw [Nat.mod_eq_of_lt hnext]
      exact Nat.le_succ _
    · rcases hget i p hi with rfl | hi
      · exact absurd hlt (Nat.lt_irrefl _)
      · exact ⟨p, hi⟩
    · exact Nat.mod_le _ _

theorem Sound.forget {m : PathMap} (h : m.Sound) {path : Str} (hpath : path ≠ []) :
    (m.forget path).2.Sound ∧ Later m (m.forget path).2 where
  left :=
    { toWF := h.toWF.forget path
      root := by rw [forget_inodeFor, if_neg (Ne.symm hpath)]; exact h.root
      below := fun i p hi => by
        rw [forget_next]
        exact h.below i p (forget_pathFor_of_some hi) }
  right := ⟨by simp, fun i p hi _ => ⟨p, forget_pathFor_of_some hi⟩⟩

/-- A rename assigns no inode. -/
theorem WF.live_of_rename {m : PathMap} (h : m.WF) {old new : Str} {i : Ino} {p : Str}
    (hi : (m.rename old new).pathFor i = some p) : ∃ q, m.pathFor i = some q := by
  by_cases hm : (m.moving old).isEmpty = true
  · rw [rename_of_none new (moving_isEmpty_iff.1 hm)] at hi
    exact ⟨p, hi⟩
  rw [← (h.rename old new).inverse, get_rename new p hm, relocate] at hi
  split at hi
  · exact ⟨_, (h.inverse _ _).1 hi⟩
  · split at hi
    · cases hi
    · exact ⟨_, (h.inverse _ _).1 hi⟩

theorem Sound.rename {m : PathMap} (h : m.Sound) {old new : Str} (hold : old ≠ [])
    (hnew : new ≠ []) : (m.rename old new).Sound ∧ Later m (m.rename old new) where
  left :=
    { toWF := h.toWF.rename old new
      root := by
        by_cases hm : (m.moving old).isEmpty = true
        · rw [rename_of_none new (moving_isEmpty_iff.1 hm)]
          exact h.root
        · rw [get_rename new [] hm, relocate, if_neg fun hc => hc.ne_nil hnew rfl,
            if_neg fun hc => hc.ne_nil hold rfl]
          exact h.root
      below := fun i p hi => by
        obtain ⟨q, hq⟩ := h.live_of_rename hi
        rw [rename_next]
        exact h.below i q hq }
  right := ⟨by simp, fun i p hi _ => h.live_of_rename hi⟩

/-- A call below the wrap of the counter keeps the invariant and assigns no old inode. -/
theorem Sound.apply {m : PathMap} (h : m.Sound) {c : Call} (hc : c.NonEmptyArgs)
    (hnext : c.isIntern = true → m.next + 1 < inodeSpace) :
    (m.apply c).Sound ∧ Later m (m.apply c) ∧
      (m.apply c).next ≤ m.next + internCount [c] := by
  cases c with
  | intern path => exact h.intern path (hnext rfl)
  | forget path =>
    obtain ⟨h1, h2⟩ := h.forget hc
    exact ⟨h1, h2, by simp [PathMap.apply]⟩
  | rename old new =>
    obtain ⟨h1, h2⟩ := h.rename hc.1 hc.2
    exact ⟨h1, h2, by simp [PathMap.apply]⟩

/-- A run below the wrap of the counter keeps the invariant and assigns no old inode. -/
theorem Sound.run {m : PathMap} (h : m.Sound) (calls : List Call)
    (hargs : ∀ c ∈ calls, c.NonEmptyArgs) (hnext : m.next + internCount calls < inodeSpace) :
    (m.run calls).Sound ∧ Later m (m.run calls) ∧
      (m.run calls).next ≤ m.next + internCount calls := by
  induction calls generalizing m with
  | nil => exact ⟨h, .refl m, Nat.le_add_right _ _⟩
  | cons c calls ih =>
    have hsum : internCount (c :: calls) = internCount [c] + internCount calls :=
      internCount_append [c] calls
    have hstep : c.isIntern = true → m.next + 1 < inodeSpace := by
      intro hc
      have : internCount [c] = 1 := by simp [internCount, hc]
      omega
    obtain ⟨h1, h2, h3⟩ := h.apply (hargs c (by simp)) hstep
    obtain ⟨h4, h5, h6⟩ := ih h1 (fun c' hc' => hargs c' (by simp [hc'])) (by omega)
    exact ⟨h4, h2.trans h5, by rw [run_cons]; omega⟩

/-! ## The claim of a run -/

/-- What a rename of `old` to `new` does to the map: nothing if no path at or below `old` is
interned, and otherwise it moves `old` and what lies below it to `new`. -/
structure Relocates (m m' : PathMap) (old new : Str) : Prop where
  unknown : (∀ p, AtOrBelow old p → m.inodeFor p = none) → m' = m
  moved : (∃ p i, AtOrBelow old p ∧ m.inodeFor p = some i) → ∀ rest, IsTail rest →
    m'.inodeFor (new ++ rest) = m.inodeFor (old ++ rest)
  gone : (∃ p i, AtOrBelow old p ∧ m.inodeFor p = some i) → ∀ q, AtOrBelow old q →
    ¬ AtOrBelow new q → m'.inodeFor q = none
  kept : ∀ q, ¬ AtOrBelow old q → ¬ AtOrBelow new q → m'.inodeFor q = m.inodeFor q

theorem relocates_rename (m : PathMap) (old new : Str) :
    Relocates m (m.rename old new) old new := by
  have hmov : (∃ p i, AtOrBelow old p ∧ m.inodeFor p = some i) →
      ¬ (m.moving old).isEmpty = true := by
    rintro ⟨p, i, hp, hi⟩ hm
    rw [moving_isEmpty_iff.1 hm p hp] at hi
    cases hi
  refine ⟨fun h => rename_of_none new h, fun h rest hrest => ?_, fun h q ho hn => ?_,
    fun q ho hn => ?_⟩
  · rw [get_rename new _ (hmov h), relocate, if_pos (atOrBelow_append hrest), List.drop_left]
  · rw [get_rename new _ (hmov h), relocate, if_neg hn, if_pos ho]
  · by_cases hm : (m.moving old).isEmpty = true
    · rw [rename_of_none new (moving_isEmpty_iff.1 hm)]
    · rw [get_rename new _ hm, relocate, if_neg hn, if_neg ho]

/-- The claim of a run from the empty map: the tables are inverse, the root keeps its inode, the
live inodes are below the counter, no inode that was dropped on the way is assigned again, and
every rename on the way relocates. -/
structure RunCorrect (calls : List Call) : Prop where
  inverse : ∀ p i, (new.run calls).inodeFor p = some i ↔ (new.run calls).pathFor i = some p
  root : (new.run calls).inodeFor [] = some rootInode
  below : ∀ i p, (new.run calls).pathFor i = some p → i < (new.run calls).next
  dropped : ∀ before between after, calls = before ++ between ++ after →
    ∀ i p, (new.run before).pathFor i = some p → (new.run (before ++ between)).pathFor i = none →
      (new.run calls).pathFor i = none
  renames : ∀ before oldPath newPath after,
    calls = before ++ .rename oldPath newPath :: after →
      Relocates (new.run before) (new.run (before ++ [.rename oldPath newPath])) oldPath newPath

/-- **Path map correctness over whole runs**, up to the wrap of the inode counter. -/
theorem runs_correct (calls : List Call) (hargs : ∀ c ∈ calls, c.NonEmptyArgs)
    (hcount : internCount calls < inodeSpace - 2) : RunCorrect calls := by
  have hnew : new.next = 2 := rfl
  have hbound : new.next + internCount calls < inodeSpace := by omega
  obtain ⟨hs, -, -⟩ := Sound.new.run calls hargs hbound
  refine ⟨hs.inverse, hs.root, hs.below, ?_, ?_⟩
  · rintro before between after rfl i p hlive hdrop
    rw [internCount_append, internCount_append] at hbound
    simp only [List.mem_append] at hargs
    obtain ⟨hs₁, -, hn₁⟩ := Sound.new.run before (fun c hc => hargs c (.inl (.inl hc))) (by omega)
    obtain ⟨hs₂, hlater₁, hn₂⟩ := hs₁.run between (fun c hc => hargs c (.inl (.inr hc))) (by omega)
    obtain ⟨-, hlater₂, -⟩ := hs₂.run after (fun c hc => hargs c (.inr hc)) (by omega)
    rw [run_append] at hdrop
    rw [run_append, run_append]
    -- the inode was below the counter when it was live, and the counter only grows
    have hi := Nat.lt_of_lt_of_le (hs₁.below i p hlive) hlater₁.next_le
    cases hend : (((new.run before).run between).run after).pathFor i with
    | none => rfl
    | some q =>
      obtain ⟨q', hq'⟩ := hlater₂.live i q hend hi
      rw [hdrop] at hq'
      cases hq'
  · rintro before oldPath newPath after rfl
    rw [run_append]
    exact relocates_rename _ _ _

/-- A run with an intern, a directory rename over an interned destination and a forget. -/
theorem runs_correct_dirRename :
    RunCorrect [.intern ['/', 'd'], .intern ['/', 'd', '/', 'a'], .intern ['/', 'e', '/', 'b'],
      .rename ['/', 'd'] ['/', 'e'], .forget ['/', 'e', '/', 'a'], .intern ['/', 'd']] :=
  runs_correct _ (by simp [Call.NonEmptyArgs]) (by decide)

/-! ## Interning many paths -/

/-- What interns of different new paths do to the counter and to everything else. -/
theorem run_interns {m : PathMap} {l : List Str} (hnext : m.next < inodeSpace) (hl : l.Nodup)
    (hfresh : ∀ p ∈ l, m.inodeFor p = none) :
    (m.run (l.map .intern)).next = (m.next + l.length) % inodeSpace ∧
      (∀ q, q ∉ l → (m.run (l.map .intern)).inodeFor q = m.inodeFor q) ∧
      ∀ i, (∀ k < l.length, (m.next + k) % inodeSpace ≠ i) →
        (m.run (l.map .intern)).pathFor i = m.pathFor i := by
  induction l generalizing m with
  | nil => exact ⟨(Nat.mod_eq_of_lt hnext).symm, fun _ _ => rfl, fun _ _ => rfl⟩
  | cons p l ih =>
    rw [List.nodup_cons] at hl
    have hp : m.inodeFor p = none := hfresh p (List.mem_cons_self ..)
    have hstep : (m.intern p).2.next = (m.next + 1) % inodeSpace := by rw [intern_of_none hp]
    have hother : ∀ q, q ≠ p → (m.intern p).2.inodeFor q = m.inodeFor q := fun q hq =>
      intern_inodeFor_ne m hq
    have hlt : (m.intern p).2.next < inodeSpace := hstep ▸ Nat.mod_lt _ (by decide)
    obtain ⟨hn, hpath, hino⟩ := ih hlt hl.2 fun q hq => by
      rw [hother q fun heq => hl.1 (heq ▸ hq)]
      exact hfresh q (List.mem_cons_of_mem _ hq)
    refine ⟨?_, fun q hq => ?_, fun i hi => ?_⟩
    · show ((m.intern p).2.run (l.map .intern)).next = _
      rw [hn, hstep, Nat.mod_add_mod, List.length_cons]
      congr 1
      omega
    · rw [List.mem_cons, not_or] at hq
      exact (hpath q hq.2).trans (hother q hq.1)
    · have hfirst : i ≠ m.next := by
        intro heq
        have := hi 0 (by simp)
        rw [Nat.add_zero, Nat.mod_eq_of_lt hnext] at this
        exact this heq.symm
      have hkeep : (m.intern p).2.pathFor i = m.pathFor i := by
        rw [intern_of_none hp]
        exact HashMap.get_insert_ne _ _ hfirst
      refine (hino i fun k hk => ?_).trans hkeep
      rw [hstep, Nat.mod_add_mod, Nat.add_right_comm, Nat.add_assoc]
      exact hi (k + 1) (by simp only [List.length_cons]; omega)

/-! ## The bound on the number of interns -/

/-- `n` interns of as many different paths. -/
def exhaust (n : Nat) : List Call := (List.range n).map fun k => .intern (List.replicate (k + 1) 'a')

theorem exhaust_succ (n : Nat) :
    exhaust (n + 1) = exhaust n ++ [.intern (List.replicate (n + 1) 'a')] := by
  simp [exhaust, List.range_succ]

theorem internCount_exhaust (n : Nat) : internCount (exhaust n) = n := by
  induction n with
  | zero => rfl
  | succ n ih => rw [exhaust_succ, internCount_append, ih]; rfl

theorem exhaust_nonEmptyArgs (n : Nat) : ∀ c ∈ exhaust n, c.NonEmptyArgs := by
  intro c hc
  obtain ⟨k, -, rfl⟩ := List.mem_map.1 hc
  trivial

/-- A path longer than all that were interned has no inode. -/
theorem inodeFor_exhaust (n : Nat) {p : Str} (hp : n < p.length) :
    (new.run (exhaust n)).inodeFor p = none := by
  induction n with
  | zero =>
    rw [exhaust, List.range_zero, List.map_nil, run_nil, new_inodeFor, if_neg]
    rintro rfl
    exact absurd hp (Nat.lt_irrefl 0)
  | succ n ih =>
    rw [exhaust_succ, run_append]
    show ((new.run (exhaust n)).intern _).2.inodeFor p = none
    rw [intern_inodeFor_ne _ (by rintro rfl; simp at hp), ih (by omega)]

/-- Each of the paths takes a new inode. -/
theorem run_exhaust_succ (n : Nat) :
    new.run (exhaust (n + 1)) =
      let m := new.run (exhaust n)
      { next := (m.next + 1) % inodeSpace
        pathToInode := m.pathToInode.insert (List.replicate (n + 1) 'a') m.next
        inodeToPath := m.inodeToPath.insert m.next (List.replicate (n + 1) 'a') } := by
  rw [exhaust_succ, run_append]
  show ((new.run (exhaust n)).intern _).2 = _
  rw [intern_of_none (inodeFor_exhaust n (by simp))]

theorem next_exhaust (n : Nat) (hn : n + 2 < inodeSpace) : (new.run (exhaust n)).next = n + 2 := by
  induction n with
  | zero => rfl
  | succ n ih =>
    rw [run_exhaust_succ]
    show ((new.run (exhaust n)).next + 1) % inodeSpace = _
    rw [ih (by omega), Nat.mod_eq_of_lt (by omega)]

/-- **The bound is the exact one.** After `2 ^ 64 - 2` new paths the counter has wrapped around to
0, and the root's inode is not below it. -/
theorem runs_correct_needs_bound :
    ¬ ∀ calls : List Call, (∀ c ∈ calls, c.NonEmptyArgs) → internCount calls < inodeSpace →
      RunCorrect calls := by
  intro h
  obtain ⟨n, hn⟩ : ∃ n, inodeSpace = n + 3 := ⟨2 ^ 64 - 3, by decide⟩
  have hrun := h (exhaust (n + 1)) (exhaust_nonEmptyArgs _) (by rw [internCount_exhaust]; omega)
  have hroot := hrun.below rootInode [] ((hrun.inverse _ _).1 hrun.root)
  have hnext : (new.run (exhaust (n + 1))).next = 0 := by
    rw [run_exhaust_succ]
    show ((new.run (exhaust n)).next + 1) % inodeSpace = 0
    rw [next_exhaust n (by omega), hn, Nat.mod_self]
  rw [hnext] at hroot
  cases hroot

end PathMap

end UnidriveMount
