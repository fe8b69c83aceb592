import UnidriveMount.Fs.Following
import UnidriveMount.Fs.Subtrees

/-!
# One notion of a subtree

What lies at or below a path is decided four times in the source: by the filters of
`PathMap::rename`, by `strip_prefix` in `OpenHandle::follow_rename`, by the loop of `is_at_or_below`, and
by the filters of `forget_raw_names` and `rename_raw_names`. They agree on every string
(`prefixes_agree`), and so do the places a rename moves a path to.
-/

namespace UnidriveMount

open Lib

/-! ## The loop -/

/-- The loop of `is_at_or_below`, for at most `n` rounds. -/
def atOrBelowLoop (roots : List Str) : Nat → Str → Option Bool
  | 0, _ => none
  | n + 1, p =>
    if roots.contains p then some true
    else match rfind '/' p with
      | some i => if 0 < i then atOrBelowLoop roots n (p.take i) else some false
      | none => some false

/-- The loop ends, after a round for each slash of the path and one more at most. -/
theorem atOrBelowLoop_eq (roots : List Str) {n : Nat} {p : Str} (h : p.count '/' < n) :
    atOrBelowLoop roots n p = some (isAtOrBelow p roots) := by
  induction n generalizing p with
  | zero => cases h
  | succ n ih =>
    rw [atOrBelowLoop, isAtOrBelow]
    by_cases hmem : roots.contains p = true
    · rw [if_pos hmem, if_pos hmem]
    · rw [if_neg hmem, if_neg hmem]
      cases hi : rfind '/' p with
      | none => rfl
      | some i =>
        have hcount : (p.take i).count '/' < p.count '/' := by
          have := congrArg (List.count '/') (eq_of_rfind hi)
          rw [List.count_append, List.count_cons_self] at this
          omega
        by_cases hpos : 0 < i
        · simp only [if_pos hpos]
          exact ih (by omega)
        · simp only [if_neg hpos]

/-! ## Agreement -/

section
variable {old new p : Str}

theorem moved_ne_iff (hne : new ≠ old) : moved old new p ≠ p ↔ AtOrBelow old p := by
  constructor
  · exact fun h => not_not.1 fun hnot => h (moved_of_not hnot)
  · intro h heq
    obtain ⟨rest, hrest, rfl⟩ := atOrBelow_iff.1 h
    rw [moved_append hrest] at heq
    exact hne (List.append_cancel_right heq)

theorem isAtOrBelow_singleton (hold : old ≠ []) : isAtOrBelow p [old] = true ↔ AtOrBelow old p := by
  rw [isAtOrBelow_iff (by simpa using hold.symm)]
  simp only [List.mem_singleton, exists_eq_left]

/-- The inode of an interned path gets another path if the path moves. -/
theorem PathMap.WF.pathFor_rename_iff {m : PathMap} (hm : m.WF) (hne : new ≠ old) {ino : Ino}
    (hp : m.inodeFor p = some ino) :
    (∃ q, (m.rename old new).pathFor ino = some q ∧ q ≠ p) ↔ AtOrBelow old p := by
  constructor
  · rintro ⟨q, hq, hqp⟩
    obtain ⟨p', hp', rfl⟩ := hm.pathFor_of_rename hq
    cases hp'.symm.trans ((hm.inverse p ino).1 hp)
    exact (moved_ne_iff hne).1 hqp
  · intro h
    refine ⟨moved old new p, ?_, (moved_ne_iff hne).2 h⟩
    obtain ⟨rest, hrest, rfl⟩ := atOrBelow_iff.1 h
    rw [moved_append hrest]
    exact hm.pathFor_rename_of_moving new hrest hp

/-- The key of a raw name is removed if it lies at or below the path that is forgotten. -/
theorem forgetRawNames_iff {s : FsState} {w : World} {raw : Str} (hraw : s.rawNames.get p = some raw) :
    ((Act.forgetRawNames old).run w s).2.rawNames.get p = none ↔ AtOrBelow old p := by
  show (s.rawNames.retain _).get p = none ↔ _
  rw [HashMap.get_retain, hraw, Option.filter_some]
  by_cases h : AtOrBelow old p
  · exact iff_of_true (if_neg fun hkeep => (not_or.2 (of_decide_eq_true hkeep)) h) h
  · refine iff_of_false (fun hnone => ?_) h
    rw [if_pos (decide_eq_true (not_or.1 h))] at hnone
    cases hnone

/-- The key of a raw name strictly below the renamed path moves with it. -/
theorem renamedRawNames_moved {s : FsState} {raw : Str} (hraw : s.rawNames.get p = some raw)
    (hp : old ++ ['/'] <+: p) : (s.renamedRawNames old new).get (moved old new p) = some raw := by
  obtain ⟨rest, rfl⟩ := hp
  rw [List.append_assoc] at hraw ⊢
  have hmoved : moved old new (old ++ ('/' :: rest)) = new ++ '/' :: rest :=
    moved_append (.inr ⟨rest, rfl⟩)
  exact hmoved ▸ renamedRawNames_of_some hraw

/-- A rename of `old` to `new`, a removal of `old` and the loop agree on whether the path `p` is at or
below `old`, and the rename moves it to the same place everywhere. -/
structure PrefixesAgree (old new p : Str) : Prop where
  interned : ∀ {m : PathMap} {ino : Ino}, m.WF → m.inodeFor p = some ino →
    ((∃ q, (m.rename old new).pathFor ino = some q ∧ q ≠ p) ↔ isAtOrBelow p [old] = true)
  opened : ∀ {h : OpenHandle}, h.remotePath = p →
    ((h.followRename old new).remotePath ≠ p ↔ isAtOrBelow p [old] = true)
  forgotten : ∀ {s : FsState} {w : World} {raw : Str}, s.rawNames.get p = some raw →
    (((Act.forgetRawNames old).run w s).2.rawNames.get p = none ↔ isAtOrBelow p [old] = true)
  path : ∀ {m : PathMap} {ino : Ino} {h : OpenHandle} {q : Str}, m.WF → m.inodeFor p = some ino →
    h.remotePath = p → (m.rename old new).pathFor ino = some q →
    q = (h.followRename old new).remotePath
  key : ∀ {s : FsState} {raw : Str} {h : OpenHandle}, s.rawNames.get p = some raw →
    h.remotePath = p → old ++ ['/'] <+: p →
    (s.renamedRawNames old new).get (h.followRename old new).remotePath = some raw

/-- **All prefix logics agree**, and the loop, which ends, finds a root that is the path or lies above
it. -/
theorem prefixes_agree (hold : old ≠ []) (hne : new ≠ old) :
    PrefixesAgree old new p ∧
    ∀ roots, (∃ rounds, atOrBelowLoop roots rounds p = some (isAtOrBelow p roots)) ∧
      ([] ∉ roots →
        (isAtOrBelow p roots = true ↔ ∃ root ∈ roots, root = p ∨ root ++ ['/'] <+: p)) := by
  refine ⟨⟨fun hm hp => ?_, fun hh => ?_, fun hraw => ?_, fun hm hp hh hq => ?_,
    fun hraw hh hb => ?_⟩, fun roots =>
      ⟨⟨_, atOrBelowLoop_eq roots (Nat.lt_succ_self _)⟩, fun hroots => ?_⟩⟩
  · rw [isAtOrBelow_singleton hold]
    exact hm.pathFor_rename_iff hne hp
  · rw [isAtOrBelow_singleton hold, OpenHandle.followRename_remotePath, hh]
    exact moved_ne_iff hne
  · rw [isAtOrBelow_singleton hold]
    exact forgetRawNames_iff hraw
  · obtain ⟨p', hp', rfl⟩ := hm.pathFor_of_rename hq
    cases hp'.symm.trans ((hm.inverse p _).1 hp)
    rw [OpenHandle.followRename_remotePath, hh]
  · rw [OpenHandle.followRename_remotePath, hh]
    exact renamedRawNames_moved hraw hb
  · rw [isAtOrBelow_iff hroots]
    simp only [AtOrBelow, eq_comm]

/-- A path with a doubled slash below the renamed directory moves, and its inode with it; a neighbour
with the same beginning does not. -/
theorem prefixes_agree_sample :
    PrefixesAgree "/a".toList "/b".toList "/a//c/".toList ∧
      isAtOrBelow "/a//c/".toList ["/a".toList] = true ∧
      isAtOrBelow "/ab".toList ["/a".toList] = false ∧
      ∃ q, (((PathMap.new.intern "/a//c/".toList).2).rename "/a".toList "/b".toList).pathFor 2 = some q ∧
        q ≠ "/a//c/".toList := by
  have h := @prefixes_agree "/a".toList "/b".toList "/a//c/".toList (by decide) (by decide)
  have h' := @prefixes_agree "/a".toList "/b".toList "/ab".toList (by decide) (by decide)
  have hbelow : isAtOrBelow "/a//c/".toList ["/a".toList] = true :=
    ((h.2 ["/a".toList]).2 (by decide)).2 (by decide)
  refine ⟨h.1, hbelow, ?_, (h.1.interned (PathMap.WF.new.intern _ (by decide)) (by decide)).2 hbelow⟩
  rw [← Bool.not_eq_true, (h'.2 ["/a".toList]).2 (by decide)]
  decide

end

end UnidriveMount
