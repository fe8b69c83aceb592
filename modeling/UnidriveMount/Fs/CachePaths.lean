import UnidriveMount.Fs.Types

/-!
# Cache paths under renames

An open handle's cache path is to follow a rename when it mirrors the remote path: when its components
are those of a base directory and then those of the remote path. `follow_rename` looks for the remote
path as a textual suffix of the cache path, which is the same when the suffix begins a component
(`followRename_mirrors_iff`), and then the base stays the same over any renames.
-/

namespace UnidriveMount

/-! ## The mirror -/

/-- The cache path is the base directory `base`, and below it the remote path. -/
def OpenHandle.Mirrors (h : OpenHandle) (base : List Str) : Prop :=
  components h.cachePath = base ++ components h.remotePath

/-- The handle follows the rename of `old` to `new`: at or below `old` it gets the new remote path, a
cache path that mirrors it mirrors the new one under the same base, and any other stays. Elsewhere
nothing changes. -/
structure FollowsMirrored (h : OpenHandle) (old new : Str) : Prop where
  remote : (h.followRename old new).remotePath = moved old new h.remotePath
  mirrored : AtOrBelow old h.remotePath → ∀ base, h.Mirrors base → (h.followRename old new).Mirrors base
  other : AtOrBelow old h.remotePath → (∀ base, ¬ h.Mirrors base) →
    (h.followRename old new).cachePath = h.cachePath
  elsewhere : ¬ AtOrBelow old h.remotePath → h.followRename old new = h

/-- The cache path is the text `b`, which can stand before a path, and then the remote path less its
leading slashes. -/
def OpenHandle.Cut (h : OpenHandle) (b : Str) : Prop :=
  IsBase b ∧ h.cachePath = b ++ trimStartSlashes h.remotePath

/-- When a handle follows: the rename does not change its path; or the remote path stands at the end of
the cache path and begins a component there; or it does not, and the cache path does not mirror it, or
the components stay the same. -/
def CutsAtComponent (h : OpenHandle) (old new : Str) : Prop :=
  AtOrBelow old h.remotePath →
    trimStartSlashes (moved old new h.remotePath) = trimStartSlashes h.remotePath ∨
    (∃ b, h.Cut b) ∨
    ¬ trimStartSlashes h.remotePath <:+ h.cachePath ∧ ((∀ base, ¬ h.Mirrors base) ∨
      components (moved old new h.remotePath) = components h.remotePath)

/-! ## What `follow_rename` does to the cache path -/

theorem stripSuffix_append (b s : Str) : stripSuffix s (b ++ s) = some b := by
  rw [stripSuffix, if_pos (List.suffix_append ..)]
  simp

section
variable {h : OpenHandle} {old new : Str}

/-- A suffix is replaced. -/
theorem movedCachePath_append {b : Str} (hc : h.cachePath = b ++ trimStartSlashes h.remotePath)
    (newRemote : Str) : h.movedCachePath newRemote = b ++ trimStartSlashes newRemote := by
  unfold OpenHandle.movedCachePath
  rw [hc, stripSuffix_append]

theorem movedCachePath_of_not (hc : ¬ trimStartSlashes h.remotePath <:+ h.cachePath)
    (newRemote : Str) : h.movedCachePath newRemote = h.cachePath := by
  unfold OpenHandle.movedCachePath stripSuffix
  rw [if_neg hc]

/-- A path without its leading slashes is empty, or begins with another character. -/
theorem trimStartSlashes_cases (s : Str) :
    trimStartSlashes s = [] ∨ ∃ c t, c ≠ '/' ∧ trimStartSlashes s = c :: t := by
  cases hs : trimStartSlashes s with
  | nil => exact .inl rfl
  | cons c t =>
    refine .inr ⟨c, t, ?_, rfl⟩
    have hhead := List.head?_dropWhile_not (· = '/') s
    unfold trimStartSlashes at hs
    rw [hs] at hhead
    simpa using hhead

/-- Without a slash before it the remote path is no component, and a cache path that ends in it so is
not made of a base and the remote path. -/
theorem not_mirrors_of_append {b : Str} (hb : ¬ IsBase b) {c : Char} {t : Str} (hc : c ≠ '/')
    (hrel : trimStartSlashes h.remotePath = c :: t)
    (hcache : h.cachePath = b ++ trimStartSlashes h.remotePath) (base : List Str) :
    ¬ h.Mirrors base := by
  intro hm
  unfold OpenHandle.Mirrors at hm
  rw [hcache, ← components_trimStartSlashes h.remotePath, hrel] at hm
  obtain ⟨ws, x, y, ys, -, hne, hy, happ⟩ := components_append_word hb hc ⟨t, rfl⟩
  rw [happ, hy] at hm
  have hlen := congrArg List.length hm
  simp only [List.length_append, List.length_cons] at hlen
  have hws : ws.length = base.length := by omega
  obtain ⟨-, heq⟩ := List.append_inj hm hws
  injection heq with heq
  exact hne (List.append_cancel_right (heq : x ++ y = [] ++ y))

/-- A text that ends in no slash and what follows it make another component than the text alone. -/
theorem components_append_ne {b : Str} (hb : ¬ IsBase b) {c : Char} {t : Str} (hc : c ≠ '/') :
    components (b ++ c :: t) ≠ components b ++ components (c :: t) := by
  obtain ⟨ws, x, y, ys, hx, -, hy, happ⟩ := components_append_word hb hc ⟨t, rfl⟩
  rw [happ, hx, hy]
  intro heq
  have hlen := congrArg List.length heq
  simp at hlen

/-- What is asked of the cache path when the remote path becomes `newRemote`. -/
structure Follows (h : OpenHandle) (newRemote : Str) : Prop where
  mirrored : ∀ base, h.Mirrors base →
    components (h.movedCachePath newRemote) = base ++ components newRemote
  other : (∀ base, ¬ h.Mirrors base) → h.movedCachePath newRemote = h.cachePath

theorem followsMirrored_iff_follows (hold : AtOrBelow old h.remotePath) :
    FollowsMirrored h old new ↔ Follows h (moved old new h.remotePath) := by
  have heq := OpenHandle.followRename_of_atOrBelow new hold
  constructor
  · intro hf
    have hm := hf.mirrored hold
    have ho := hf.other hold
    unfold OpenHandle.Mirrors at hm
    rw [heq] at hm ho
    exact ⟨hm, ho⟩
  · intro hf
    refine ⟨h.followRename_remotePath old new, fun _ => ?_, fun _ => ?_, absurd hold⟩
    · unfold OpenHandle.Mirrors
      rw [heq]
      exact hf.mirrored
    · rw [heq]
      exact hf.other

/-- A cache path that stays follows when the components of the remote path stay. -/
theorem follows_of_same {newRemote : Str} (hcache : h.movedCachePath newRemote = h.cachePath)
    (hsame : components newRemote = components h.remotePath) : Follows h newRemote where
  mirrored base hm := by
    rw [hcache, hsame]
    exact hm
  other _ := hcache

theorem follows_of_cut {b : Str} (hcut : h.Cut b) (newRemote : Str) : Follows h newRemote := by
  obtain ⟨hb, hcache⟩ := hcut
  have hmirrors : h.Mirrors (components b) := by
    unfold OpenHandle.Mirrors
    rw [hcache, components_append hb, components_trimStartSlashes]
  refine ⟨fun base hm => ?_, fun hnone => absurd hmirrors (hnone _)⟩
  have hbase : base = components b := List.append_cancel_right (hm.symm.trans hmirrors)
  rw [movedCachePath_append hcache, components_append hb, components_trimStartSlashes, hbase]

/-- A text before the remote path that is no base is found out by any other remote path. -/
theorem follows_iff_of_not_base {b newRemote : Str} (hb : ¬ IsBase b)
    (hcache : h.cachePath = b ++ trimStartSlashes h.remotePath) :
    Follows h newRemote ↔ trimStartSlashes newRemote = trimStartSlashes h.remotePath := by
  have hmovedPath := movedCachePath_append hcache newRemote
  constructor
  · intro hf
    rcases trimStartSlashes_cases h.remotePath with hrel | ⟨c, t, hc, hrel⟩
    · -- the remote path has no component, so every cache path mirrors it
      have hmirrors : h.Mirrors (components b) := by
        unfold OpenHandle.Mirrors
        rw [hcache, ← components_trimStartSlashes h.remotePath, hrel, List.append_nil]
        exact (List.append_nil _).symm
      have hm := hf.mirrored _ hmirrors
      rw [hmovedPath, ← components_trimStartSlashes newRemote] at hm
      rcases trimStartSlashes_cases newRemote with hnew | ⟨c, t, hc, hnew⟩
      · rw [hnew, hrel]
      · rw [hnew] at hm
        exact absurd hm (components_append_ne hb hc)
    · have hkept := hf.other (not_mirrors_of_append hb hc hrel hcache)
      rw [hmovedPath, hcache] at hkept
      exact List.append_cancel_left hkept
  · intro hsame
    refine follows_of_same ?_ ?_
    · rw [hmovedPath, hcache, hsame]
    · rw [← components_trimStartSlashes newRemote, hsame, components_trimStartSlashes]

theorem follows_iff_of_not_suffix {newRemote : Str}
    (hsuf : ¬ trimStartSlashes h.remotePath <:+ h.cachePath) :
    Follows h newRemote ↔
      (∀ base, ¬ h.Mirrors base) ∨ components newRemote = components h.remotePath := by
  have hcache := movedCachePath_of_not hsuf newRemote
  constructor
  · intro hf
    by_cases hm : ∃ base, h.Mirrors base
    · obtain ⟨base, hm⟩ := hm
      have hnew := hf.mirrored base hm
      rw [hcache] at hnew
      exact .inr (List.append_cancel_left (hnew.symm.trans hm))
    · exact .inl (not_exists.1 hm)
  · rintro (hnone | hsame)
    · exact ⟨fun base hm => absurd hm (hnone base), fun _ => hcache⟩
    · exact follows_of_same hcache hsame

/-- An open handle follows a rename exactly when its cache path is cut at a component. -/
theorem followsMirrored_iff : FollowsMirrored h old new ↔ CutsAtComponent h old new := by
  unfold CutsAtComponent
  by_cases hold : AtOrBelow old h.remotePath
  · rw [followsMirrored_iff_follows hold, forall_prop_of_true hold]
    generalize moved old new h.remotePath = newRemote
    by_cases hsuf : trimStartSlashes h.remotePath <:+ h.cachePath
    · obtain ⟨b, hb⟩ := hsuf
      by_cases hbase : IsBase b
      · have hcut : h.Cut b := ⟨hbase, hb.symm⟩
        exact iff_of_true (follows_of_cut hcut newRemote) (.inr (.inl ⟨b, hcut⟩))
      · rw [follows_iff_of_not_base hbase hb.symm]
        refine ⟨.inl, ?_⟩
        rintro (hsame | ⟨b', hbase', hb'⟩ | ⟨hsuf, -⟩)
        · exact hsame
        · exact absurd (List.append_cancel_right (hb.trans hb') ▸ hbase') hbase
        · exact absurd ⟨b, hb⟩ hsuf
    · rw [follows_iff_of_not_suffix hsuf]
      constructor
      · exact fun h => .inr (.inr ⟨hsuf, h⟩)
      · rintro (hsame | ⟨b, -, hb⟩ | ⟨-, h⟩)
        · refine .inr ?_
          rw [← components_trimStartSlashes newRemote, hsame, components_trimStartSlashes]
        · exact absurd ⟨b, hb.symm⟩ hsuf
        · exact h
  · refine iff_of_true ?_ fun hp => absurd hp hold
    have heq := OpenHandle.followRename_of_not new hold
    exact ⟨h.followRename_remotePath old new, fun hp => absurd hp hold, fun hp => absurd hp hold,
      fun _ => heq⟩

end

/-! ## Any renames -/

/-- A cache path cut at a component stays so, with the same base. -/
theorem OpenHandle.Cut.followRename {h : OpenHandle} {b : Str} (hcut : h.Cut b) (old new : Str) :
    (h.followRename old new).Cut b := by
  by_cases hold : AtOrBelow old h.remotePath
  · rw [followRename_of_atOrBelow new hold]
    exact ⟨hcut.1, movedCachePath_append hcut.2 _⟩
  · rwa [followRename_of_not new hold]

/-- **The cache path follows a rename exactly when it is cut at a component, and then it mirrors the
remote path under the same base after any renames.** -/
theorem followRename_mirrors_iff (h : OpenHandle) (old new : Str) :
    (FollowsMirrored h old new ↔ CutsAtComponent h old new) ∧
      ∀ b, h.Cut b → ∀ renames : List (Str × Str),
        (renames.foldl (fun h r => h.followRename r.1 r.2) h).Mirrors (components b) := by
  refine ⟨followsMirrored_iff, fun b hcut renames => ?_⟩
  have hrun : (renames.foldl (fun h r => h.followRename r.1 r.2) h).Cut b := by
    induction renames generalizing h with
    | nil => exact hcut
    | cons r renames ih => exact ih _ (hcut.followRename r.1 r.2)
  generalize renames.foldl (fun h r => h.followRename r.1 r.2) h = h' at hrun
  unfold OpenHandle.Mirrors
  rw [hrun.2, components_append hrun.1, components_trimStartSlashes]

/-- The handle of `/a.txt`, whose cache file is `/cache/x-a.txt`. -/
def flatHandle : OpenHandle :=
  ⟨⟨0, true⟩, "wh-1".toList, "/a.txt".toList, "/cache/x-a.txt".toList, true⟩

/-- A cache path of another layout is changed, when it happens to end in the remote path. -/
theorem followRename_changes_other :
    ¬ ∀ (h : OpenHandle) (old new : Str), (∃ r, old = '/' :: r) → (∃ r, new = '/' :: r) →
      FollowsMirrored h old new := by
  intro hall
  have hf := hall flatHandle "/a.txt".toList "/b.txt".toList ⟨_, rfl⟩ ⟨_, rfl⟩
  have hnone : ∀ base, ¬ flatHandle.Mirrors base := by
    intro base hm
    have hcache : components flatHandle.cachePath = ["cache".toList, "x-a.txt".toList] := by decide
    have hremote : components flatHandle.remotePath = ["a.txt".toList] := by decide
    rw [OpenHandle.Mirrors, hcache, hremote] at hm
    have hlast := congrArg List.getLast? hm
    rw [List.getLast?_append] at hlast
    cases hlast
  exact absurd (hf.other (by decide) hnone) (by decide)

end UnidriveMount
