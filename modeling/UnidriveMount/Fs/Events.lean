import UnidriveMount.Fs.Orphans
import UnidriveMount.Ipc.Client

/-!
# Change events

What a line of the subscription says about the view (`invalidation_of`, `subscribe.rs`), and what is
left of the attribute cache when it is applied: exactly the attributes of the entries the event names
are dropped, and of those with unsent writes none (`event_drops_named`).
-/

namespace UnidriveMount

open Lib

variable {parse : Str → Option Json} {s s' : FsState} {es : List (Occ Act.Ret)}

/-! ## Reading an event -/

/-- The paths of an invalidation: everything, if one of them is the root or no path. -/
def invalidatedPaths : List Json → List Str → Invalidation
  | [], paths => .paths paths
  | p :: listed, paths =>
    match p.asStr with
    | some p =>
      if !p.isEmpty && p ≠ ['/'] then invalidatedPaths listed (paths ++ [p]) else .all
    | none => .all

/-- `invalidation_of`. `parse` stands for the JSON parser. -/
def invalidationOf (parse : Str → Option Json) : SubscriptionEvent → Option Invalidation
  | .gap => some .all
  | .line line => do
    let event ← parse line
    let name ← (event.index "event").asStr
    if name = "lost".toList then
      some .all
    else if name = "view.invalidated".toList then
      if (event.index "full").asBool = some true then
        some .all
      else
        match (event.index "paths").asArray with
        | none => some .all
        | some listed => some (invalidatedPaths listed [])
    else none

/-- The invalidation an event calls for, applied. -/
def applyEvent (parse : Str → Option Json) (ev : SubscriptionEvent) : FsProg Unit :=
  match invalidationOf parse ev with
  | some change => apply change
  | none => pure ()

/-! ## What an event names -/

/-- The event is a line with this JSON text, of the kind `name`. -/
def IsEvent (parse : Str → Option Json) (ev : SubscriptionEvent) (name : String) (j : Json) : Prop :=
  ∃ line, ev = .line line ∧ parse line = some j ∧ j.index "event" = .str name.toList

/-- The text of a path below the root. -/
def IsPathText (p : Json) : Prop := ∃ r, p = .str r ∧ r ≠ [] ∧ r ≠ ['/']

/-- The event leaves the changed paths unknown: the stream was down, events were lost, or an
invalidation is full or cannot be read. -/
def NamesAll (parse : Str → Option Json) (ev : SubscriptionEvent) : Prop :=
  ev = .gap ∨ (∃ j, IsEvent parse ev "lost" j) ∨
    ∃ j, IsEvent parse ev "view.invalidated" j ∧
      (j.index "full" = .bool true ∨ (∀ listed, j.index "paths" ≠ .arr listed) ∨
        ∃ listed, j.index "paths" = .arr listed ∧ ∃ p ∈ listed, ¬ IsPathText p)

/-- The event lists the path. -/
def NamesPath (parse : Str → Option Json) (ev : SubscriptionEvent) (r : Str) : Prop :=
  ∃ j listed, IsEvent parse ev "view.invalidated" j ∧ j.index "paths" = .arr listed ∧
    .str r ∈ listed

/-- The event is about the view. -/
def IsViewEvent (parse : Str → Option Json) (ev : SubscriptionEvent) : Prop :=
  ev = .gap ∨ (∃ j, IsEvent parse ev "lost" j) ∨ ∃ j, IsEvent parse ev "view.invalidated" j

theorem Json.asStr_iff {j : Json} {r : Str} : j.asStr = some r ↔ j = .str r := by
  cases j <;> simp [Json.asStr]

theorem Json.asBool_iff {j : Json} {b : Bool} : j.asBool = some b ↔ j = .bool b := by
  cases j <;> simp [Json.asBool]

theorem Json.asArray_iff {j : Json} {vs : List Json} : j.asArray = some vs ↔ j = .arr vs := by
  cases j <;> simp [Json.asArray]

/-- The listed paths are read one by one, up to the first that is no path. -/
theorem invalidatedPaths_eq (listed : List Json) (paths : List Str) :
    (∃ p ∈ listed, ¬ IsPathText p) ∧ invalidatedPaths listed paths = .all ∨
    ∃ rs, listed = rs.map .str ∧ (∀ r ∈ rs, r ≠ [] ∧ r ≠ ['/']) ∧
      invalidatedPaths listed paths = .paths (paths ++ rs) := by
  induction listed generalizing paths with
  | nil => exact .inr ⟨[], rfl, by simp, by simp [invalidatedPaths]⟩
  | cons p listed ih =>
    unfold invalidatedPaths
    cases hp : p.asStr with
    | none =>
      refine .inl ⟨⟨p, List.mem_cons_self .., fun ⟨r, hr, _⟩ => ?_⟩, rfl⟩
      cases (Json.asStr_iff.2 hr).symm.trans hp
    | some r =>
      obtain rfl := Json.asStr_iff.1 hp
      dsimp only
      split
      · next hr =>
        have hr : r ≠ [] ∧ r ≠ ['/'] := by simpa using hr
        rcases ih (paths ++ [r]) with ⟨⟨q, hq, hbad⟩, hall⟩ | ⟨rs, rfl, hrs, hpaths⟩
        · exact .inl ⟨⟨q, List.mem_cons_of_mem _ hq, hbad⟩, hall⟩
        · refine .inr ⟨r :: rs, rfl, List.forall_mem_cons.2 ⟨hr, hrs⟩, ?_⟩
          rw [hpaths, List.append_assoc]
          rfl
      · next hr =>
        refine .inl ⟨⟨.str r, List.mem_cons_self .., fun ⟨r', heq, hr'⟩ => hr ?_⟩, rfl⟩
        cases heq
        simpa using hr'

/-- An event calls for an invalidation of everything, of the paths it lists, or for none. -/
theorem invalidationOf_cases (parse : Str → Option Json) (ev : SubscriptionEvent) :
    NamesAll parse ev ∧ invalidationOf parse ev = some .all ∨
    (∃ rs, ¬ NamesAll parse ev ∧ (∀ r, NamesPath parse ev r ↔ r ∈ rs) ∧ [] ∉ rs ∧
      IsViewEvent parse ev ∧ invalidationOf parse ev = some (.paths rs)) ∨
    ¬ IsViewEvent parse ev ∧ invalidationOf parse ev = none := by
  cases ev with
  | gap => exact .inl ⟨.inl rfl, rfl⟩
  | line line =>
    have hline : ∀ {name j}, IsEvent parse (.line line) name j → parse line = some j ∧
        j.index "event" = .str name.toList := by
      rintro name j ⟨line', heq, hj⟩
      cases heq
      exact hj
    simp only [invalidationOf, Option.bind_eq_bind]
    cases hparse : parse line with
    | none =>
      refine .inr (.inr ⟨?_, rfl⟩)
      rintro (h | ⟨j, h⟩ | ⟨j, h⟩)
      · cases h
      · cases hparse.symm.trans (hline h).1
      · cases hparse.symm.trans (hline h).1
    | some event =>
      have hevent : ∀ {name j}, IsEvent parse (.line line) name j →
          j = event ∧ (event.index "event").asStr = some name.toList := by
        intro name j h
        obtain ⟨hj, hname⟩ := hline h
        cases hparse.symm.trans hj
        exact ⟨rfl, Json.asStr_iff.2 hname⟩
      have hmk : ∀ {name : String}, (event.index "event").asStr = some name.toList →
          IsEvent parse (.line line) name event := fun h => ⟨line, rfl, hparse, Json.asStr_iff.1 h⟩
      rw [Option.bind_some]
      cases hname : (event.index "event").asStr with
      | none =>
        refine .inr (.inr ⟨?_, rfl⟩)
        rintro (h | ⟨j, h⟩ | ⟨j, h⟩)
        · cases h
        · cases hname.symm.trans (hevent h).2
        · cases hname.symm.trans (hevent h).2
      | some name =>
        rw [Option.bind_some]
        by_cases hlost : name = "lost".toList
        · rw [if_pos hlost]
          exact .inl ⟨.inr (.inl ⟨event, hmk (hlost ▸ hname)⟩), rfl⟩
        rw [if_neg hlost]
        have hnotLost : ∀ j, ¬ IsEvent parse (.line line) "lost" j := by
          intro j h
          exact hlost (Option.some.inj (hname.symm.trans (hevent h).2))
        by_cases hview : name = "view.invalidated".toList
        · rw [if_pos hview]
          have hev := hmk (hview ▸ hname)
          by_cases hfull : (event.index "full").asBool = some true
          · rw [if_pos hfull]
            exact .inl ⟨.inr (.inr ⟨event, hev, .inl (Json.asBool_iff.1 hfull)⟩), rfl⟩
          rw [if_neg hfull]
          cases hlisted : (event.index "paths").asArray with
          | none =>
            refine .inl ⟨.inr (.inr ⟨event, hev, .inr (.inl fun listed h => ?_)⟩), rfl⟩
            cases hlisted.symm.trans (Json.asArray_iff.2 h)
          | some listed =>
            have harr := Json.asArray_iff.1 hlisted
            rcases invalidatedPaths_eq listed [] with ⟨hbad, hall⟩ | ⟨rs, rfl, hrs, hpaths⟩
            · exact .inl ⟨.inr (.inr ⟨event, hev, .inr (.inr ⟨listed, harr, hbad⟩)⟩),
                congrArg some hall⟩
            · refine .inr (.inl ⟨rs, ?_, fun r => ?_, fun h => (hrs [] h).1 rfl,
                .inr (.inr ⟨event, hev⟩), congrArg some hpaths⟩)
              · rintro (h | ⟨j, h⟩ | ⟨j, h, hwhy⟩)
                · cases h
                · exact hnotLost j h
                · obtain ⟨rfl, -⟩ := hevent h
                  rcases hwhy with h | h | ⟨listed, h, p, hp, hbad⟩
                  · exact hfull (Json.asBool_iff.2 h)
                  · exact h _ harr
                  · cases harr.symm.trans h
                    obtain ⟨r, hr, rfl⟩ := List.mem_map.1 hp
                    exact hbad ⟨r, rfl, hrs r hr⟩
              · constructor
                · rintro ⟨j, listed, h, hj, hr⟩
                  obtain ⟨rfl, -⟩ := hevent h
                  cases harr.symm.trans hj
                  obtain ⟨r', hr', heq⟩ := List.mem_map.1 hr
                  cases heq
                  exact hr'
                · exact fun hr => ⟨event, _, hev, harr, List.mem_map_of_mem hr⟩
        · rw [if_neg hview]
          refine .inr (.inr ⟨?_, rfl⟩)
          rintro (h | ⟨j, h⟩ | ⟨j, h⟩)
          · cases h
          · exact hnotLost j h
          · exact hview (Option.some.inj (hname.symm.trans (hevent h).2))

/-! ## What it drops -/

/-- The event is about the inode: everything changed, or a path it lists, or one below. -/
def NamesInode (parse : Str → Option Json) (ev : SubscriptionEvent) (s : FsState) (ino : Ino) : Prop :=
  NamesAll parse ev ∨ ∃ p r, s.paths.inodeFor p = some ino ∧ NamesPath parse ev r ∧
    (p = r ∨ r ++ ['/'] <+: p)

/-- The event has dropped the attributes of exactly the inodes it is about, those with unsent writes
apart, and changed nothing else; if it is not about the view, nothing at all. -/
structure DropsNamed (parse : Str → Option Json) (ev : SubscriptionEvent) (s s' : FsState) : Prop where
  dropped : ∀ ino a, s.attrs.get ino = some a →
    (s'.attrs.get ino = none ↔ ¬ Unsent s ino ∧ NamesInode parse ev s ino)
  kept : ∀ ino a, s'.attrs.get ino = some a → s.attrs.get ino = some a
  rest : s' = { s with attrs := s'.attrs }
  other : ¬ IsViewEvent parse ev → s' = s

/-- **A change event drops exactly what it names.** -/
theorem event_drops_named (parse : Str → Option Json) (ev : SubscriptionEvent) (s s' : FsState)
    (es : List (Occ Act.Ret)) (res : Except Errno Unit)
    (hx : Exec fsMachine (applyEvent parse ev) s es res s') :
    res = .ok () ∧ DropsNamed parse ev s s' := by
  unfold applyEvent at hx
  have hnames : ∀ {ino}, NamesAll parse ev → NamesInode parse ev s ino := .inl
  rcases invalidationOf_cases parse ev with ⟨hall, hinv⟩ | ⟨rs, hall, hpaths, hrs, hview, hinv⟩ |
    ⟨hview, hinv⟩
  · rw [hinv] at hx
    obtain ⟨rfl, unsent, rfl, hunsent⟩ := exec_apply hx
    have hisView : IsViewEvent parse ev := hall.imp id (Or.imp id fun ⟨j, h, _⟩ => ⟨j, h⟩)
    refine ⟨rfl, fun ino a ha => ?_, fun ino a => FsState.get_of_get_invalidatedAttrs, rfl,
      fun h => absurd hisView h⟩
    rw [and_iff_left (hnames hall), ← hunsent]
    rcases s.get_invalidatedAttrs .all unsent ino with ⟨-, hkeep, hnone⟩ | ⟨hkeep, heq⟩
    · exact iff_of_true hnone hkeep
    · refine iff_of_false (fun hnone => ?_) (not_not_intro (hkeep.resolve_left (not_not_intro trivial)))
      cases (heq.symm.trans hnone).symm.trans ha
  · rw [hinv] at hx
    obtain ⟨rfl, unsent, rfl, hunsent⟩ := exec_apply hx
    refine ⟨rfl, fun ino a ha => ?_, fun ino a => FsState.get_of_get_invalidatedAttrs, rfl,
      fun h => absurd hview h⟩
    have hconcerns : s.Concerns ino (.paths rs) ↔ NamesInode parse ev s ino := by
      refine PathMap.mem_inodesAtOrBelow.trans ?_
      simp only [isAtOrBelow_iff hrs, NamesInode, or_iff_right hall]
      constructor
      · rintro ⟨p, hp, r, hr, hbelow⟩
        exact ⟨p, r, hp, (hpaths r).2 hr, hbelow⟩
      · rintro ⟨p, r, hp, hr, hbelow⟩
        exact ⟨p, hp, r, (hpaths r).1 hr, hbelow⟩
    rw [← hunsent, ← hconcerns]
    rcases s.get_invalidatedAttrs (.paths rs) unsent ino with ⟨hino, hkeep, hnone⟩ | ⟨hnot, heq⟩
    · exact iff_of_true hnone ⟨hkeep, hino⟩
    · refine iff_of_false (fun hnone => ?_) fun ⟨hkeep, hino⟩ => ?_
      · cases (heq.symm.trans hnone).symm.trans ha
      · exact hnot.elim (fun h => h hino) hkeep
  · rw [hinv] at hx
    obtain ⟨-, rfl, rfl⟩ := exec_ret_iff.1 hx
    refine ⟨rfl, fun ino a ha => iff_of_false (fun hnone => ?_) fun ⟨_, hino⟩ => hview ?_,
      fun _ _ => id, rfl, fun _ => rfl⟩
    · cases hnone.symm.trans ha
    · rcases hino with h | ⟨p, r, -, ⟨j, listed, h, -⟩, -⟩
      · exact h.imp id (Or.imp id fun ⟨j, h, _⟩ => ⟨j, h⟩)
      · exact .inr (.inr ⟨j, h⟩)

/-- The text of an invalidation of `/a`. -/
def eventText : Str := "\x7b\"event\":\"view.invalidated\",\"paths\":[\"/a\"]\x7d".toList

/-- The parser, on that text. -/
def parseEventText (line : Str) : Option Json :=
  if line = eventText then
    some (.obj [("event".toList, .str "view.invalidated".toList),
      ("paths".toList, .arr [.str ['/', 'a']])])
  else none

/-- The folder `/a` is named, and the folder `/b` is not. -/
theorem event_drops_named_listed :
    ∃ l s es res s', plainFs.Sequence (fun _ _ _ => True) (.new .empty) l s ∧
      Exec fsMachine (applyEvent parseEventText (.line eventText)) s es res s' ∧
      res = .ok () ∧ s'.attrs.get 2 = none ∧ s'.attrs.get 3 = s.attrs.get 3 ∧
      DropsNamed parseEventText (.line eventText) s s' := by
  have hserve : (plainFs.serveAll (fun _ _ _ => true)
      [(.mkdir rootInode (some ['a']), .calm), (.mkdir rootInode (some ['b']), .calm)] []
      (.new .empty)).any (fun x =>
      (fsMachine.exec .calm (applyEvent parseEventText (.line eventText)) x.2).any fun y =>
      decide (y.2.2.attrs.get 2 = none) && decide (y.2.2.attrs.get 3 = x.2.attrs.get 3)) = true := by
    decide +kernel
  obtain ⟨⟨l, s⟩, hs, hcheck⟩ := (Option.any_eq_true ..).1 hserve
  obtain ⟨⟨es, res, s'⟩, hx, hcheck⟩ := (Option.any_eq_true ..).1 hcheck
  obtain ⟨hgone, hkept⟩ := Bool.and_eq_true_iff.1 hcheck
  have hseq : plainFs.Sequence (fun _ _ _ => True) (.new .empty) l s :=
    plainFs.sequence_of_serveAll (fun _ _ _ _ => trivial) .nil hs
  have hx := Machine.exec_sound hx
  obtain ⟨hres, hdrops⟩ := event_drops_named _ _ _ _ _ _ hx
  exact ⟨l, s, es, res, s', hseq, hx, hres, of_decide_eq_true hgone, of_decide_eq_true hkept, hdrops⟩

end UnidriveMount
