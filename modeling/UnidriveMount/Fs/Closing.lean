import UnidriveMount.Fs.Uploads

/-!
# Taking a handle out

A `release` takes its handle out of the table, uploads when the handle is dirty, and closes it.
Where a request is with this is its `Closing` stage, the ghost value of the contract `closings`.
The requests that take a handle out are its `release` and a `mknod`, which takes out the handle it
has published itself.

`Closable` says what is known of a handle whose `release` is its last request: it stays in the
table until then, and a clean handle that is taken out has everything uploaded (`run_closable`).
-/

namespace UnidriveMount

open Lib
open Lib.Prog (only_perform)

/-! ## The stages of a release -/

/-- Where a request is with taking the handle out of the table: it never does (`never`), it is a
`mknod` that has not published the handle, has published it, or has taken it out again (`making`,
`made`, `unmade`), or it is a `release` that has not looked, found nothing, took the handle, sent
its upload, or closed it, after an upload or without. -/
inductive Closing : Type where
  | never
  | making
  | made
  | unmade
  | releasing
  | missed
  | taken (h : OpenHandle)
  | sent (h : OpenHandle)
  | closed (h : OpenHandle) (uploaded : Bool)

/-- The stage at the start of a request. -/
def Closing.init (fh : Nat) : Op → Closing
  | .release fh' => if fh' = fh then .releasing else .never
  | .mknod .. => .making
  | _ => .never

/-- The stage after an action. -/
def Closing.next (fh : Nat) (g : Closing) : (a : Act) → a.Ret → Closing
  | .handleInsert fh' _, _ => match g with
    | .making => if fh' = fh then .made else .making
    | g => g
  | .handleRemove fh', r => match g with
    | .releasing => match r with
      | some h => .taken h
      | none => .missed
    | .made => if fh' = fh then .unmade else .made
    | g => g
  | .call (.openWrite id _ _), _ => match g with
    | .taken h => if id = h.handleId then .sent h else .taken h
    | g => g
  | .call (.closeHandle id), _ => match g with
    | .taken h => if id = h.handleId then .closed h false else .taken h
    | .sent h => if id = h.handleId then .closed h true else .sent h
    | g => g
  | _, _ => g

/-- What a request can do at a stage: only a `release` and a `mknod` of the handle take it out, and
a `release` that took it dirty sends the upload at once. -/
def Closing.Pre (fh : Nat) : Closing → Act → Prop
  | releasing, a => a = .handleRemove fh
  | made, _ => True
  | taken h, a => a ≠ .handleRemove fh ∧
      (h.dirty = true → a = .call (.openWrite h.handleId h.remotePath h.cachePath))
  | _, a => a ≠ .handleRemove fh

/-- The contract of the requests with respect to taking out `fh`. -/
def closings (fh : Nat) : Contract Act Act.Ret Closing where
  pre := Closing.Pre fh
  allow _ _ _ := True
  next := Closing.next fh

/-- A `release` ends having found nothing or having closed what it took. -/
def Closing.Post (fh : Nat) (o : Op) (_res : Except Errno Reply) (g : Closing) : Prop :=
  o = .release fh → g = .missed ∨ ∃ h b, g = .closed h b

/-- The action has nothing to do with taking out a handle. -/
def Act.KeepsHandles : Act → Prop
  | handleInsert .. | handleRemove _ => False
  | _ => True

theorem Closing.next_never (fh : Nat) (a : Act) (r : a.Ret) :
    Closing.next fh .never a r = .never := by
  unfold Closing.next
  split <;> rfl

theorem Closing.next_making {fh : Nat} {a : Act} (r : a.Ret) (ha : a.KeepsHandles) :
    Closing.next fh .making a r = .making := by
  unfold Closing.next
  split
  · exact ha.elim
  all_goals rfl

theorem Closing.pre_of_commits {fh : Nat} {g : Closing} (hg : g = .unmade ∨ g = .making) {a : Act}
    (ha : a.Commits) : g.Pre fh a := by
  rcases hg with rfl | rfl <;> rintro rfl <;> exact ha

theorem Closing.next_of_commits {fh : Nat} {g : Closing} (hg : g = .unmade ∨ g = .making)
    {a : Act} (ha : a.Commits) (r : a.Ret) : g.next fh a r = g := by
  unfold Closing.next
  split
  · exact ha.elim
  · exact ha.elim
  all_goals rcases hg with rfl | rfl <;> rfl

/-- No other request than a `release` and a `mknod` takes a handle out. -/
theorem Op.May.ne_handleRemove {o : Op} {fh : Nat} (hr : o ≠ .release fh)
    (hm : ∀ parent name mode, o ≠ .mknod parent name mode) {a : Act} (h : o.May a) :
    a ≠ .handleRemove fh := by
  rintro rfl
  rcases h with h | h
  · cases o with
    | release fh' =>
      cases h
      exact hr rfl
    | mknod parent name mode => exact hm _ _ _ rfl
    | _ => exact h
  · cases o <;> simp [Op.Shared, Act.Looks, Act.Lists, Act.Records, Act.Forgets, Act.Commits] at h

/-- The number `createInternal` answers is that of the handle it has published. -/
theorem createInternal_made {nfc : Str → Str} {parent : Ino} {name : OsStr} {fh : Nat} :
    (closings fh).Obeys (fun res g => match res with
      | .ok (fh', _) => g = if fh' = fh then .made else .making
      | .error _ => g = .making) (createInternal nfc parent name) .making := by
  have skip : ∀ {α β : Type} {p : FsProg α} {f : α → FsProg β}
      {post : Except Errno β → Closing → Prop}, p.Only Act.KeepsHandles →
      (∀ e, post (.error e) .making) → (∀ x, (closings fh).Obeys post (f x) .making) →
      (closings fh).Obeys post (p >>= f) .making := fun hp herr hf =>
    Contract.obeys_bind_of_only hp (fun a ha h => by subst h; exact ha)
      (fun a r ha => Closing.next_making r ha) herr hf
  have looks : ∀ a : Act, a.Looks → a.KeepsHandles := fun a h => by cases a <;> trivial
  have records : ∀ a : Act, a.Records → a.KeepsHandles := fun a h => by cases a <;> trivial
  refine skip (only_okOr ..) (fun _ => rfl) fun _ => ?_
  refine skip (only_perform trivial) (fun _ => rfl) fun _ => ?_
  refine skip (only_okOr ..) (fun _ => rfl) fun _ => ?_
  refine skip (refuseNfcCollision_only looks) (fun _ => rfl) fun _ => ?_
  refine skip (only_perform trivial) (fun _ => rfl) fun _ => ?_
  refine skip (only_ipc trivial trivial) (fun _ => rfl) fun _ => ?_
  refine skip (only_mapErr ..) (fun _ => rfl) fun _ => ?_
  refine skip (only_perform trivial) (fun _ => rfl) fun _ => ?_
  refine skip (only_okOr ..) (fun _ => rfl) fun _ => ?_
  refine skip (only_perform trivial) (fun _ => rfl) fun _ => ?_
  refine skip (recordRawName_only records) (fun _ => rfl) fun _ => ?_
  refine skip (only_perform trivial) (fun _ => rfl) fun _ => ?_
  refine skip (only_perform trivial) (fun _ => rfl) fun _ => ?_
  simp only [publish, Contract.obeys_bind, Contract.obeys_perform]
  exact ⟨(nomatch ·), fun fh' _ => ⟨(nomatch ·), fun _ _ => rfl⟩⟩

/-- A `release` takes the handle out, uploads if it was dirty, and closes. -/
theorem release_closes (nfc : Str → Str) (cacheRoot : Option Str) (fh : Nat) :
    (closings fh).Obeys (Closing.Post fh (.release fh)) ((Op.release fh).prog nfc cacheRoot)
      .releasing := by
  simp only [Op.prog, UnidriveMount.release, ipc, Contract.obeys_bind, Contract.obeys_perform]
  refine ⟨rfl, fun r _ => ?_⟩
  cases r with
  | none => exact fun _ => .inl rfl
  | some h =>
    have hsent : (closings fh).next (.taken h)
        (.call (.openWrite h.handleId h.remotePath h.cachePath)) () = .sent h := if_pos rfl
    have hclean : (closings fh).next (.taken h) (.call (.closeHandle h.handleId)) () =
        .closed h false := if_pos rfl
    have hdirty : (closings fh).next (.sent h) (.call (.closeHandle h.handleId)) () =
        .closed h true := if_pos rfl
    show (closings fh).Obeys _ _ (.taken h)
    simp only [commitIfDirty, ipc]
    cases hd : h.dirty with
    | false =>
      simp only [Bool.false_eq_true, ↓reduceIte, Contract.obeys_bind, Contract.obeys_pure]
      refine ⟨⟨fun h => (by cases h), fun hd' => ?_⟩, ?_⟩
      · cases hd.symm.trans hd'
      · rintro ⟨⟩ -
        rw [hclean]
        exact ⟨fun h => (by cases h), fun _ _ _ => .inr ⟨h, false, rfl⟩⟩
    | true =>
      simp only [↓reduceIte, Contract.obeys_bind, Contract.obeys_pure]
      refine ⟨⟨fun h => (by cases h), fun _ => rfl⟩, ?_⟩
      rintro ⟨⟩ -
      rw [hsent]
      refine ⟨fun h => (by cases h), fun _ _ => ⟨fun h => (by cases h), ?_⟩⟩
      rintro ⟨⟩ -
      rw [show (closings fh).next ((closings fh).next _ (.reply _) _) (.call _) _ = _ from hdirty]
      exact ⟨fun h => (by cases h), fun _ _ _ => .inr ⟨h, true, rfl⟩⟩

/-- A `mknod` takes out no handle but its own. -/
theorem mknod_closes (nfc : Str → Str) (cacheRoot : Option Str) (fh : Nat) (parent : Ino)
    (name : OsStr) (mode : UInt32) :
    (closings fh).Obeys (fun _ _ => True) ((Op.mknod parent name mode).prog nfc cacheRoot)
      .making := by
  simp only [Op.prog, UnidriveMount.mknod, Contract.obeys_bind]
  split
  · trivial
  · refine Contract.obeys_bind.2 (createInternal_made.mono fun res g hg => ?_)
    cases res with
    | error e => trivial
    | ok x =>
      obtain ⟨fh', attr, ino⟩ := x
      dsimp only at hg
      refine Contract.obeys_bind.2 (Contract.obeys_perform.2 ⟨?_, fun r _ => ?_⟩)
      · rw [hg]
        split
        · trivial
        · next hne => exact fun h => hne (by cases h; rfl)
      · have hg' : (closings fh).next g (.handleRemove fh') r = .unmade ∨
            (closings fh).next g (.handleRemove fh') r = .making := by
          rw [hg]
          split
          · next heq => exact .inl (if_pos heq)
          · exact .inr rfl
        generalize (closings fh).next g (.handleRemove fh') r = g' at hg'
        refine Contract.obeys_of_only (P := Act.Commits) ?_
          (fun a ha => Closing.pre_of_commits hg' ha)
          (fun a r ha => Closing.next_of_commits hg' ha r) fun res => by cases res <;> trivial
        cases r with
        | some h =>
          exact .bind (only_ipc trivial trivial) fun _ =>
            .bind (only_ipc trivial trivial) fun _ => only_pure _
        | none => exact only_pure _

/-- **Every request keeps the contract.** -/
theorem closings_honoured (nfc : Str → Str) (cacheRoot : Option Str) (fh : Nat) :
    (fsService nfc cacheRoot).Honours (closings fh) (Closing.init fh) (Closing.Post fh) := by
  intro o
  by_cases hr : o = .release fh
  · subst hr
    have hinit : Closing.init fh (.release fh) = .releasing := if_pos rfl
    rw [hinit]
    exact release_closes nfc cacheRoot fh
  · by_cases hm : ∀ parent name mode, o ≠ .mknod parent name mode
    · have hinit : Closing.init fh o = .never := by
        cases o with
        | release fh' =>
          have hne : fh' ≠ fh := fun h => hr (h ▸ rfl)
          exact if_neg hne
        | mknod => exact absurd rfl (hm _ _ _)
        | _ => rfl
      rw [hinit]
      exact Contract.obeys_of_only (Op.prog_only o) (fun a ha => ha.ne_handleRemove hr hm)
        (fun a r _ => Closing.next_never fh a r) fun _ ho => absurd ho hr
    · simp only [not_forall, not_not] at hm
      obtain ⟨parent, name, mode, rfl⟩ := hm
      exact (mknod_closes nfc cacheRoot fh parent name mode).mono fun _ _ _ ho => nomatch ho

/-! ## What the stages mean -/

/-- The request is made on the handle `fh`. -/
def Op.Uses (fh : Nat) : Op → Prop
  | read fh' _ _ | write _ fh' _ _ | fsync fh' _ | release fh' | setattr _ (some fh') _ => fh' = fh
  | _ => False

/-- The requests that hand out a handle. -/
def Op.Opens : Op → Prop
  | «open» .. | create .. => True
  | _ => False

/-- The handle `fh` was taken out of the table. -/
def Removed (l : List FsEvent) (fh : Nat) : Prop :=
  ∃ (i t : Nat) (h : OpenHandle), l[i]? = some (Event.acted t (.handleRemove fh) (some h))

/-- Whatever marked the handle is uploaded. -/
def AllUploaded (l : List FsEvent) (fh : Nat) : Prop :=
  ∀ (m : Nat) (e : FsEvent), l[m]? = some e → Marks fh e → UploadedSince l fh m

/-- The stage of request `t`, which is `o`. -/
def closing (fh : Nat) (o : Op) (c : FsConfig) (t : Nat) : Closing :=
  (closings fh).ghost (Closing.init fh o) t c.log

/-- What is known of the log when request `t` is at a stage. A `release` that found nothing was not
for a handle that an `open` or a `create` had published before; one that took a clean handle has
everything uploaded. -/
def Closing.Facts (l : List FsEvent) (fh t : Nat) : Closing → Prop
  | releasing => ∀ (i : Nat) (a : Act) (r : a.Ret), l[i]? ≠ some (Event.acted t a r)
  | made => ∃ (i : Nat) (h : OpenHandle), l[i]? = some (Event.acted t (.handleInsert fh h) ())
  | missed => ∀ (i s u q : Nat) (h : OpenHandle) (o o' : Op),
      l[i]? = some (Event.acted u (.handleInsert fh h) ()) → l[s]? = some (.started t o) → i < s →
      l[q]? = some (.started u o') → ¬ o'.Opens
  | taken h => Removed l fh ∧ Published l fh h.handleId ∧ (h.dirty = false → AllUploaded l fh)
  | sent h => Published l fh h.handleId ∧ ∃ (j : Nat) (path cache : Str),
      l[j]? = some (Event.acted t (.call (.openWrite h.handleId path cache)) ())
  | closed h true => Published l fh h.handleId ∧ ∃ (j i : Nat) (path cache : Str), j < i ∧
      l[j]? = some (Event.acted t (.call (.openWrite h.handleId path cache)) ()) ∧
      l[i]? = some (Event.acted t (.call (.closeHandle h.handleId)) ())
  | closed _ false => Removed l fh ∧ AllUploaded l fh
  | _ => True

section
variable {l : List FsEvent} {fh t : Nat} {g : Closing} {e : FsEvent}

theorem Removed.snoc (e : FsEvent) (h : Removed l fh) : Removed (l ++ [e]) fh := by
  obtain ⟨i, t, h, hi⟩ := h
  exact ⟨i, t, h, getElem?_snoc e hi⟩

theorem AllUploaded.snoc (h : AllUploaded l fh) (he : ¬ Marks fh e) :
    AllUploaded (l ++ [e]) fh := by
  intro m e' hm hmark
  rcases getElem?_snoc_iff.1 hm with hm | ⟨-, rfl⟩
  · exact (h m e' hm hmark).snoc e
  · exact absurd hmark he

/-- An entry of another request, or a return, keeps the facts, as long as nothing marks a handle
that was taken out. -/
theorem Closing.Facts.snoc (h : g.Facts l fh t) (hmark : Removed l fh → ¬ Marks fh e)
    (hstart : ∀ o, e ≠ .started t o) (hown : ∀ a r, g = .releasing → e ≠ .acted t a r)
    (hnew : ∀ u o', e = .started u o' → ∀ (i : Nat) (a : Act) (r : a.Ret), l[i]? ≠ some (Event.acted u a r)) :
    g.Facts (l ++ [e]) fh t := by
  cases g with
  | releasing =>
    intro i a r hi
    rcases getElem?_snoc_iff.1 hi with hi | ⟨-, hi⟩
    · exact h i a r hi
    · exact hown a r rfl hi.symm
  | made =>
    obtain ⟨i, h', hi⟩ := h
    exact ⟨i, h', getElem?_snoc e hi⟩
  | missed =>
    intro i s u q h' o o' hi hs his hq
    have hs : l[s]? = some (.started t o) :=
      (getElem?_snoc_iff.1 hs).resolve_right fun hs => hstart o hs.2.symm
    have hi : l[i]? = some (Event.acted u (.handleInsert fh h') ()) := by
      have := getElem?_lt hs
      rwa [List.getElem?_append_left (by omega)] at hi
    rcases getElem?_snoc_iff.1 hq with hq | ⟨-, hq⟩
    · exact h i s u q h' o o' hi hs his hq
    · exact absurd hi (hnew u o' hq.symm i _ _)
  | taken h' =>
    exact ⟨h.1.snoc e, h.2.1.snoc e, fun hd => (h.2.2 hd).snoc (hmark h.1)⟩
  | sent h' =>
    obtain ⟨hp, j, path, cache, hj⟩ := h
    exact ⟨hp.snoc e, j, path, cache, getElem?_snoc e hj⟩
  | closed h' b =>
    cases b with
    | true =>
      obtain ⟨hp, j, i, path, cache, hji, hj, hi⟩ := h
      exact ⟨hp.snoc e, j, i, path, cache, hji, getElem?_snoc e hj, getElem?_snoc e hi⟩
    | false => exact ⟨h.1.snoc e, h.2.snoc (hmark h.1)⟩
  | never | making | unmade => trivial

end

/-! ## Runs that close the handle last -/

/-- The step keeps to the order of the kernel's requests on the handle `fh`: its `release` starts
when no request on it is in progress, and none starts afterwards. And the handle numbers do not run
out. -/
def ClosedLast (fh : Nat) (c : FsConfig) (e : FsEvent) : Prop :=
  DrawsFew c e ∧
    match e with
    | .started _ o => o.Uses fh →
      (∀ i v : Nat, c.log[i]? ≠ some (.started v (.release fh))) ∧
        (o = .release fh → ∀ u o' p, c.live u = some (o', p) → ¬ o'.Uses fh)
    | _ => True

/-- The stages of a `release` belong to a `release` of the handle, those of a `mknod` to one. -/
def Closing.Of (fh : Nat) (o : Op) : Closing → Prop
  | never => True
  | making | made | unmade => ∃ parent name mode, o = .mknod parent name mode
  | _ => o = .release fh

theorem Closing.init_of (fh : Nat) (o : Op) : (Closing.init fh o).Of fh o := by
  cases o with
  | release fh' =>
    simp only [Closing.init]
    split
    · next h => exact h ▸ rfl
    · trivial
  | mknod parent name mode => exact ⟨parent, name, mode, rfl⟩
  | _ => trivial

theorem Closing.Of.next {fh : Nat} {o : Op} {g : Closing} (h : g.Of fh o) (a : Act) (r : a.Ret) :
    (g.next fh a r).Of fh o := by
  unfold Closing.next
  split <;> cases g <;> first | exact h | (dsimp only; split <;> exact h)

/-- Request `t` may take the handle out: it is its `release`, or a `mknod` that published it. -/
def MayRemove (l : List FsEvent) (fh t : Nat) : Prop :=
  (∃ s : Nat, l[s]? = some (.started t (.release fh))) ∨
    (∃ (s : Nat) (parent : Ino) (name : OsStr) (mode : UInt32),
      l[s]? = some (.started t (.mknod parent name mode))) ∧
    ∃ (i : Nat) (h : OpenHandle), l[i]? = some (Event.acted t (.handleInsert fh h) ())

/-- The life of the handle `fh`: it is published once, and is in the table until a request that may
takes it out, for good. -/
structure HandleLife (fh : Nat) (s : FsState) (l : List FsEvent) : Prop where
  inserted : ∀ (i j u v : Nat) (h h' : OpenHandle),
    l[i]? = some (Event.acted u (.handleInsert fh h) ()) →
    l[j]? = some (Event.acted v (.handleInsert fh h') ()) → u = v
  kept : ∀ id, Published l fh id → (∃ h, s.openHandles.get fh = some h) ∨ Removed l fh
  gone : Removed l fh → s.openHandles.get fh = none ∧ ∃ id, Published l fh id
  removers : ∀ (i v : Nat) (h : OpenHandle),
    l[i]? = some (Event.acted v (.handleRemove fh) (some h)) → MayRemove l fh v

/-- What is known of the requests on the handle `fh`: a `release` in progress is alone, it is the
only one, and the stages mean what they say. -/
structure Closable (fh : Nat) (c : FsConfig) : Prop where
  life : HandleLife fh c.st c.log
  alone : ∀ t p, c.live t = some (.release fh, p) →
    ∀ u o' p', c.live u = some (o', p') → o'.Uses fh → u = t
  once : ∀ i j v w : Nat, c.log[i]? = some (.started v (.release fh)) →
    c.log[j]? = some (.started w (.release fh)) → v = w
  stages : ∀ t o p, c.live t = some (o, p) → (closing fh o c t).Of fh o
  facts : ∀ t o p, c.live t = some (o, p) → (closing fh o c t).Facts c.log fh t

section
variable {nfc : Str → Str} {cacheRoot : Option Str} {disk : Disk} {fh t : Nat} {c : FsConfig}
  {o : Op} {p : FsProg Reply} {l : List FsEvent}

theorem closing_start (p : FsProg Reply) (o' : Op) (u : Nat) :
    closing fh o' (c.start t o p) u = closing fh o' c u :=
  Contract.ghost_snoc_started o

theorem closing_finish (res : Except Errno Reply) (o' : Op) (u : Nat) :
    closing fh o' (c.finish t o res) u = closing fh o' c u :=
  Contract.ghost_snoc_returned o res

theorem closing_act_self {a : Act} (r : a.Ret) (p : FsProg Reply) (s : FsState) :
    closing fh o (c.act t o a r p s) t = (closing fh o c t).next fh a r :=
  Contract.ghost_snoc_acted_self a r

theorem closing_act_ne {u : Nat} (hu : u ≠ t) {a : Act} (r : a.Ret) (p : FsProg Reply)
    (s : FsState) (o' : Op) : closing fh o' (c.act t o a r p s) u = closing fh o' c u :=
  Contract.ghost_snoc_acted_ne (Ne.symm hu) a r

theorem closing_of_fresh (hfresh : ∀ e ∈ c.log, e.tid ≠ t) :
    closing fh o c t = Closing.init fh o :=
  Contract.ghost_eq_init hfresh

theorem Closable.initial (fh : Nat) (disk : Disk) : Closable fh (.initial (.new disk)) where
  life := {
    inserted i j u v h h' hi := by simp at hi
    kept id hp := by
      obtain ⟨i, t, h, hi, -⟩ := hp
      simp at hi
    gone hr := by
      obtain ⟨i, t, h, hi⟩ := hr
      simp at hi
    removers i v h hi := by simp at hi }
  alone t p hlive := by simp at hlive
  once i j v w hi := by simp at hi
  stages t o p hlive := by simp at hlive
  facts t o p hlive := by simp at hlive

theorem MayRemove.snoc (e : FsEvent) (h : MayRemove l fh t) : MayRemove (l ++ [e]) fh t := by
  rcases h with ⟨s, hs⟩ | ⟨⟨s, parent, name, mode, hs⟩, i, h, hi⟩
  · exact .inl ⟨s, getElem?_snoc e hs⟩
  · exact .inr ⟨⟨s, parent, name, mode, getElem?_snoc e hs⟩, i, h, getElem?_snoc e hi⟩

/-- An entry that is no action changes nothing in the life of a handle. -/
theorem HandleLife.snoc {s : FsState} (hL : HandleLife fh s l) {e : FsEvent}
    (he : ∀ t a r, e ≠ .acted t a r) : HandleLife fh s (l ++ [e]) := by
  have hold : ∀ {i t : Nat} {a : Act} {r : a.Ret},
      (l ++ [e])[i]? = some (Event.acted t a r) → l[i]? = some (Event.acted t a r) :=
    fun hi => (getElem?_snoc_iff.1 hi).resolve_right fun hi => he _ _ _ hi.2.symm
  constructor
  · exact fun i j u v h h' hi hj => hL.inserted i j u v h h' (hold hi) (hold hj)
  · rintro id ⟨i, t, h, hi, hid⟩
    exact (hL.kept id ⟨i, t, h, hold hi, hid⟩).imp_right (Removed.snoc e)
  · rintro ⟨i, t, h, hi⟩
    obtain ⟨hg, id, hp⟩ := hL.gone ⟨i, t, h, hold hi⟩
    exact ⟨hg, id, hp.snoc e⟩
  · exact fun i v h hi => (hL.removers i v h (hold hi)).snoc e

/-- One action, of a request that may take the handle out if it does. -/
theorem HandleLife.act {s s' : FsState} (hL : HandleLife fh s l) {a : Act} {r : a.Ret}
    (hnamed : ∀ h, s.openHandles.get fh = some h → Published l fh h.handleId)
    (hfresh : ∀ h, a = .handleInsert fh h → ∀ id, ¬ Published l fh id)
    (hmay : a = .handleRemove fh → MayRemove l fh t)
    (hh : HandleStep fh a r (s.openHandles.get fh) (s'.openHandles.get fh)) :
    HandleLife fh s' (l ++ [.acted t a r]) := by
  constructor
  case inserted =>
    intro i j u v h h' hi hj
    rcases getElem?_snoc_iff.1 hi with hi' | ⟨-, hi'⟩ <;>
      rcases getElem?_snoc_iff.1 hj with hj' | ⟨-, hj'⟩
    · exact hL.inserted i j u v h h' hi' hj'
    · cases hj'
      exact absurd ⟨i, u, h, hi', rfl⟩ (hfresh h' rfl h.handleId)
    · cases hi'
      exact absurd ⟨j, v, h', hj', rfl⟩ (hfresh h rfl h'.handleId)
    · cases hi'
      cases hj'
      rfl
  case kept =>
    rintro id ⟨i, u, h, hi, hid⟩
    rcases getElem?_snoc_iff.1 hi with hi | ⟨-, hi⟩
    · rcases hL.kept id ⟨i, u, h, hi, hid⟩ with ⟨h', hget⟩ | hr
      · rcases hh.of_some hget t with hlive | hrem
        · exact .inl hlive
        · exact .inr ⟨l.length, t, h', getElem?_snoc_iff.2 (.inr ⟨rfl, hrem.symm⟩)⟩
      · exact .inr (hr.snoc _)
    · cases hi
      exact .inl ⟨h, hh.of_insert⟩
  case gone =>
    rintro ⟨i, u, h, hi⟩
    rcases getElem?_snoc_iff.1 hi with hi | ⟨-, hi⟩
    · obtain ⟨hget, id, hp⟩ := hL.gone ⟨i, u, h, hi⟩
      refine ⟨(hh.of_none hget).resolve_right ?_, id, hp.snoc _⟩
      rintro ⟨h', rfl⟩
      exact hfresh h' rfl id hp
    · cases hi
      obtain ⟨hget, hnone⟩ := hh.of_remove
      exact ⟨hnone, _, (hnamed h hget).snoc _⟩
  case removers =>
    intro i v h hi
    rcases getElem?_snoc_iff.1 hi with hi | ⟨-, hi⟩
    · exact (hL.removers i v h hi).snoc _
    · cases hi
      exact (hmay rfl).snoc _

/-- One action of the request itself keeps the facts, if what a `release` finds at the removal is as
they say. -/
theorem Closing.Facts.next {g : Closing} (h : g.Facts l fh t) {a : Act} {r : a.Ret}
    (hpre : g.Pre fh a)
    (hmark : Removed (l ++ [.acted t a r]) fh → ¬ Marks fh (.acted t a r))
    (hsome : g = .releasing → ∀ h, (Event.acted t a r : FsEvent) =
      .acted t (.handleRemove fh) (some h) → Published l fh h.handleId ∧
        (h.dirty = false → AllUploaded l fh))
    (hnone : g = .releasing → (Event.acted t a r : FsEvent) = .acted t (.handleRemove fh) none →
      Closing.missed.Facts l fh t) :
    (g.next fh a r).Facts (l ++ [.acted t a r]) fh t := by
  have hend : (l ++ [Event.acted t a r])[l.length]? = some (Event.acted t a r) :=
    getElem?_snoc_iff.2 (.inr ⟨rfl, rfl⟩)
  -- a stage that stays keeps its facts
  have stay : ∀ g' : Closing, g'.Facts l fh t → g' ≠ .releasing →
      g'.Facts (l ++ [.acted t a r]) fh t := fun g' hg' hne =>
    hg'.snoc (fun hr => hmark (hr.snoc _)) (fun _ => by simp) (fun _ _ heq => absurd heq hne)
      fun _ _ heq => by cases heq
  cases g with
  | never => rw [Closing.next_never]; trivial
  | making =>
    unfold Closing.next
    split
    · next fh' h' _ =>
      dsimp only
      split
      · next hfh => exact ⟨l.length, h', hfh ▸ hend⟩
      · trivial
    all_goals trivial
  | made =>
    unfold Closing.next
    split
    · exact stay .made h (by simp)
    · dsimp only
      split
      · trivial
      · exact stay .made h (by simp)
    all_goals exact stay .made h (by simp)
  | unmade =>
    unfold Closing.next
    split <;> trivial
  | releasing =>
    cases hpre
    cases r with
    | none => exact stay .missed (hnone rfl rfl) (by simp)
    | some h' =>
      obtain ⟨hp, hup⟩ := hsome rfl h' rfl
      have hr : Removed (l ++ [.acted t (.handleRemove fh) (some h')]) fh :=
        ⟨l.length, t, h', hend⟩
      exact ⟨hr, hp.snoc _, fun hd => (hup hd).snoc (hmark hr)⟩
  | missed =>
    unfold Closing.next
    split <;> exact stay .missed h (by simp)
  | taken h' =>
    unfold Closing.next
    split
    · exact stay _ h (by simp)
    · exact stay _ h (by simp)
    · next id path cache _ =>
      dsimp only
      split
      · next hid =>
        subst hid
        exact ⟨h.2.1.snoc _, l.length, path, cache, hend⟩
      · exact stay _ h (by simp)
    · dsimp only
      split
      · have hd : h'.dirty = false := by
          cases hd : h'.dirty with
          | false => rfl
          | true => cases hpre.2 hd
        exact stay (.closed h' false) ⟨h.1, h.2.2 hd⟩ (by simp)
      · exact stay _ h (by simp)
    · exact stay _ h (by simp)
  | sent h' =>
    unfold Closing.next
    split
    · exact stay _ h (by simp)
    · exact stay _ h (by simp)
    · exact stay _ h (by simp)
    · dsimp only
      split
      · next hid =>
        subst hid
        obtain ⟨hp, j, path, cache, hj⟩ := h
        exact ⟨hp.snoc _, j, l.length, path, cache, getElem?_lt hj, getElem?_snoc _ hj, hend⟩
      · exact stay _ h (by simp)
    · exact stay _ h (by simp)
  | closed h' b =>
    unfold Closing.next
    split <;> exact stay _ h (by simp)

theorem Closing.init_facts (hfresh : ∀ e ∈ l, e.tid ≠ t) :
    (Closing.init fh o).Facts (l ++ [.started t o]) fh t := by
  cases o with
  | release fh' =>
    simp only [Closing.init]
    split
    · intro i a r hi
      rcases getElem?_snoc_iff.1 hi with hi | ⟨-, hi⟩
      · exact hfresh _ (List.mem_of_getElem? hi) rfl
      · cases hi
    · trivial
  | _ => trivial

/-- The next entry of the log marks no handle that was taken out. -/
theorem HandleLife.not_marks {s s' : FsState} {a : Act} {r : a.Ret}
    (hL : HandleLife fh s' (l ++ [.acted t a r]))
    (hh : HandleStep fh a r (s.openHandles.get fh) (s'.openHandles.get fh))
    (hr : Removed (l ++ [.acted t a r]) fh) : ¬ Marks fh (.acted t a r) := by
  intro hm
  obtain ⟨h', hget, -⟩ := hh.of_marks hm
  rw [(hL.gone hr).1] at hget
  cases hget

variable {ok : FsConfig → FsEvent → Prop}

theorem Closable.start (hI : Closable fh c)
    (hrun : (fsService nfc cacheRoot).Run ok (.initial (.new disk)) c)
    (hfresh : ∀ e ∈ c.log, e.tid ≠ t) (hok : ClosedLast fh c (.started t o)) :
    Closable fh (c.start t o p) where
  life := hI.life.snoc fun _ _ _ => by simp
  alone := by
    intro v pv hv u o' p' hu huse
    rw [Config.start_live] at hv hu
    split at hv
    · next hvt =>
      split at hu
      · next hut => exact hut.trans hvt.symm
      · cases hv
        exact absurd huse ((hok.2 rfl).2 rfl u o' p' hu)
    · obtain ⟨i, hi⟩ := hrun.started_of_live hv
      split at hu
      · cases hu
        exact absurd hi ((hok.2 huse).1 i v)
      · exact hI.alone v pv hv u o' p' hu huse
  once := by
    intro i j v w hi hj
    rcases getElem?_snoc_iff.1 hi with hi' | ⟨-, hi'⟩ <;>
      rcases getElem?_snoc_iff.1 hj with hj' | ⟨-, hj'⟩
    · exact hI.once i j v w hi' hj'
    · cases hj'
      exact absurd hi' ((hok.2 rfl).1 i v)
    · cases hi'
      exact absurd hj' ((hok.2 rfl).1 j w)
    · cases hi'
      cases hj'
      rfl
  stages := by
    intro u o' p' hu
    rw [Config.start_live] at hu
    rw [closing_start]
    split at hu
    · next hut =>
      subst hut
      cases hu
      rw [closing_of_fresh hfresh]
      exact Closing.init_of fh _
    · exact hI.stages u o' p' hu
  facts := by
    intro u o' p' hu
    rw [Config.start_live] at hu
    rw [closing_start, Config.start_log]
    split at hu
    · next hut =>
      subst hut
      cases hu
      rw [closing_of_fresh hfresh]
      exact Closing.init_facts hfresh
    · next hut =>
      refine (hI.facts u o' p' hu).snoc (fun _ => id) (fun o h => hut (by cases h; rfl))
        (fun _ _ _ => by simp) fun v o'' heq i a r hi => ?_
      cases heq
      exact hfresh _ (List.mem_of_getElem? hi) rfl

theorem Closable.finish (hI : Closable fh c) {res : Except Errno Reply} :
    Closable fh (c.finish t o res) where
  life := hI.life.snoc fun _ _ _ => by simp
  alone := by
    intro v pv hv u o' p' hu huse
    rw [Config.finish_live] at hv hu
    split at hv
    · cases hv
    · split at hu
      · cases hu
      · exact hI.alone v pv hv u o' p' hu huse
  once := by
    intro i j v w hi hj
    exact hI.once i j v w ((getElem?_snoc_iff.1 hi).resolve_right fun h => by cases h.2)
      ((getElem?_snoc_iff.1 hj).resolve_right fun h => by cases h.2)
  stages := by
    intro u o' p' hu
    rw [Config.finish_live] at hu
    rw [closing_finish]
    split at hu
    · cases hu
    · exact hI.stages u o' p' hu
  facts := by
    intro u o' p' hu
    rw [Config.finish_live] at hu
    rw [closing_finish, Config.finish_log]
    split at hu
    · cases hu
    · exact (hI.facts u o' p' hu).snoc (fun _ => id) (fun _ => by simp) (fun _ _ _ => by simp)
        fun _ _ heq => by cases heq

variable {a : Act} {r : a.Ret} {k : a.Ret → FsProg Reply} {s : FsState}

/-- A clean handle that its `release` takes out has everything uploaded: no other request on the
handle is in progress. -/
theorem Closable.allUploaded (hI : Closable fh c)
    (hrun : (fsService nfc cacheRoot).Run ok (.initial (.new disk)) c)
    (hacc : Accounted fh c) (hlive : c.live t = some (.release fh, p)) {h : OpenHandle}
    (hget : c.st.openHandles.get fh = some h) (hd : h.dirty = false) :
    AllUploaded c.log fh := by
  intro m e hm he
  rcases hacc.accounted m e h hm he hget with hup | hd' | ⟨u, o', p', hu, hh⟩
  · exact hup
  · simp [hd] at hd'
  · obtain ⟨i, datasync, hi⟩ := hh.isFsync (hacc.facts u o' p' hu)
    obtain ⟨j, hj⟩ := hrun.started_of_live hu
    obtain ⟨-, rfl⟩ := hrun.started_unique hj hi
    cases hI.alone t p hlive u _ p' hu rfl
    rw [hlive] at hu
    cases hu

/-- A `release` finds nothing only if no `open` and no `create` published the handle before. -/
theorem Closable.missed (hI : Closable fh c)
    (hrun : (fsService nfc cacheRoot).Run ok (.initial (.new disk)) c)
    (hlive : c.live t = some (o, p)) (hstage : closing fh o c t = .releasing)
    (hget : c.st.openHandles.get fh = none) : Closing.missed.Facts c.log fh t := by
  intro i s u q h o₀ o' hi hs his hq hopens
  have ho : o = .release fh := by
    have := hI.stages t o p hlive
    rwa [hstage] at this
  rcases hI.life.kept h.handleId ⟨i, u, h, hi, rfl⟩ with ⟨h', hget'⟩ | ⟨i', v, h', hi'⟩
  · rw [hget] at hget'
    cases hget'
  · rcases hI.life.removers i' v h' hi' with ⟨s', hs'⟩ | ⟨⟨s', parent, name, mode, hs'⟩, j, h'', hj⟩
    · -- the other removal would be this request's own
      obtain ⟨st, hst⟩ := hrun.started_of_live hlive
      have hv : v = t := hI.once s' st v t hs' (ho ▸ hst)
      have hfacts := hI.facts t o p hlive
      rw [hstage] at hfacts
      exact hfacts i' _ _ (hv ▸ hi')
    · cases hI.life.inserted i j u v h h'' hi hj
      obtain ⟨-, rfl⟩ := hrun.started_unique hq hs'
      exact hopens

theorem Closable.act (hI : Closable fh c)
    (hrun : (fsService nfc cacheRoot).Run ok (.initial (.new disk)) c) (hacc : Accounted fh c)
    (hlive : c.live t = some (o, .act a k)) (hpre : (closing fh o c t).Pre fh a)
    (honce : HandedOutOnce c (.acted t a r)) (hstep : fsMachine.Step a c.st r s) :
    Closable fh (c.act t o a r (k r) s) := by
  have hh := handleStep_of_step hstep fh
  have hstage := hI.stages t _ _ hlive
  have hfacts := hI.facts t _ _ hlive
  have hmay : a = .handleRemove fh → MayRemove c.log fh t := by
    intro ha
    obtain ⟨i, hi⟩ := hrun.started_of_live hlive
    cases hg : closing fh o c t with
    | releasing =>
      rw [hg] at hstage
      exact .inl ⟨i, hstage ▸ hi⟩
    | made =>
      rw [hg] at hstage hfacts
      obtain ⟨parent, name, mode, rfl⟩ := hstage
      exact .inr ⟨⟨i, parent, name, mode, hi⟩, hfacts⟩
    | taken h =>
      rw [hg] at hpre
      exact absurd ha hpre.1
    | _ =>
      rw [hg] at hpre
      exact absurd ha hpre
  have hlife : HandleLife fh s (c.log ++ [.acted t a r]) :=
    hI.life.act hacc.named (fun h ha id => by subst ha; exact honce id) hmay hh
  have hmark := hlife.not_marks hh
  constructor
  case life => exact hlife
  case alone =>
    intro v pv hv u o' p' hu huse
    rw [Config.act_live] at hv hu
    have hv' : ∃ p, c.live v = some (.release fh, p) := by
      split at hv
      · next hvt => cases hv; exact ⟨_, hvt ▸ hlive⟩
      · exact ⟨pv, hv⟩
    have hu' : ∃ p, c.live u = some (o', p) := by
      split at hu
      · next hut => cases hu; exact ⟨_, hut ▸ hlive⟩
      · exact ⟨p', hu⟩
    obtain ⟨p₁, hv'⟩ := hv'
    obtain ⟨p₂, hu'⟩ := hu'
    exact hI.alone v p₁ hv' u o' p₂ hu' huse
  case once =>
    intro i j v w hi hj
    exact hI.once i j v w ((getElem?_snoc_iff.1 hi).resolve_right fun h => by cases h.2)
      ((getElem?_snoc_iff.1 hj).resolve_right fun h => by cases h.2)
  case stages =>
    intro u o' p' hu
    by_cases hut : u = t
    · subst hut
      rw [Config.act_live, if_pos rfl] at hu
      cases hu
      rw [closing_act_self]
      exact hstage.next a r
    · rw [closing_act_ne hut]
      rw [Config.act_live, if_neg hut] at hu
      exact hI.stages u o' p' hu
  case facts =>
    intro u o' p' hu
    by_cases hut : u = t
    · subst hut
      rw [Config.act_live, if_pos rfl] at hu
      cases hu
      rw [closing_act_self]
      refine hfacts.next hpre hmark (fun hg h heq => ?_) fun hg heq => ?_
      · cases heq
        obtain ⟨hget, -⟩ := hh.of_remove
        rw [hg] at hstage
        subst hstage
        exact ⟨hacc.named h hget, fun hd => hI.allUploaded hrun hacc hlive hget hd⟩
      · cases heq
        exact hI.missed hrun hlive hg hh.of_remove.1
    · rw [closing_act_ne hut]
      rw [Config.act_live, if_neg hut] at hu
      refine (hI.facts u o' p' hu).snoc (fun hr => hmark (hr.snoc _)) (fun _ => by simp)
        (fun _ _ _ heq => hut (by cases heq; rfl)) fun _ _ heq => by cases heq

end

/-- What is known of a handle in every run that closes it last. -/
theorem run_closable {nfc : Str → Str} {cacheRoot : Option Str} {disk : Disk} {c : FsConfig}
    {fh : Nat} (h : (fsService nfc cacheRoot).Run (ClosedLast fh) (.initial (.new disk)) c) :
    Closable fh c :=
  h.invariant_of_contract (closings_honoured nfc cacheRoot fh) (fun _ _ _ _ _ _ _ _ => trivial)
    (.initial fh disk) (fun _ _ _ hrun hI hfresh _ hok => hI.start hrun hfresh hok)
    (fun _ _ _ _ _ _ _ hrun hI hlive hpre _ hstep =>
      hI.act hrun (run_accounted (fun _ _ hok => hok.1) hrun fh) hlive hpre
        (handedOutOnce_of_step (fun _ _ hok => hok.1) hrun (.act hlive hstep)) hstep)
    fun _ _ _ _ _ hI _ _ _ => hI.finish

end UnidriveMount
