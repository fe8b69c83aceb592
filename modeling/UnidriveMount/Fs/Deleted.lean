import UnidriveMount.Fs.Release

/-!
# Handles of a deleted file

`unlink` drops the path from the tables and leaves the open handles as they are. A handle that was
open on the file stays as it is, so the next `fsync` or `release` that finds it dirty uploads the
file again; so does a `release` that has found it dirty and has not sent its upload yet.

Where the file of a handle is, is read off what the daemon has answered (`located`): where it was
when the open was answered, and where renames have moved it since. The remote path of the handle does
not count, as it can lag behind. In every run in which the handles of a file that is deleted are clean
and stay so (`CleanlyUnlinked`), no `fsync` and no `release` uploads from them any more
(`deleted_stays`).
-/

namespace UnidriveMount

open Lib
open Lib.Prog (only_perform)

/-! ## The file of a handle -/

/-- The place of the file that request `t` has opened, after an entry of the log. -/
def locatedNext (t : Nat) (place : Option Str) : FsEvent → Option Str
  | .acted u (.reply (.openRead _ path)) (.ok _) => if u = t then some path else place
  | .acted u (.reply (.openWriteBegin path _)) (.ok _) => if u = t then some path else place
  | .acted u (.reply (.create _ path)) (.ok _) => if u = t then some path else place
  | .acted _ (.reply (.rename old new)) (.ok _) => place.map (moved old new)
  | _ => place

/-- Where the file is that request `t` has opened: where the daemon had it when it answered the open,
and where the renames that it has answered since have moved it. -/
def located (t : Nat) (l : List FsEvent) : Option Str := l.foldl (locatedNext t) none

/-- Request `t` has published the handle `fh`. -/
def PublishedBy (l : List FsEvent) (fh t : Nat) : Prop :=
  ∃ (n : Nat) (h : OpenHandle) (r : Unit), l[n]? = some (.acted t (.handleInsert fh h) r)

/-- The file that request `t` has opened was deleted: at entry `i`, when the daemon answered an
`unlink` of its place ok. -/
def FileDeletedAt (l : List FsEvent) (t i : Nat) : Prop :=
  ∃ (u : Nat) (p : Str) (r : Unit), l[i]? = some (.acted u (.reply (.unlink p)) (.ok r)) ∧
    located t (l.take i) = some p

/-- The file that the handle `fh` is open on was deleted at entry `i`. -/
def DeletedAt (l : List FsEvent) (fh i : Nat) : Prop :=
  ∃ t, PublishedBy l fh t ∧ FileDeletedAt l t i

section
variable {l : List FsEvent} {fh i t : Nat} {e : FsEvent}

theorem PublishedBy.published (h : PublishedBy l fh t) : ∃ id, Published l fh id := by
  obtain ⟨n, handle, r, hn⟩ := h
  exact ⟨_, n, t, handle, hn, rfl⟩

theorem PublishedBy.of_take {n : Nat} (h : PublishedBy (l.take n) fh t) : PublishedBy l fh t := by
  obtain ⟨m, handle, r, hm⟩ := h
  exact ⟨m, handle, r, getElem?_of_take hm⟩

theorem FileDeletedAt.of_take {n : Nat} (h : FileDeletedAt (l.take n) t i) : FileDeletedAt l t i := by
  obtain ⟨u, p, r, hi, hp⟩ := h
  have hin := getElem?_lt hi
  rw [List.length_take] at hin
  rw [List.take_take, Nat.min_eq_left (by omega)] at hp
  exact ⟨u, p, r, getElem?_of_take hi, hp⟩

theorem publishedBy_snoc (h : PublishedBy (l ++ [e]) fh t) :
    PublishedBy l fh t ∨ ∃ handle r, e = .acted t (.handleInsert fh handle) r := by
  obtain ⟨n, handle, r, hn⟩ := h
  rcases getElem?_snoc_iff.1 hn with hold | ⟨-, rfl⟩
  · exact .inl ⟨n, handle, r, hold⟩
  · exact .inr ⟨handle, r, rfl⟩

theorem fileDeletedAt_snoc (h : FileDeletedAt (l ++ [e]) t i) :
    FileDeletedAt l t i ∨ ∃ (u : Nat) (p : Str) (r : Unit),
      e = .acted u (.reply (.unlink p)) (.ok r) ∧ located t l = some p := by
  obtain ⟨u, p, r, hi, hp⟩ := h
  rcases getElem?_snoc_iff.1 hi with hold | ⟨rfl, rfl⟩
  · rw [List.take_append_of_le_length (getElem?_lt hold).le] at hp
    exact .inl ⟨u, p, r, hold, hp⟩
  · rw [List.take_append_of_le_length le_rfl, List.take_length] at hp
    exact .inr ⟨u, p, r, rfl, hp⟩

/-- A deletion is an old one, or what the last entry does, or the last entry publishes a handle of a
file that is deleted already. -/
theorem deletedAt_snoc (h : DeletedAt (l ++ [e]) fh i) :
    DeletedAt l fh i ∨
    (∃ (t u : Nat) (p : Str) (r : Unit), e = .acted u (.reply (.unlink p)) (.ok r) ∧
      PublishedBy l fh t ∧ located t l = some p) ∨
    ∃ (t : Nat) (handle : OpenHandle) (r : Unit), e = .acted t (.handleInsert fh handle) r ∧
      FileDeletedAt l t i := by
  obtain ⟨t, hpub, hdel⟩ := h
  rcases publishedBy_snoc hpub with hold | ⟨handle, r, rfl⟩
  · rcases fileDeletedAt_snoc hdel with hdel | ⟨u, p, r, rfl, hp⟩
    · exact .inl ⟨t, hold, hdel⟩
    · exact .inr (.inl ⟨t, u, p, r, rfl, hold, hp⟩)
  · rcases fileDeletedAt_snoc hdel with hdel | ⟨_, _, _, heq, -⟩
    · exact .inr (.inr ⟨t, handle, r, rfl, hdel⟩)
    · cases heq

theorem DeletedAt.published (h : DeletedAt l fh i) : ∃ id, Published l fh id := by
  obtain ⟨t, hpub, -⟩ := h
  exact hpub.published

end

/-! ## Deleted files -/

/-- The request uploads from the handle `fh`: an `fsync` or a `release` of it. -/
def Op.UploadsFrom (fh : Nat) : Op → Prop
  | .fsync fh' _ | .release fh' => fh' = fh
  | _ => False

instance (fh : Nat) (o : Op) : Decidable (o.UploadsFrom fh) := by
  cases o <;> unfold Op.UploadsFrom <;> infer_instance

/-- A deleted file is not uploaded again: request `v` has opened the file and published a handle on
it, and an `unlink` of the file's place has returned Ok; after that no `fsync` and no `release` of the
handle sends an upload. -/
def DeletedStays (l : List FsEvent) : Prop :=
  ∀ (fh v i k s j t u : Nat) (r : Unit) (p : Str) (o o' : Op) (x : Reply) (id path cache : Str),
    PublishedBy (l.take j) fh v → located v (l.take i) = some p →
    l[i]? = some (.acted t (.reply (.unlink p)) (.ok r)) →
    l[k]? = some (.returned t o (.ok x)) → i < k → k < j →
    l[s]? = some (.started u o') → o'.UploadsFrom fh →
    l[j]? ≠ some (Event.acted u (.call (.openWrite id path cache)) ())

/-! ## What an upload has found -/

/-- What an `fsync` or a `release` of the handle starts with: it has found nothing dirty. -/
def findingInit (fh : Nat) (o : Op) : Option Bool := if o.UploadsFrom fh then some false else none

/-- The contract of the requests with respect to the dirty mark that an `fsync` or a `release` of the
handle has found and has still to upload: it uploads only when it has found one. -/
def findings (fh : Nat) : Contract Act Act.Ret (Option Bool) where
  pre
    | g, .call (.openWrite ..) => g ≠ some false
    | g, .handleClaim fh' _ => g ≠ none → fh' = fh
    | g, .handleRemove fh' => g ≠ none → fh' = fh
    | _, _ => True
  allow _ _ _ := True
  next
    | some _, .handleClaim .., .ok claim => some claim.wasDirty
    | some _, .handleRemove _, some h => some h.dirty
    | some _, .call (.openWrite ..), _ => some false
    | g, _, _ => g

section
variable {fh : Nat} {a : Act}

theorem findings_none : (findings fh).pre none a := by
  cases a with
  | handleClaim | handleRemove => exact fun h => absurd rfl h
  | call verb => cases verb <;> first | exact trivial | exact nofun
  | _ => trivial

theorem findings_next_none (r : a.Ret) : (findings fh).next none a r = none := by
  cases a <;> rfl

/-- **Every request keeps the contract.** -/
theorem findings_honoured (nfc : Str → Str) (cacheRoot : Option Str) (fh : Nat) :
    (fsService nfc cacheRoot).Honours (findings fh) (findingInit fh) (fun _ _ _ => True) := by
  intro o
  by_cases ho : o.UploadsFrom fh
  · rw [findingInit, if_pos ho]
    cases o with
    | fsync fh' datasync =>
      cases ho
      simp only [fsService, Op.prog, UnidriveMount.fsync, ipc, Contract.obeys_bind,
        Contract.obeys_perform, Contract.obeys_ofExcept]
      refine ⟨fun _ => rfl, fun r _ => ?_⟩
      cases r with
      | error e => trivial
      | ok claim =>
        cases hd : claim.wasDirty with
        | false => simp [hd]
        | true =>
          have hnext : (findings fh).next (some false) (.handleClaim fh datasync) (.ok claim) =
              some true := congrArg some hd
          rw [hnext]
          simp only [hd]
          refine ⟨fun h => (by cases h), fun _ _ => ⟨trivial, fun r _ => ?_⟩⟩
          cases r with
          | error e => exact ⟨trivial, fun _ _ => trivial⟩
          | ok r => trivial
    | release fh' =>
      cases ho
      simp only [fsService, Op.prog, UnidriveMount.release, ipc, Contract.obeys_bind,
        Contract.obeys_perform]
      refine ⟨fun _ => rfl, fun r _ => ?_⟩
      cases r with
      | none => trivial
      | some h =>
        show (findings fh).Obeys _ _ (some h.dirty)
        dsimp only
        unfold commitIfDirty
        cases hd : h.dirty with
        | false =>
          rw [if_neg Bool.false_ne_true]
          exact ⟨trivial, fun _ _ => ⟨trivial, fun _ _ => trivial⟩⟩
        | true =>
          rw [if_pos rfl]
          exact ⟨fun h => (by cases h), fun _ _ => ⟨trivial, fun _ _ => ⟨trivial, fun _ _ => ⟨trivial, fun _ _ =>
            trivial⟩⟩⟩⟩
    | _ => exact ho.elim
  · rw [findingInit, if_neg ho]
    exact Contract.obeys_of_only (P := fun _ => True) (Prog.only_of_forall (fun _ => trivial) _)
      (fun _ _ => findings_none) (fun _ r _ => findings_next_none r) fun _ => trivial

end

/-! ## Clean handles stay clean -/

/-- Whether request `t`, which is `o`, has found the handle dirty and has still to upload it. -/
def found (fh : Nat) (o : Op) (l : List FsEvent) (t : Nat) : Option Bool :=
  (findings fh).ghost (findingInit fh o) t l

/-- The step deletes a file only when the handles on it are clean and no `fsync` or `release` has
still to upload one that it has found dirty. A handle that is published on a deleted file is clean.
Through a handle of a deleted file nothing is modified, and no failed `fsync` sets its mark again. The
counter of the handle numbers does not wrap around. -/
structure CleanlyUnlinked (c : FsConfig) (e : FsEvent) : Prop where
  few : DrawsFew c e
  clean : ∀ (t u : Nat) (p : Str) (r : Unit) (fh : Nat), e = .acted u (.reply (.unlink p)) (.ok r) →
    PublishedBy c.log fh t → located t c.log = some p →
    (∀ h : OpenHandle, c.st.openHandles.get fh = some h → h.dirty = false) ∧
    ∀ (v : Nat) (o : Op) (q : FsProg Reply), c.live v = some (o, q) → found fh o c.log v ≠ some true
  published : ∀ (t fh i : Nat) (h : OpenHandle) (r : Unit), e = .acted t (.handleInsert fh h) r →
    FileDeletedAt c.log t i → h.dirty = false
  unmodified : ∀ fh i, DeletedAt c.log fh i → ¬ Modifies fh e
  unrestored : ∀ fh i, DeletedAt c.log fh i → ∀ (t : Nat) (r : Unit), e = .acted t (.handleRestore fh) r →
    c.st.openHandles.get fh = none

/-- What is known of a handle: when its file was deleted, it is clean, and no request has still to
upload it; and a request has found only a handle that was published. -/
structure Settled (fh : Nat) (c : FsConfig) : Prop where
  clean : ∀ i, DeletedAt c.log fh i → ∀ h, c.st.openHandles.get fh = some h → h.dirty = false
  idle : ∀ i, DeletedAt c.log fh i → ∀ u o p, c.live u = some (o, p) → found fh o c.log u ≠ some true
  known : ∀ u o p, c.live u = some (o, p) → found fh o c.log u = some true →
    ∃ id, Published c.log fh id

section
variable {c : FsConfig} {l : List FsEvent} {e : FsEvent} {fh i t u : Nat} {o : Op} {a : Act} {r : a.Ret}
  {p : FsProg Reply} {s : FsState} {k : a.Ret → FsProg Reply}

theorem found_act_self : found fh o (l ++ [.acted t a r]) t = (findings fh).next (found fh o l t) a r :=
  Contract.ghost_snoc_acted_self a r

theorem found_act_ne (hu : u ≠ t) : found fh o (l ++ [.acted t a r]) u = found fh o l u :=
  Contract.ghost_snoc_acted_ne (Ne.symm hu) a r

/-- What an action finds: it takes a handle that is dirty. -/
theorem finds_cases {g : Option Bool} (hpre : (findings fh).pre g a)
    (hnext : (findings fh).next g a r = some true) (hh : HandleStep fh a r (c.st.openHandles.get fh)
      (s.openHandles.get fh)) :
    g = some true ∨ ∃ h, c.st.openHandles.get fh = some h ∧ h.dirty = true := by
  cases g with
  | none =>
    rw [findings_next_none] at hnext
    cases hnext
  | some b =>
    cases a with
    | handleClaim fh' datasync =>
      cases hpre nofun
      cases r with
      | error e => exact .inl hnext
      | ok claim =>
        obtain ⟨h, hget, rfl, -⟩ := hh.of_claim
        exact .inr ⟨h, hget, Option.some.inj hnext⟩
    | handleRemove fh' =>
      cases hpre nofun
      cases r with
      | none => exact .inl hnext
      | some h => exact .inr ⟨h, hh.of_remove.1, Option.some.inj hnext⟩
    | call verb =>
      cases verb with
      | openWrite => cases hnext
      | _ => exact .inl hnext
    | _ => exact .inl hnext

namespace Settled

theorem initial (fh : Nat) (disk : Disk) : Settled fh (.initial (.new disk)) where
  clean i h := by
    obtain ⟨t, -, u, p, r, hi, -⟩ := h
    simp at hi
  idle i h := by
    obtain ⟨t, -, u, p, r, hi, -⟩ := h
    simp at hi
  known u o p hlive := by simp at hlive

/-- A step that does nothing to the handles: no request has found more than before. -/
theorem quiet {c' : FsConfig} (hI : Settled fh c) (hlog : c'.log = c.log ++ [e])
    (he : ∀ u a r, e ≠ .acted u a r) (hst : c'.st = c.st)
    (hfound : ∀ u o p, c'.live u = some (o, p) → found fh o c'.log u = some true →
      c.live u = some (o, p) ∧ found fh o c.log u = some true) : Settled fh c' := by
  have hold : ∀ i, DeletedAt c'.log fh i → DeletedAt c.log fh i := by
    intro i h
    rw [hlog] at h
    rcases deletedAt_snoc h with h | ⟨_, _, _, _, heq, -⟩ | ⟨_, _, _, heq, -⟩
    · exact h
    · exact absurd heq (he _ _ _)
    · exact absurd heq (he _ _ _)
  constructor
  · rw [hst]
    exact fun i hi => hI.clean i (hold i hi)
  · intro i hi u o p hlive hu
    obtain ⟨hlive, hu⟩ := hfound u o p hlive hu
    exact hI.idle i (hold i hi) u o p hlive hu
  · intro u o p hlive hu
    obtain ⟨hlive, hu⟩ := hfound u o p hlive hu
    rw [hlog]
    exact (hI.known u o p hlive hu).imp fun _ hp => hp.snoc _

theorem start (hI : Settled fh c) (hfresh : ∀ e ∈ c.log, e.tid ≠ t) :
    Settled fh (c.start t o p) := by
  refine hI.quiet rfl (fun _ _ _ => nofun) rfl fun u o' p' hlive hu => ?_
  rw [found, Config.start_log, Contract.ghost_snoc_started, ← found] at hu
  rw [Config.start_live] at hlive
  split at hlive
  · next hut =>
    cases hlive
    subst hut
    -- the request that starts has found nothing
    rw [found, Contract.ghost_eq_init hfresh, findingInit] at hu
    split at hu <;> cases hu
  · exact ⟨hlive, hu⟩

theorem finish (hI : Settled fh c) {res : Except Errno Reply} : Settled fh (c.finish t o res) := by
  refine hI.quiet rfl (fun _ _ _ => nofun) rfl fun u o' p' hlive hu => ?_
  rw [found, Config.finish_log, Contract.ghost_snoc_returned, ← found] at hu
  rw [Config.finish_live] at hlive
  split at hlive
  · cases hlive
  · exact ⟨hlive, hu⟩

/-- A request that has found the handle dirty after a step had found it before, or finds it now. -/
theorem found_act (hlive : c.live t = some (o, .act a k)) (hpre : (findings fh).pre (found fh o c.log t) a)
    (hstep : fsMachine.Step a c.st r s) {o' : Op} {p' : FsProg Reply}
    (hu : (c.act t o a r p s).live u = some (o', p'))
    (hfound : found fh o' (c.log ++ [.acted t a r]) u = some true) :
    (∃ q, c.live u = some (o', q) ∧ found fh o' c.log u = some true) ∨
      ∃ h, c.st.openHandles.get fh = some h ∧ h.dirty = true := by
  rw [Config.act_live] at hu
  split at hu
  · next hut =>
    subst hut
    cases hu
    rw [found_act_self] at hfound
    exact (finds_cases hpre hfound (handleStep_of_step hstep fh)).imp_left fun h => ⟨_, hlive, h⟩
  · next hut => exact .inl ⟨p', hu, by rwa [found_act_ne hut] at hfound⟩

theorem clean_act (hI : Settled fh c) (honce : HandedOutOnce c (.acted t a r))
    (hok : CleanlyUnlinked c (.acted t a r)) (hstep : fsMachine.Step a c.st r s)
    (hi : DeletedAt (c.log ++ [.acted t a r]) fh i) {h' : OpenHandle}
    (hget : s.openHandles.get fh = some h') : h'.dirty = false := by
  have hh := handleStep_of_step hstep fh
  rw [hget] at hh
  rcases deletedAt_snoc hi with hold | ⟨v, u, q, r', heq, hpub, hq⟩ | ⟨v, handle, r', heq, hdel⟩
  · have hclean := hI.clean i hold
    generalize hx : c.st.openHandles.get fh = x at hh
    generalize hx' : some h' = x' at hh
    cases hh with
    | insert h =>
      obtain ⟨id, hp⟩ := hold.published
      exact absurd hp (honce id)
    | remove => cases hx'
    | write | setLen => exact absurd rfl (hok.unmodified fh i hold)
    | claim =>
      cases hx'
      rfl
    | restore =>
      obtain rfl : x = none := hx.symm.trans (hok.unrestored fh i hold t () rfl)
      cases hx'
    | follow old new =>
      obtain ⟨h, rfl, rfl⟩ := Option.map_eq_some_iff.1 hx'.symm
      simpa using hclean h hx
    | frame => exact hclean h' (hx.trans hx'.symm)
  · cases heq
    -- the answer to an `unlink` leaves the handles as they are
    have hget₀ : c.st.openHandles.get fh = some h' := by
      obtain ⟨-, (w : World), (hrun : Act.run _ w c.st = (_, s))⟩ := hstep
      rwa [show s.openHandles = c.st.openHandles from
        (congrArg (fun x => x.2.openHandles) hrun).symm] at hget
    exact (hok.clean v t q r' fh rfl hpub hq).1 h' hget₀
  · cases heq
    generalize hx' : some h' = x' at hh
    cases hh with
    | insert =>
      cases hx'
      exact hok.published t fh i _ _ rfl hdel
    | frame _ h => exact absurd rfl h

theorem idle_act (hI : Settled fh c) (hlive : c.live t = some (o, .act a k))
    (hpre : (findings fh).pre (found fh o c.log t) a) (honce : HandedOutOnce c (.acted t a r))
    (hnamed : ∀ h, c.st.openHandles.get fh = some h → Published c.log fh h.handleId)
    (hok : CleanlyUnlinked c (.acted t a r))
    (hstep : fsMachine.Step a c.st r s) (hi : DeletedAt (c.log ++ [.acted t a r]) fh i)
    {o' : Op} {p' : FsProg Reply} (hu : (c.act t o a r p s).live u = some (o', p')) :
    found fh o' (c.log ++ [.acted t a r]) u ≠ some true := by
  intro hfound
  have hcases := found_act hlive hpre hstep hu hfound
  rcases deletedAt_snoc hi with hold | ⟨v, w, q, r', heq, hpub, hq⟩ | ⟨v, handle, r', heq, -⟩
  · rcases hcases with ⟨q, hq, hbefore⟩ | ⟨h, hget, hd⟩
    · exact hI.idle i hold u o' q hq hbefore
    · cases hd.symm.trans (hI.clean i hold h hget)
  · cases heq
    obtain ⟨hclean, hidle⟩ := hok.clean v t q r' fh rfl hpub hq
    rcases hcases with ⟨q', hq', hbefore⟩ | ⟨h, hget, hd⟩
    · exact hidle u o' q' hq' hbefore
    · cases hd.symm.trans (hclean h hget)
  · cases heq
    -- the number is new, so nothing has been found of it
    rcases hcases with ⟨q, hq, hbefore⟩ | ⟨h, hget, -⟩
    · obtain ⟨id, hp⟩ := hI.known u o' q hq hbefore
      exact honce id hp
    · exact honce _ (hnamed h hget)

theorem known_act (hI : Settled fh c) (hlive : c.live t = some (o, .act a k))
    (hpre : (findings fh).pre (found fh o c.log t) a)
    (hnamed : ∀ h, c.st.openHandles.get fh = some h → Published c.log fh h.handleId)
    (hstep : fsMachine.Step a c.st r s) {o' : Op} {p' : FsProg Reply}
    (hu : (c.act t o a r p s).live u = some (o', p'))
    (hfound : found fh o' (c.log ++ [.acted t a r]) u = some true) :
    ∃ id, Published (c.log ++ [.acted t a r]) fh id := by
  rcases found_act hlive hpre hstep hu hfound with ⟨q, hq, hbefore⟩ | ⟨h, hget, -⟩
  · exact (hI.known u o' q hq hbefore).imp fun _ hp => hp.snoc _
  · exact ⟨_, (hnamed h hget).snoc _⟩

end Settled

/-- A request that has found something uploads from the handle. -/
theorem uploadsFrom_of_found {b : Bool} (h : found fh o l t = some b) : o.UploadsFrom fh := by
  by_contra ho
  have keep : ∀ es : List (Occ Act.Ret),
      es.foldl (fun g e => (findings fh).next g e.1 e.2) none = none := by
    intro es
    induction es with
    | nil => rfl
    | cons e es ih => rw [List.foldl_cons, findings_next_none, ih]
  rw [found, findingInit, if_neg ho] at h
  cases (keep _).symm.trans h

/-- A request that uploads from the handle has found it dirty, or has not. -/
theorem found_ne_none (ho : o.UploadsFrom fh) : found fh o l t ≠ none := by
  have keep : ∀ (es : List (Occ Act.Ret)) (b : Bool),
      es.foldl (fun g e => (findings fh).next g e.1 e.2) (some b) ≠ none := by
    intro es
    induction es with
    | nil => exact fun b => nofun
    | cons e es ih =>
      intro b
      obtain ⟨b₁, hb₁⟩ : ∃ b₁, (findings fh).next (some b) e.1 e.2 = some b₁ := by
        obtain ⟨a, r⟩ := e
        cases a with
        | handleClaim | handleRemove => cases r <;> exact ⟨_, rfl⟩
        | call verb => cases verb <;> exact ⟨_, rfl⟩
        | _ => exact ⟨b, rfl⟩
      rw [List.foldl_cons, hb₁]
      exact ih b₁
  rw [found, findingInit, if_pos ho]
  exact keep _ false

end

/-! ## Whole runs -/

section
variable {nfc : Str → Str} {cacheRoot : Option Str} {disk : Disk} {c : FsConfig} {fh : Nat}

theorem run_settled (h : (fsService nfc cacheRoot).Run CleanlyUnlinked (.initial (.new disk)) c)
    (fh : Nat) : Settled fh c := by
  refine h.invariant_of_contract (findings_honoured nfc cacheRoot fh)
    (fun _ _ _ _ _ _ _ _ => trivial) (.initial fh disk)
    (fun _ _ _ _ hI hfresh _ _ => hI.start hfresh) ?_ fun _ _ _ _ _ hI _ _ _ => hI.finish
  intro c t o a k r s hrun hI hlive hpre hok hstep
  have hfew : ∀ c e, CleanlyUnlinked c e → DrawsFew c e := fun _ _ hok => hok.few
  have honce := handedOutOnce_of_step hfew hrun (.act hlive hstep)
  have hnamed := (run_accounted hfew hrun fh).named
  constructor
  · exact fun i hi h' hget => hI.clean_act honce hok hstep hi hget
  · exact fun i hi u o' p' hu => hI.idle_act hlive hpre honce hnamed hok hstep hi hu
  · exact fun u o' p' hu hfound => hI.known_act hlive hpre hnamed hstep hu hfound

/-- **A deleted file is not uploaded again**, in every run that deletes only files whose handles are
clean and modifies none of them afterwards. -/
theorem deleted_stays
    (h : (fsService nfc cacheRoot).Run CleanlyUnlinked (.initial (.new disk)) c) :
    DeletedStays c.log := by
  intro fh v i k s j t u r p o o' x id path cache hpub hp hi _ hik hkj hs ho hj
  obtain ⟨c₁, c₂, hrun, hst, -, hlog⟩ := h.step_of_getElem? hj
  have hdel : DeletedAt c₁.log fh i := by
    refine ⟨v, hlog ▸ hpub, t, p, r, ?_, ?_⟩
    · rw [hlog, List.getElem?_take_of_lt (by omega)]
      exact hi
    · rw [hlog, List.take_take, Nat.min_eq_left (by omega)]
      exact hp
  cases hst with
  | act hlive hm =>
    obtain ⟨s', hs'⟩ := hrun.started_of_live hlive
    rw [hlog] at hs'
    obtain ⟨-, rfl⟩ := h.started_unique hs (getElem?_of_take hs')
    have hpre : (findings fh).pre (found fh o' c₁.log u) (.call (.openWrite id path cache)) :=
      (hrun.obeys (findings_honoured nfc cacheRoot fh) (fun _ _ _ _ _ _ _ _ => trivial) hlive).1
    rcases hfound : found fh o' c₁.log u with _ | _ | _
    · exact found_ne_none ho hfound
    · exact hpre hfound
    · exact (run_settled hrun fh).idle i hdel u o' _ hlive hfound

end

/-! ## Runs -/

/-- Create the file `/a`, `fsync` it, rename it to `/b`, delete that and close it, all of which
succeeds. -/
def syncAndUnlink : List (Move World Op) :=
  .start 0 (.create rootInode (some ['a'])) :: List.replicate 12 (.act 0 .calm) ++
  [.finish 0, .start 1 (.fsync 1 false), .act 1 .calm, .act 1 .calm, .act 1 .calm, .finish 1] ++
  .start 4 (.rename rootInode (some ['a']) rootInode (some ['b'])) :: List.replicate 8 (.act 4 .calm) ++
  .finish 4 :: .start 2 (.unlink rootInode (some ['b'])) :: List.replicate 6 (.act 2 .calm) ++
  [.finish 2, .start 3 (.release 1), .act 3 .calm, .act 3 .calm, .act 3 .calm, .finish 3]

/-- Create the file `/a`, delete it, and close it. -/
def unlinkAndRelease : List (Move World Op) :=
  .start 0 (.create rootInode (some ['a'])) :: List.replicate 12 (.act 0 .calm) ++
  .finish 0 :: .start 2 (.unlink rootInode (some ['a'])) :: List.replicate 6 (.act 2 .calm) ++
  [.finish 2, .start 3 (.release 1), .act 3 .calm, .act 3 .calm]

/-- Whether the step deletes files only while all handles are clean and no `fsync` and no `release` is
in progress, publishes a handle only before that, and modifies no handle. -/
def unlinksClean (c : FsConfig) (e : FsEvent) : Bool :=
  decide (DrawsFew c e) && match e with
    | .acted _ (.reply (.unlink _)) _ =>
      (c.st.openHandles.values.all fun h => !h.dirty) &&
        c.log.all fun e => match c.live e.tid with
          | some (.fsync .., _) | some (.release _, _) => false
          | _ => true
    | .acted _ (.handleInsert ..) _ => c.log.all fun
      | .acted _ (.reply (.unlink _)) _ => false
      | _ => true
    | .acted _ (.handleWrite ..) _ | .acted _ (.handleSetLen ..) _ | .acted _ (.handleRestore _) _ => false
    | _ => true

theorem cleanlyUnlinked_of_bool {ok : FsConfig → FsEvent → Prop} {s : FsState} {c : FsConfig}
    {e : FsEvent} (h : plainFs.Run ok (.initial s) c) (he : unlinksClean c e = true) :
    CleanlyUnlinked c e := by
  obtain ⟨hfew, he⟩ := Bool.and_eq_true_iff.1 he
  refine ⟨of_decide_eq_true hfew, ?_, ?_, ?_, ?_⟩
  · rintro t u p r fh rfl - -
    obtain ⟨hclean, hidle⟩ := Bool.and_eq_true_iff.1 he
    refine ⟨fun handle hget => ?_, fun v o q hlive hfound => ?_⟩
    · simpa using List.all_eq_true.1 hclean handle (HashMap.mem_values.2 ⟨fh, hget⟩)
    · obtain ⟨i, hi⟩ := h.started_of_live hlive
      have hnot := List.all_eq_true.1 hidle _ (List.mem_of_getElem? hi)
      simp only [Event.tid, hlive] at hnot
      have ho := uploadsFrom_of_found hfound
      cases o with
      | fsync | release => cases hnot
      | _ => exact ho
  · rintro t fh i handle r rfl ⟨u, p, r', hi, -⟩
    cases List.all_eq_true.1 he _ (List.mem_of_getElem? hi)
  · intro fh i _ hm
    unfold Modifies at hm
    split at hm
    · cases he
    · cases he
    · exact hm
  · rintro fh i - t r rfl
    cases he

/-- The file is closed after it was renamed and deleted, clean. -/
theorem deleted_stays_synced :
    ∃ c, plainFs.Run CleanlyUnlinked (.initial (.new .empty)) c ∧
      PublishedBy c.log 1 0 ∧ located 0 (c.log.take 32) = some ['/', 'b'] ∧
      c.log[32]? = some (.acted 2 (.reply (.unlink ['/', 'b'])) (.ok ())) ∧
      c.log[36]? = some (.returned 2 (.unlink rootInode (some ['b'])) (.ok .done)) ∧
      c.log[41]? = some (.returned 3 (.release 1) (.ok .done)) ∧ DeletedStays c.log := by
  have hplay : (plainFs.play unlinksClean syncAndUnlink (.initial (.new .empty))).isSome = true := by
    decide +kernel
  have hrun : plainFs.Run CleanlyUnlinked (.initial (.new .empty)) _ :=
    plainFs.run_of_play .refl (Option.some_get hplay).symm fun _ _ hrun => cleanlyUnlinked_of_bool hrun
  exact ⟨_, hrun, ⟨12, _, (), rfl⟩, rfl, rfl, rfl, rfl, deleted_stays hrun⟩

/-- The property fails in some run: the file is closed after it was deleted, and uploaded again. -/
theorem deleted_uploaded :
    ¬ ∀ (nfc : Str → Str) (cacheRoot : Option Str) (disk : Disk) (c : FsConfig),
      (fsService nfc cacheRoot).Run (fun _ _ => True) (.initial (.new disk)) c →
        DeletedStays c.log := by
  intro h
  have hplay : (plainFs.play (fun _ _ => true) unlinkAndRelease
      (.initial (.new .empty))).isSome = true := by decide +kernel
  have hrun : plainFs.Run (fun _ _ => True) (.initial (.new .empty)) _ :=
    plainFs.run_of_play .refl (Option.some_get hplay).symm fun _ _ _ _ => trivial
  refine h id none .empty _ hrun 1 0 17 21 22 24 2 3 () ['/', 'a']
    (.unlink rootInode (some ['a'])) (.release 1) .done "create-1".toList ['/', 'a'] ['c']
    ⟨12, _, (), rfl⟩ rfl rfl rfl ?_ ?_ rfl rfl rfl
  all_goals omega

end UnidriveMount
