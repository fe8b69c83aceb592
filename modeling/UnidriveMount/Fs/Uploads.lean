import UnidriveMount.Fs.Publish

/-!
# Uploads of an open handle

A write or a truncation through a handle marks it dirty; an `fsync` takes the mark, uploads, and
sets it again when the upload fails. This module accounts for every modification over interleaved
runs: as long as the handle is open, either an upload sent after the modification was answered ok,
or the handle is dirty, or an `fsync` that took the mark has not finished with it
(`Accounted`, `run_accounted`).

What one request is doing with the mark is its `Upload` stage, the ghost value of the contract
`uploads`.
-/

namespace UnidriveMount

open Lib

/-! ## What the log says about a handle -/

/-- The entry is a write or a truncation through `fh` that took effect. -/
def Modifies (fh : Nat) : FsEvent → Prop
  | .acted _ (.handleWrite fh' _ _) (.ok _) => fh' = fh
  | .acted _ (.handleSetLen fh' _) (.ok _) => fh' = fh
  | _ => False

/-- The entry leaves bytes of `fh` to be uploaded: a modification, or the publication of a handle
that was created or opened truncating. -/
def Marks (fh : Nat) : FsEvent → Prop
  | .acted _ (.handleInsert fh' h) _ => fh' = fh ∧ h.dirty = true
  | e => Modifies fh e

theorem Modifies.marks {fh : Nat} {e : FsEvent} (h : Modifies fh e) : Marks fh e := by
  unfold Marks
  split
  · exact h.elim
  · exact h

/-- Request `t` is an `fsync` of `fh`. -/
def IsFsync (l : List FsEvent) (fh t : Nat) : Prop :=
  ∃ (i : Nat) (datasync : Bool), l[i]? = some (.started t (.fsync fh datasync))

/-- An `fsync` sent an upload of the handle `fh` after entry `m`, which was answered ok. -/
def UploadedSince (l : List FsEvent) (fh m : Nat) : Prop :=
  ∃ (id path cache : Str) (t j i : Nat) (r : OpenReply),
    Published l fh id ∧ IsFsync l fh t ∧ m < j ∧ j < i ∧
    l[j]? = some (Event.acted t (.call (.openWrite id path cache)) ()) ∧
    l[i]? = some (Event.acted t (.reply (.openWrite id path cache)) (.ok r))

/-- An entry that marks the handle leaves it in the table, dirty. -/
theorem HandleStep.of_marks {fh t : Nat} {a : Act} {r : a.Ret} {o o' : Option OpenHandle}
    (h : HandleStep fh a r o o') (hm : Marks fh (.acted t a r)) :
    ∃ h', o' = some h' ∧ h'.dirty = true := by
  cases h with
  | insert h => exact ⟨h, rfl, hm.2⟩
  | write _ _ _ h => exact ⟨_, rfl, rfl⟩
  | setLen _ h => exact ⟨_, rfl, rfl⟩
  | remove | claim | restore | follow => exact hm.elim
  | frame o h =>
    unfold Marks Modifies at hm
    split at hm
    · next heq =>
      cases heq
      exact absurd hm.1 h
    · split at hm
      · next heq =>
        cases heq
        exact absurd hm h
      · next heq =>
        cases heq
        exact absurd hm h
      · exact hm.elim

section
variable {l : List FsEvent} {fh m : Nat}

theorem IsFsync.snoc {t : Nat} (e : FsEvent) (h : IsFsync l fh t) : IsFsync (l ++ [e]) fh t := by
  obtain ⟨i, datasync, hi⟩ := h
  exact ⟨i, datasync, getElem?_snoc e hi⟩

theorem UploadedSince.snoc (e : FsEvent) (h : UploadedSince l fh m) :
    UploadedSince (l ++ [e]) fh m := by
  obtain ⟨id, path, cache, t, j, i, r, hp, ht, hmj, hji, hj, hi⟩ := h
  exact ⟨id, path, cache, t, j, i, r, hp.snoc e, ht.snoc e, hmj, hji, getElem?_snoc e hj,
    getElem?_snoc e hi⟩

end

/-! ## The stages of an upload -/

/-- The upload an `fsync` sends for what it claimed. -/
def Claim.upload (c : Claim) : Verb := .openWrite c.handleId c.remotePath c.cachePath

/-- Where a request is with the dirty mark of a handle: it is no `fsync` of it (`outside`), or it
has not looked at the mark yet, was refused, found the mark clear, took it, sent the upload, had it
fail, set the mark again, or had the upload answered ok. -/
inductive Upload : Type where
  | outside
  | ready
  | refused
  | clean
  | claimed (c : Claim)
  | sent (c : Claim)
  | failed
  | restored
  | saved (c : Claim)

/-- The request does not hold the mark. -/
def Upload.Settled : Upload → Prop
  | claimed _ | sent _ | failed => False
  | _ => True

/-- The stage at the start of a request. -/
def Upload.init (fh : Nat) : Op → Upload
  | .fsync fh' _ => if fh' = fh then .ready else .outside
  | _ => .outside

/-- The stage after an action. -/
def Upload.next (fh : Nat) (g : Upload) : (a : Act) → a.Ret → Upload
  | .handleClaim fh' _, .ok c =>
    if fh' = fh then if c.wasDirty then .claimed c else .clean else g
  | .handleClaim .., .error _ => match g with
    | .ready => .refused
    | g => g
  | .call _, _ => match g with
    | .claimed c => .sent c
    | g => g
  | .reply _, r => match g with
    | .sent c => if r.isOk then .saved c else .failed
    | g => g
  | .handleRestore _, _ => match g with
    | .failed => .restored
    | g => g
  | _, _ => g

/-- The action takes the mark of the handle or sets it again. -/
def Act.Syncs (fh : Nat) : Act → Prop
  | handleClaim fh' _ | handleRestore fh' => fh' = fh
  | _ => False

/-- What a request can do at a stage. -/
def Upload.Pre (fh : Nat) : Upload → Act → Prop
  | outside, a => ¬ a.Syncs fh
  | ready, a => ∃ datasync, a = .handleClaim fh datasync
  | claimed c, a => a = .call c.upload
  | sent c, a => a = .reply c.upload
  | failed, a => a = .handleRestore fh
  | refused, _ | clean, _ | restored, _ | saved _, _ => False

/-- The contract of the requests with respect to the dirty mark of `fh`. -/
def uploads (fh : Nat) : Contract Act Act.Ret Upload where
  pre := Upload.Pre fh
  allow _ _ _ := True
  next := Upload.next fh

/-- A request ends without the mark, and an `fsync` of the handle that succeeds found it clear or
saved the bytes. -/
def Upload.Post (fh : Nat) (o : Op) (res : Except Errno Reply) (g : Upload) : Prop :=
  g.Settled ∧ ∀ datasync x, o = .fsync fh datasync → res = .ok x →
    g = .clean ∨ ∃ c, g = .saved c

theorem Upload.next_outside {fh : Nat} {a : Act} (ha : ¬ a.Syncs fh) (r : a.Ret) :
    Upload.next fh .outside a r = .outside := by
  unfold Upload.next
  split
  · exact if_neg ha
  all_goals rfl

theorem Upload.next_ready (fh : Nat) (datasync : Bool) (c : Claim) :
    Upload.next fh .ready (.handleClaim fh datasync) (.ok c) =
      if c.wasDirty then .claimed c else .clean := if_pos rfl

/-- No other request than an `fsync` of the handle takes its mark, or sets it again. -/
theorem Op.May.not_syncs {o : Op} {fh : Nat} (ho : ∀ datasync, o ≠ .fsync fh datasync)
    {a : Act} (h : o.May a) : ¬ a.Syncs fh := by
  intro hs
  cases a with
  | handleClaim | handleRestore =>
    subst hs
    rcases h with h | h
    · cases o with
      | fsync fh' datasync' =>
        cases h
        exact ho datasync' rfl
      | _ => exact h
    · cases o <;> simp [Op.Shared, Act.Looks, Act.Lists, Act.Records, Act.Forgets, Act.Commits] at h
  | _ => exact hs

theorem Upload.init_of_ne {fh : Nat} {o : Op} (ho : ∀ datasync, o ≠ .fsync fh datasync) :
    Upload.init fh o = .outside := by
  cases o with
  | fsync fh' datasync =>
    have hne : fh' ≠ fh := fun h => ho datasync (h ▸ rfl)
    exact if_neg hne
  | _ => rfl

/-- **Every request keeps the contract.** -/
theorem uploads_honoured (nfc : Str → Str) (cacheRoot : Option Str) (fh : Nat) :
    (fsService nfc cacheRoot).Honours (uploads fh) (Upload.init fh) (Upload.Post fh) := by
  intro o
  by_cases ho : ∀ datasync, o ≠ .fsync fh datasync
  · rw [Upload.init_of_ne ho]
    exact Contract.obeys_of_only (Op.prog_only o) (fun a ha => ha.not_syncs ho)
      (fun a r ha => Upload.next_outside (ha.not_syncs ho) r)
      fun r => ⟨trivial, fun datasync _ h => absurd h (ho datasync)⟩
  · simp only [not_forall, not_not] at ho
    obtain ⟨datasync, rfl⟩ := ho
    have hinit : Upload.init fh (.fsync fh datasync) = .ready := if_pos rfl
    simp only [hinit, fsService, Op.prog, UnidriveMount.fsync, ipc, Contract.obeys_bind,
      Contract.obeys_perform, Contract.obeys_ofExcept]
    refine ⟨⟨datasync, rfl⟩, fun r _ => ?_⟩
    cases r with
    | error e => exact ⟨trivial, fun _ _ _ h => by cases h⟩
    | ok claim =>
      dsimp only [uploads]
      rw [Upload.next_ready]
      cases hd : claim.wasDirty with
      | false => exact ⟨trivial, fun _ _ _ _ => .inl rfl⟩
      | true =>
        refine ⟨rfl, fun _ _ => ⟨rfl, fun r _ => ?_⟩⟩
        cases r with
        | error e => exact ⟨rfl, fun _ _ => ⟨trivial, fun _ _ _ h => by cases h⟩⟩
        | ok r => exact ⟨trivial, fun _ _ _ _ => .inr ⟨claim, rfl⟩⟩

/-! ## What the stages mean -/

/-- The stage of request `t`, which is `o`. -/
def stage (fh : Nat) (o : Op) (c : FsConfig) (t : Nat) : Upload :=
  (uploads fh).ghost (Upload.init fh o) t c.log

/-- What is known of the log when request `t` is at a stage: nothing was done yet, or the claim is
one of the handle, and the upload was sent, and answered, after the request started. -/
def Upload.Facts (l : List FsEvent) (fh t : Nat) : Upload → Prop
  | ready => IsFsync l fh t ∧ ∀ (i : Nat) (a : Act) (r : a.Ret), l[i]? ≠ some (Event.acted t a r)
  | claimed c => IsFsync l fh t ∧ Published l fh c.handleId
  | sent c => IsFsync l fh t ∧ Published l fh c.handleId ∧
      ∃ j : Nat, l[j]? = some (Event.acted t (.call c.upload) ()) ∧
        ∀ (s : Nat) (o : Op), l[s]? = some (.started t o) → s < j
  | saved c => IsFsync l fh t ∧ Published l fh c.handleId ∧
      ∃ (j i : Nat) (r : OpenReply), j < i ∧
        l[j]? = some (Event.acted t (.call c.upload) ()) ∧
        l[i]? = some (Event.acted t (.reply c.upload) (.ok r)) ∧
        ∀ (s : Nat) (o : Op), l[s]? = some (.started t o) → s < j
  | failed => IsFsync l fh t ∧ ∃ id, Published l fh id
  | _ => True

/-- A request at this stage is answerable for what marked the handle at entry `m`. -/
def Upload.Holds (l : List FsEvent) (t m : Nat) : Upload → Prop
  | claimed _ | failed => True
  | sent c => ∃ j : Nat, m < j ∧ l[j]? = some (Event.acted t (.call c.upload) ())
  | _ => False

section
variable {l : List FsEvent} {fh t m : Nat} {g : Upload} {e : FsEvent}

theorem Upload.Facts.snoc (h : g.Facts l fh t) (he : e.tid ≠ t ∨ ∃ o res, e = .returned t o res) :
    g.Facts (l ++ [e]) fh t := by
  have hstart : ∀ {s : Nat} {o : Op}, (l ++ [e])[s]? = some (.started t o) →
      l[s]? = some (.started t o) := by
    intro s o hs
    refine (getElem?_snoc_iff.1 hs).resolve_right fun h => ?_
    rcases he with he | ⟨o, res, he⟩
    · exact he (h.2 ▸ rfl)
    · cases h.2.trans he
  cases g with
  | ready =>
    refine ⟨h.1.snoc e, fun i a r hi => ?_⟩
    rcases getElem?_snoc_iff.1 hi with hi | ⟨-, hi⟩
    · exact h.2 i a r hi
    · rcases he with he | ⟨o, res, he⟩
      · exact he (hi ▸ rfl)
      · cases hi.trans he
  | claimed c => exact ⟨h.1.snoc e, h.2.snoc e⟩
  | sent c =>
    obtain ⟨ht, hp, j, hj, hs⟩ := h
    exact ⟨ht.snoc e, hp.snoc e, j, getElem?_snoc e hj, fun s o h => hs s o (hstart h)⟩
  | saved c =>
    obtain ⟨ht, hp, j, i, r, hji, hj, hi, hs⟩ := h
    exact ⟨ht.snoc e, hp.snoc e, j, i, r, hji, getElem?_snoc e hj, getElem?_snoc e hi,
      fun s o h => hs s o (hstart h)⟩
  | failed =>
    obtain ⟨ht, id, hp⟩ := h
    exact ⟨ht.snoc e, id, hp.snoc e⟩
  | outside | refused | clean | restored => trivial

theorem Upload.Holds.snoc (e : FsEvent) (h : g.Holds l t m) : g.Holds (l ++ [e]) t m := by
  cases g with
  | claimed c | failed => trivial
  | sent c =>
    obtain ⟨j, hmj, hj⟩ := h
    exact ⟨j, hmj, getElem?_snoc e hj⟩
  | outside | ready | refused | clean | restored | saved => exact h

theorem Upload.Holds.isFsync (h : g.Holds l t m) (hf : g.Facts l fh t) : IsFsync l fh t := by
  cases g with
  | claimed c | sent c | failed => exact hf.1
  | outside | ready | refused | clean | restored | saved => exact h.elim

theorem Upload.Holds.not_settled (h : g.Holds l t m) : ¬ g.Settled := by
  cases g with
  | claimed c | failed | sent c => exact fun hs => hs
  | outside | ready | refused | clean | restored | saved => exact fun _ => h

variable {a : Act} {r : a.Ret}

/-- One action of the request itself keeps the facts, if a claim is of the published handle. -/
theorem Upload.Facts.next (h : g.Facts l fh t) (hpre : g.Pre fh a)
    (hclaim : ∀ datasync c, (Event.acted t a r : FsEvent) =
      .acted t (.handleClaim fh datasync) (.ok c) → Published l fh c.handleId) :
    (g.next fh a r).Facts (l ++ [.acted t a r]) fh t := by
  have hend : (l ++ [Event.acted t a r])[l.length]? = some (Event.acted t a r) :=
    getElem?_snoc_iff.2 (.inr ⟨rfl, rfl⟩)
  have hstart : ∀ (s : Nat) (o : Op), (l ++ [Event.acted t a r])[s]? = some (.started t o) →
      s < l.length := fun s o hs =>
    (getElem?_snoc_iff.1 hs).elim getElem?_lt fun h => by cases h.2
  cases g with
  | outside =>
    rw [Upload.next_outside hpre]
    trivial
  | ready =>
    obtain ⟨datasync, rfl⟩ := hpre
    cases r with
    | error e => trivial
    | ok c =>
      rw [Upload.next_ready]
      split
      · exact ⟨h.1.snoc _, (hclaim datasync c rfl).snoc _⟩
      · trivial
  | claimed c =>
    cases hpre
    exact ⟨h.1.snoc _, h.2.snoc _, l.length, hend, hstart⟩
  | sent c =>
    cases hpre
    obtain ⟨ht, hp, j, hj, hs⟩ := h
    cases r with
    | error e => exact ⟨ht.snoc _, _, hp.snoc _⟩
    | ok r =>
      exact ⟨ht.snoc _, hp.snoc _, j, l.length, r, getElem?_lt hj, getElem?_snoc _ hj, hend,
        fun s o h => hs s o ((getElem?_snoc_iff.1 h).resolve_right fun h => by cases h.2)⟩
  | failed =>
    cases hpre
    trivial
  | refused | clean | restored | saved => exact hpre.elim

/-- A request answerable for a mark has it saved, stays answerable, or sets the mark again. -/
theorem Upload.Holds.next (h : g.Holds l t m) (hf : g.Facts l fh t) (hpre : g.Pre fh a)
    (hm : m < l.length) :
    UploadedSince (l ++ [.acted t a r]) fh m ∨
      (g.next fh a r).Holds (l ++ [.acted t a r]) t m ∨ a = .handleRestore fh := by
  have hend : (l ++ [Event.acted t a r])[l.length]? = some (Event.acted t a r) :=
    getElem?_snoc_iff.2 (.inr ⟨rfl, rfl⟩)
  cases g with
  | claimed c =>
    cases hpre
    exact .inr (.inl ⟨l.length, hm, hend⟩)
  | sent c =>
    cases hpre
    obtain ⟨j, hmj, hj⟩ := h
    cases r with
    | error e => exact .inr (.inl trivial)
    | ok r =>
      exact .inl ⟨c.handleId, c.remotePath, c.cachePath, t, j, l.length, r, hf.2.1.snoc _,
        hf.1.snoc _, hmj, getElem?_lt hj, getElem?_snoc _ hj, hend⟩
  | failed => exact .inr (.inr hpre)
  | outside | ready | refused | clean | restored | saved => exact h.elim

end

/-! ## Every mark is accounted for -/

/-- Some request in progress is answerable for what marked the handle at entry `m`. -/
def Held (fh : Nat) (c : FsConfig) (m : Nat) : Prop :=
  ∃ t o p, c.live t = some (o, p) ∧ (stage fh o c t).Holds c.log t m

/-- Whatever marked the handle `fh`, while it is open, was uploaded since, or the handle is dirty,
or some request is answerable for it. -/
structure Accounted (fh : Nat) (c : FsConfig) : Prop where
  named : ∀ h, c.st.openHandles.get fh = some h → Published c.log fh h.handleId
  marked : ∀ (m : Nat) (e : FsEvent), c.log[m]? = some e → Marks fh e →
    ∃ id, Published c.log fh id
  facts : ∀ t o p, c.live t = some (o, p) → (stage fh o c t).Facts c.log fh t
  accounted : ∀ (m : Nat) (e : FsEvent) (h : OpenHandle), c.log[m]? = some e → Marks fh e →
    c.st.openHandles.get fh = some h →
    UploadedSince c.log fh m ∨ h.dirty = true ∨ Held fh c m

section
variable {nfc : Str → Str} {cacheRoot : Option Str} {disk : Disk} {fh t : Nat} {c : FsConfig}
  {o : Op} {p : FsProg Reply}

theorem Accounted.initial (fh : Nat) (disk : Disk) : Accounted fh (.initial (.new disk)) where
  named h hget := by simp [FsState.new] at hget
  marked m e hm := by simp at hm
  facts t o p hlive := by simp at hlive
  accounted m e h hm := by simp at hm

theorem stage_start (p : FsProg Reply) (o' : Op) (u : Nat) :
    stage fh o' (c.start t o p) u = stage fh o' c u :=
  Contract.ghost_snoc_started o

theorem stage_finish (res : Except Errno Reply) (o' : Op) (u : Nat) :
    stage fh o' (c.finish t o res) u = stage fh o' c u :=
  Contract.ghost_snoc_returned o res

theorem stage_act_self {a : Act} (r : a.Ret) (p : FsProg Reply) (s : FsState) :
    stage fh o (c.act t o a r p s) t = (stage fh o c t).next fh a r :=
  Contract.ghost_snoc_acted_self a r

theorem stage_act_ne {u : Nat} (hu : u ≠ t) {a : Act} (r : a.Ret) (p : FsProg Reply)
    (s : FsState) (o' : Op) : stage fh o' (c.act t o a r p s) u = stage fh o' c u :=
  Contract.ghost_snoc_acted_ne (Ne.symm hu) a r

theorem stage_of_fresh (hfresh : ∀ e ∈ c.log, e.tid ≠ t) : stage fh o c t = Upload.init fh o :=
  Contract.ghost_eq_init hfresh

theorem Upload.init_facts {l : List FsEvent} (hfresh : ∀ e ∈ l, e.tid ≠ t) :
    (Upload.init fh o).Facts (l ++ [.started t o]) fh t := by
  cases o with
  | fsync fh' datasync =>
    simp only [Upload.init]
    split
    · next hfh =>
      subst hfh
      refine ⟨⟨l.length, datasync, getElem?_snoc_iff.2 (.inr ⟨rfl, rfl⟩)⟩, fun i a r hi => ?_⟩
      rcases getElem?_snoc_iff.1 hi with hi | ⟨-, hi⟩
      · exact hfresh _ (List.mem_of_getElem? hi) rfl
      · cases hi
    · trivial
  | _ => trivial

theorem Accounted.start (hI : Accounted fh c) (hfresh : ∀ e ∈ c.log, e.tid ≠ t)
    (hlive : c.live t = none) (p : FsProg Reply) : Accounted fh (c.start t o p) where
  named h hget := (hI.named h hget).snoc _
  marked m e hm he := by
    rcases getElem?_snoc_iff.1 hm with hm | ⟨-, rfl⟩
    · obtain ⟨id, hp⟩ := hI.marked m e hm he
      exact ⟨id, hp.snoc _⟩
    · exact he.elim
  facts u o' p' hu := by
    rw [Config.start_live] at hu
    rw [stage_start, Config.start_log]
    split at hu
    · next h =>
      subst h
      cases hu
      rw [stage_of_fresh hfresh]
      exact Upload.init_facts hfresh
    · next h => exact (hI.facts u o' p' hu).snoc (.inl (Ne.symm h))
  accounted m e h hm he hget := by
    rcases getElem?_snoc_iff.1 hm with hm | ⟨-, rfl⟩
    · rcases hI.accounted m e h hm he hget with hup | hd | ⟨u, o', p', hu, hh⟩
      · exact .inl (hup.snoc _)
      · exact .inr (.inl hd)
      · refine .inr (.inr ⟨u, o', p', ?_, (stage_start p o' u).symm ▸ hh.snoc _⟩)
        rw [Config.start_live, if_neg fun h => by simp [h, hlive] at hu]
        exact hu
    · exact he.elim

theorem Accounted.finish (hI : Accounted fh c) (hlive : c.live t = some (o, p))
    {res : Except Errno Reply} (hset : (stage fh o c t).Settled) :
    Accounted fh (c.finish t o res) where
  named h hget := (hI.named h hget).snoc _
  marked m e hm he := by
    rcases getElem?_snoc_iff.1 hm with hm | ⟨-, rfl⟩
    · obtain ⟨id, hp⟩ := hI.marked m e hm he
      exact ⟨id, hp.snoc _⟩
    · exact he.elim
  facts u o' p' hu := by
    rw [Config.finish_live] at hu
    rw [stage_finish, Config.finish_log]
    split at hu
    · cases hu
    · next h => exact (hI.facts u o' p' hu).snoc (.inl (Ne.symm h))
  accounted m e h hm he hget := by
    rcases getElem?_snoc_iff.1 hm with hm | ⟨-, rfl⟩
    · rcases hI.accounted m e h hm he hget with hup | hd | ⟨u, o', p', hu, hh⟩
      · exact .inl (hup.snoc _)
      · exact .inr (.inl hd)
      · refine .inr (.inr ⟨u, o', p', ?_, (stage_finish res o' u).symm ▸ hh.snoc _⟩)
        have hne : u ≠ t := by
          rintro rfl
          rw [hlive] at hu
          cases hu
          exact hh.not_settled hset
        rw [Config.finish_live, if_neg hne]
        exact hu
    · exact he.elim

variable {a : Act} {r : a.Ret} {k : a.Ret → FsProg Reply} {s : FsState}

/-- A request answerable for a mark stays so, unless it has it saved or sets the mark. -/
theorem Accounted.held_act (hI : Accounted fh c) (hlive : c.live t = some (o, .act a k))
    (hpre : (stage fh o c t).Pre fh a) {m : Nat} (hm : m < c.log.length) (hheld : Held fh c m)
    (ha : a ≠ .handleRestore fh) :
    UploadedSince (c.act t o a r (k r) s).log fh m ∨ Held fh (c.act t o a r (k r) s) m := by
  obtain ⟨u, o', p', hu, hh⟩ := hheld
  by_cases hut : u = t
  · subst hut
    rw [hlive] at hu
    cases hu
    rcases hh.next (r := r) (hI.facts u _ _ hlive) hpre hm with hup | hh | hres
    · exact .inl hup
    · refine .inr ⟨u, o, k r, by simp, ?_⟩
      rw [stage_act_self]
      exact hh
    · exact absurd hres ha
  · refine .inr ⟨u, o', p', by simpa [hut] using hu, ?_⟩
    rw [stage_act_ne hut]
    exact hh.snoc _

theorem Accounted.act (hI : Accounted fh c) (hlive : c.live t = some (o, .act a k))
    (hpre : (stage fh o c t).Pre fh a) (honce : HandedOutOnce c (.acted t a r))
    (hstep : fsMachine.Step a c.st r s) : Accounted fh (c.act t o a r (k r) s) := by
  have hh := handleStep_of_step hstep fh
  constructor
  case named =>
    intro h' hget
    rcases hh.handleId hget with rfl | ⟨h, hget, hid⟩
    · exact ⟨c.log.length, t, h', getElem?_snoc_iff.2 (.inr ⟨rfl, rfl⟩), rfl⟩
    · exact hid ▸ (hI.named h hget).snoc _
  case marked =>
    intro m e hm he
    rcases getElem?_snoc_iff.1 hm with hm | ⟨-, rfl⟩
    · obtain ⟨id, hp⟩ := hI.marked m e hm he
      exact ⟨id, hp.snoc _⟩
    · obtain ⟨h', hget, -⟩ := hh.of_marks he
      rcases hh.handleId hget with rfl | ⟨h, hget, -⟩
      · exact ⟨_, c.log.length, t, h', getElem?_snoc_iff.2 (.inr ⟨rfl, rfl⟩), rfl⟩
      · exact ⟨_, (hI.named h hget).snoc _⟩
  case facts =>
    intro u o' p' hu
    by_cases hut : u = t
    · subst hut
      rw [Config.act_live, if_pos rfl] at hu
      cases hu
      rw [stage_act_self]
      refine (hI.facts u _ _ hlive).next hpre fun datasync claim heq => ?_
      cases heq
      obtain ⟨h, hget, rfl, -⟩ := hh.of_claim
      exact hI.named h hget
    · rw [stage_act_ne hut]
      rw [Config.act_live, if_neg hut] at hu
      exact (hI.facts u o' p' hu).snoc (.inl (Ne.symm hut))
  case accounted =>
    intro m e h' hm he hget
    rcases getElem?_snoc_iff.1 hm with hold | ⟨-, rfl⟩
    · have hmn : m < c.log.length := getElem?_lt hold
      -- what was known of the mark, given that the dirty mark and the holders survive
      have keep : ∀ h, c.st.openHandles.get fh = some h → (h.dirty = true → h'.dirty = true) →
          a ≠ .handleRestore fh → UploadedSince (c.act t o a r (k r) s).log fh m ∨
            h'.dirty = true ∨ Held fh (c.act t o a r (k r) s) m := by
        intro h hget hdirty ha
        rcases hI.accounted m e h hold he hget with hup | hd | hheld
        · exact .inl (hup.snoc _)
        · exact .inr (.inl (hdirty hd))
        · exact (hI.held_act hlive hpre hmn hheld ha).imp_right .inr
      rw [Config.act_st] at hget
      generalize hg : c.st.openHandles.get fh = og at hh
      generalize hg' : s.openHandles.get fh = og' at hh
      rw [hg'] at hget
      cases hh with
      | insert h =>
        obtain ⟨id, hp⟩ := hI.marked m e hold he
        exact absurd hp (honce id)
      | remove => cases hget
      | write | setLen => cases hget; exact .inr (.inl rfl)
      | claim datasync h =>
        cases hget
        rcases hI.accounted m e h hold he hg with hup | hd | hheld
        · exact .inl (hup.snoc _)
        · -- the request that took the mark answers for it now
          refine .inr (.inr ⟨t, o, _, (Config.act_live ..).trans (if_pos rfl), ?_⟩)
          have hnext : (stage fh o c t).next fh (.handleClaim fh datasync)
              (.ok ⟨h.handleId, h.remotePath, h.cachePath, h.dirty⟩) =
              if h.dirty then .claimed _ else .clean := if_pos rfl
          rw [stage_act_self, hnext, if_pos hd]
          trivial
        · exact (hI.held_act hlive hpre hmn hheld (by simp)).imp_right .inr
      | restore =>
        obtain ⟨h, -, rfl⟩ := Option.map_eq_some_iff.1 hget
        exact .inr (.inl rfl)
      | follow old new =>
        obtain ⟨h, rfl, rfl⟩ := Option.map_eq_some_iff.1 hget
        exact keep h hg (by simp) (by simp)
      | frame h hsp =>
        subst hget
        refine keep h' hg id ?_
        rintro rfl
        exact absurd rfl hsp
    · obtain ⟨h, hget', hd⟩ := hh.of_marks he
      rw [Config.act_st, hget'] at hget
      cases hget
      exact .inr (.inl hd)

end

/-- **In every run every mark is accounted for.** -/
theorem run_accounted {nfc : Str → Str} {cacheRoot : Option Str} {disk : Disk} {c : FsConfig}
    {ok : FsConfig → FsEvent → Prop} (hok : ∀ c e, ok c e → DrawsFew c e)
    (h : (fsService nfc cacheRoot).Run ok (.initial (.new disk)) c) (fh : Nat) :
    Accounted fh c :=
  h.invariant_of_contract (uploads_honoured nfc cacheRoot fh) (fun _ _ _ _ _ _ _ _ => trivial)
    (.initial fh disk) (fun _ _ _ _ hI hfresh hlive _ => hI.start hfresh hlive _)
    (fun _ _ _ _ _ _ _ hrun hI hlive hpre _ hstep =>
      hI.act hlive hpre (handedOutOnce_of_step hok hrun (.act hlive hstep)) hstep)
    fun _ _ _ _ _ hI hlive hpost _ => hI.finish hlive hpost.1

end UnidriveMount
