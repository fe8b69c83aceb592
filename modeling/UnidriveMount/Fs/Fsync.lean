import UnidriveMount.Fs.Uploads

/-!
# Durability of `fsync`

When an `fsync` returns Ok, is every modification acknowledged before it durable? It is when the
`fsync` uploads itself. When it finds the dirty mark clear it returns at once, and the mark may be
clear because another `fsync` of the handle has taken it and has not finished: its upload may not
be answered yet, or may fail. `fsync_durable` proves the property for the runs in which no `fsync`
finds the mark clear while another one holds it, and `fsync_not_durable` is a run in which it fails.
-/

namespace UnidriveMount

open Lib

/-- Whenever an `fsync` of `fh` returns Ok, every modification whose request had returned success
before the `fsync` was started was uploaded since, the upload answered ok before the `fsync`
returned. -/
def FsyncDurable (fh : Nat) (l : List FsEvent) : Prop :=
  ∀ (k s m i t : Nat) (datasync : Bool) (x y : Reply) (e : FsEvent) (o : Op),
    l[k]? = some (.returned t (.fsync fh datasync) (.ok x)) →
    l[s]? = some (.started t (.fsync fh datasync)) →
    l[m]? = some e → Modifies fh e → l[i]? = some (.returned e.tid o (.ok y)) →
    m < i → i < s → s < k → UploadedSince (l.take k) fh m

/-! ## Where it holds -/

/-- Some request has taken the dirty mark of `fh` and is not done with it. -/
def MarkTaken (fh : Nat) (c : FsConfig) : Prop :=
  ∃ t o p, c.live t = some (o, p) ∧ ¬ (stage fh o c t).Settled

/-- The step is no `fsync` that finds the mark clear while another request holds it, and the handle
numbers do not run out. -/
def CleanOnlyWhenSettled (c : FsConfig) (e : FsEvent) : Prop :=
  DrawsFew c e ∧
    match e with
    | .acted _ (.handleClaim fh _) (.ok claim) => claim.wasDirty = false → ¬ MarkTaken fh c
    | _ => True

/-- Everything that marked `fh` up to some point after the start of request `t` is uploaded. -/
def UploadedBefore (fh t : Nat) (l : List FsEvent) : Prop :=
  ∃ n ≤ l.length, (∀ (s : Nat) (o : Op), l[s]? = some (.started t o) → s < n) ∧
    ∀ (m : Nat) (e : FsEvent), m < n → l[m]? = some e → Marks fh e → UploadedSince l fh m

/-- An `fsync` that found the mark clear has everything from before its start uploaded. -/
def CleanMeansUploaded (fh : Nat) (c : FsConfig) : Prop :=
  ∀ t o p, c.live t = some (o, p) → stage fh o c t = .clean → UploadedBefore fh t c.log

theorem UploadedBefore.snoc {fh t : Nat} {l : List FsEvent} {e : FsEvent}
    (h : UploadedBefore fh t l) (he : ∀ o, e ≠ .started t o) : UploadedBefore fh t (l ++ [e]) := by
  obtain ⟨n, hn, hs, hm⟩ := h
  refine ⟨n, by simp; omega, fun s o h => ?_, fun m e' hmn h he' => ?_⟩
  · exact hs s o ((getElem?_snoc_iff.1 h).resolve_right fun h => he o h.2.symm)
  · rw [List.getElem?_append_left (by omega)] at h
    exact (hm m e' hmn h he').snoc e

section
variable {fh t : Nat} {c : FsConfig} {o : Op} {a : Act} {r : a.Ret} {g : Upload}

theorem Upload.init_ne_clean (fh : Nat) (o : Op) : Upload.init fh o ≠ .clean := by
  cases o with
  | fsync fh' datasync => simp only [Upload.init]; split <;> simp
  | _ => simp [Upload.init]

/-- Only a claim of a clear mark leads to the stage. -/
theorem Upload.eq_claim_of_next_clean (hpre : g.Pre fh a) (h : g.next fh a r = .clean) :
    ∃ datasync c, (Event.acted t a r : FsEvent) = .acted t (.handleClaim fh datasync) (.ok c) ∧
      c.wasDirty = false := by
  cases g with
  | outside => cases (Upload.next_outside hpre r).symm.trans h
  | ready =>
    obtain ⟨datasync, rfl⟩ := hpre
    cases r with
    | error e => cases h
    | ok c =>
      rw [Upload.next_ready] at h
      cases hd : c.wasDirty with
      | false => exact ⟨datasync, c, rfl, hd⟩
      | true => simp [hd] at h
  | claimed c => cases hpre; cases h
  | sent c => cases hpre; cases r <;> cases h
  | failed => cases hpre; cases h
  | refused | clean | restored | saved => exact hpre.elim

/-- What every upload of a settled handle leaves: everything marked so far is uploaded. -/
theorem Accounted.uploaded_of_clear (hI : Accounted fh c) {h : OpenHandle}
    (hget : c.st.openHandles.get fh = some h) (hd : h.dirty = false) (hset : ¬ MarkTaken fh c)
    {m : Nat} {e : FsEvent} (hm : c.log[m]? = some e) (he : Marks fh e) :
    UploadedSince c.log fh m := by
  rcases hI.accounted m e h hm he hget with hup | hd' | ⟨u, o, p, hu, hh⟩
  · exact hup
  · simp [hd] at hd'
  · exact absurd ⟨u, o, p, hu, hh.not_settled⟩ hset

end

section
variable {nfc : Str → Str} {cacheRoot : Option Str} {disk : Disk} {c : FsConfig}

theorem run_cleanMeansUploaded
    (h : (fsService nfc cacheRoot).Run CleanOnlyWhenSettled (.initial (.new disk)) c) (fh : Nat) :
    CleanMeansUploaded fh c := by
  refine h.invariant_of_contract (uploads_honoured nfc cacheRoot fh)
    (fun _ _ _ _ _ _ _ _ => trivial) (fun t o p hlive => by simp at hlive) ?_ ?_ ?_
  case refine_1 =>
    intro c t o _ hI hfresh hlive _ u o' p hu hclean
    rw [stage_start] at hclean
    by_cases hut : u = t
    · subst hut
      rw [Config.start_live, if_pos rfl] at hu
      cases hu
      rw [stage_of_fresh hfresh] at hclean
      exact absurd hclean (Upload.init_ne_clean fh _)
    · rw [Config.start_live, if_neg hut] at hu
      exact (hI u o' p hu hclean).snoc fun _ heq => hut (by cases heq; rfl)
  case refine_2 =>
    intro c t o a k r st hrun hI hlive hpre hok hstep u o' p hu hclean
    by_cases hut : u = t
    · subst hut
      rw [Config.act_live, if_pos rfl] at hu
      cases hu
      rw [stage_act_self] at hclean
      obtain ⟨datasync, claim, heq, hd⟩ := Upload.eq_claim_of_next_clean (t := u) hpre hclean
      cases heq
      obtain ⟨h, hget, rfl, -⟩ := (handleStep_of_step hstep fh).of_claim
      have hacc := run_accounted (fun _ _ hok => hok.1) hrun fh
      refine ⟨c.log.length, by simp, fun s o' hs => ?_, fun m e hm he hmark => ?_⟩
      · exact (getElem?_snoc_iff.1 hs).elim getElem?_lt fun h => by cases h.2
      · rw [Config.act_log, List.getElem?_append_left hm] at he
        exact (hacc.uploaded_of_clear hget hd (hok.2 hd) he hmark).snoc _
    · rw [stage_act_ne hut] at hclean
      rw [Config.act_live, if_neg hut] at hu
      exact (hI u o' p hu hclean).snoc fun _ heq => by cases heq
  case refine_3 =>
    intro c t o res _ hI _ _ _ u o' p hu hclean
    rw [Config.finish_live] at hu
    rw [stage_finish] at hclean
    split at hu
    · cases hu
    · exact (hI u o' p hu hclean).snoc fun _ heq => by cases heq

/-- **Durability of `fsync`**, in every run in which no `fsync` finds the mark of its handle clear
while another request holds it. -/
theorem fsync_durable
    (h : (fsService nfc cacheRoot).Run CleanOnlyWhenSettled (.initial (.new disk)) c) (fh : Nat) :
    FsyncDurable fh c.log := by
  intro k s m i t datasync x y e o hk hs hm hmod _ hmi his hsk
  obtain ⟨c₁, c₂, hrun, hst, -, hlog⟩ := h.step_of_getElem? hk
  rw [← hlog]
  have hs₁ : c₁.log[s]? = some (.started t (.fsync fh datasync)) := by
    rw [hlog, List.getElem?_take_of_lt hsk, hs]
  have hm₁ : c₁.log[m]? = some e := by
    rw [hlog, List.getElem?_take_of_lt (by omega), hm]
  cases hst with
  | finish hlive =>
    have hpost := hrun.obeys (uploads_honoured nfc cacheRoot fh)
      (fun _ _ _ _ _ _ _ _ => trivial) hlive
    rcases hpost.2 datasync x rfl rfl with hclean | ⟨claim, hsaved⟩
    · obtain ⟨n, -, hn, hup⟩ := run_cleanMeansUploaded hrun fh t _ _ hlive hclean
      exact hup m e (by have := hn s _ hs₁; omega) hm₁ hmod.marks
    · have hfacts := (run_accounted (fun _ _ hok => hok.1) hrun fh).facts t _ _ hlive
      rw [show stage fh _ c₁ t = .saved claim from hsaved] at hfacts
      obtain ⟨ht, hp, j, i, r, hji, hj, hi, hstart⟩ := hfacts
      have hsj : s < j := hstart s _ hs₁
      exact ⟨claim.handleId, claim.remotePath, claim.cachePath, t, j, i, r, hp, ht, by omega,
        hji, hj, hi⟩

end

/-! ## Runs -/

/-- Create the file `/a` and write a byte through its handle, `1`. -/
def createAndWrite : List (Move World Op) :=
  .start 0 (.create rootInode (some ['a'])) :: List.replicate 12 (.act 0 .calm) ++
  [.finish 0, .start 1 (.write 2 1 0 [7]), .act 1 .calm, .act 1 .calm, .finish 1]

/-- Two `fsync`s of the handle: the first takes the mark and has not sent its upload when the second
finds the mark clear and returns. -/
def overlappingFsyncs : List (Move World Op) :=
  createAndWrite ++ [.start 2 (.fsync 1 false), .act 2 .calm,
    .start 3 (.fsync 1 false), .act 3 .calm, .finish 3]

/-- Whether the entry is the request of an upload. -/
def isUploadCall : FsEvent → Bool
  | .acted _ (.call (.openWrite ..)) _ => true
  | _ => false

theorem not_uploadedSince {l : List FsEvent} (h : l.all (fun e => !isUploadCall e) = true)
    (fh m : Nat) : ¬ UploadedSince l fh m := by
  rintro ⟨id, path, cache, t, j, i, r, -, -, -, -, hj, -⟩
  simpa [isUploadCall] using List.all_eq_true.1 h _ (List.mem_of_getElem? hj)

/-- One `fsync` of the handle, answered ok. -/
def singleFsync : List (Move World Op) :=
  createAndWrite ++ [.start 2 (.fsync 1 false), .act 2 .calm, .act 2 .calm, .act 2 .calm,
    .finish 2]

/-- Whether the step finds the mark set if it looks at one, and draws a number that is left. -/
def findsDirty (c : FsConfig) (e : FsEvent) : Bool :=
  decide (DrawsFew c e) && match e with
    | .acted _ (.handleClaim ..) (.ok claim) => claim.wasDirty
    | _ => true

theorem cleanOnlyWhenSettled_of_bool {c : FsConfig} {e : FsEvent} (h : findsDirty c e = true) :
    CleanOnlyWhenSettled c e := by
  obtain ⟨hfew, h⟩ := Bool.and_eq_true_iff.1 h
  refine ⟨of_decide_eq_true hfew, ?_⟩
  split
  · intro hd
    cases hd.symm.trans h
  · trivial

/-- The run with a single `fsync` is one in which the property holds. -/
theorem fsync_durable_single :
    ∃ c, plainFs.Run CleanOnlyWhenSettled (.initial (.new .empty)) c ∧
      c.log[22]? = some (.returned 2 (.fsync 1 false) (.ok .done)) ∧ FsyncDurable 1 c.log := by
  have hplay : (plainFs.play findsDirty singleFsync
      (.initial (.new .empty))).isSome = true := by decide
  have hrun : plainFs.Run CleanOnlyWhenSettled (.initial (.new .empty)) _ :=
    plainFs.run_of_play .refl (Option.some_get hplay).symm fun _ _ _ =>
      cleanOnlyWhenSettled_of_bool
  exact ⟨_, hrun, rfl, fsync_durable hrun 1⟩

/-- The property fails in some run: an `fsync` returns Ok and nothing was sent to the daemon. -/
theorem fsync_not_durable :
    ¬ ∀ (nfc : Str → Str) (cacheRoot : Option Str) (disk : Disk) (c : FsConfig),
      (fsService nfc cacheRoot).Run (fun _ _ => True) (.initial (.new disk)) c →
        ∀ fh, FsyncDurable fh c.log := by
  intro h
  have hplay : (plainFs.play (fun _ _ => true) overlappingFsyncs
      (.initial (.new .empty))).isSome = true := by decide
  have hrun : plainFs.Run (fun _ _ => True) (.initial (.new .empty)) _ :=
    plainFs.run_of_play .refl (Option.some_get hplay).symm fun _ _ _ _ => trivial
  have hdur := h id none .empty _ hrun 1
  refine not_uploadedSince ?_ 1 15
    (hdur 22 20 15 17 3 false .done (.written 1) _ _ rfl rfl rfl rfl rfl ?_ ?_ ?_)
  · rfl
  all_goals omega

end UnidriveMount
