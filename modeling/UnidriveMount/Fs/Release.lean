import UnidriveMount.Fs.Closing
import UnidriveMount.Fs.Fsync

/-!
# Nothing is dropped at close

Whatever `fsync`s, writes and truncations went on before, a `release` drops nothing
(`release_keeps`): when a handle that was created, opened truncating or modified is released after
all its requests have returned, `release` sends an upload before it closes the handle, or an
`fsync` sent one after the last modification that was answered ok.
-/

namespace UnidriveMount

open Lib
open Lib.Prog (only_perform)

/-! ## How an upload that failed is taken back -/

/-- The contract of an `fsync` of `fh` with respect to uploads that fail: whether one has failed and
the mark was not set again. -/
def failures (fh : Nat) : Contract Act Act.Ret Bool where
  pre _ _ := True
  allow _ _ _ := True
  next
    | _, .reply (.openWrite ..), .error _ => true
    | g, .handleRestore fh', _ => if fh' = fh then false else g
    | g, _, _ => g

theorem failures_honoured (nfc : Str → Str) (cacheRoot : Option Str) (fh : Nat) :
    (fsService nfc cacheRoot).Honours (failures fh) (fun _ => false)
      (fun o _ g => ∀ datasync, o = .fsync fh datasync → g = false) := by
  intro o
  by_cases ho : ∀ datasync, o ≠ .fsync fh datasync
  · exact Contract.obeys_of_forall (fun _ _ => trivial)
      fun _ _ datasync h => absurd h (ho datasync)
  · simp only [not_forall, not_not] at ho
    obtain ⟨datasync, rfl⟩ := ho
    simp only [fsService, Op.prog, UnidriveMount.fsync, ipc, Contract.obeys_bind,
      Contract.obeys_perform, Contract.obeys_ofExcept]
    refine ⟨trivial, fun r _ => ?_⟩
    cases r with
    | error e => exact fun _ _ => rfl
    | ok claim =>
      dsimp only
      cases hd : claim.wasDirty with
      | false => exact fun _ _ => rfl
      | true =>
        refine ⟨trivial, fun _ _ => ⟨trivial, fun r _ => ?_⟩⟩
        cases r with
        | error e => exact ⟨trivial, fun _ _ _ _ => if_pos rfl⟩
        | ok r => exact fun _ _ => rfl

/-- A failed upload of request `t` is followed by the mark being set again, or still waits for it. -/
theorem failures_ghost (fh : Nat) {t i : Nat} {id path cache : Str} {e : IpcError} {l : List FsEvent}
    (hi : l[i]? = some (.acted t (.reply (.openWrite id path cache)) (.error e))) :
    (failures fh).ghost false t l = true ∨
      ∃ j : Nat, i < j ∧ l[j]? = some (Event.acted t (.handleRestore fh) ()) := by
  induction l using List.reverseRecOn with
  | nil => simp at hi
  | append_singleton l x ih =>
    rcases getElem?_snoc_iff.1 hi with hold | ⟨-, rfl⟩
    · rcases ih hold with hg | ⟨j, hij, hj⟩
      · cases x with
        | started u o => exact .inl ((Contract.ghost_snoc_started o).trans hg)
        | returned u o res => exact .inl ((Contract.ghost_snoc_returned o res).trans hg)
        | acted u a r =>
          by_cases hu : u = t
          · subst hu
            rw [Contract.ghost_snoc_acted_self, hg]
            unfold failures
            dsimp only
            split
            · exact .inl rfl
            · next fh' _ _ =>
              split
              · next hfh =>
                subst hfh
                exact .inr ⟨l.length, getElem?_lt hold, getElem?_snoc_iff.2 (.inr ⟨rfl, rfl⟩)⟩
              · exact .inl rfl
            · exact .inl rfl
          · exact .inl ((Contract.ghost_snoc_acted_ne hu a r).trans hg)
      · exact .inr ⟨j, hij, getElem?_snoc _ hj⟩
    · exact .inl (Contract.ghost_snoc_acted_self _ _)

/-! ## When the mark is clear -/

/-- The entry sets the mark of the handle. -/
def SetsMark (fh : Nat) (e : FsEvent) : Prop :=
  Marks fh e ∨ ∃ t r, e = Event.acted t (.handleRestore fh) r

/-- Whenever the handle is open and its mark is clear, every entry that set the mark is followed by
an `fsync` taking it. -/
def ClearedByClaims (fh : Nat) (c : FsConfig) : Prop :=
  ∀ (m : Nat) (e : FsEvent) (h : OpenHandle), c.log[m]? = some e → SetsMark fh e →
    c.st.openHandles.get fh = some h → h.dirty = false →
    ∃ (i t : Nat) (datasync : Bool) (claim : Claim), m < i ∧
      c.log[i]? = some (Event.acted t (.handleClaim fh datasync) (.ok claim))

/-- Taking the mark is the first thing a request does. -/
def ClaimsFirst (fh : Nat) (l : List FsEvent) : Prop :=
  ∀ (i j t : Nat) (datasync : Bool) (r : Except Errno Claim) (a : Act) (r' : a.Ret),
    l[i]? = some (Event.acted t (.handleClaim fh datasync) r) →
    l[j]? = some (Event.acted t a r') → i ≤ j

/-- An `fsync` whose upload failed has set the mark again when it returns. -/
def FailureRestores (fh : Nat) (l : List FsEvent) : Prop :=
  ∀ (k i t : Nat) (datasync : Bool) (res : Except Errno Reply) (id path cache : Str)
    (e : IpcError), l[k]? = some (.returned t (.fsync fh datasync) res) →
    l[i]? = some (.acted t (.reply (.openWrite id path cache)) (.error e)) → i < k →
    ∃ j : Nat, i < j ∧ j < k ∧ l[j]? = some (Event.acted t (.handleRestore fh) ())

section
variable {nfc : Str → Str} {cacheRoot : Option Str} {disk : Disk} {c : FsConfig} {fh : Nat}
  {ok : FsConfig → FsEvent → Prop}

theorem run_failureRestores (h : (fsService nfc cacheRoot).Run ok (.initial (.new disk)) c)
    (fh : Nat) : FailureRestores fh c.log := by
  intro k i t datasync res id path cache e hk hi hik
  have hclear := h.post_of_returned (failures_honoured nfc cacheRoot fh)
    (fun _ _ _ _ _ _ _ _ => trivial) hk datasync rfl
  have hi' : (c.log.take k)[i]? = _ := (List.getElem?_take_of_lt hik).trans hi
  rcases failures_ghost fh hi' with hset | ⟨j, hij, hj⟩
  · cases hclear.symm.trans hset
  · have hjk : j < k := by
      have := getElem?_lt hj
      rw [List.length_take] at this
      omega
    exact ⟨j, hij, hjk, (List.getElem?_take_of_lt hjk).symm.trans hj⟩

/-- A request that takes the mark has not done anything before. -/
theorem Upload.eq_ready_of_claim {g : Upload} {datasync : Bool}
    (h : g.Pre fh (.handleClaim fh datasync)) : g = .ready := by
  cases g with
  | ready => rfl
  | outside => exact absurd rfl h
  | claimed | sent | failed => cases h
  | refused | clean | restored | saved => exact h.elim

/-- A request that sets the mark again had an upload fail. -/
theorem Upload.eq_failed_of_restore {g : Upload} (h : g.Pre fh (.handleRestore fh)) :
    g = .failed := by
  cases g with
  | failed => rfl
  | outside => exact absurd rfl h
  | ready => obtain ⟨_, h⟩ := h; cases h
  | claimed | sent => cases h
  | refused | clean | restored | saved => exact h.elim

theorem run_claimsFirst (hok : ∀ c e, ok c e → DrawsFew c e)
    (h : (fsService nfc cacheRoot).Run ok (.initial (.new disk)) c) (fh : Nat) :
    ClaimsFirst fh c.log := by
  intro i j t datasync r a r' hi hj
  by_contra hij
  obtain ⟨c₁, c₂, hrun, hst, -, hlog⟩ := h.step_of_getElem? hi
  cases hst with
  | act hlive hm =>
    have hpre := (hrun.obeys (uploads_honoured nfc cacheRoot fh)
      (fun _ _ _ _ _ _ _ _ => trivial) hlive).1
    have hfacts := (run_accounted hok hrun fh).facts t _ _ hlive
    rw [show stage fh _ c₁ t = .ready from Upload.eq_ready_of_claim hpre] at hfacts
    refine hfacts.2 j a r' ?_
    rw [hlog, List.getElem?_take_of_lt (by omega), hj]

theorem SetsMark.of_acted {t : Nat} {a : Act} {r : a.Ret} {o o' : Option OpenHandle}
    (hm : SetsMark fh (.acted t a r)) (hh : HandleStep fh a r o o') {h' : OpenHandle}
    (ho : o' = some h') : h'.dirty = true := by
  rcases hm with hm | ⟨u, x, heq⟩
  · obtain ⟨h, hh, hd⟩ := hh.of_marks hm
    cases ho.symm.trans hh
    exact hd
  · cases heq
    subst ho
    generalize hx : some h' = x at hh
    cases hh with
    | restore o =>
      obtain ⟨h, -, rfl⟩ := Option.map_eq_some_iff.1 hx.symm
      rfl
    | frame o hsp => exact absurd rfl hsp

/-- What sets the mark of a handle comes after its publication. -/
theorem published_of_setsMark (hok : ∀ c e, ok c e → DrawsFew c e)
    (h : (fsService nfc cacheRoot).Run ok (.initial (.new disk)) c) {m : Nat} {e : FsEvent}
    (hm : c.log[m]? = some e) (he : SetsMark fh e) : ∃ id, Published c.log fh id := by
  rcases he with he | ⟨t, r, rfl⟩
  · exact (run_accounted hok h fh).marked m e hm he
  · obtain ⟨c₁, c₂, hrun, hst, -, hlog⟩ := h.step_of_getElem? hm
    cases hst with
    | act hlive _ =>
      have hpre := (hrun.obeys (uploads_honoured nfc cacheRoot fh)
        (fun _ _ _ _ _ _ _ _ => trivial) hlive).1
      have hfacts := (run_accounted hok hrun fh).facts t _ _ hlive
      rw [show stage fh _ c₁ t = .failed from Upload.eq_failed_of_restore hpre, hlog] at hfacts
      exact hfacts.2.imp fun _ hp => hp.of_take

theorem ClearedByClaims.act (hI : ClearedByClaims fh c) {t : Nat} {o : Op} {a : Act} {r : a.Ret}
    {p : FsProg Reply} {s : FsState}
    (hpub : ∀ (m : Nat) (e : FsEvent), c.log[m]? = some e → SetsMark fh e →
      ∃ id, Published c.log fh id) (honce : HandedOutOnce c (.acted t a r))
    (hstep : fsMachine.Step a c.st r s) : ClearedByClaims fh (c.act t o a r p s) := by
  have hh := handleStep_of_step hstep fh
  intro m e h' hm he hget hd
  rcases getElem?_snoc_iff.1 hm with hold | ⟨-, rfl⟩
  · -- what was known before the action, when it kept the mark
    have keep : ∀ h, c.st.openHandles.get fh = some h → h.dirty = false →
        ∃ (i t' : Nat) (datasync : Bool) (claim : Claim), m < i ∧ (c.act t o a r p s).log[i]? =
          some (Event.acted t' (.handleClaim fh datasync) (.ok claim)) := by
      intro h hget hd
      obtain ⟨i, u, datasync, claim, hmi, hi⟩ := hI m e h hold he hget hd
      exact ⟨i, u, datasync, claim, hmi, getElem?_snoc _ hi⟩
    rw [Config.act_st] at hget
    generalize hg : c.st.openHandles.get fh = og at hh
    generalize hg' : s.openHandles.get fh = og' at hh
    rw [hg'] at hget
    cases hh with
    | insert h =>
      obtain ⟨id, hp⟩ := hpub m e hold he
      exact absurd hp (honce id)
    | remove => cases hget
    | write | setLen => cases hget; cases hd
    | claim datasync h => exact ⟨_, t, datasync, _, getElem?_lt hold, getElem?_snoc_self ..⟩
    | restore =>
      obtain ⟨h, -, rfl⟩ := Option.map_eq_some_iff.1 hget
      cases hd
    | follow old new =>
      obtain ⟨h, rfl, rfl⟩ := Option.map_eq_some_iff.1 hget
      exact keep h hg (by simpa using hd)
    | frame h hsp => exact keep h' (hg.trans hget) hd
  · cases hd.symm.trans (he.of_acted hh hget)

/-- **A clear mark was taken by an `fsync`**, after everything that had set it. -/
theorem run_clearedByClaims (hok : ∀ c e, ok c e → DrawsFew c e)
    (h : (fsService nfc cacheRoot).Run ok (.initial (.new disk)) c) (fh : Nat) :
    ClearedByClaims fh c := by
  have hsnoc : ∀ {l : List FsEvent} {m : Nat} {e e' : FsEvent}, (l ++ [e'])[m]? = some e →
      (∀ t a r, e' ≠ .acted t a r) → SetsMark fh e → l[m]? = some e := by
    intro l m e e' hm he' he
    refine (getElem?_snoc_iff.1 hm).resolve_right ?_
    rintro ⟨-, rfl⟩
    rcases he with he | ⟨t, r, rfl⟩
    · cases e with
      | acted t a r => exact he' t a r rfl
      | started | returned => exact he
    · exact he' t _ r rfl
  refine h.invariant ?_ fun c e c' hrun hI hst hadm => ?_
  · intro m e h hm
    simp at hm
  · cases hst with
    | start hfresh hlive =>
      intro m e h hm he hget hd
      obtain ⟨i, u, datasync, claim, hmi, hi⟩ := hI m e h (hsnoc hm nofun he) he hget hd
      exact ⟨i, u, datasync, claim, hmi, getElem?_snoc _ hi⟩
    | act hlive hm =>
      exact hI.act (fun _ _ hm he => published_of_setsMark hok hrun hm he)
        (handedOutOnce_of_step hok hrun (.act hlive hm)) hm
    | finish hlive =>
      intro m e h hm he hget hd
      obtain ⟨i, u, datasync, claim, hmi, hi⟩ := hI m e h (hsnoc hm nofun he) he hget hd
      exact ⟨i, u, datasync, claim, hmi, getElem?_snoc _ hi⟩

end

/-! ## What a release keeps -/

/-- Request `t` sent an upload of the handle and then closed it. -/
def UploadedAtClose (l : List FsEvent) (fh t : Nat) : Prop :=
  ∃ (id path cache : Str) (j i : Nat), Published l fh id ∧ j < i ∧
    l[j]? = some (Event.acted t (.call (.openWrite id path cache)) ()) ∧
    l[i]? = some (Event.acted t (.call (.closeHandle id)) ())

/-- Entry `m` leaves bytes to be uploaded: a modification through the handle, or its publication by
a `create` or a truncating `open`. -/
def LeavesBytes (l : List FsEvent) (fh m : Nat) : Prop :=
  ∃ e, l[m]? = some e ∧ (Modifies fh e ∨ ∃ (t q : Nat) (h : OpenHandle) (o : Op),
    e = .acted t (.handleInsert fh h) () ∧ l[q]? = some (.started t o) ∧
      (Birth.init o).mark = some true)

/-- Whenever a `release` of a handle that an `open` or a `create` had published returns, it has
uploaded the handle's bytes before closing it, or every entry that left bytes was uploaded since by
an `fsync`. -/
def ReleaseKeeps (fh : Nat) (l : List FsEvent) : Prop :=
  ∀ (k s p q m t u : Nat) (res : Except Errno Reply) (h : OpenHandle) (o : Op),
    l[k]? = some (.returned t (.release fh) res) → l[s]? = some (.started t (.release fh)) →
    l[p]? = some (Event.acted u (.handleInsert fh h) ()) → l[q]? = some (.started u o) → o.Opens →
    p < s → s < k → m < k → LeavesBytes l fh m →
    UploadedAtClose (l.take k) fh t ∨ UploadedSince (l.take k) fh m

/-- The fate of the dirty mark of `fh` in a run: `release` keeps what was marked, `fsync` takes a
mark only before it sends its upload, a clear mark was taken after all that had set it, and a failed
upload has the mark set again. -/
structure MarkKept (fh : Nat) (c : FsConfig) : Prop where
  release : ReleaseKeeps fh c.log
  claimsFirst : ClaimsFirst fh c.log
  cleared : ClearedByClaims fh c
  restored : FailureRestores fh c.log

section
variable {nfc : Str → Str} {cacheRoot : Option Str} {disk : Disk} {c : FsConfig} {fh : Nat}

/-- What leaves bytes to be uploaded marks the handle. -/
theorem marks_of_leavesBytes {ok : FsConfig → FsEvent → Prop}
    (h : (fsService nfc cacheRoot).Run ok (.initial (.new disk)) c) {m : Nat}
    (hm : LeavesBytes c.log fh m) : ∃ e, c.log[m]? = some e ∧ Marks fh e := by
  obtain ⟨e, hm, hmod | ⟨t, q, handle, o, rfl, hq, hb⟩⟩ := hm
  · exact ⟨e, hm, hmod.marks⟩
  · have hpre := h.pre_of_acted (births_honoured nfc cacheRoot)
      (fun _ _ _ _ _ _ _ _ => trivial) hm hq
    have hmark := (births_ghost_mark (Birth.init o) t (c.log.take m)).symm.trans hpre.1
    rw [hb] at hmark
    exact ⟨_, hm, rfl, (Option.some.inj hmark).symm⟩

theorem run_releaseKeeps
    (h : (fsService nfc cacheRoot).Run (ClosedLast fh) (.initial (.new disk)) c) :
    ReleaseKeeps fh c.log := by
  intro k s p q m t u res handle o hk hs hp hq hopens hps hsk hmk hm
  obtain ⟨e, hm, hmark⟩ := marks_of_leavesBytes h hm
  obtain ⟨c₁, c₂, hrun, hst, -, hlog⟩ := h.step_of_getElem? hk
  have hold : ∀ {n : Nat}, n < k → c₁.log[n]? = c.log[n]? := fun hn => by
    rw [hlog, List.getElem?_take_of_lt hn]
  cases hst with
  | finish hlive =>
    have hpost := hrun.obeys (closings_honoured nfc cacheRoot fh)
      (fun _ _ _ _ _ _ _ _ => trivial) hlive
    have hfacts := (run_closable hrun).facts t _ _ hlive
    rw [← hlog]
    rcases hpost rfl with hg | ⟨h', uploaded, hg⟩
    · rw [show closing fh _ c₁ t = .missed from hg] at hfacts
      have hqp : q < p := h.started_lt_acted hp hq
      exact absurd hopens (hfacts p s u q handle _ o ((hold (by omega)).trans hp)
        ((hold hsk).trans hs) hps ((hold (by omega)).trans hq))
    · rw [show closing fh _ c₁ t = .closed h' uploaded from hg] at hfacts
      cases uploaded with
      | true =>
        obtain ⟨hpub, j, i, path, cache, hji, hj, hi⟩ := hfacts
        exact .inl ⟨h'.handleId, path, cache, j, i, hpub, hji, hj, hi⟩
      | false => exact .inr (hfacts.2 m e ((hold hmk).trans hm) hmark)

/-- **Nothing is dropped at close**, in every run that closes the handle last. -/
theorem release_keeps
    (h : (fsService nfc cacheRoot).Run (ClosedLast fh) (.initial (.new disk)) c) :
    MarkKept fh c where
  release := run_releaseKeeps h
  claimsFirst := run_claimsFirst (fun _ _ hok => hok.1) h fh
  cleared := run_clearedByClaims (fun _ _ hok => hok.1) h fh
  restored := run_failureRestores h fh

end

/-! ## A run -/

/-- Release the handle after the write. -/
def writeAndRelease : List (Move World Op) :=
  createAndWrite ++ [.start 2 (.release 1), .act 2 .calm, .act 2 .calm, .act 2 .calm, .act 2 .calm,
    .act 2 .calm, .finish 2]

/-- Whether a request starts when nothing is in progress and no handle was released. -/
def startsQuiet (c : FsConfig) (e : FsEvent) : Bool :=
  decide (DrawsFew c e) && match e with
    | .started .. => c.log.all fun
      | .started _ (.release _) => false
      | .started u _ => (c.live u).isNone
      | _ => true
    | _ => true

theorem closedLast_of_bool {ok : FsConfig → FsEvent → Prop} {s : FsState} {c : FsConfig}
    {e : FsEvent} (fh : Nat) (h : plainFs.Run ok (.initial s) c) (he : startsQuiet c e = true) :
    ClosedLast fh c e := by
  obtain ⟨hfew, he⟩ := Bool.and_eq_true_iff.1 he
  refine ⟨of_decide_eq_true hfew, ?_⟩
  split
  · intro _
    refine ⟨fun i v hi => ?_, fun _ u o' p hu _ => ?_⟩
    · simpa using List.all_eq_true.1 he _ (List.mem_of_getElem? hi)
    · obtain ⟨i, hi⟩ := h.started_of_live hu
      have := List.all_eq_true.1 he _ (List.mem_of_getElem? hi)
      split at this
      · cases this
      · next heq => cases heq; simp [hu] at this
      · next hne => exact hne _ _ rfl
  · trivial

/-- The run in which the handle is written to and released keeps the write. -/
theorem release_keeps_write :
    ∃ c, plainFs.Run (ClosedLast 1) (.initial (.new .empty)) c ∧
      c.log[24]? = some (.returned 2 (.release 1) (.ok .done)) ∧ MarkKept 1 c := by
  have hplay : (plainFs.play startsQuiet writeAndRelease
      (.initial (.new .empty))).isSome = true := by decide
  have hrun : plainFs.Run (ClosedLast 1) (.initial (.new .empty)) _ :=
    plainFs.run_of_play .refl (Option.some_get hplay).symm fun _ _ => closedLast_of_bool 1
  exact ⟨_, hrun, rfl, release_keeps hrun⟩

end UnidriveMount
