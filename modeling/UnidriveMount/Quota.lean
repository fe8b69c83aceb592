import Mathlib.Data.List.Basic
import UnidriveMount.Ipc.Wire

/-!
# The account quota

The cache behind `statfs` (`quota.rs`). `begin_refresh`, `finish_refresh` and `current` are critical
sections of one lock, so the runs of any number of clones are the sequences of such calls, in which
only a caller that has claimed a refresh finishes one, once (`QuotaRun`). One refresh is outstanding at
most, claims are the interval apart, and the quota is the last known one (`QuotaRun.singleFlight`).
`statfs` and its background tasks are such a run (`VolumeRun.quotaRun`).
-/

namespace UnidriveMount

/-! ## Quotas -/

/-- `Value::get`. -/
def Json.get (j : Json) (key : String) : Option Json :=
  match j with
  | .obj fields => (fields.find? fun f => f.1 = key.toList).map Prod.snd
  | _ => none

/-- `BLOCK_SIZE`. -/
def blockSize : Nat := 4096

/-- `FALLBACK_BLOCKS`. -/
def fallbackBlocks : Nat := 2 ^ 32

/-- What is used and what there is, in bytes (`Quota`). -/
structure Quota : Type where
  usedBytes : Nat
  totalBytes : Nat
  deriving DecidableEq, Repr

/-- `Quota::from_status`. -/
def Quota.fromStatus (reply : Json) : Option Quota := do
  let q ← reply.get "quota"
  let used ← (← q.get "used_bytes").asU64
  let total ← (← q.get "total_bytes").asU64
  if total = 0 then none else some ⟨used, total⟩

/-- `Quota::blocks`: how many there are, and how many are free. -/
def Quota.blocks (q : Quota) : Nat × Nat :=
  (q.totalBytes / blockSize, (q.totalBytes - q.usedBytes) / blockSize)

/-- `statfs_blocks`. -/
def statfsBlocks : Option Quota → Nat × Nat
  | some q => q.blocks
  | none => (fallbackBlocks, fallbackBlocks)

/-- No more blocks are free than there are. -/
theorem statfsBlocks_le (quota : Option Quota) :
    (statfsBlocks quota).2 ≤ (statfsBlocks quota).1 := by
  cases quota with
  | none => exact le_rfl
  | some q => exact Nat.div_le_div_right (Nat.sub_le ..)

/-! ## The cache -/

/-- `State`, with instants of the monotone clock. -/
structure QuotaState : Type where
  quota : Option Quota
  lastAttempt : Option Nat
  inFlight : Bool
  deriving DecidableEq

namespace QuotaState

/-- `QuotaCache::new`. -/
def new : QuotaState := ⟨none, none, false⟩

/-- `QuotaCache::current`. -/
def current (s : QuotaState) : Option Quota := s.quota

/-- `QuotaCache::begin_refresh`, which takes the time since the last attempt at `now` and that of its
own attempt at `stamp`. -/
def beginRefresh (interval now stamp : Nat) (s : QuotaState) : Bool × QuotaState :=
  if s.inFlight then (false, s)
  else if s.lastAttempt.any fun t => now - t < interval then (false, s)
  else (true, { s with inFlight := true, lastAttempt := some stamp })

/-- `QuotaCache::finish_refresh`. -/
def finishRefresh (fetched : Option Quota) (s : QuotaState) : QuotaState :=
  { s with inFlight := false, quota := if fetched.isSome then fetched else s.quota }

/-- A refresh is claimed, or nothing changes. -/
theorem beginRefresh_cases (interval now stamp : Nat) (s : QuotaState) :
    s.beginRefresh interval now stamp = (false, s) ∨
    s.inFlight = false ∧ (∀ t, s.lastAttempt = some t → interval ≤ now - t) ∧
      s.beginRefresh interval now stamp =
        (true, { s with inFlight := true, lastAttempt := some stamp }) := by
  unfold beginRefresh
  cases hflight : s.inFlight with
  | true => exact .inl rfl
  | false =>
    cases hlast : s.lastAttempt with
    | none => exact .inr ⟨rfl, nofun, rfl⟩
    | some t =>
      by_cases hdue : now - t < interval
      · exact .inl (by simp [hdue])
      · refine .inr ⟨rfl, ?_, by simp [hdue]⟩
        rintro _ ⟨⟩
        exact Nat.le_of_not_lt hdue

end QuotaState

/-! ## Calls -/

/-- A call on a clone of the cache: by whom, with the readings of the clock, and what it answered. -/
inductive QuotaCall : Type where
  | beginRefresh (caller now stamp : Nat) (claimed : Bool)
  | finishRefresh (caller : Nat) (fetched : Option Quota)
  | current (answer : Option Quota)
  deriving DecidableEq

namespace QuotaCall

/-- The readings of the clock. -/
def readings : QuotaCall → List Nat
  | beginRefresh _ now stamp _ => [now, stamp]
  | _ => []

/-- The readings of a call that claimed a refresh. -/
def claim : QuotaCall → Option (Nat × Nat)
  | beginRefresh _ now stamp true => some (now, stamp)
  | _ => none

/-- The quota that a refresh found. -/
def fetched : QuotaCall → Option Quota
  | finishRefresh _ fetched => fetched
  | _ => none

/-- Who owes a `finish_refresh` after the call. -/
def hold (held : List Nat) : QuotaCall → List Nat
  | beginRefresh caller _ _ true => caller :: held
  | finishRefresh caller _ => held.erase caller
  | _ => held

end QuotaCall

/-- The callers that have claimed a refresh and not finished it. -/
def outstanding (calls : List QuotaCall) : List Nat := calls.foldl QuotaCall.hold []

/-- The refreshes claimed, each with its readings of the clock. -/
def claims (calls : List QuotaCall) : List (Nat × Nat) := calls.filterMap QuotaCall.claim

/-- The last quota that was found. -/
def lastKnown (calls : List QuotaCall) : Option Quota := (calls.filterMap QuotaCall.fetched).getLast?

section
variable (calls : List QuotaCall) (call : QuotaCall)

theorem outstanding_snoc : outstanding (calls ++ [call]) = call.hold (outstanding calls) :=
  List.foldl_append ..

theorem claims_snoc : claims (calls ++ [call]) = claims calls ++ call.claim.toList := by
  rw [claims, claims, List.filterMap_append]
  cases h : call.claim <;> simp [h]

theorem lastKnown_snoc : lastKnown (calls ++ [call]) = call.fetched.or (lastKnown calls) := by
  rw [lastKnown, lastKnown, List.filterMap_append]
  cases h : call.fetched <;> simp [h]

end

/-- The runs of the clones of a cache. The clock is monotone, and a refresh is finished by a caller that
claimed it and has not finished it yet. -/
inductive QuotaRun (interval : Nat) : List QuotaCall → QuotaState → Prop where
  | new : QuotaRun interval [] .new
  | beginRefresh {calls : List QuotaCall} {s : QuotaState} (h : QuotaRun interval calls s)
      (caller now stamp : Nat) (hpast : ∀ call ∈ calls, ∀ t ∈ call.readings, t ≤ now)
      (hstamp : now ≤ stamp) :
      QuotaRun interval
        (calls ++ [.beginRefresh caller now stamp (s.beginRefresh interval now stamp).1])
        (s.beginRefresh interval now stamp).2
  | finishRefresh {calls : List QuotaCall} {s : QuotaState} (h : QuotaRun interval calls s)
      (caller : Nat) (hheld : caller ∈ outstanding calls) (fetched : Option Quota) :
      QuotaRun interval (calls ++ [.finishRefresh caller fetched]) (s.finishRefresh fetched)
  | current {calls : List QuotaCall} {s : QuotaState} (h : QuotaRun interval calls s) :
      QuotaRun interval (calls ++ [.current s.current]) s

/-- What the state says about the calls so far. -/
structure QuotaState.Reflects (interval : Nat) (calls : List QuotaCall) (s : QuotaState) : Prop where
  flight : (outstanding calls).length = if s.inFlight then 1 else 0
  attempt : ∀ c ∈ claims calls, ∃ t, s.lastAttempt = some t ∧ c.2 ≤ t
  stamped : ∀ t, s.lastAttempt = some t → ∃ call ∈ calls, t ∈ call.readings
  spaced : (claims calls).Pairwise fun c d => c.2 + interval ≤ d.1
  known : s.quota = lastKnown calls
  answers : ∀ before answer after, calls = before ++ .current answer :: after →
    answer = lastKnown before

section
variable {interval : Nat} {calls : List QuotaCall} {s : QuotaState}

/-- The answers of a longer run. -/
theorem answers_snoc {call : QuotaCall}
    (h : ∀ before answer after, calls = before ++ .current answer :: after →
      answer = lastKnown before)
    (hcall : ∀ answer, call = .current answer → answer = lastKnown calls) :
    ∀ before answer after, calls ++ [call] = before ++ .current answer :: after →
      answer = lastKnown before := by
  intro before answer after heq
  rcases List.eq_nil_or_concat after with rfl | ⟨after, last, rfl⟩
  · obtain ⟨rfl, hlast⟩ := List.append_inj' heq rfl
    exact hcall answer (List.cons.inj hlast).1
  · rw [List.concat_eq_append, ← List.cons_append, ← List.append_assoc] at heq
    exact h before answer after (List.append_inj' heq rfl).1

/-- A call that claims and finishes nothing. -/
theorem QuotaState.Reflects.idle (h : s.Reflects interval calls) {call : QuotaCall}
    (hhold : ∀ held, call.hold held = held) (hclaim : call.claim = none)
    (hfetched : call.fetched = none)
    (hcall : ∀ answer, call = .current answer → answer = lastKnown calls) :
    s.Reflects interval (calls ++ [call]) := by
  have hclaims : claims (calls ++ [call]) = claims calls := by
    rw [claims_snoc, hclaim, Option.toList_none, List.append_nil]
  refine ⟨?_, hclaims ▸ h.attempt, fun t ht => ?_, hclaims ▸ h.spaced, ?_, answers_snoc h.answers hcall⟩
  · rw [outstanding_snoc, hhold]
    exact h.flight
  · obtain ⟨c, hc, ht⟩ := h.stamped t ht
    exact ⟨c, List.mem_append_left _ hc, ht⟩
  · rw [lastKnown_snoc, hfetched]
    exact h.known

theorem QuotaState.Reflects.beginRefresh (h : s.Reflects interval calls)
    (caller now stamp : Nat) (hpast : ∀ call ∈ calls, ∀ t ∈ call.readings, t ≤ now) (hstamp : now ≤ stamp) :
    (s.beginRefresh interval now stamp).2.Reflects interval
      (calls ++ [.beginRefresh caller now stamp (s.beginRefresh interval now stamp).1]) := by
  rcases s.beginRefresh_cases interval now stamp with heq | ⟨hflight, hdue, heq⟩
  · rw [heq]
    exact h.idle (fun _ => rfl) rfl rfl nofun
  · rw [heq]
    have hclaims : claims (calls ++ [.beginRefresh caller now stamp true]) =
        claims calls ++ [(now, stamp)] := claims_snoc ..
    -- a claim is due only when the interval has passed since the last attempt
    have hlater : ∀ c ∈ claims calls, c.2 + interval ≤ now := by
      intro c hc
      obtain ⟨t, ht, hle⟩ := h.attempt c hc
      obtain ⟨call, hcall, hread⟩ := h.stamped t ht
      have hdue := hdue t ht
      have hpast := hpast call hcall t hread
      omega
    refine ⟨?_, fun c hc => ⟨stamp, rfl, ?_⟩, ?_, ?_, ?_, answers_snoc h.answers nofun⟩
    · have hnone := h.flight
      rw [hflight] at hnone
      rw [outstanding_snoc, QuotaCall.hold, List.length_cons, hnone]
      rfl
    · rw [hclaims, List.mem_append, List.mem_singleton] at hc
      obtain hc | rfl := hc
      · have := hlater c hc
        omega
      · exact le_rfl
    · rintro _ ⟨⟩
      exact ⟨_, List.mem_append_right _ (List.mem_singleton_self _), by simp [QuotaCall.readings]⟩
    · rw [hclaims, List.pairwise_append]
      refine ⟨h.spaced, List.pairwise_singleton .., fun c hc d hd => ?_⟩
      rw [List.mem_singleton.1 hd]
      exact hlater c hc
    · rw [lastKnown_snoc]
      exact h.known

theorem QuotaState.Reflects.finishRefresh (h : s.Reflects interval calls) (caller : Nat)
    (hheld : caller ∈ outstanding calls) (fetched : Option Quota) :
    (s.finishRefresh fetched).Reflects interval (calls ++ [.finishRefresh caller fetched]) := by
  have hclaims : claims (calls ++ [.finishRefresh caller fetched]) = claims calls := by
    rw [claims_snoc]
    exact List.append_nil _
  refine ⟨?_, hclaims ▸ h.attempt, fun t ht => ?_, hclaims ▸ h.spaced, ?_, answers_snoc h.answers nofun⟩
  · have hone := h.flight
    have hpos := List.length_pos_of_mem hheld
    rw [outstanding_snoc, QuotaCall.hold, List.length_erase_of_mem hheld]
    have hflight : (s.finishRefresh fetched).inFlight = false := rfl
    rw [hflight]
    split at hone <;> simp <;> omega
  · obtain ⟨c, hc, ht⟩ := h.stamped t ht
    exact ⟨c, List.mem_append_left _ hc, ht⟩
  · rw [lastKnown_snoc]
    cases fetched with
    | none => exact h.known
    | some q => rfl

theorem QuotaRun.reflects (h : QuotaRun interval calls s) : s.Reflects interval calls := by
  induction h with
  | new => exact ⟨rfl, nofun, nofun, .nil, rfl, fun before _ _ h => by cases before <;> cases h⟩
  | beginRefresh _ caller now stamp hpast hstamp ih => exact ih.beginRefresh caller now stamp hpast hstamp
  | finishRefresh _ caller hheld fetched ih => exact ih.finishRefresh caller hheld fetched
  | current _ ih =>
    refine ih.idle (fun _ => rfl) rfl rfl ?_
    rintro _ ⟨⟩
    exact ih.known

/-- **Refreshes are single-flight**: in every run of the clones one refresh is outstanding at most, the
claims are the interval apart, and the quota that is answered is the last known one, with no more
blocks free than there are. -/
theorem QuotaRun.singleFlight (h : QuotaRun interval calls s) :
    (outstanding calls).length ≤ 1 ∧
    (claims calls).Pairwise (fun c d => c.2 + interval ≤ d.1) ∧
    s.current = lastKnown calls ∧
    (∀ before answer after, calls = before ++ .current answer :: after →
      answer = lastKnown before ∧ (statfsBlocks answer).2 ≤ (statfsBlocks answer).1) := by
  have hs := h.reflects
  refine ⟨?_, hs.spaced, hs.known, fun before answer after heq =>
    ⟨hs.answers before answer after heq, statfsBlocks_le answer⟩⟩
  rw [hs.flight]
  split <;> decide

/-- A refresh that finds a quota, a claim refused in the meantime, a refresh that fails a minute later,
and an answer. -/
theorem singleFlight_sample :
    ∃ calls s, QuotaRun 60 calls s ∧
      calls = [.beginRefresh 0 0 1 true, .beginRefresh 1 30 30 false, .finishRefresh 0 (some ⟨5, 9⟩),
        .beginRefresh 2 61 61 true, .finishRefresh 2 none, .current (some ⟨5, 9⟩)] ∧
      claims calls = [(0, 1), (61, 61)] ∧ (outstanding calls).length ≤ 1 ∧
      (claims calls).Pairwise (fun c d => c.2 + 60 ≤ d.1) ∧ s.current = some ⟨5, 9⟩ := by
  have h₂ := QuotaRun.beginRefresh (.beginRefresh (.new : QuotaRun 60 _ _) 0 0 1 (by decide) (by decide))
    1 30 30 (by decide) (by decide)
  have h₄ := QuotaRun.beginRefresh (.finishRefresh h₂ 0 (by decide) (some ⟨5, 9⟩))
    2 61 61 (by decide) (by decide)
  have h := QuotaRun.current (.finishRefresh h₄ 2 (by decide) none)
  obtain ⟨hone, hspaced, hcurrent, -⟩ := h.singleFlight
  exact ⟨_, _, h, by decide, by decide, hone, hspaced, hcurrent.trans (by decide)⟩

end

/-! ## The volume -/

/-- What `statfs` replies. -/
structure ReplyStatFs : Type where
  blocks : Nat
  bfree : Nat
  bavail : Nat
  files : Nat
  ffree : Nat
  bsize : Nat
  namelen : Nat
  frsize : Nat

/-- The reply of `statfs` for a quota that may be unknown. -/
def statfsReply (quota : Option Quota) : ReplyStatFs :=
  let (blocks, bfree) := statfsBlocks quota
  { blocks, bfree, bavail := bfree, files := 2 ^ 20, ffree := 2 ^ 20, bsize := blockSize, namelen := 255,
    frsize := blockSize }

/-- The cache of a mount, the background tasks that are still to finish their refresh, and the calls on
the cache so far. -/
structure Volume : Type where
  cache : QuotaState
  tasks : List Nat
  spawned : Nat
  calls : List QuotaCall

namespace Volume

def new : Volume := ⟨.new, [], 0, []⟩

/-- `refresh_quota_if_due`, which spawns a task for a refresh that is due. -/
def refreshQuotaIfDue (interval now stamp : Nat) (v : Volume) : Volume :=
  let (due, cache) := v.cache.beginRefresh interval now stamp
  { cache
    tasks := if due then v.spawned :: v.tasks else v.tasks
    spawned := v.spawned + 1
    calls := v.calls ++ [.beginRefresh v.spawned now stamp due] }

/-- The end of a task, with the reply of `daemon.status` or without one. -/
def refreshed (task : Nat) (reply : Option Json) (v : Volume) : Volume :=
  let fetched := reply.bind Quota.fromStatus
  { v with
    cache := v.cache.finishRefresh fetched
    tasks := v.tasks.erase task
    calls := v.calls ++ [.finishRefresh task fetched] }

/-- What `statfs` does after `refresh_quota_if_due`. -/
def statfs (v : Volume) : ReplyStatFs × Volume :=
  (statfsReply v.cache.current, { v with calls := v.calls ++ [.current v.cache.current] })

end Volume

/-- The runs of a mount: requests ask for refreshes and statistics, and tasks end, in any order. -/
inductive VolumeRun (interval : Nat) : Volume → Prop where
  | new : VolumeRun interval .new
  | refreshQuotaIfDue {v : Volume} (h : VolumeRun interval v) {now stamp : Nat}
      (hpast : ∀ call ∈ v.calls, ∀ t ∈ call.readings, t ≤ now) (hstamp : now ≤ stamp) :
      VolumeRun interval (v.refreshQuotaIfDue interval now stamp)
  | refreshed {v : Volume} (h : VolumeRun interval v) {task : Nat} (htask : task ∈ v.tasks)
      (reply : Option Json) : VolumeRun interval (v.refreshed task reply)
  | statfs {v : Volume} (h : VolumeRun interval v) : VolumeRun interval v.statfs.2

/-- **A mount keeps to the calls**: who claims a refresh is a task, which finishes it once. -/
theorem VolumeRun.quotaRun {interval : Nat} {v : Volume} (h : VolumeRun interval v) :
    QuotaRun interval v.calls v.cache ∧ outstanding v.calls = v.tasks := by
  induction h with
  | new => exact ⟨.new, rfl⟩
  | @refreshQuotaIfDue v _ now stamp hpast hstamp ih =>
    refine ⟨ih.1.beginRefresh v.spawned now stamp hpast hstamp, ?_⟩
    simp only [Volume.refreshQuotaIfDue, outstanding_snoc, ih.2]
    cases (v.cache.beginRefresh interval now stamp).1 <;> rfl
  | @refreshed v _ task htask reply ih =>
    refine ⟨ih.1.finishRefresh task (ih.2 ▸ htask) _, ?_⟩
    simp only [Volume.refreshed, outstanding_snoc, ih.2, QuotaCall.hold]
  | statfs _ ih =>
    refine ⟨ih.1.current, ?_⟩
    simp only [Volume.statfs, outstanding_snoc, ih.2, QuotaCall.hold]

/-- `statfs` reports the quota that the replies of `daemon.status` gave last. -/
theorem VolumeRun.statfs_eq {interval : Nat} {v : Volume} (h : VolumeRun interval v) :
    v.statfs.1 = statfsReply (lastKnown v.calls) ∧ v.statfs.1.bfree ≤ v.statfs.1.blocks := by
  refine ⟨?_, statfsBlocks_le v.cache.current⟩
  rw [← h.quotaRun.1.reflects.known]
  rfl

end UnidriveMount
