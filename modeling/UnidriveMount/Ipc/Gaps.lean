import UnidriveMount.Ipc.Handshake

/-!
# Gaps of the event stream

The events that the subscription hands out are the lines of its streams, each stream but the first
after a gap, up to the event with which the consumer stops it, or to a refused authentication. This
holds for any daemon. The lines of a stream are what `read_event_line` returned before its first error,
and such a line is a whole line within the bound, or what was left of a stream that ended.
-/

namespace UnidriveMount

open Lib

/-! ## The events that are expected -/

/-- The lines read from the running stream, until a read fails. -/
def streamLines : List (Occ SubAct.Ret) → List Str
  | ⟨.readLine _, .ok line⟩ :: us => line :: streamLines us
  | ⟨.event _, _⟩ :: us => streamLines us
  | _ => []

/-- The streams whose subscription was accepted, with the lines read from them. -/
def streams : List (Occ SubAct.Ret) → List (List Str)
  | [] => []
  | ⟨.subscribe _, .ok ()⟩ :: us => streamLines us :: streams us
  | _ :: us => streams us

/-- The events of a later stream. -/
def laterEvents (lines : List Str) : List SubscriptionEvent := .gap :: lines.map .line

/-- The events of the streams: a gap before each but the first. -/
def expectedEvents : List (List Str) → List SubscriptionEvent
  | [] => []
  | first :: later => first.map .line ++ later.flatMap laterEvents

/-- The events handed to the consumer. -/
def handed (es : List (Occ NetAct.Ret)) : List SubscriptionEvent :=
  es.filterMap fun e => match e.1 with
    | .onEvent ev => some ev
    | _ => none

/-- The event of an action of the subscription. -/
def SubAct.event? : SubAct → Option SubscriptionEvent
  | event ev => some ev
  | _ => none

/-- The events among the actions of the subscription. -/
def eventsOf (us : List (Occ SubAct.Ret)) : List SubscriptionEvent :=
  us.filterMap fun u => u.1.event?

theorem eventsOf_cons (u : Occ SubAct.Ret) (us : List (Occ SubAct.Ret)) :
    eventsOf (u :: us) = u.1.event?.toList ++ eventsOf us := by
  unfold eventsOf
  rw [List.filterMap_cons]
  cases u.1.event? <;> rfl

/-- What ends the subscription: the consumer wants no more, or the daemon refuses authentication. -/
def EndsAll : Occ SubAct.Ret → Prop
  | ⟨.event _, goesOn⟩ => goesOn = false
  | ⟨.connect, .error e⟩ => e.isAuthTerminal = true
  | _ => False

section
variable {g : Feed} {us : List (Occ SubAct.Ret)}

/-- **The events follow the answers**: what is due, the rest of the running stream, and the streams
to come. -/
theorem events_of_keeps (h : feed.Keeps g us) (hend : (feed.after g us).due = none) :
    eventsOf us =
      g.due.toList ++ (if g.streaming then (streamLines us).map .line else []) ++
        if g.hadStream then (streams us).flatMap laterEvents else expectedEvents (streams us) := by
  induction us generalizing g with
  | nil =>
    have hdue : g.due = none := hend
    cases hs : g.streaming <;> cases hh : g.hadStream <;>
      simp [hdue, streamLines, streams, expectedEvents, eventsOf]
  | cons u us ih =>
    obtain ⟨hpre, hrest⟩ := h
    have hus := ih (hrest trivial) hend
    obtain ⟨a, x⟩ := u
    obtain ⟨-, hallows⟩ := hpre
    rw [eventsOf_cons]
    cases a with
    | connect =>
      obtain ⟨hdue, hstream⟩ := hallows
      cases x <;> simpa [feed, Feed.next, SubAct.event?, streams, hdue, hstream] using hus
    | subscribe sub =>
      obtain ⟨hdue, hstream, -⟩ := hallows
      cases x with
      | error e => simpa [feed, Feed.next, SubAct.event?, streams, hdue, hstream] using hus
      | ok _ =>
        cases hhad : g.hadStream <;>
          simpa [feed, Feed.next, SubAct.event?, streams, hdue, hstream, hhad, expectedEvents,
            laterEvents] using hus
    | readLine sub =>
      obtain ⟨hdue, hstream, -⟩ := hallows
      cases x <;> simpa [feed, Feed.next, SubAct.event?, streams, streamLines, hdue, hstream] using hus
    | event ev =>
      have hdue : g.due = some ev := hallows
      cases hstream : g.streaming <;> cases hhad : g.hadStream <;>
        simpa [feed, Feed.next, SubAct.event?, streams, streamLines, hdue, hstream, hhad] using hus
    | sleep ms =>
      obtain ⟨hdue, hstream⟩ := hallows
      cases hhad : g.hadStream <;>
        simpa [feed, Feed.next, SubAct.event?, streams, hdue, hstream, hhad] using hus

theorem finished_of_endsAll {a : SubAct} {x : a.Ret} (hallows : g.Allows a) :
    (g.next a x).finished = true ↔ EndsAll ⟨a, x⟩ := by
  cases a with
  | connect => cases x <;> simp [Feed.next, EndsAll, hallows.1]
  | event ev => simp [Feed.next, EndsAll]
  | subscribe | readLine => cases x <;> simp [Feed.next, EndsAll, hallows.1]
  | sleep => simp [Feed.next, EndsAll, hallows.1]

/-- It is over exactly when its last answer has ended it, and nothing follows such an answer. -/
theorem finished_of_keeps (h : feed.Keeps g us) (hover : g.finished = false) :
    ((feed.after g us).finished = true ↔ ∃ us₁ u, us = us₁ ++ [u] ∧ EndsAll u) ∧
      ∀ us₁ u us₂, us = us₁ ++ u :: us₂ → EndsAll u → us₂ = [] := by
  induction us generalizing g with
  | nil => simp [Contract.after, hover]
  | cons u us ih =>
    obtain ⟨a, x⟩ := u
    obtain ⟨hpre, hrest⟩ := h
    have hiff := finished_of_endsAll (x := x) hpre
    cases hnext : (g.next a x).finished with
    | true =>
      have hends := hiff.1 hnext
      -- nothing is allowed any more
      obtain rfl : us = [] := by
        cases us with
        | nil => rfl
        | cons v us => exact absurd ((hrest trivial).1.1.symm.trans hnext) Bool.false_ne_true
      refine ⟨iff_of_true hnext ⟨[], _, rfl, hends⟩, fun us₁ v us₂ heq _ => ?_⟩
      cases us₁ with
      | nil => exact (List.cons.inj heq).2.symm
      | cons w us₁ => simp at heq
    | false =>
      obtain ⟨hlast, honly⟩ := ih (hrest trivial) hnext
      have hne : ¬ EndsAll ⟨a, x⟩ := fun h => by
        rw [hiff.2 h] at hnext
        cases hnext
      refine ⟨hlast.trans ⟨?_, ?_⟩, fun us₁ v us₂ heq hv => ?_⟩
      · rintro ⟨us₁, v, rfl, hv⟩
        exact ⟨⟨a, x⟩ :: us₁, v, rfl, hv⟩
      · rintro ⟨_ | ⟨w, us₁⟩, v, heq, hv⟩
        · cases heq
          exact absurd hv hne
        · obtain ⟨-, rfl⟩ := List.cons.inj heq
          exact ⟨us₁, v, rfl, hv⟩
      · cases us₁ with
        | nil =>
          obtain ⟨rfl, -⟩ := List.cons.inj heq
          exact absurd hv hne
        | cons w us₁ => exact honly us₁ v us₂ (List.cons.inj heq).2 hv

end

/-! ## The lines that are read -/

/-- What `read_event_line` answers, and the bytes it consumed: a whole line within the bound, or the
rest of a stream that ended; a line that is too long is consumed and not answered. -/
inductive LineRead (c c' : Conn) : Except IpcError Str → Prop where
  | line {read : List UInt8} (h : c.Reads read c') (hline : IsLine read)
      (hlen : read.length ≤ maxInboundLineBytes) :
      LineRead c c' (.ok (fromUtf8Lossy (stripLineBreak read)))
  | rest {read : List UInt8} (h : c.Reads read c') (hopen : newline ∉ read)
      (hlen : read.length < maxInboundLineBytes) (hend : c'.Drained) :
      LineRead c c' (.ok (fromUtf8Lossy (stripLineBreak read)))
  | tooLong {read : List UInt8} (h : c.Reads read c') (hline : IsLine read)
      (hlen : maxInboundLineBytes < read.length) : LineRead c c' (.error (.io .invalidData))
  | failed (kind : IoErrorKind) : LineRead c c' (.error (.io kind))

/-- The reads of the subscription are reads of lines. -/
def ReadsLines (s : NetState) (u : Occ SubAct.Ret) (s' : NetState) : Prop :=
  match u with
  | ⟨.readLine sub, r⟩ => LineRead (s.conns sub) (s'.conns sub) r
  | _ => True

section
variable {env : NetEnv} {auth : IpcAuth} {daemon : Daemon} {s s' : NetState}
  {es : List (Occ NetAct.Ret)} {us : List (Occ SubAct.Ret)}

theorem readEventLine_spec {serde : Serde} {fuel conn : Nat} {r : Except IpcError Str}
    {r' : Except Stop Str} (hr : (.ok r : Except Stop (Except IpcError Str)) = SeenAs r')
    (hx : Exec (netMachine serde daemon) (readEventLine fuel conn) s es r' s')
    (hsound : (s.conns conn).Sound) :
    LineRead (s.conns conn) (s'.conns conn) r ∧ (s'.conns conn).Sound := by
  rcases exec_bind_iff.1 hx with ⟨e, rfl, he⟩ | ⟨line, s₁, es₁, es₂, hread, hk, rfl⟩
  · obtain ⟨read, hreads, ⟨kind, hkind⟩ | hrun | ⟨_, hok, -⟩⟩ :=
      readInboundLine_spec he (by decide) hsound
    · cases hkind
      cases hr
      exact ⟨.failed kind, hreads.conn.within⟩
    · cases hrun
      cases hr
    · cases hok
  · obtain ⟨read, hreads, ⟨kind, hkind⟩ | hrun | ⟨line', hok, hsays⟩⟩ :=
      readInboundLine_spec hread (by decide) hsound
    · cases hkind
    · cases hrun
    · cases hok
      cases hsays with
      | eof =>
        obtain ⟨-, rfl, rfl⟩ := exec_ret_iff.1 hk
        cases hr
        exact ⟨.failed _, hreads.conn.within⟩
      | line hline hlen =>
        obtain ⟨-, rfl, rfl⟩ := exec_ret_iff.1 hk
        cases hr
        exact ⟨.line hreads.conn hline hlen, hreads.conn.within⟩
      | cut hopen hsome hlen hend =>
        obtain ⟨-, rfl, rfl⟩ := exec_ret_iff.1 hk
        cases hr
        exact ⟨.rest hreads.conn hopen hlen hend, hreads.conn.within⟩
      | tooLong hline hlen =>
        obtain ⟨-, rfl, rfl⟩ := exec_ret_iff.1 hk
        cases hr
        exact ⟨.tooLong hreads.conn hline hlen, hreads.conn.within⟩

/-- A new connection is sound. -/
theorem connectAuth_sound {res : Except Stop Nat}
    (hx : Exec (netMachine env.serde daemon) (connectAuth env auth) s es res s') {conn : Nat}
    (hres : res = .ok conn) : (s'.conns conn).Sound := by
  obtain ⟨r, s₁, es₁, hst, rfl, hk⟩ := exec_perform_bind_iff.1 hx
  cases r with
  | error kind =>
    obtain ⟨-, rfl, -⟩ := exec_ret_iff.1 hk
    cases hres
  | ok c =>
    obtain ⟨-, -, hnew⟩ := (of_connect hst).2 c rfl
    replace hk : Exec _ (authenticate env auth c >>= fun _ => pure c) s₁ es₁ res s' := hk
    rcases exec_bind_iff.1 hk with ⟨e, rfl, -⟩ | ⟨_, s₂, es₂, es₃, hauth, hret, -⟩
    · cases hres
    · obtain ⟨-, rfl, rfl⟩ := exec_ret_iff.1 hret
      cases hres
      exact Conversation.authenticate.sound hauth (hnew ▸ Nat.le_refl 0)

/-- A call of the subscription reads a line, or none, and keeps the connection in use sound. -/
theorem impl_readsLines {g : Feed} {a : SubAct} {x : a.Ret} (hallows : g.Allows a)
    (hx : Exec (netMachine env.serde daemon) (a.impl env auth) s es (.ok x) s')
    (hg : ∀ conn, g.conn = some conn → (s.conns conn).Sound) :
    ReadsLines s ⟨a, x⟩ s' ∧ ∀ conn, (g.next a x).conn = some conn → (s'.conns conn).Sound := by
  cases a with
  | connect =>
    obtain ⟨r, hconn, hr⟩ := exec_resultOf hx
    refine ⟨trivial, fun conn hc => ?_⟩
    cases x with
    | error e => cases hc
    | ok sub =>
      cases hc
      refine connectAuth_sound hconn ?_
      match r with
      | .ok sub' => cases hr; rfl
      | .error (.failed e) => cases hr
      | .error .running => cases hr
  | subscribe sub =>
    obtain ⟨r, hsub, -⟩ := exec_resultOf hx
    refine ⟨trivial, fun conn hc => ?_⟩
    cases x with
    | error e => cases hc
    | ok _ =>
      have hconn : g.conn = some sub := hallows.2.2.2
      obtain rfl : sub = conn := Option.some.inj (hconn.symm.trans hc)
      exact Conversation.subscribe.sound hsub (hg sub hconn)
  | readLine sub =>
    obtain ⟨r, hread, hr⟩ := exec_resultOf hx
    have hconn : g.conn = some sub := hallows.2.2.2
    obtain ⟨hline, hsound⟩ := readEventLine_spec hr hread (hg sub hconn)
    refine ⟨hline, fun conn hc => ?_⟩
    cases x with
    | error e => cases hc
    | ok _ =>
      obtain rfl : sub = conn := Option.some.inj (hconn.symm.trans hc)
      exact hsound
  | event ev | sleep ms =>
    obtain ⟨r, s₁, es₁, ⟨-, (w : NetWorld), hrun⟩, -, hret⟩ := exec_act_iff.1 hx
    obtain ⟨-, -, rfl⟩ := exec_ret_iff.1 hret
    cases congrArg Prod.snd hrun
    exact ⟨trivial, hg⟩

theorem realizes_readsLines {g : Feed} {Q : NetState → Occ SubAct.Ret → NetState → Prop}
    (hr : Realizes (netMachine env.serde daemon) (SubAct.impl env auth) Q s us es s')
    (hkeeps : feed.Keeps g us) (hg : ∀ conn, g.conn = some conn → (s.conns conn).Sound) :
    Realizes (netMachine env.serde daemon) (SubAct.impl env auth) ReadsLines s us es s' := by
  induction hr generalizing g with
  | nil => exact .nil
  | cons hx _ _ ih =>
    obtain ⟨hreads, hg₁⟩ := impl_readsLines hkeeps.1 hx hg
    exact .cons hx hreads (ih (hkeeps.2 trivial) hg₁)

/-! ## The events that are handed out -/

theorem handed_append (es es' : List (Occ NetAct.Ret)) :
    handed (es ++ es') = handed es ++ handed es' :=
  List.filterMap_append

theorem handed_of_only {P : NetAct → Prop} (h : ∀ e ∈ es, P e.1)
    (hP : ∀ ev, ¬ P (.onEvent ev)) : handed es = [] := by
  refine List.filterMap_eq_nil_iff.2 fun e he => ?_
  have := h e he
  obtain ⟨a, r⟩ := e
  cases a <;> first | rfl | exact absurd this (hP _)

/-- Only the action that hands out an event does so. -/
theorem impl_handed {a : SubAct} {res : Except Stop a.Ret}
    (hx : Exec (netMachine env.serde daemon) (a.impl env auth) s es res s') :
    handed es = a.event?.toList := by
  cases a with
  | connect =>
    refine handed_of_only (P := NetAct.Connects) (hx.only (resultOf_only ?_)) nofun
    exact .bind (Prog.only_perform trivial) fun r => .bind (only_io r) fun conn =>
      .bind (authenticate_connects ..) fun _ => trivial
  | subscribe sub =>
    refine handed_of_only (P := NetAct.Exchanges sub .subscribe)
      (hx.only (resultOf_only (.bind (roundTrip_only ..) fun _ => only_ipcResult _))) nofun
  | readLine sub =>
    refine handed_of_only (P := NetAct.ReadsFrom sub)
      (hx.only (resultOf_only (.bind (readInboundLine_only ..) fun line => ?_))) nofun
    cases line <;> trivial
  | event ev | sleep ms =>
    obtain ⟨r, s₁, es₁, -, rfl, hret⟩ := exec_act_iff.1 hx
    obtain ⟨rfl, -, -⟩ := exec_ret_iff.1 hret
    rfl

theorem realizes_handed {Q : NetState → Occ SubAct.Ret → NetState → Prop}
    (hr : Realizes (netMachine env.serde daemon) (SubAct.impl env auth) Q s us es s') :
    handed es = eventsOf us := by
  induction hr with
  | nil => rfl
  | cons hx _ _ ih =>
    rw [handed_append, impl_handed hx, ih, eventsOf_cons]

/-! ## The result -/

/-- What a run of the subscription, which performed `es` and ended with `res`, has to do with the
answers `us` it got. -/
structure GapDiscipline (us : List (Occ SubAct.Ret)) (es : List (Occ NetAct.Ret))
    (res : Except Stop Unit) : Prop where
  /-- The events are those of the streams. -/
  events : handed es = expectedEvents (streams us)
  /-- Nothing follows what ends the subscription. -/
  stops : ∀ us₁ u us₂, us = us₁ ++ u :: us₂ → EndsAll u → us₂ = []
  /-- It returns then, and only then. -/
  returns : res.isOk = true ↔ ∃ us₁ u, us = us₁ ++ [u] ∧ EndsAll u

/-- **Gap discipline**, against any daemon and with any consumer: a run realizes answers, of which each
line is a line that was read, and its events are those of the streams; a call that has not returned
comes last. -/
theorem subscription_gaps {interval fuel : Nat} {res : Except Stop Unit}
    (hx : Exec (netMachine env.serde daemon) (subscription env auth interval fuel) s es res s') :
    ∃ us es₁ es₂ s₁, es = es₁ ++ es₂ ∧
      Realizes (netMachine env.serde daemon) (SubAct.impl env auth) ReadsLines s us es₁ s₁ ∧
      (es₂ = [] ∨ ∃ (a : SubAct) (e : Stop), Exec (netMachine env.serde daemon) (a.impl env auth) s₁ es₂ (.error e) s') ∧
      GapDiscipline us es res := by
  obtain ⟨us, es₁, es₂, s₁, o, rfl, hreal, hpath, hend⟩ := exec_interp hx
  obtain ⟨hkeeps, hnext⟩ := (runSubscription_feed (g := .new) rfl rfl rfl rfl).path hpath
    fun _ _ _ => trivial
  have hreads := realizes_readsLines hreal hkeeps (by rintro _ ⟨⟩)
  obtain ⟨hover, hstops⟩ := finished_of_keeps hkeeps rfl
  have hevents (hdue : (feed.after .new us).due = none) :
      handed es₁ = expectedEvents (streams us) :=
    (realizes_handed hreal).trans (events_of_keeps hkeeps hdue)
  refine ⟨us, es₁, es₂, s₁, rfl, hreads, ?_⟩
  rcases hend with ⟨rfl, rfl, rfl⟩ | ⟨a, e, rfl, rfl, hlast⟩
  · obtain ⟨hdue, hiff⟩ := hnext
    exact ⟨.inl rfl, by rw [List.append_nil]; exact hevents hdue, hstops, hiff.symm.trans hover⟩
  · have hnone : a.event? = none ∧ (feed.after .new us).due = none := by
      obtain ⟨-, hallows⟩ := hnext
      cases a with
      | event ev =>
        obtain ⟨_, _, _, -, -, hret⟩ := exec_act_iff.1 hlast
        cases (exec_ret_iff.1 hret).2.1
      | connect | sleep => exact ⟨rfl, hallows.1⟩
      | subscribe | readLine => exact ⟨rfl, hallows.1⟩
    refine ⟨.inr ⟨a, e, hlast⟩, ?_, hstops, ?_⟩
    · rw [handed_append, impl_handed hlast, hnone.1, hevents hnone.2]
      exact List.append_nil _
    · refine iff_of_false nofun fun h => ?_
      rw [← hover, show (feed.after .new us).finished = false from hnext.1] at h
      cases h

/-- A daemon that sends three lines on each connection, and ends the first one; the consumer takes one line
of the second stream. -/
def twoStreams (s : NetState) : NetWorld :=
  let line := utf8 okReplyText ++ [newline]
  let complete := 3 * line.length ≤ (s.conns (s.opened - 1)).got.length
  { NetWorld.sends (if s.opened = 1 ∧ complete then [] else line) with
    goesOn := ¬ (s.opened = 2 ∧ complete) }

/-- Two streams with a line each, and the gap between them. -/
theorem subscription_gaps_line :
    ∃ us es s', Exec (netMachine Serde.sample anyDaemon)
        (subscription Reconnecting.sample.toNetEnv ⟨none, []⟩ 1 3) .new es (.ok ()) s' ∧
      handed es = [.line okReplyText, .gap, .line okReplyText] ∧ GapDiscipline us es (.ok ()) := by
  have hrun : (((netMachine Serde.sample anyDaemon).under twoStreams).exec ()
      (subscription Reconnecting.sample.toNetEnv ⟨none, []⟩ 1 3) .new).any
      (fun x => x.2.1.isOk && handed x.1 = [.line okReplyText, .gap, .line okReplyText]) = true := by
    decide +kernel
  obtain ⟨⟨es, res, s'⟩, hx, hok⟩ := (Option.any_eq_true ..).1 hrun
  obtain ⟨hok, hevents⟩ := Bool.and_eq_true_iff.1 hok
  cases res with
  | error e => cases hok
  | ok _ =>
    have hx := (Machine.exec_sound hx).of_step fun _ _ _ _ => Machine.step_of_under
    obtain ⟨us, -, -, -, -, -, -, hgaps⟩ :=
      @subscription_gaps Reconnecting.sample.toNetEnv ⟨none, []⟩ anyDaemon _ _ _ _ _ _ hx
    exact ⟨us, es, s', hx, of_decide_eq_true hevents, hgaps⟩

end

end UnidriveMount
