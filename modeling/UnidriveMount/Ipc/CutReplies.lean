import UnidriveMount.Ipc.AtMostOnce

/-!
# Replies that are cut off

What a call does when the daemon closes the connection in the middle of its reply (`ipc.rs`,
`reconnect.rs`). A reply that is cut off before its first byte is a failure of the connection: the
connection is given up, and a verb that only reads is called again on a new one. A reply that is cut off
later is taken for a line: the call fails as for a malformed reply, and the dead connection is kept
(`lost_iff`).
-/

namespace UnidriveMount

open Lib

/-! ## Reading a reply that is cut off -/

/-- What is left of a reply line, a JSON object and a line break, when it is cut off before the object
is complete. -/
structure CutReply (serde : Serde) (p : List UInt8) : Prop where
  object : ∃ rest fields, serde.parse (p ++ rest) = .ok (.obj fields) ∧ newline ∉ p ++ rest ∧
    (p ++ rest).length + 1 ≤ maxInboundLineBytes
  incomplete : ∀ j, serde.parse p ≠ .ok j

/-- The error of a reply of which `p` is left. -/
def cutError (serde : Serde) (p : List UInt8) : IpcError :=
  if p = [] then .io .unexpectedEof
  else match serde.parse p with
    | .ok _ => .io .unexpectedEof
    | .error e => .malformed (e ++ ": ".toList ++ fromUtf8Lossy p)

section
variable {serde : Serde} {daemon : Daemon} {s s' : NetState} {conn fuel : Nat}
  {es : List (Occ NetAct.Ret)} {p : List UInt8}

theorem CutReply.newline_notMem (h : CutReply serde p) : newline ∉ p := by
  obtain ⟨rest, -, -, hopen, -⟩ := h.object
  exact fun hmem => hopen (List.mem_append_left _ hmem)

theorem CutReply.length_lt (h : CutReply serde p) : p.length < maxInboundLineBytes := by
  obtain ⟨rest, -, -, -, hlen⟩ := h.object
  rw [List.length_append] at hlen
  omega

theorem CutReply.parseReply_eq (h : CutReply serde p) (hsome : p ≠ []) :
    parseReply serde p = .error (cutError serde p) := by
  have hstrip : stripLineBreak p = p :=
    if_neg fun hlast => h.newline_notMem (List.mem_of_getLast? hlast)
  rw [parseReply, cutError, hstrip, if_neg hsome]
  cases hparse : serde.parse p with
  | ok j => exact absurd hparse (h.incomplete j)
  | error e => rfl

/-- On a connection from which everything before was read, a reply of which `p` is left is an error. -/
theorem receive_cut {res : Except Stop Json} (hp : CutReply serde p)
    (hx : Exec (netMachine serde daemon) (receive serde fuel conn) s es res s')
    (hquiet : (s.conns conn).pos = (s.conns conn).got.length)
    (hgot : (s'.conns conn).got = (s.conns conn).got ++ p)
    (hok : ∀ kind, (⟨.fillBuf conn, .error kind⟩ : Occ NetAct.Ret) ∉ es) :
    res = .error (.failed (cutError serde p)) := by
  have hopen := hp.newline_notMem
  have hlt := hp.length_lt
  -- what the line was read from is a part of what is left of the reply
  have hpart : ∀ {s₁ : NetState} {read : List UInt8}, s.Reads conn read s₁ →
      (s₁.conns conn).got = (s'.conns conn).got →
      p = read ++ (s₁.conns conn).unread := by
    intro s₁ read hreads hsame
    obtain ⟨more, hmore, hread, -⟩ := hreads.conn.arrived
    rw [hsame, hgot] at hmore
    rw [Conn.unread, hquiet, List.drop_length, List.nil_append,
      ← List.append_cancel_left hmore] at hread
    exact hread
  rcases exec_bind_iff.1 hx with ⟨e, rfl, he⟩ | ⟨line, s₁, es₁, es₂, hread, hk, rfl⟩
  · obtain ⟨read, hreads, hends⟩ := readInboundLine_ends he (by decide) hquiet.le
    have hpart := hpart hreads rfl
    have hlen := congrArg List.length hpart
    rw [List.length_append] at hlen
    cases hends with
    | failed hmem => exact absurd hmem (hok _)
    | running hlimit _ => omega
    | ended _ hlimit _ => omega
  · have hsame : s₁ = s' := by
      cases line with
      | line buf => exact (exec_ipcResult hk).2.symm
      | eof | tooLong => exact (exec_ret_iff.1 hk).2.2.symm
    subst hsame
    obtain ⟨read, hreads, hends⟩ := readInboundLine_ends hread (by decide) hquiet.le
    have hpart := hpart hreads rfl
    cases hends with
    | answered hsays =>
      cases hsays with
      | eof hend =>
        rw [hend.2, List.append_nil] at hpart
        subst hpart
        obtain ⟨-, rfl, -⟩ := exec_ret_iff.1 hk
        rfl
      | line hline =>
        refine absurd ?_ hopen
        rw [hpart]
        exact List.mem_append_left _ (List.mem_of_getLast? hline.getLast?)
      | tooLong hline =>
        refine absurd ?_ hopen
        rw [hpart]
        exact List.mem_append_left _ (List.mem_of_getLast? hline.getLast?)
      | cut _ hsome _ hend =>
        rw [hend.2, List.append_nil] at hpart
        subst hpart
        obtain ⟨rfl, -⟩ := exec_ipcResult hk
        rw [hp.parseReply_eq hsome]
        rfl

end

/-! ## The parts of a call -/

/-- A run of a verb that connected, by its parts: up to the connection, the call on it, and what the
verb does then. -/
structure CallRun (cl : Reconnecting) (daemon : Daemon) (verb : Verb) (s : NetState)
    (es : List (Occ NetAct.Ret)) (res : Except Stop verb.Reply) (s' : NetState) : Type where
  conn : Nat
  left : Nat
  result : Except Stop verb.Reply
  made : NetState
  ended : NetState
  connecting : List (Occ NetAct.Ret)
  calling : List (Occ NetAct.Ret)
  after : List (Occ NetAct.Ret)
  occs : es = connecting ++ (calling ++ after)
  connected : Exec (netMachine cl.serde daemon) (ensureConnected cl) s connecting (.ok conn) made
  called : Exec (netMachine cl.serde daemon) (callVerb cl.serde cl.fuel conn verb) made calling result
    ended
  went : Exec (netMachine cl.serde daemon) (afterCall cl verb left result) ended after res s'

section
variable {cl : Reconnecting} {daemon : Daemon} {verb : Verb} {s s' : NetState}
  {es : List (Occ NetAct.Ret)} {res : Except Stop verb.Reply}

/-- A program that connects, calls and goes on runs by its parts. -/
theorem exec_callRun {n : Nat}
    (hx : Exec (netMachine cl.serde daemon) (ensureConnected cl >>= fun conn =>
      (callVerb cl.serde cl.fuel conn verb).onResult (afterCall cl verb n)) s es res s') :
    (∃ e, res = .error e ∧ Exec (netMachine cl.serde daemon) (ensureConnected cl) s es (.error e) s') ∨
      Nonempty (CallRun cl daemon verb s es res s') := by
  rcases exec_bind_iff.1 hx with ⟨e, rfl, he⟩ | ⟨conn, s₁, es₁, es₂, hconn, hk, rfl⟩
  · exact .inl ⟨e, rfl, he⟩
  · obtain ⟨r, s₂, es₃, es₄, hcall, hend, rfl⟩ := exec_onResult_iff.1 hk
    exact .inr ⟨⟨conn, n, r, s₁, s₂, es₁, es₃, es₄, rfl, hconn, hcall, hend⟩⟩

/-- A round of the loop of a verb that is retried runs so. -/
theorem retryIoLoop_rounds {n : Nat} (hverb : verb.mutating = false)
    (hx : Exec (netMachine cl.serde daemon) (retryIoLoop cl verb n) s es res s') :
    res = .error .running ∨
    (∃ e, res = .error e ∧ Exec (netMachine cl.serde daemon) (ensureConnected cl) s es (.error e) s') ∨
      Nonempty (CallRun cl daemon verb s es res s') := by
  cases n with
  | zero => exact .inl (exec_ret_iff.1 hx).2.1
  | succ n =>
    rw [retryIoLoop_succ hverb] at hx
    exact .inr (exec_callRun hx)

/-- **Every call** runs so, unless it finds no connection, or has no fuel. -/
theorem exec_call (hx : Exec (netMachine cl.serde daemon) (call cl verb) s es res s') :
    res = .error .running ∨
    (∃ e, res = .error e ∧ Exec (netMachine cl.serde daemon) (ensureConnected cl) s es (.error e) s') ∨
      Nonempty (CallRun cl daemon verb s es res s') := by
  unfold call at hx
  split at hx
  · next hverb =>
    rw [noRetryOnIo_eq hverb 0] at hx
    exact .inr (exec_callRun hx)
  · next hverb => exact retryIoLoop_rounds (Bool.eq_false_iff.2 hverb) hx

end

/-! ## The slot of the connection -/

/-- The connection that is in the slot was in it before, or was made meanwhile. -/
def SlotMade (s : NetState) (es : List (Occ NetAct.Ret)) (s' : NetState) : Prop :=
  ∀ conn, s'.inner = some conn → s.inner = some conn ∨ (⟨.connect, .ok conn⟩ : Occ NetAct.Ret) ∈ es

section
variable {cl : Reconnecting} {daemon : Daemon} {verb : Verb} {s s₁ s' : NetState}
  {es es₁ es₂ : List (Occ NetAct.Ret)}

theorem SlotMade.trans (h : SlotMade s es₁ s₁) (h' : SlotMade s₁ es₂ s') :
    SlotMade s (es₁ ++ es₂) s' := by
  intro conn hconn
  rcases h' conn hconn with hconn | hmem
  · exact (h conn hconn).imp_right (List.mem_append_left _)
  · exact .inr (List.mem_append_right _ hmem)

theorem SlotMade.of_eq (h : s'.inner = s.inner) : SlotMade s es s' := fun _ hconn => .inl (h ▸ hconn)

/-- Making a connection leaves the slot alone. -/
theorem openConn_made {res : Except Stop Nat}
    (hx : Exec (netMachine cl.serde daemon) (openConn cl) s es res s') :
    s'.inner = s.inner ∧
      ∀ conn, res = .ok conn → (⟨.connect, .ok conn⟩ : Occ NetAct.Ret) ∈ es := by
  unfold openConn at hx
  split at hx
  · next auth _ =>
    obtain ⟨r, s₁, es₁, hst, rfl, hk⟩ := exec_perform_bind_iff.1 hx
    have hinner := (of_connect hst).1.inner
    cases r with
    | error kind =>
      obtain ⟨rfl, rfl, rfl⟩ := exec_ret_iff.1 hk
      exact ⟨hinner, by rintro _ ⟨⟩⟩
    | ok conn =>
      replace hk : Exec _ (authenticate cl.toNetEnv auth conn >>= fun _ => pure conn) s₁ es₁ res s' := hk
      have hframe := frame_of_exec hk
        ((Talks.authenticate cl.toNetEnv auth).only.bind fun _ => trivial)
      refine ⟨hframe.inner.trans hinner, ?_⟩
      rintro conn' rfl
      obtain ⟨_, _, _, _, -, hret, -⟩ := exec_bind_ok hk
      obtain ⟨-, hok, -⟩ := exec_ret_iff.1 hret
      cases hok
      exact List.mem_cons_self ..
  · obtain ⟨r, s₁, es₁, hst, rfl, hk⟩ := exec_perform_bind_iff.1 hx
    have hinner := (of_connect hst).1.inner
    cases r with
    | error kind =>
      obtain ⟨rfl, rfl, rfl⟩ := exec_ret_iff.1 hk
      exact ⟨hinner, by rintro _ ⟨⟩⟩
    | ok conn =>
      obtain ⟨rfl, rfl, rfl⟩ := exec_ret_iff.1 hk
      exact ⟨hinner, by rintro _ ⟨⟩; exact List.mem_cons_self ..⟩

theorem inner_of_notes {serde : Serde} {a : NetAct} {r : a.Ret}
    (hst : (netMachine serde daemon).Step a s r s') (ha : a.Notes) : s'.inner = s.inner :=
  (extends_of_notes hst ha).inner

/-- `ensure_connected` answers the connection in the slot, or makes one. -/
theorem ensureConnected_made {res : Except Stop Nat}
    (hx : Exec (netMachine cl.serde daemon) (ensureConnected cl) s es res s') :
    SlotMade s es s' ∧
      ∀ conn, res = .ok conn → s.inner = some conn ∨ (⟨.connect, .ok conn⟩ : Occ NetAct.Ret) ∈ es := by
  have hP : HoldsOfParts cl daemon SlotMade := {
    nil := .of_eq rfl
    append := .trans
    notes := fun hst ha => .of_eq (inner_of_notes hst ha)
    unopened := fun hopen => .of_eq (openConn_made hopen).1
    opened := by
      rintro s es conn s' hopen _ ⟨⟩
      exact .inr (List.mem_append_left _ ((openConn_made hopen).2 conn rfl)) }
  have hslot := hP.ensureConnected hx
  refine ⟨hslot, ?_⟩
  rintro conn rfl
  exact hslot conn (ensureConnected_inner hx)

/-- Calling a verb leaves the slot alone. -/
theorem inner_of_callVerb {fuel conn : Nat} {serde : Serde} {res : Except Stop verb.Reply}
    (hx : Exec (netMachine serde daemon) (callVerb serde fuel conn verb) s es res s') :
    s'.inner = s.inner :=
  (frame_of_exec hx (Talks.callVerb serde fuel conn verb).only).inner

/-- So a verb ends with a connection it made, or with the one it began with. -/
theorem Rounds.made {tries : List Outcome} {res : Except Stop verb.Reply}
    (h : Rounds cl daemon verb tries s es res s') : SlotMade s es s' := by
  induction h with
  | outOfFuel => exact .of_eq rfl
  | unconnected h => exact (ensureConnected_made h.exec).1
  | called h hx _ => exact (ensureConnected_made h.exec).1.trans (.of_eq (inner_of_callVerb hx))
  | dropped => exact nofun
  | again _ _ _ _ ih =>
    intro conn hconn
    rcases ih conn hconn with hnone | hmem
    · cases hnone
    · exact .inr (by simp [hmem])

end

/-! ## The treatment of a lost connection -/

section
variable {cl : Reconnecting} {daemon : Daemon} {verb : Verb} {s s' : NetState}
  {es : List (Occ NetAct.Ret)} {res : Except Stop verb.Reply}

/-- The request was sent on a connection from which everything before had been read, and the reply was
cut off after `p` by the end of the stream: no operation on the connection failed. -/
structure CallRun.CutAfter (run : CallRun cl daemon verb s es res s') (p : List UInt8) : Prop where
  quiet : (run.made.conns run.conn).pos = (run.made.conns run.conn).got.length
  short : ((Request.verb verb).line cl.serde).length ≤ maxRequestBytes
  unfailing : run.calling.any (failsOn run.conn) = false
  got : (run.ended.conns run.conn).got = (run.made.conns run.conn).got ++ p
  closed : (run.ended.conns run.conn).eof = true

/-- What a verb that is retried does without a connection: it makes no connection, or it has no fuel
left, or it is called again on a new connection, and answers what comes of that unless it is lost too. -/
inductive CalledAgain (cl : Reconnecting) (daemon : Daemon) (verb : Verb) (s : NetState)
    (es : List (Occ NetAct.Ret)) (res : Except Stop verb.Reply) (s' : NetState) : Prop where
  | running (h : res = .error .running)
  | notConnected (e : Stop) (h : res = .error e)
      (hx : Exec (netMachine cl.serde daemon) (ensureConnected cl) s es (.error e) s')
  | resent (run : CallRun cl daemon verb s es res s')
      (hnew : (⟨.connect, .ok run.conn⟩ : Occ NetAct.Ret) ∈ run.connecting)
      (hanswer : (∀ kind, run.result ≠ .error (.failed (.io kind))) → res = run.result)

/-- The verb treats the connection of its call as lost: the call is an I/O error, the connection is
given up, and the error is returned by a verb that changes something, while one that only reads is called
again. -/
structure CallRun.Lost (run : CallRun cl daemon verb s es res s') : Prop where
  io : ∃ kind, run.result = .error (.failed (.io kind))
  mutating : verb.mutating = true → res = run.result ∧ run.after = [⟨.setInner none, ()⟩]
  retried : verb.mutating = false → ∃ after, run.after = ⟨.setInner none, ()⟩ :: after ∧
    CalledAgain cl daemon verb { run.ended with inner := none } after res s'
  dropped : ∀ conn, s'.inner = some conn → (⟨.connect, .ok conn⟩ : Occ NetAct.Ret) ∈ run.after

/-- A call whose reply is cut off is an error. -/
theorem CallRun.CutAfter.result_eq {run : CallRun cl daemon verb s es res s'} {p : List UInt8}
    (h : run.CutAfter p) (hp : CutReply cl.serde p) :
    run.result = .error (.failed (cutError cl.serde p)) := by
  -- the round trip wrote the request and received what is left of the reply
  have hround : ∀ {r : Except Stop Json} {s₁ : NetState},
      Exec (netMachine cl.serde daemon) (roundTrip cl.serde cl.fuel run.conn (.verb verb)) run.made
        run.calling r s₁ →
      (s₁.conns run.conn).got = (run.ended.conns run.conn).got →
      r = .error (.failed (cutError cl.serde p)) := by
    intro r s₁ hx hsame
    have hok := List.any_eq_false.1 h.unfailing
    rcases roundTrip_cases hx with ⟨hlong, -⟩ | ⟨-, kind, -, hfails, -⟩ | ⟨-, s₂, es₃, rfl, hocc, -, hk⟩
    · exact absurd hlong (Nat.not_lt.2 h.short)
    · obtain ⟨e, hmem, hfail⟩ : ∃ e ∈ run.calling, failsOn run.conn e = true := by
        rcases hfails with hocc | hocc | hocc <;> rw [hocc] <;> simp [failsOn]
      exact absurd hfail (hok e hmem)
    · refine receive_cut hp hk ?_ ?_ fun kind hmem => hok _ (hocc ▸ List.mem_append_right _ hmem) ?_
      · rw [NetState.wrote_conns]
        exact h.quiet
      · rw [hsame, h.got, NetState.wrote_conns]
      · simp [failsOn]
  rcases exec_bind_iff.1 run.called with ⟨e, herr, he⟩ | ⟨reply, s₁, es₁, es₂, hx, hdecode, hocc⟩
  · rw [herr]
    cases hround he rfl
    rfl
  · obtain ⟨-, hsame⟩ := exec_ipcResult hdecode
    obtain rfl := occs_ipcResult hdecode
    rw [List.append_nil] at hocc
    cases hround (hocc ▸ hx) (by rw [hsame])

/-- Without a connection a verb that is retried is called on a new one. -/
theorem calledAgain_of_exec {n : Nat} (hverb : verb.mutating = false)
    (hx : Exec (netMachine cl.serde daemon) (retryIoLoop cl verb n) s es res s')
    (hinner : s.inner = none) : CalledAgain cl daemon verb s es res s' := by
  rcases retryIoLoop_rounds hverb hx with hrun | ⟨e, herr, he⟩ | ⟨⟨run⟩⟩
  · exact .running hrun
  · exact .notConnected e herr he
  · refine .resent run ?_ fun hanswer => ?_
    · refine ((ensureConnected_made run.connected).2 run.conn rfl).resolve_left ?_
      rw [hinner]
      exact nofun
    · have hwent := run.went
      unfold afterCall at hwent
      split at hwent
      · next kind hresult => exact absurd hresult (hanswer kind)
      · exact (exec_ret_iff.1 hwent).2.1

/-- An I/O error of a call is treated as the loss of its connection. -/
theorem CallRun.lost_of_io (run : CallRun cl daemon verb s es res s') {kind : IoErrorKind}
    (hio : run.result = .error (.failed (.io kind))) : run.Lost := by
  have hwent := run.went
  rw [hio] at hwent
  obtain ⟨after, hafter, hk⟩ := exec_afterCall_io hwent
  refine ⟨⟨kind, hio⟩, fun hverb => ?_, fun hverb => ?_, ?_⟩
  · rw [if_pos hverb] at hk
    exact ⟨hk.2.1.trans hio.symm, by rw [hafter, hk.1]⟩
  · rw [hverb, if_neg Bool.false_ne_true] at hk
    exact ⟨after, hafter, calledAgain_of_exec hverb hk rfl⟩
  · intro conn hconn
    rw [hafter]
    split at hk
    · rw [hk.2.2] at hconn
      cases hconn
    · next hverb =>
      obtain ⟨tries, hrounds⟩ := rounds_of_retryIoLoop (Bool.eq_false_iff.2 hverb) hk
      rcases hrounds.made conn hconn with hnone | hmem
      · cases hnone
      · exact List.mem_cons_of_mem _ hmem

/-- A reply of which something is left is no I/O error. -/
theorem CallRun.CutAfter.not_lost {run : CallRun cl daemon verb s es res s'} {p : List UInt8}
    (hcut : run.CutAfter p) (hp : CutReply cl.serde p) (hsome : p ≠ []) : ¬ run.Lost := by
  intro hlost
  obtain ⟨kind, hio⟩ := hlost.io
  rw [hcut.result_eq hp, cutError, if_neg hsome] at hio
  split at hio
  · next j hj => exact hp.incomplete j hj
  · cases hio

/-- **A reply that is cut off** is treated as the loss of the connection exactly if nothing of it is
left. -/
theorem CallRun.lost_iff {run : CallRun cl daemon verb s es res s'} {p : List UInt8}
    (hp : CutReply cl.serde p) (hcut : run.CutAfter p) : run.Lost ↔ p = [] := by
  constructor
  · intro hlost
    by_contra hsome
    exact hcut.not_lost hp hsome hlost
  · rintro rfl
    exact run.lost_of_io ((hcut.result_eq hp).trans rfl)

end

/-! ## Two runs -/

/-- A client with a connection. -/
def NetState.connected : NetState := { NetState.new with inner := some 0, opened := 1 }

/-- An outside in which the connection brings `p` and ends, and those after it bring a reply. -/
def cutting (p : List UInt8) (s : NetState) : NetWorld :=
  if s.inner = some 0 then .sends (if (s.conns 0).got = [] then p else [])
  else .sends (utf8 okReplyText ++ [newline])

/-- The machine of the runs. -/
abbrev cuttingMachine (p : List UInt8) : Machine NetAct NetAct.Ret NetState :=
  (netMachine Serde.sample anyDaemon).under (cutting p)

/-- A call of `hydrate` on the connection, its reply cut off after `p`, with a check of the end. -/
def cutCall (p : List UInt8) (check : Except Stop Unit → NetState → Bool) : Bool :=
  let verb : Verb := .hydrate ['/', 'a']
  ((cuttingMachine p).exec () (ensureConnected .sample) .connected).any fun x =>
    x.2.1 = .ok 0 && (x.2.2.conns 0).pos = (x.2.2.conns 0).got.length &&
    ((cuttingMachine p).exec () (callVerb .sample 4 0 verb) x.2.2).any fun y =>
      !y.1.any (failsOn 0) && (y.2.2.conns 0).got = (x.2.2.conns 0).got ++ p && (y.2.2.conns 0).eof &&
      ((cuttingMachine p).exec () (afterCall .sample verb 3 y.2.1) y.2.2).any fun z =>
        check z.2.1 z.2.2

theorem exists_cutRun {p : List UInt8} {check : Except Stop Unit → NetState → Bool}
    (h : cutCall p check = true) :
    ∃ es res s', ∃ run : CallRun .sample anyDaemon (.hydrate ['/', 'a']) .connected es res s',
      run.CutAfter p ∧ check res s' = true := by
  simp only [cutCall, Option.any_eq_true, Bool.and_eq_true, decide_eq_true_eq, Bool.not_eq_true'] at h
  obtain ⟨⟨es₁, _, s₁⟩, hx, ⟨rfl, hquiet⟩, ⟨es₂, r₂, s₂⟩, hy, ⟨⟨hok, hgot⟩, hclosed⟩, ⟨es₃, res, s'⟩, hz,
    hcheck⟩ := h
  have hstep : ∀ (a : NetAct) (r : a.Ret) (s s' : NetState),
      (cuttingMachine p).Step a s r s' → (netMachine Serde.sample anyDaemon).Step a s r s' :=
    fun _ _ _ _ => Machine.step_of_under
  exact ⟨_, res, s', ⟨0, 3, r₂, s₁, s₂, es₁, es₂, es₃, rfl, (Machine.exec_sound hx).of_step hstep,
    (Machine.exec_sound hy).of_step hstep, (Machine.exec_sound hz).of_step hstep⟩,
    ⟨hquiet, by decide, hok, hgot, hclosed⟩, hcheck⟩

/-- Nothing, or two bytes, of the reply that says ok. -/
theorem cutReply_sample {p : List UInt8} (hp : p = [] ∨ p = [123, 34]) : CutReply .sample p := by
  obtain ⟨rest, hrest, hne⟩ : ∃ rest, p ++ rest = utf8 okReplyText ∧ p ≠ utf8 okReplyText := by
    rcases hp with rfl | rfl
    · exact ⟨utf8 okReplyText, rfl, by decide⟩
    · exact ⟨(utf8 okReplyText).drop 2, by decide, by decide⟩
  refine ⟨⟨rest, [("ok".toList, .bool true)], ?_, ?_, ?_⟩, fun j hj => ?_⟩
  · rw [hrest]
    rfl
  · rw [hrest]
    decide
  · rw [hrest]
    decide
  · cases (if_neg hne).symm.trans hj

/-- The error of a reply that is malformed, with the connection still in use. -/
def keptMalformed (res : Except Stop Unit) (s' : NetState) : Bool :=
  match res with
  | .error (.failed (.malformed _)) => s'.inner = some 0
  | _ => false

theorem of_keptMalformed {res : Except Stop Unit} {s' : NetState} (h : keptMalformed res s' = true) :
    (∃ msg, res = .error (.failed (.malformed msg))) ∧ s'.inner = some 0 := by
  unfold keptMalformed at h
  split at h
  · next msg => exact ⟨⟨msg, rfl⟩, of_decide_eq_true h⟩
  · cases h

/-- The reply `{"ok":true}` is cut off after two bytes: the call fails as for a malformed reply, and the
client keeps the connection. -/
theorem malformed_sample :
    CutReply Serde.sample [123, 34] ∧
    ∃ es res s', ∃ run : CallRun .sample anyDaemon (.hydrate ['/', 'a']) .connected es res s',
      run.CutAfter [123, 34] ∧ ¬ run.Lost ∧
      (∃ msg, res = .error (.failed (.malformed msg))) ∧ s'.inner = some 0 := by
  have hp : CutReply Serde.sample [123, 34] := cutReply_sample (.inr rfl)
  obtain ⟨es, res, s', run, hcut, hcheck⟩ := @exists_cutRun [123, 34] keptMalformed (by decide +kernel)
  exact ⟨hp, es, res, s', run, hcut, hcut.not_lost hp (by decide), of_keptMalformed hcheck⟩

/-- Cut off before its first byte, the call is made again on a new connection. -/
theorem lost_iff_sample :
    ∃ es res s', ∃ run : CallRun .sample anyDaemon (.hydrate ['/', 'a']) .connected es res s',
      run.CutAfter [] ∧ run.Lost ∧ res.isOk = true ∧ s'.inner = some 1 := by
  obtain ⟨es, res, s', run, hcut, hcheck⟩ :=
    @exists_cutRun [] (fun res s' => res.isOk && s'.inner = some 1) (by decide +kernel)
  simp only [Bool.and_eq_true, decide_eq_true_eq] at hcheck
  exact ⟨es, res, s', run, hcut, (CallRun.lost_iff (cutReply_sample (.inl rfl)) hcut).2 rfl, hcheck⟩

end UnidriveMount
