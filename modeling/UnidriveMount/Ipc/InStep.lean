import UnidriveMount.Ipc.Conversation
import UnidriveMount.Ipc.Rounds

/-!
# Requests and replies stay paired

Against a daemon that answers each request line with one reply line (`answering`), a connection in
use is in step between calls (`Conn.InStep`): every reply to a request written on it was consumed,
and nothing else has arrived. So what a call reads is the reply to the request it has just written,
also when the reply is too long, malformed or cut.
-/

namespace UnidriveMount

open Lib
open Lib.Prog (fail only_perform)

/-! ## The daemon -/

/-- The bytes `got` answer the lines of `sent`: there are not more lines in them, and nothing follows
the answer to the last line. -/
def Answers (sent got : List UInt8) : Prop :=
  got.count newline < sent.count newline ∨
    got.count newline = sent.count newline ∧ (got = [] ∨ got.getLast? = some newline)

instance (sent got : List UInt8) : Decidable (Answers sent got) := inferInstanceAs (Decidable (_ ∨ _))

/-- A daemon that answers each request line it has received with one reply line, of any bytes and any
length, or closes the connection. -/
def answering : Daemon := fun c chunk => decide (Answers c.sent (c.got ++ chunk))

/-- Every connection has answers on it. -/
def NetState.Answered (s : NetState) : Prop := ∀ c, Answers (s.conns c).sent (s.conns c).got

theorem Answers.more_sent {sent got : List UInt8} (h : Answers sent got) (more : List UInt8) :
    Answers (sent ++ more) got := by
  unfold Answers at *
  rw [List.count_append]
  rcases h with h | ⟨h, hend⟩
  · exact .inl (by omega)
  · rcases Nat.eq_zero_or_pos (more.count newline) with hzero | hpos
    · exact .inr ⟨by omega, hend⟩
    · exact .inl (by omega)

theorem answered_new : NetState.new.Answered := fun _ => .inr ⟨rfl, .inl rfl⟩

section
variable {serde : Serde} {s s' : NetState}

theorem NetState.Answered.modifyConn (h : s.Answered) {conn : Nat} {f : Conn → Conn}
    (hf : Answers (f (s.conns conn)).sent (f (s.conns conn)).got) :
    (s.modifyConn conn f).Answered := by
  intro c
  rw [modifyConn_conns]
  split
  · exact hf
  · exact h c

/-- Against the answering daemon every action leaves answers only. -/
theorem answered_of_step {a : NetAct} {r : a.Ret} (h : s.Answered)
    (hst : (netMachine serde answering).Step a s r s') : s'.Answered := by
  obtain ⟨-, (w : NetWorld), (hrun : a.run serde answering w s = (r, s'))⟩ := hst
  cases a with
  | connect =>
    simp only [NetAct.run] at hrun
    split at hrun
    · cases hrun
      intro c
      simp only [Function.update_apply]
      split
      · exact .inr ⟨rfl, .inl rfl⟩
      · exact h c
    · cases hrun
      exact h
  | write conn data =>
    simp only [NetAct.run] at hrun
    split at hrun <;> cases hrun <;> exact h.modifyConn ((h conn).more_sent _)
  | fillBuf conn =>
    have hrun : s.fillBuf answering w conn = (r, s') := hrun
    simp only [NetState.fillBuf] at hrun
    split at hrun
    · cases hrun
      exact h
    · split at hrun
      · cases hrun
        exact h
      · split at hrun
        · cases hrun
          exact h
        · split at hrun
          · next hchunk =>
            cases hrun
            exact h.modifyConn (of_decide_eq_true hchunk.2)
          · cases hrun
            exact h.modifyConn (h conn)
  | consume conn n =>
    cases hrun
    exact h.modifyConn (h conn)
  | _ =>
    cases hrun
    exact h

theorem answered_of_exec {α : Type} {p : NetProg α} {es : List (Occ NetAct.Ret)}
    {res : Except Stop α} (h : s.Answered) (hx : Exec (netMachine serde answering) p s es res s') :
    s'.Answered := by
  induction hx with
  | ret => exact h
  | act hst _ ih => exact ih (answered_of_step h hst)

end

/-! ## In step -/

/-- Everything that has arrived on the connection was consumed, and each request line written on it
was answered, unless the stream has ended. -/
structure Conn.InStep (c : Conn) : Prop where
  consumed : c.pos = c.got.length
  answered : c.eof = true ∨ c.got.count newline = c.sent.count newline

theorem Conn.inStep_new : Conn.new.InStep := ⟨rfl, .inr rfl⟩

theorem Conn.InStep.unread {c : Conn} (h : c.InStep) : c.unread = [] :=
  List.drop_eq_nil_of_le h.consumed.ge

/-- The next `n` bytes belong to the reply that the last request line written on the connection
waits for: the replies to the lines before it were consumed, and its own does not end before the last
of these bytes. -/
def Conn.Awaits (c : Conn) (n : Nat) : Prop :=
  (c.got.take c.pos).count newline + 1 = c.sent.count newline ∧
    newline ∉ (c.unread.take n).dropLast

/-- What is consumed from a connection belongs to the reply to the last request on it. -/
def OwnReply (s : NetState) (e : Occ NetAct.Ret) : Prop :=
  match e with
  | ⟨.consume conn n, _⟩ => 0 < n → (s.conns conn).Awaits n
  | _ => True

/-- A request is out on the connection whose reply has not been consumed. -/
def Conn.Waiting (c : Conn) : Prop :=
  c.Drained ∨ (c.got.take c.pos).count newline + 1 = c.sent.count newline

/-- Reading bytes without a line break goes on waiting for the reply. -/
theorem Conn.Waiting.reads {c c' : Conn} {read : List UInt8} (h : c.Waiting)
    (hreads : c.Reads read c') (hpos : c.pos ≤ c.got.length) (hopen : newline ∉ read) :
    c'.Waiting := by
  obtain ⟨more, hgot, hread, heof⟩ := hreads.arrived
  rcases h with ⟨hend, hnil⟩ | hcount
  · refine .inl ⟨hreads.eof hend, ?_⟩
    rw [hnil, heof hend] at hread
    simp only [List.append_nil] at hread
    exact (List.append_eq_nil_iff.1 hread.symm).2
  · refine .inr ?_
    rw [hreads.take hpos, List.count_append, List.count_eq_zero.2 hopen, hreads.sent]
    exact hcount

section
variable {serde : Serde} {s s' : NetState} {conn : Nat} {es : List (Occ NetAct.Ret)}

/-- What is consumed of the bytes of a `fill_buf` is the reply's, if no line break is inside. -/
theorem ownReply_of_fillBuf {chunk : List UInt8} {used : Nat}
    (hst : (netMachine serde answering).Step (.fillBuf conn) s (.ok chunk) s')
    (hpos : (s.conns conn).pos ≤ (s.conns conn).got.length) (hw : (s.conns conn).Waiting)
    (hle : used ≤ chunk.length) (hused : IsLine (chunk.take used) ∨ newline ∉ chunk.take used) :
    OwnReply s' ⟨.consume conn used, ()⟩ := by
  intro hsome
  obtain ⟨hreads, hchunk⟩ := reads_of_fillBuf hst hpos
  obtain ⟨hunread, heof⟩ := hchunk chunk rfl
  rcases hw.reads hreads.conn hpos (by simp) with ⟨-, hnil⟩ | hcount
  · rw [hunread, hnil] at hle
    exact absurd hsome (Nat.not_lt.2 hle)
  · refine ⟨hcount, fun hmem => ?_⟩
    rw [← hunread] at hmem
    rcases hused with ⟨body, hbody, hline⟩ | hopen
    · rw [hline, List.dropLast_concat] at hmem
      exact hbody hmem
    · exact hopen (List.mem_of_mem_dropLast hmem)

/-- Reading a line consumes bytes of the reply only. -/
theorem readUntil_ownReply {n limit : Nat} {buf : List UInt8} {res : Except Stop (List UInt8)}
    (hx : Exec (netMachine serde answering) (readUntil conn n limit buf) s es res s')
    (hpos : (s.conns conn).pos ≤ (s.conns conn).got.length) (hw : (s.conns conn).Waiting) :
    Trace (netMachine serde answering) OwnReply s es s' := by
  induction n generalizing limit buf s es with
  | zero =>
    obtain ⟨rfl, -, rfl⟩ := exec_ret_iff.1 hx
    exact .nil
  | succ n ih =>
    rw [readUntil] at hx
    split at hx
    · obtain ⟨rfl, -, rfl⟩ := exec_ret_iff.1 hx
      exact .nil
    · obtain ⟨r, s₁, es₁, hfill, rfl, hk⟩ := exec_perform_bind_iff.1 hx
      refine .cons hfill trivial ?_
      obtain ⟨hreads₁, hchunk⟩ := reads_of_fillBuf hfill hpos
      cases r with
      | error kind =>
        obtain ⟨rfl, -, rfl⟩ := exec_ret_iff.1 hk
        exact .nil
      | ok chunk =>
        obtain ⟨hunread, -⟩ := hchunk chunk rfl
        obtain ⟨hused, hdone, hopen⟩ := lineBytes_spec (chunk.take limit)
        replace hk : Exec _ (performNet (.consume conn (lineBytes (chunk.take limit)).1) >>= fun _ =>
          if (lineBytes (chunk.take limit)).2 || (lineBytes (chunk.take limit)).1 = 0 then
            pure (buf ++ (chunk.take limit).take (lineBytes (chunk.take limit)).1)
          else readUntil conn n (limit - (lineBytes (chunk.take limit)).1)
            (buf ++ (chunk.take limit).take (lineBytes (chunk.take limit)).1)) s₁ es₁ res s' := hk
        generalize lineBytes (chunk.take limit) = x at *
        obtain ⟨used, done⟩ := x
        dsimp only at *
        obtain ⟨_, s₂, es₂, hconsume, rfl, hrest⟩ := exec_perform_bind_iff.1 hk
        have htake : (chunk.take limit).take used = chunk.take used := by
          rw [List.take_take, min_eq_left (hused.trans (List.length_take_le ..))]
        have hline : IsLine (chunk.take used) ∨ newline ∉ chunk.take used := by
          rw [← htake]
          cases done with
          | true => exact .inl (hdone rfl)
          | false => exact .inr fun hmem => (hopen rfl).2 (List.mem_of_mem_take hmem)
        have hle : used ≤ chunk.length := hused.trans (List.length_take_le' ..)
        refine .cons hconsume (ownReply_of_fillBuf hfill hpos hw hle hline) ?_
        split at hrest
        · obtain ⟨rfl, -, rfl⟩ := exec_ret_iff.1 hrest
          exact .nil
        · next hgo =>
          simp only [Bool.or_eq_true, decide_eq_true_eq, not_or, Bool.not_eq_true] at hgo
          obtain ⟨hreads₂, -, -⟩ := reads_of_consume hconsume (hunread ▸ hle) hreads₁.conn.within
          rw [← hunread] at hreads₂
          have hopen' : newline ∉ chunk.take used := by
            rw [← htake]
            exact fun hmem => (hopen hgo.1).2 (List.mem_of_mem_take hmem)
          exact ih hrest hreads₂.conn.within
            (hw.reads (hreads₁.trans hreads₂).conn hpos (by simpa using hopen'))

theorem discardLine_ownReply {fuel : Nat} {res : Except Stop InboundLine}
    (hx : Exec (netMachine serde answering) (discardLine conn fuel) s es res s')
    (hpos : (s.conns conn).pos ≤ (s.conns conn).got.length) (hw : (s.conns conn).Waiting) :
    Trace (netMachine serde answering) OwnReply s es s' := by
  induction fuel generalizing s es with
  | zero =>
    obtain ⟨rfl, -, rfl⟩ := exec_ret_iff.1 hx
    exact .nil
  | succ fuel ih =>
    obtain ⟨r, s₁, es₁, hfill, rfl, hk⟩ := exec_perform_bind_iff.1 hx
    refine .cons hfill trivial ?_
    obtain ⟨hreads₁, hchunk⟩ := reads_of_fillBuf hfill hpos
    cases r with
    | error kind =>
      obtain ⟨rfl, -, rfl⟩ := exec_ret_iff.1 hk
      exact .nil
    | ok chunk =>
      obtain ⟨hunread, -⟩ := hchunk chunk rfl
      obtain ⟨hused, hdone, hopen⟩ := lineBytes_spec chunk
      replace hk : Exec _ (if chunk.isEmpty then Prog.fail (.failed (.io .unexpectedEof)) else
        performNet (.consume conn (lineBytes chunk).1) >>= fun _ =>
          if (lineBytes chunk).2 then pure .tooLong else discardLine conn fuel) s₁ es₁ res s' := hk
      generalize lineBytes chunk = x at *
      obtain ⟨used, done⟩ := x
      dsimp only at *
      split at hk
      · obtain ⟨rfl, -, rfl⟩ := exec_ret_iff.1 hk
        exact .nil
      · obtain ⟨_, s₂, es₂, hconsume, rfl, hrest⟩ := exec_perform_bind_iff.1 hk
        have hline : IsLine (chunk.take used) ∨ newline ∉ chunk.take used := by
          cases done with
          | true => exact .inl (hdone rfl)
          | false => exact .inr fun hmem => (hopen rfl).2 (List.mem_of_mem_take hmem)
        refine .cons hconsume (ownReply_of_fillBuf hfill hpos hw hused hline) ?_
        split at hrest
        · obtain ⟨rfl, -, rfl⟩ := exec_ret_iff.1 hrest
          exact .nil
        · next hgo =>
          obtain ⟨hreads₂, -, -⟩ := reads_of_consume hconsume (hunread ▸ hused) hreads₁.conn.within
          rw [← hunread] at hreads₂
          have hopen' : newline ∉ chunk.take used := fun hmem =>
            (hopen (Bool.not_eq_true _ ▸ hgo)).2 (List.mem_of_mem_take hmem)
          exact ih hrest hreads₂.conn.within
            (hw.reads (hreads₁.trans hreads₂).conn hpos (by simpa using hopen'))

theorem readInboundLine_ownReply {fuel limit : Nat} {res : Except Stop InboundLine}
    (hx : Exec (netMachine serde answering) (readInboundLine fuel conn limit) s es res s')
    (hpos : (s.conns conn).pos ≤ (s.conns conn).got.length) (hw : (s.conns conn).Waiting) :
    Trace (netMachine serde answering) OwnReply s es s' := by
  rcases exec_bind_iff.1 hx with ⟨e, -, he⟩ | ⟨buf, s₁, es₁, es₂, hread, hk, rfl⟩
  · exact readUntil_ownReply he hpos hw
  · refine (readUntil_ownReply hread hpos hw).append ?_
    obtain ⟨read, hreads, ⟨kind, hkind, -⟩ | ⟨hok, -, hend⟩⟩ := readUntil_spec hread le_rfl hpos
    · cases hkind
    · obtain rfl : buf = read := by simpa using hok
      split at hk
      · obtain ⟨rfl, -, rfl⟩ := exec_ret_iff.1 hk
        exact .nil
      · split at hk
        · obtain ⟨rfl, -, rfl⟩ := exec_ret_iff.1 hk
          exact .nil
        · next hgo =>
          simp only [Bool.or_eq_true, decide_eq_true_eq, not_or, not_lt] at hgo
          rcases hend with hline | ⟨hopen, -⟩
          · exact absurd hline.getLast? hgo.1
          · exact discardLine_ownReply hk hreads.conn.within (hw.reads hreads.conn hpos hopen)

end

/-! ## Round trips -/

/-- What the bytes of a reply are read as. -/
def readReply (serde : Serde) (reply : List UInt8) : Except IpcError Json :=
  if maxInboundLineBytes < reply.length then .error replyTooLong else parseReply serde reply

/-- From `s` to `s'` the request was written on the connection, and `reply` is the reply to it: every
line written before was answered before, and these bytes, which are all that arrived, are the next
line, or what came of it before the stream ended. -/
structure RepliedTo (serde : Serde) (conn : Nat) (req : Request) (s : NetState)
    (reply : List UInt8) (s' : NetState) : Prop where
  sent : (s'.conns conn).sent = (s.conns conn).sent ++ req.line serde
  before : (s.conns conn).got.count newline = (s.conns conn).sent.count newline
  got : (s'.conns conn).got = (s.conns conn).got ++ reply
  line : IsLine reply ∨ newline ∉ reply ∧ reply ≠ [] ∧ (s'.conns conn).eof = true

/-- The program stopped with a connection that may be out of step: an I/O error, or it is still
running. -/
def Breaks {α : Type} : Except Stop α → Prop
  | .error (.failed (.io _)) | .error .running => True
  | _ => False

section
variable {serde : Serde} {s s' : NetState} {conn : Nat} {es : List (Occ NetAct.Ret)}

/-- A reply that was consumed leaves nothing. -/
theorem unread_of_line {c : Conn} {read : List UInt8} (got : List UInt8) (h : Answers c.sent c.got)
    (hgot : c.got = got ++ (read ++ c.unread)) (hcount : got.count newline + 1 = c.sent.count newline)
    (hline : IsLine read) : c.unread = [] := by
  by_contra hsome
  have hread : read.count newline = 1 := by
    obtain ⟨body, hbody, rfl⟩ := hline
    rw [List.count_append, List.count_eq_zero.2 hbody]
    simp
  have htotal : c.got.count newline = c.sent.count newline + c.unread.count newline := by
    rw [hgot, List.count_append, List.count_append, hread]
    omega
  rcases h with hlt | ⟨heq, hend⟩
  · omega
  · have hnone : newline ∉ c.unread := List.count_eq_zero.1 (by omega)
    rcases hend with hnil | hlast
    · rw [hgot] at hnil
      exact hsome (List.append_eq_nil_iff.1 (List.append_eq_nil_iff.1 hnil).2).2
    · rw [hgot, ← List.append_assoc, List.getLast?_append_of_ne_nil _ hsome] at hlast
      exact hnone (List.mem_of_getLast? hlast)

/-- **A round trip** on a connection that is in step: a request that is too long is refused and
nothing happens; otherwise the result is computed from the reply to the request, and the connection is
in step again, or it broke. -/
theorem roundTrip_spec {fuel : Nat} {req : Request} {res : Except Stop Json}
    (hx : Exec (netMachine serde answering) (roundTrip serde fuel conn req) s es res s')
    (hans : s.Answered) (hstep : (s.conns conn).InStep) :
    (maxRequestBytes < (req.line serde).length ∧
        res = .error (.failed (requestTooLong (utf8 (serde.render req.json)).length)) ∧ es = [] ∧
        s' = s) ∨
      ¬ maxRequestBytes < (req.line serde).length ∧ (Breaks res ∨
        ∃ reply, RepliedTo serde conn req s reply s' ∧
          res = (readReply serde reply).mapError .failed ∧ (s'.conns conn).InStep) := by
  rcases roundTrip_cases hx with ⟨hlong, rfl, rfl, rfl⟩ | ⟨hshort, kind, rfl, -⟩ |
    ⟨hshort, s₃, es₃, hs₃, rfl, -, hk⟩
  · exact .inl ⟨hlong, rfl, rfl, rfl⟩
  · exact .inr ⟨hshort, .inl trivial⟩
  · refine .inr ⟨hshort, ?_⟩
    have hans₃ : s₃.Answered := hs₃ ▸ hans.modifyConn ((hans conn).more_sent _)
    replace hs₃ : s₃.conns conn =
        { s.conns conn with sent := (s.conns conn).sent ++ req.line serde } :=
      hs₃ ▸ s.wrote_conns _
    have hpos : (s₃.conns conn).pos ≤ (s₃.conns conn).got.length := by
      rw [hs₃]
      exact hstep.consumed.le
    rcases exec_bind_iff.1 hk with ⟨e, rfl, he⟩ | ⟨line, s₄, es₄, es₅, hread, hk₄, rfl⟩
    · obtain ⟨_, -, ⟨kind, hkind⟩ | hrun | ⟨_, hok, -⟩⟩ := readInboundLine_spec he (by decide) hpos
      · cases hkind
        exact .inl trivial
      · cases hrun
        exact .inl trivial
      · cases hok
    · obtain ⟨read, hreads, ⟨kind, hkind⟩ | hrun | ⟨line', hok, hsays⟩⟩ :=
        readInboundLine_spec hread (by decide) hpos
      · cases hkind
      · cases hrun
      · cases hok
        have hans₄ : s₄.Answered := answered_of_exec hans₃ hread
        obtain ⟨more, hgot, hmore, heof⟩ := hreads.conn.arrived
        have hunread : (s₃.conns conn).unread = [] := by
          rw [hs₃]
          exact hstep.unread
        rw [hunread, List.nil_append] at hmore
        have hcount : (s₃.conns conn).sent.count newline = (s.conns conn).sent.count newline + 1 := by
          rw [hs₃]
          show ((s.conns conn).sent ++ req.line serde).count newline = _
          rw [List.count_append, Request.count_line]
        -- a reply means that the stream had not ended, so that the earlier replies are complete
        have hbefore : read ≠ [] → (s.conns conn).got.count newline
            = (s.conns conn).sent.count newline := fun hsome => by
          refine hstep.answered.resolve_left fun he => hsome ?_
          rw [heof (by rw [hs₃]; exact he)] at hmore
          exact (List.append_eq_nil_iff.1 hmore.symm).1
        have hdone : (s₄.conns conn).unread = [] → IsLine read ∨ newline ∉ read ∧ read ≠ [] ∧
            (s₄.conns conn).eof = true →
            RepliedTo serde conn req s read s₄ ∧ (s₄.conns conn).InStep := by
          intro hnil hend
          have hsome : read ≠ [] := hend.elim IsLine.ne_nil fun h => h.2.1
          rw [hnil, List.append_nil] at hmore
          have hgot' : (s₄.conns conn).got = (s.conns conn).got ++ read := by
            rw [hgot, hmore, hs₃]
          have hsent : (s₄.conns conn).sent = (s.conns conn).sent ++ req.line serde := by
            rw [hreads.conn.sent, hs₃]
          refine ⟨⟨hsent, hbefore hsome, hgot', hend⟩, ?_, ?_⟩
          · exact le_antisymm hreads.conn.within (List.drop_eq_nil_iff.1 hnil)
          · refine hend.elim (fun ⟨body, hbody, hline⟩ => .inr ?_) fun h => .inl h.2.2
            rw [hgot', hsent, List.count_append, List.count_append, hbefore hsome,
              Request.count_line, hline, List.count_append, List.count_eq_zero.2 hbody]
            simp
        have hnil : IsLine read → (s₄.conns conn).unread = [] := fun hline => by
          refine unread_of_line (s.conns conn).got (hans₄ conn) ?_ ?_ hline
          · rw [hgot, hmore, hs₃]
          · rw [hreads.conn.sent, hcount, hbefore hline.ne_nil]
        cases hsays with
        | eof =>
          obtain ⟨-, rfl, -⟩ := exec_ret_iff.1 hk₄
          exact .inl trivial
        | line hline hle =>
          obtain ⟨hreplied, hin⟩ := hdone (hnil hline) (.inl hline)
          obtain ⟨rfl, rfl⟩ := exec_ipcResult hk₄
          exact .inr ⟨read, hreplied, by rw [readReply, if_neg (Nat.not_lt.2 hle)], hin⟩
        | cut hopen hsome hlt hend =>
          obtain ⟨hreplied, hin⟩ := hdone hend.2 (.inr ⟨hopen, hsome, hend.1⟩)
          obtain ⟨rfl, rfl⟩ := exec_ipcResult hk₄
          exact .inr ⟨read, hreplied, by rw [readReply, if_neg (Nat.not_lt.2 hlt.le)], hin⟩
        | tooLong hline hlt =>
          obtain ⟨hreplied, hin⟩ := hdone (hnil hline) (.inl hline)
          obtain ⟨-, rfl, rfl⟩ := exec_ret_iff.1 hk₄
          exact .inr ⟨read, hreplied, by rw [readReply, if_pos hlt]; rfl, hin⟩

end

/-! ## Conversations on one connection -/

/-- The action uses no other connection than `conn`, and no slot of the client. -/
def NetAct.Uses (conn : Nat) : NetAct → Prop
  | write c _ | flush c | shutdown c | fillBuf c | consume c _ => c = conn
  | readToken _ | random => True
  | _ => False

/-- The other connections and the slots are as they were. -/
structure NetState.Frame (conn : Nat) (s s' : NetState) : Prop where
  conns : ∀ c, c ≠ conn → s'.conns c = s.conns c
  inner : s'.inner = s.inner
  authFailure : s'.authFailure = s.authFailure
  opened : s'.opened = s.opened

theorem NetState.Frame.trans {conn : Nat} {s s₁ s' : NetState} (h : s.Frame conn s₁)
    (h' : s₁.Frame conn s') : s.Frame conn s' where
  conns c hc := (h'.conns c hc).trans (h.conns c hc)
  inner := h'.inner.trans h.inner
  authFailure := h'.authFailure.trans h.authFailure
  opened := h'.opened.trans h.opened

theorem NetState.frame_modifyConn (s : NetState) (conn : Nat) (f : Conn → Conn) :
    s.Frame conn (s.modifyConn conn f) :=
  ⟨fun c hc => by rw [modifyConn_conns, if_neg hc], rfl, rfl, rfl⟩

theorem frame_of_step {serde : Serde} {daemon : Daemon} {conn : Nat} {s s' : NetState} {a : NetAct}
    {r : a.Ret} (hst : (netMachine serde daemon).Step a s r s') (ha : a.Uses conn) :
    s.Frame conn s' := by
  obtain ⟨-, (w : NetWorld), (hrun : a.run serde daemon w s = (r, s'))⟩ := hst
  have hself : s.Frame conn s := ⟨fun _ _ => rfl, rfl, rfl, rfl⟩
  cases a with
  | write c data =>
    obtain rfl : c = conn := ha
    simp only [NetAct.run] at hrun
    split at hrun <;> cases hrun <;> exact s.frame_modifyConn ..
  | fillBuf c =>
    obtain rfl : c = conn := ha
    have hrun : s.fillBuf daemon w c = (r, s') := hrun
    simp only [NetState.fillBuf] at hrun
    split at hrun
    · cases hrun
      exact hself
    · split at hrun
      · cases hrun
        exact hself
      · split at hrun
        · cases hrun
          exact hself
        · split at hrun <;> cases hrun <;> exact s.frame_modifyConn ..
  | consume c n =>
    obtain rfl : c = conn := ha
    cases hrun
    exact s.frame_modifyConn ..
  | flush | shutdown | readToken | random =>
    cases congrArg Prod.snd hrun
    exact hself
  | _ => exact ha.elim

theorem frame_of_exec {serde : Serde} {daemon : Daemon} {conn : Nat} {s s' : NetState} {α : Type}
    {p : NetProg α} {es : List (Occ NetAct.Ret)} {res : Except Stop α}
    (hx : Exec (netMachine serde daemon) p s es res s') (hp : p.Only (NetAct.Uses conn)) :
    s.Frame conn s' := by
  induction hx with
  | ret => exact ⟨fun _ _ => rfl, rfl, rfl, rfl⟩
  | act hst _ ih => exact (frame_of_step hst hp.1).trans (ih (hp.2 _))

/-- The program only uses the connection `conn`; started with it in step, it reads only the replies
to its own requests, and leaves the connection in step unless it breaks. -/
structure Talks (serde : Serde) (conn : Nat) {α : Type} (p : NetProg α) : Prop where
  only : p.Only (NetAct.Uses conn)
  talk : ∀ (s s' : NetState) (es : List (Occ NetAct.Ret)) (res : Except Stop α),
    Exec (netMachine serde answering) p s es res s' → s.Answered → (s.conns conn).InStep →
    Trace (netMachine serde answering) OwnReply s es s' ∧
      (¬ Breaks res → (s'.conns conn).InStep)

namespace Talks

variable {serde : Serde} {conn : Nat} {α β : Type}

theorem ret (r : Except Stop α) : Talks serde conn (.ret r : NetProg α) where
  only := trivial
  talk s s' es res hx _ hin := by
    obtain ⟨rfl, rfl, rfl⟩ := exec_ret_iff.1 hx
    exact ⟨.nil, fun _ => hin⟩

/-- A round trip reads only the reply to its request. -/
theorem roundTrip (serde : Serde) (fuel conn : Nat) (req : Request) :
    Talks serde conn (roundTrip serde fuel conn req) where
  only := (roundTrip_only ..).mono fun a ha => by
    match a with
    | .write _ (.request _) => exact ha.1
    | .write _ .lineBreak | .flush _ | .fillBuf _ | .consume .. => exact ha
  talk s s' es res hx hans hin := by
    constructor
    · rcases roundTrip_cases hx with ⟨-, -, rfl, rfl⟩ | ⟨-, kind, -, hfails, -⟩ |
        ⟨-, s₃, es₃, hs₃, rfl, htrace, hk⟩
      · exact .nil
      · refine hx.trace_of_mem fun _ e he => ?_
        rcases hfails with rfl | rfl | rfl <;> revert e <;> simp [OwnReply]
      · refine (htrace.mono fun _ e he => ?_).append ?_
        · revert e
          simp [OwnReply, written]
        · replace hs₃ : s₃.conns conn =
              { s.conns conn with sent := (s.conns conn).sent ++ req.line serde } :=
            hs₃ ▸ s.wrote_conns _
          have hpos : (s₃.conns conn).pos ≤ (s₃.conns conn).got.length := by
            rw [hs₃]
            exact hin.consumed.le
          have hw : (s₃.conns conn).Waiting := by
            rw [hs₃]
            refine hin.answered.imp (fun he => ⟨he, hin.unread⟩) fun hcount => ?_
            show ((s.conns conn).got.take (s.conns conn).pos).count newline + 1
              = ((s.conns conn).sent ++ req.line serde).count newline
            rw [List.take_of_length_le hin.consumed.ge, hcount, List.count_append,
              Request.count_line]
          rcases exec_bind_iff.1 hk with ⟨e, -, he⟩ | ⟨line, s₄, es₄, es₅, hread, hk₄, rfl⟩
          · exact readInboundLine_ownReply he hpos hw
          · refine (readInboundLine_ownReply hread hpos hw).append ?_
            cases line with
            | line buf =>
              replace hk₄ : Exec _ (UnidriveMount.ipcResult (parseReply serde buf)) s₄ es₅ res s' := hk₄
              cases hp : parseReply serde buf <;> rw [hp] at hk₄ <;>
                obtain ⟨rfl, -, rfl⟩ := exec_ret_iff.1 hk₄ <;> exact .nil
            | eof | tooLong =>
              obtain ⟨rfl, -, rfl⟩ := exec_ret_iff.1 hk₄
              exact .nil
    · rcases roundTrip_spec hx hans hin with ⟨-, -, -, rfl⟩ | ⟨-, hb | ⟨reply, -, -, hin'⟩⟩
      · exact fun _ => hin
      · exact fun hnb => absurd hb hnb
      · exact fun _ => hin'

theorem bind {p : NetProg α} {f : α → NetProg β} (hp : Talks serde conn p)
    (hf : ∀ x, Talks serde conn (f x)) : Talks serde conn (p >>= f) where
  only := hp.only.bind fun x => (hf x).only
  talk s s' es res hx hans hin := by
    rcases exec_bind_iff.1 hx with ⟨e, rfl, he⟩ | ⟨x, s₁, es₁, es₂, h₁, h₂, rfl⟩
    · obtain ⟨htrace, hin'⟩ := hp.talk s s' es _ he hans hin
      refine ⟨htrace, fun hb => hin' fun hb' => hb ?_⟩
      rcases e with (_ | _) | _ <;> exact hb'
    · obtain ⟨htrace₁, hin₁⟩ := hp.talk s s₁ es₁ _ h₁ hans hin
      obtain ⟨htrace₂, hin₂⟩ := (hf x).talk s₁ s' es₂ res h₂ (answered_of_exec hans h₁) (hin₁ id)
      exact ⟨htrace₁.append htrace₂, hin₂⟩

/-- An action that touches no bytes. -/
theorem idle {a : NetAct} {k : a.Ret → NetProg α} (ha : a.Idle conn)
    (hk : ∀ r, Talks serde conn (k r)) : Talks serde conn (.act a k) where
  only := by
    refine ⟨?_, fun r => (hk r).only⟩
    cases a <;> first | exact ha.elim | exact ha
  talk s s' es res hx hans hin := by
    obtain ⟨r, s₁, es₁, hst, rfl, hrest⟩ := exec_act_iff.1 hx
    obtain rfl : s₁ = s := eq_of_idle hst ha
    obtain ⟨htrace, hin'⟩ := (hk r).talk _ _ _ _ hrest hans hin
    refine ⟨.cons hst ?_ htrace, hin'⟩
    cases a <;> first | exact ha.elim | trivial

theorem of_conversation {fuel : Nat} {P : Request → Prop} {p : NetProg α}
    (hp : Conversation serde fuel conn P p) : Talks serde conn p := by
  induction hp with
  | ok | failed => exact .ret _
  | idle ha _ ih => exact .idle ha ih
  | roundTrip _ _ ih => exact .bind (.roundTrip ..) ih

theorem authenticate (env : NetEnv) (auth : IpcAuth) :
    Talks env.serde conn (authenticate env auth conn) :=
  of_conversation .authenticate

theorem callVerb (serde : Serde) (fuel conn : Nat) (verb : Verb) :
    Talks serde conn (callVerb serde fuel conn verb) :=
  of_conversation (.callVerb verb)

end Talks

/-! ## Connecting -/

/-- The connection in use, if any, is in step. -/
def NetState.Settled (s : NetState) : Prop :=
  ∀ conn, s.inner = some conn → conn < s.opened ∧ (s.conns conn).InStep

theorem settled_new : NetState.new.Settled := fun _ h => by cases h

/-- The slots and the connections that existed are as they were. -/
structure NetState.Extends (s s' : NetState) : Prop where
  conns : ∀ c, c < s.opened → s'.conns c = s.conns c
  inner : s'.inner = s.inner
  opened : s.opened ≤ s'.opened

theorem NetState.Settled.extends {s s' : NetState} (h : s.Settled) (he : s.Extends s') :
    s'.Settled := by
  intro conn hinner
  obtain ⟨hlt, hin⟩ := h conn (he.inner ▸ hinner)
  exact ⟨hlt.trans_le he.opened, he.conns conn hlt ▸ hin⟩

section
variable {cl : Reconnecting} {s s' : NetState} {es : List (Occ NetAct.Ret)}

/-- A step that opens a connection. -/
theorem of_connect {serde : Serde} {daemon : Daemon} {r : Except IoErrorKind Nat}
    (hst : (netMachine serde daemon).Step .connect s r s') :
    s.Extends s' ∧ ∀ conn, r = .ok conn →
      conn = s.opened ∧ s'.opened = s.opened + 1 ∧ s'.conns conn = .new := by
  obtain ⟨-, (w : NetWorld), hrun⟩ := hst
  simp only [netMachine, NetAct.run] at hrun
  split at hrun
  · cases hrun
    refine ⟨⟨fun c hc => Function.update_of_ne hc.ne _ _, rfl, Nat.le_succ _⟩, ?_⟩
    rintro _ ⟨⟩
    exact ⟨rfl, rfl, Function.update_self ..⟩
  · cases hrun
    exact ⟨⟨fun _ _ => rfl, rfl, le_rfl⟩, by rintro _ ⟨⟩⟩

theorem NetState.Frame.extends {conn : Nat} (h : s.Frame conn s') (hconn : s.opened ≤ conn) :
    s.Extends s' :=
  ⟨fun c hc => h.conns c (by omega), h.inner, h.opened.ge⟩

/-- A new connection is in step, and on the way to it only replies to its own requests are read. -/
theorem openConn_spec {res : Except Stop Nat}
    (hx : Exec (netMachine cl.serde answering) (openConn cl) s es res s') (hans : s.Answered) :
    Trace (netMachine cl.serde answering) OwnReply s es s' ∧ s.Extends s' ∧
      ∀ conn, res = .ok conn → conn < s'.opened ∧ (s'.conns conn).InStep := by
  have hsplit : ∃ p : Nat → NetProg Unit, (∀ conn, Talks cl.serde conn (p conn)) ∧
      openConn cl = (do
        let conn ← io (← performNet .connect)
        p conn
        return conn) := by
    unfold openConn
    cases cl.auth with
    | some auth => exact ⟨authenticate cl.toNetEnv auth, fun conn => .authenticate _ auth, rfl⟩
    | none =>
      refine ⟨fun _ => pure (), fun _ => .ret _, congrArg (Prog.act _) (funext fun r => ?_)⟩
      cases r <;> rfl
  obtain ⟨p, hp, heq⟩ := hsplit
  rw [heq] at hx
  obtain ⟨r, s₁, es₁, hst, rfl, hk⟩ := exec_perform_bind_iff.1 hx
  obtain ⟨hext, hnew⟩ := of_connect hst
  cases r with
  | error kind =>
    obtain ⟨rfl, rfl, rfl⟩ := exec_ret_iff.1 hk
    exact ⟨.cons hst trivial .nil, hext, by rintro _ ⟨⟩⟩
  | ok conn =>
    obtain ⟨rfl, hopened, hconn⟩ := hnew conn rfl
    have hin : (s₁.conns s.opened).InStep := hconn ▸ Conn.inStep_new
    have hans₁ := answered_of_step hans hst
    replace hk : Exec _ (p s.opened >>= fun _ => pure s.opened) s₁ es₁ res s' := hk
    obtain ⟨htrace, hin'⟩ := ((hp s.opened).bind fun _ => .ret (.ok s.opened)).talk _ _ _ _ hk hans₁ hin
    have hframe := frame_of_exec hk ((hp s.opened).only.bind fun _ => trivial)
    refine ⟨.cons hst trivial htrace, ⟨fun c hc => ?_, hframe.inner.trans hext.inner, ?_⟩, ?_⟩
    · rw [hframe.conns c hc.ne, hext.conns c hc]
    · rw [hframe.opened]
      exact hext.opened
    · rintro conn rfl
      have hres : conn = s.opened := by
        rcases exec_bind_iff.1 hk with ⟨e, he, -⟩ | ⟨_, _, _, _, -, hret, -⟩
        · cases he
        · obtain ⟨-, hok, -⟩ := exec_ret_iff.1 hret
          cases hok
          rfl
      subst hres
      exact ⟨by rw [hframe.opened]; omega, hin' id⟩

theorem extends_of_notes {serde : Serde} {daemon : Daemon} {a : NetAct} {r : a.Ret}
    (hst : (netMachine serde daemon).Step a s r s') (ha : a.Notes) : s.Extends s' := by
  obtain ⟨-, (w : NetWorld), (hrun : a.run serde daemon w s = (r, s'))⟩ := hst
  cases a <;> first
    | exact ha.elim
    | cases hrun; exact ⟨fun _ _ => rfl, rfl, le_rfl⟩

/-- `ensure_connected` ends with a connection that is in the slot and in step. -/
theorem ensureConnected_spec {res : Except Stop Nat}
    (hx : Exec (netMachine cl.serde answering) (ensureConnected cl) s es res s')
    (hans : s.Answered) (hset : s.Settled) :
    Trace (netMachine cl.serde answering) OwnReply s es s' ∧ s'.Settled ∧
      ∀ conn, res = .ok conn → s'.inner = some conn := by
  let P : NetState → List (Occ NetAct.Ret) → NetState → Prop := fun s es s' =>
    s.Answered → s.Settled → Trace (netMachine cl.serde answering) OwnReply s es s' ∧ s'.Answered ∧
      s'.Settled
  have hP : HoldsOfParts cl answering P := {
    nil := fun hans hset => ⟨.nil, hans, hset⟩
    append := by
      intro s s₁ s' es₁ es₂ h₁ h₂ hans hset
      obtain ⟨htrace₁, hans₁, hset₁⟩ := h₁ hans hset
      obtain ⟨htrace₂, hans₂, hset₂⟩ := h₂ hans₁ hset₁
      exact ⟨htrace₁.append htrace₂, hans₂, hset₂⟩
    notes := by
      intro a r s s' hst ha hans hset
      refine ⟨.cons hst ?_ .nil, answered_of_step hans hst, hset.extends (extends_of_notes hst ha)⟩
      cases a <;> first | exact ha.elim | trivial
    unopened := by
      intro s es e s' hopen hans hset
      obtain ⟨htrace, hext, -⟩ := openConn_spec hopen hans
      exact ⟨htrace, answered_of_exec hans hopen, hset.extends hext⟩
    opened := by
      intro s es conn s' hopen hans hset
      obtain ⟨htrace, -, hnew⟩ := openConn_spec hopen hans
      have hst : (netMachine cl.serde answering).Step (.setInner (some conn)) s' ()
          { s' with inner := some conn } := ⟨rfl, .sends [], rfl⟩
      refine ⟨htrace.append (.cons hst trivial .nil),
        answered_of_step (answered_of_exec hans hopen) hst, ?_⟩
      rintro _ ⟨⟩
      exact hnew conn rfl }
  obtain ⟨htrace, -, hset'⟩ := hP.ensureConnected hx hans hset
  refine ⟨htrace, hset', ?_⟩
  rintro conn rfl
  exact ensureConnected_inner hx

end

/-! ## Calls -/

/-- How a call that led from `s` to `s'` ended: without a connection; with a request refused for its
length; with an I/O error, after which the connection is given up; not yet; or with what the reply to
its own request is read as. -/
inductive CallResult (cl : Reconnecting) (verb : Verb) (s : NetState) (es : List (Occ NetAct.Ret))
    (s' : NetState) : Except Stop verb.Reply → Prop where
  | notConnected {s₁ : NetState} {es₁ es₂ : List (Occ NetAct.Ret)} {e : Stop} (hes : es = es₁ ++ es₂)
      (hx : Exec (netMachine cl.serde answering) (ensureConnected cl) s₁ es₂ (.error e) s') :
      CallResult cl verb s es s' (.error e)
  | refused (hlong : maxRequestBytes < ((Request.verb verb).line cl.serde).length) :
      CallResult cl verb s es s'
        (.error (.failed (requestTooLong (utf8 (cl.serde.render verb.request)).length)))
  | broken (kind : IoErrorKind) (hinner : s'.inner = none) :
      CallResult cl verb s es s' (.error (.failed (.io kind)))
  | running : CallResult cl verb s es s' (.error .running)
  | replied {conn : Nat} {s₁ : NetState} {es₁ es₂ : List (Occ NetAct.Ret)} {reply : List UInt8}
      (hes : es = es₁ ++ es₂) (hbefore : Trace (netMachine cl.serde answering) OwnReply s es₁ s₁)
      (hreply : RepliedTo cl.serde conn (.verb verb) s₁ reply s') :
      CallResult cl verb s es s'
        ((readReply cl.serde reply >>= verb.decode cl.serde).mapError .failed)

/-- A call that led from `s` to `s'` is paired with its reply. -/
structure Paired (cl : Reconnecting) (verb : Verb) (s : NetState) (es : List (Occ NetAct.Ret))
    (res : Except Stop verb.Reply) (s' : NetState) : Prop where
  /-- Before the call nothing is left of an earlier reply. -/
  started : ∀ conn, s.inner = some conn → (s.conns conn).InStep
  /-- What it consumes belongs to the reply to the request it has written last. -/
  reads : Trace (netMachine cl.serde answering) OwnReply s es s'
  /-- Its result comes from that reply. -/
  result : CallResult cl verb s es s' res
  /-- A request that is too long is not written: all that happened is what connecting did. -/
  refusal : maxRequestBytes < ((Request.verb verb).line cl.serde).length →
    es = [] ∨ ∃ r, Exec (netMachine cl.serde answering) (ensureConnected cl) s es r s'
  /-- Nothing is left of the reply for a later call. -/
  settled : res ≠ .error .running → ∀ conn, s'.inner = some conn → (s'.conns conn).InStep

section
variable {cl : Reconnecting} {s s' : NetState} {es : List (Occ NetAct.Ret)} {verb : Verb}

/-- The call of a verb on a connection that is in step. -/
theorem callVerb_spec {serde : Serde} {fuel conn : Nat} {res : Except Stop verb.Reply}
    (hx : Exec (netMachine serde answering) (callVerb serde fuel conn verb) s es res s')
    (hans : s.Answered) (hin : (s.conns conn).InStep) :
    (maxRequestBytes < ((Request.verb verb).line serde).length ∧
        res = .error (.failed (requestTooLong (utf8 (serde.render verb.request)).length)) ∧ es = [] ∧
        s' = s) ∨
      ¬ maxRequestBytes < ((Request.verb verb).line serde).length ∧ (Breaks res ∨
        ∃ reply, RepliedTo serde conn (.verb verb) s reply s' ∧
          res = (readReply serde reply >>= verb.decode serde).mapError .failed ∧
          (s'.conns conn).InStep) := by
  rcases exec_bind_iff.1 hx with ⟨e, rfl, he⟩ | ⟨reply, s₁, es₁, es₂, h₁, h₂, rfl⟩
  · rcases roundTrip_spec he hans hin with ⟨hlong, herr, rfl, rfl⟩ |
      ⟨hshort, hb | ⟨reply, hreply, herr, hin'⟩⟩
    · cases herr
      exact .inl ⟨hlong, rfl, rfl, rfl⟩
    · refine .inr ⟨hshort, .inl ?_⟩
      rcases e with (_ | _) | _ <;> exact hb
    · refine .inr ⟨hshort, .inr ⟨reply, hreply, ?_, hin'⟩⟩
      cases hr : readReply serde reply with
      | ok j => rw [hr] at herr; cases herr
      | error e' => rw [hr] at herr; cases herr; rfl
  · obtain ⟨hres, rfl⟩ := exec_ipcResult h₂
    rcases roundTrip_spec h₁ hans hin with ⟨-, herr, -⟩ | ⟨hshort, hb | ⟨bytes, hreply, hok, hin'⟩⟩
    · cases herr
    · exact hb.elim
    · refine .inr ⟨hshort, .inr ⟨bytes, hreply, ?_, hin'⟩⟩
      cases hr : readReply serde bytes with
      | ok j => rw [hr] at hok; cases hok; exact hres
      | error e => rw [hr] at hok; cases hok

/-- The result of a later part of a call is the call's. -/
theorem CallResult.prepend {s₁ : NetState} {es₁ es₂ : List (Occ NetAct.Ret)}
    {res : Except Stop verb.Reply} (h : CallResult cl verb s₁ es₂ s' res)
    (ht : Trace (netMachine cl.serde answering) OwnReply s es₁ s₁) :
    CallResult cl verb s (es₁ ++ es₂) s' res := by
  cases h with
  | notConnected hes hx => exact .notConnected (by rw [hes, List.append_assoc]) hx
  | refused hlong => exact .refused hlong
  | broken kind hinner => exact .broken kind hinner
  | running => exact .running
  | replied hes hbefore hreply =>
    exact .replied (by rw [hes, List.append_assoc]) (ht.append hbefore) hreply

/-- What is kept by a call, or by a part of it up to its end. -/
structure CallKeeps (cl : Reconnecting) (verb : Verb) (s : NetState) (es : List (Occ NetAct.Ret))
    (res : Except Stop verb.Reply) (s' : NetState) : Prop where
  reads : Trace (netMachine cl.serde answering) OwnReply s es s'
  result : CallResult cl verb s es s' res
  refusal : maxRequestBytes < ((Request.verb verb).line cl.serde).length →
    es = [] ∨ ∃ r, Exec (netMachine cl.serde answering) (ensureConnected cl) s es r s'
  settled : res ≠ .error .running → s'.Settled

/-- A verb called on the connection in use: unless it broke, the call is over, and the connection is
settled. -/
theorem callVerb_keeps {s₁ s₂ : NetState} {es₁ es₂ : List (Occ NetAct.Ret)} {conn : Nat}
    {r : Except Stop verb.Reply} (hans : s.Answered) (hset : s.Settled)
    (hconn : Exec (netMachine cl.serde answering) (ensureConnected cl) s es₁ (.ok conn) s₁)
    (hcall : Exec (netMachine cl.serde answering) (callVerb cl.serde cl.fuel conn verb) s₁ es₂ r s₂) :
    Trace (netMachine cl.serde answering) OwnReply s (es₁ ++ es₂) s₂ ∧ s₂.Answered ∧
      (¬ Breaks r → CallKeeps cl verb s (es₁ ++ es₂) r s₂) ∧
      (Breaks r → ¬ maxRequestBytes < ((Request.verb verb).line cl.serde).length) := by
  obtain ⟨htrace₁, hset₁, hinner⟩ := ensureConnected_spec hconn hans hset
  have hans₁ := answered_of_exec hans hconn
  obtain ⟨-, hin⟩ := hset₁ conn (hinner conn rfl)
  obtain ⟨htrace₂, hin₂⟩ := (Talks.callVerb cl.serde cl.fuel conn verb).talk _ _ _ _ hcall hans₁ hin
  have hframe := frame_of_exec hcall (Talks.callVerb cl.serde cl.fuel conn verb).only
  have htrace := htrace₁.append htrace₂
  have hset₂ : ¬ Breaks r → s₂.Settled := fun hb c hc => by
    rw [hframe.inner, hinner conn rfl] at hc
    cases hc
    exact ⟨hframe.opened ▸ (hset₁ conn (hinner conn rfl)).1, hin₂ hb⟩
  refine ⟨htrace, answered_of_exec hans₁ hcall, fun hb => ?_, fun hb => ?_⟩
  · rcases callVerb_spec hcall hans₁ hin with ⟨hlong, rfl, rfl, rfl⟩ |
      ⟨hshort, hb' | ⟨reply, hreply, rfl, -⟩⟩
    · exact ⟨htrace, .refused hlong, fun _ => .inr ⟨_, by rwa [List.append_nil]⟩,
        fun _ => hset₂ hb⟩
    · exact absurd hb' hb
    · exact ⟨htrace, .replied rfl htrace₁ hreply, fun hlong => absurd hlong hshort,
        fun _ => hset₂ hb⟩
  · rcases callVerb_spec hcall hans₁ hin with ⟨-, rfl, -⟩ | ⟨hshort, -⟩
    · exact hb.elim
    · exact hshort

theorem notConnected_keeps {e : Stop}
    (hx : Exec (netMachine cl.serde answering) (ensureConnected cl) s es (.error e) s')
    (hans : s.Answered) (hset : s.Settled) : CallKeeps cl verb s es (.error e) s' := by
  obtain ⟨htrace, hset', -⟩ := ensureConnected_spec hx hans hset
  exact ⟨htrace, .notConnected (List.nil_append es).symm hx, fun _ => .inr ⟨_, hx⟩, fun _ => hset'⟩

/-- Each round of a call keeps what the call keeps. -/
theorem Rounds.keeps {tries : List Outcome} {res : Except Stop verb.Reply}
    (h : Rounds cl answering verb tries s es res s') (hans : s.Answered) (hset : s.Settled) :
    CallKeeps cl verb s es res s' := by
  induction h with
  | outOfFuel => exact ⟨.nil, .running, fun _ => .inl rfl, fun h => absurd rfl h⟩
  | unconnected h => exact notConnected_keeps h.exec hans hset
  | @called _ _ _ _ _ _ _ res h hcall hother =>
    obtain ⟨htrace, -, hkeeps, hshort⟩ := callVerb_keeps hans hset h.exec hcall
    by_cases hb : Breaks res
    · rcases res with ((_ | _) | _) | _
      all_goals first | exact hb.elim | exact absurd rfl (hother _) | skip
      exact ⟨htrace, .running, fun hlong => absurd hlong (hshort hb), fun h => absurd rfl h⟩
    · exact hkeeps hb
  | dropped _ h hcall =>
    obtain ⟨htrace, -, -, hshort⟩ := callVerb_keeps hans hset h.exec hcall
    rw [← List.append_assoc]
    exact ⟨htrace.append (.cons ⟨rfl, .sends [], rfl⟩ trivial .nil), .broken _ rfl,
      fun hlong => absurd hlong (hshort trivial), fun _ _ h => by cases h⟩
  | @again _ _ _ _ s₂ _ _ _ es₃ _ _ _ _ h hcall _ ih =>
    obtain ⟨htrace, hans₂, -, hshort⟩ := callVerb_keeps hans hset h.exec hcall
    have hdrop : (netMachine cl.serde answering).Step (.setInner none) s₂ () { s₂ with inner := none } :=
      ⟨rfl, .sends [], rfl⟩
    have hk := ih (answered_of_step hans₂ hdrop) fun _ h => by cases h
    have htrace' := htrace.append (.cons hdrop trivial .nil)
    rw [← List.append_assoc, ← List.singleton_append, ← List.append_assoc]
    exact ⟨htrace'.append hk.reads, hk.result.prepend htrace',
      fun hlong => absurd hlong (hshort trivial), hk.settled⟩

theorem call_keeps {res : Except Stop verb.Reply}
    (hx : Exec (netMachine cl.serde answering) (call cl verb) s es res s')
    (hans : s.Answered) (hset : s.Settled) : CallKeeps cl verb s es res s' := by
  obtain ⟨tries, h⟩ := rounds_of_exec hx
  exact h.keeps hans hset

/-- Making a client leaves it settled. -/
theorem connectInner_settled {res : Except Stop Unit}
    (hx : Exec (netMachine cl.serde answering) (connectInner cl) s es res s')
    (hans : s.Answered) (hset : s.Settled) : s'.Settled := by
  rcases exec_bind_iff.1 hx with ⟨e, -, he⟩ | ⟨conn, s₁, es₁, es₂, hopen, hk, rfl⟩
  · exact hset.extends (openConn_spec he hans).2.1
  · obtain ⟨-, hext, hnew⟩ := openConn_spec hopen hans
    obtain ⟨_, s₂, es₃, hst, rfl, hk₂⟩ := exec_perform_bind_iff.1 hk
    obtain ⟨_, s₃, es₄, hst', -, hret⟩ := exec_act_iff.1 hk₂
    obtain ⟨-, -, rfl⟩ := exec_ret_iff.1 hret
    obtain rfl := of_setInner hst
    refine NetState.Settled.extends ?_ (extends_of_notes hst' trivial)
    rintro _ ⟨⟩
    exact hnew conn rfl

/-- Every call before has returned. -/
def Returned (_ : List NetServed) (_ : NetState) (x : NetServed) : Prop := x.res ≠ .error .running

/-- Between calls the client is settled. -/
theorem sequence_settled {l : List NetServed}
    (h : (netService cl answering).Sequence Returned .new l s) : s.Answered ∧ s.Settled := by
  refine h.invariant (I := fun _ s => s.Answered ∧ s.Settled) ⟨answered_new, settled_new⟩
    fun l s x s' hI hx hok => ⟨answered_of_exec hI.1 hx, ?_⟩
  obtain ⟨o, es, res⟩ := x
  cases o with
  | connect =>
    rcases exec_bind_iff.1 hx with ⟨e, -, he⟩ | ⟨_, s₁, es₁, es₂, hconn, hret, -⟩
    · exact connectInner_settled he hI.1 hI.2
    · obtain ⟨-, -, rfl⟩ := exec_ret_iff.1 hret
      exact connectInner_settled hconn hI.1 hI.2
  | call verb =>
    obtain ⟨r, hcall, hr⟩ := exec_map_iff.1 hx
    refine (call_keeps hcall hI.1 hI.2).settled fun hrun => hok ?_
    rw [hrun] at hr
    exact hr

/-- **Requests and replies stay paired**, in every sequence of calls. -/
theorem calls_paired {l : List NetServed} {res : Except Stop verb.Reply}
    (h : (netService cl answering).Sequence Returned .new l s)
    (hx : Exec (netMachine cl.serde answering) (call cl verb) s es res s') :
    Paired cl verb s es res s' := by
  obtain ⟨hans, hset⟩ := sequence_settled h
  have hk := call_keeps hx hans hset
  exact ⟨fun conn hc => (hset conn hc).2, hk.reads, hk.result, hk.refusal,
    fun hres conn hc => (hk.settled hres conn hc).2⟩

end

/-- A call of `mkdir` on a new client that the daemon answers with ok. -/
theorem mkdir_answered :
    ∃ l s es s', (netService .sample answering).Sequence Returned .new l s ∧
      Exec (netMachine Serde.sample answering) (call .sample (.mkdir ['/', 'a'])) s es (.ok ()) s' := by
  have hserve : ((netService .sample answering).serveAll (fun _ _ x => x.res.isOk)
      [(.connect, .sends [])] [] .new).any (fun x =>
        ((netMachine Serde.sample answering).exec (.sends (utf8 okReplyText ++ [newline]))
          (call .sample (.mkdir ['/', 'a'])) x.2).any fun y => y.2.1.isOk) = true := by
    decide +kernel
  obtain ⟨⟨l, s⟩, hs, hcall⟩ := (Option.any_eq_true ..).1 hserve
  obtain ⟨⟨es, res, s'⟩, hx, hok⟩ := (Option.any_eq_true ..).1 hcall
  have hseq : (netService .sample answering).Sequence Returned .new l s :=
    Service.sequence_of_serveAll (fun _ _ x hx hrun => by rw [hrun] at hx; cases hx) .nil hs
  cases res with
  | error e => cases hok
  | ok r => exact ⟨l, s, es, s', hseq, Machine.exec_sound hx⟩

/-- The call is paired with its reply. -/
theorem calls_paired_mkdir :
    ∃ l s es s', (netService .sample answering).Sequence Returned .new l s ∧
      Exec (netMachine Serde.sample answering) (call .sample (.mkdir ['/', 'a'])) s es (.ok ()) s' ∧
      Paired .sample (.mkdir ['/', 'a']) s es (.ok ()) s' := by
  obtain ⟨l, s, es, s', hseq, hx⟩ := mkdir_answered
  exact ⟨l, s, es, s', hseq, hx, calls_paired hseq hx⟩

end UnidriveMount
