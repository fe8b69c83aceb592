import UnidriveMount.Ipc.InStep

/-!
# Mutating verbs are sent at most once

A call of a verb that changes something writes its request at most once, whatever happens to the
connections; it succeeds only with the daemon's ok to that request, and it fails when the connection
fails after the write began.
-/

namespace UnidriveMount

open Lib
open Lib.Prog (only_perform)

/-! ## What connecting writes -/

/-- The actions of connecting: whatever is written belongs to a handshake. -/
def NetAct.Connects : NetAct → Prop
  | write _ (.request (.verb _)) | write _ (.request .subscribe) | onEvent _ => False
  | _ => True

theorem NetAct.Exchanges.connects {conn : Nat} {req : Request} {a : NetAct}
    (h : a.Exchanges conn req) (hreq : req.Starts) : a.Connects := by
  match a with
  | .write _ (.request r) =>
    obtain ⟨-, rfl⟩ := h
    cases r <;> trivial
  | .write _ .lineBreak | .flush _ | .fillBuf _ | .consume .. => trivial
  | .connect | .shutdown _ | .inner | .setInner _ | .authFailure | .setAuthFailure _ | .readToken _
  | .random | .now | .sleep _ => trivial
  | .onEvent _ => exact h.elim

theorem authenticate_connects (env : NetEnv) (auth : IpcAuth) (conn : Nat) :
    (authenticate env auth conn).Only NetAct.Connects := by
  refine Conversation.authenticate.only (fun a ha => ?_) fun req hreq a ha => ha.connects hreq
  cases a <;> first | exact ha.elim | trivial

theorem openConn_connects (cl : Reconnecting) : (openConn cl).Only NetAct.Connects := by
  unfold openConn
  split
  · exact .bind (only_perform trivial) fun r => .bind (only_io r) fun conn =>
      .bind (authenticate_connects ..) fun _ => trivial
  · exact .bind (only_perform trivial) fun r => only_io r

theorem reconnect_connects (cl : Reconnecting) (start n : Nat) :
    (reconnect cl start n).Only NetAct.Connects := by
  induction n with
  | zero => trivial
  | succ n ih =>
    refine .onResult (openConn_connects cl) fun r => ?_
    match r with
    | .ok conn => exact .bind (only_perform trivial) fun _ => trivial
    | .error .running => trivial
    | .error (.failed e) =>
      dsimp only
      split
      · split
        · exact .bind (only_perform trivial) fun _ => trivial
        · trivial
      · refine .bind (only_perform trivial) fun time => ?_
        split
        · trivial
        · exact .bind (only_perform trivial) fun _ => ih

theorem ensureConnected_connects (cl : Reconnecting) :
    (ensureConnected cl).Only NetAct.Connects := by
  refine .bind (only_perform trivial) fun failure => ?_
  cases failure with
  | some msg => trivial
  | none =>
    refine .bind (only_perform trivial) fun conn => ?_
    cases conn with
    | some conn => trivial
    | none => exact .bind (only_perform trivial) fun start => reconnect_connects cl start cl.fuel

/-! ## Failures end a call -/

/-- An operation on the connection failed. -/
def failsOn (conn : Nat) : Occ NetAct.Ret → Bool
  | ⟨.write c _, .error _⟩ | ⟨.flush c, .error _⟩ | ⟨.fillBuf c, .error _⟩ => c = conn
  | _ => false

/-- Nothing is done after an operation failed. The ghost value tells whether one did. -/
def failFast (conn : Nat) : Contract NetAct NetAct.Ret Bool where
  pre g _ := g = false
  allow _ _ _ := True
  next g a r := g || failsOn conn ⟨a, r⟩

/-- A program that ends with the I/O error of the first operation that fails. -/
def FailFast (conn : Nat) {α : Type} (p : NetProg α) : Prop :=
  (failFast conn).Obeys (fun res g => g = true → ∃ kind, res = .error (.failed (.io kind))) p false

theorem failFast_after (conn : Nat) (g : Bool) (es : List (Occ NetAct.Ret)) :
    (failFast conn).after g es = (g || es.any (failsOn conn)) := by
  induction es generalizing g with
  | nil => simp [Contract.after]
  | cons e es ih =>
    rw [Contract.after, ih, List.any_cons, ← Bool.or_assoc]
    rfl

namespace FailFast

variable {conn : Nat} {α β : Type}

theorem ret (r : Except Stop α) : FailFast conn (.ret r : NetProg α) := by
  intro h
  cases h

theorem bind {p : NetProg α} {f : α → NetProg β} (hp : FailFast conn p)
    (hf : ∀ x, FailFast conn (f x)) : FailFast conn (p >>= f) := by
  refine Contract.obeys_bind.2 (Contract.Obeys.mono hp fun r g h => ?_)
  cases r with
  | ok x =>
    cases g with
    | false => exact hf x
    | true =>
      obtain ⟨kind, hkind⟩ := h rfl
      cases hkind
  | error e =>
    intro hg
    obtain ⟨kind, hkind⟩ := h hg
    cases hkind
    exact ⟨kind, rfl⟩

/-- An action that cannot fail. -/
theorem perform {a : NetAct} (ha : ∀ r, failsOn conn ⟨a, r⟩ = false) :
    FailFast conn (performNet a) := by
  refine ⟨rfl, fun r _ h => ?_⟩
  simp only [failFast, ha r] at h
  cases h

theorem io_write {data : Payload} {c : Nat} {f : Unit → NetProg α} (hf : ∀ x, FailFast conn (f x)) :
    FailFast conn (performNet (.write c data) >>= fun r => io r >>= f) := by
  refine ⟨rfl, fun r _ => ?_⟩
  cases r with
  | ok x => exact hf x
  | error kind => exact fun _ => ⟨kind, rfl⟩

theorem io_flush {c : Nat} {f : Unit → NetProg α} (hf : ∀ x, FailFast conn (f x)) :
    FailFast conn (performNet (.flush c) >>= fun r => io r >>= f) := by
  refine ⟨rfl, fun r _ => ?_⟩
  cases r with
  | ok x => exact hf x
  | error kind => exact fun _ => ⟨kind, rfl⟩

theorem io_fillBuf {c : Nat} {f : List UInt8 → NetProg α} (hf : ∀ x, FailFast conn (f x)) :
    FailFast conn (performNet (.fillBuf c) >>= fun r => io r >>= f) := by
  refine ⟨rfl, fun r _ => ?_⟩
  cases r with
  | ok x => exact hf x
  | error kind => exact fun _ => ⟨kind, rfl⟩

theorem readUntil (c n limit : Nat) (buf : List UInt8) :
    FailFast conn (readUntil c n limit buf) := by
  induction n generalizing limit buf with
  | zero => exact .ret _
  | succ n ih =>
    rw [UnidriveMount.readUntil]
    split
    · exact .ret _
    · refine .io_fillBuf fun chunk => ?_
      dsimp only
      generalize lineBytes (chunk.take limit) = x
      refine .bind (.perform fun _ => rfl) fun _ => ?_
      split
      · exact .ret _
      · exact ih ..

theorem discardLine (c fuel : Nat) : FailFast conn (discardLine c fuel) := by
  induction fuel with
  | zero => exact .ret _
  | succ fuel ih =>
    refine .io_fillBuf fun chunk => ?_
    split
    · exact .ret _
    · refine .bind (.perform fun _ => rfl) fun _ => ?_
      split
      · exact .ret _
      · exact ih

theorem ipcResult (r : Except IpcError α) : FailFast conn (ipcResult r) := by
  cases r <;> exact .ret _

theorem roundTrip (serde : Serde) (fuel c : Nat) (req : Request) :
    FailFast conn (roundTrip serde fuel c req) := by
  have hline : FailFast conn (readInboundLine fuel c maxInboundLineBytes) := by
    refine .bind (.readUntil ..) fun buf => ?_
    split
    · exact .ret _
    · split
      · exact .ret _
      · exact .discardLine ..
  unfold UnidriveMount.roundTrip
  dsimp only
  split
  · exact .ret _
  · refine .io_write fun _ => .io_write fun _ => .io_flush fun _ => .bind hline fun line => ?_
    cases line with
    | line buf => exact .ipcResult _
    | eof | tooLong => exact .ret _

end FailFast

/-! ## Calls -/

/-- The occurrence writes the request of the verb. -/
def writesRequest (verb : Verb) : Occ NetAct.Ret → Bool
  | ⟨.write _ (.request (.verb v)), _⟩ => v = verb
  | _ => false

/-- A call of a verb that led from `s` to `s'` is made at most once. -/
structure AtMostOnce (cl : Reconnecting) (verb : Verb) (s : NetState) (es : List (Occ NetAct.Ret))
    (res : Except Stop verb.Reply) (s' : NetState) : Prop where
  /-- Its request is written at most once, on whichever connection. -/
  once : es.countP (writesRequest verb) ≤ 1
  /-- It succeeds only if the daemon answered this request with ok. -/
  answered : ∀ r, res = .ok r → ∃ conn es₁ es₂ s₁ reply j, es = es₁ ++ es₂ ∧
    Trace (netMachine cl.serde answering) OwnReply s es₁ s₁ ∧
    RepliedTo cl.serde conn (.verb verb) s₁ reply s' ∧ readReply cl.serde reply = .ok j ∧
    j.isOk = true
  /-- When an operation on the connection fails from the write on, the call fails. -/
  failed : ∀ conn es₁ r es₂, es = es₁ ++ ⟨.write conn (.request (.verb verb)), r⟩ :: es₂ →
    (⟨.write conn (.request (.verb verb)), r⟩ :: es₂ : List (Occ NetAct.Ret)).any (failsOn conn) →
    ∃ kind, res = .error (.failed (.io kind))

section
variable {cl : Reconnecting} {s s' : NetState} {es : List (Occ NetAct.Ret)} {verb : Verb}

theorem not_writesRequest_of_connects {a : NetAct} (h : a.Connects) (r : a.Ret) :
    writesRequest verb ⟨a, r⟩ = false := by
  match a with
  | .write _ (.request (.verb _)) => exact h.elim
  | .write _ (.request (.hello _)) | .write _ (.request (.helloProof _)) | .write _ (.request .status)
  | .write _ (.request .subscribe) | .write _ .lineBreak => rfl
  | .connect | .flush _ | .shutdown _ | .fillBuf _ | .consume .. | .inner | .setInner _
  | .authFailure | .setAuthFailure _ | .readToken _ | .random | .now | .sleep _ | .onEvent _ => rfl

theorem not_writesRequest_of_readsFrom {conn : Nat} {a : NetAct} (h : a.ReadsFrom conn) (r : a.Ret) :
    writesRequest verb ⟨a, r⟩ = false := by
  cases a <;> first | exact h.elim | rfl

/-- A round trip writes its request at most once. -/
theorem countP_roundTrip_le {serde : Serde} {daemon : Daemon} {fuel conn : Nat}
    {res : Except Stop Json}
    (hx : Exec (netMachine serde daemon) (roundTrip serde fuel conn (.verb verb)) s es res s') :
    es.countP (writesRequest verb) ≤ 1 := by
  rcases roundTrip_cases hx with ⟨-, -, rfl, -⟩ | ⟨-, kind, -, hfails, -⟩ |
    ⟨-, s₁, es₁, -, rfl, -, hreceive⟩
  · exact Nat.zero_le _
  · rcases hfails with rfl | rfl | rfl <;> simp [writesRequest]
  · have hreads : es₁.countP (writesRequest verb) = 0 := List.countP_eq_zero.2 fun e he => by
      simp [not_writesRequest_of_readsFrom (hreceive.only (receive_only ..) e he)]
    rw [List.countP_append, hreads]
    simp [written, writesRequest]

/-- A call that is not retried: connecting, the round trip, and giving up the connection. -/
theorem noRetryOnIo_cases {daemon : Daemon} {res : Except Stop verb.Reply}
    (hx : Exec (netMachine cl.serde daemon) (noRetryOnIo cl verb) s es res s') :
    (∃ e, res = .error e ∧ Exec (netMachine cl.serde daemon) (ensureConnected cl) s es (.error e) s') ∨
      ∃ conn s₁ s₂ es₁ es₂ es₃, es = es₁ ++ (es₂ ++ es₃) ∧
        Exec (netMachine cl.serde daemon) (ensureConnected cl) s es₁ (.ok conn) s₁ ∧
        Exec (netMachine cl.serde daemon) (callVerb cl.serde cl.fuel conn verb) s₁ es₂ res s₂ ∧
        (es₃ = [] ∨ es₃ = [⟨.setInner none, ()⟩]) := by
  rcases exec_bind_iff.1 hx with ⟨e, rfl, he⟩ | ⟨conn, s₁, es₁, es₂, hconn, hk, rfl⟩
  · exact .inl ⟨e, rfl, he⟩
  · obtain ⟨r, s₂, es₃, es₄, hcall, hend, rfl⟩ := exec_onResult_iff.1 hk
    split at hend
    · obtain ⟨_, s₃, es₅, hst, rfl, hret⟩ := exec_perform_bind_iff.1 hend
      obtain ⟨rfl, rfl, -⟩ := exec_ret_iff.1 hret
      exact .inr ⟨conn, s₁, s₂, es₁, es₃, _, rfl, hconn, hcall, .inr rfl⟩
    · obtain ⟨rfl, rfl, -⟩ := exec_ret_iff.1 hend
      exact .inr ⟨conn, s₁, s₂, es₁, es₃, _, rfl, hconn, hcall, .inl rfl⟩

/-- The occurrences of a verb's call are those of its round trip. -/
theorem callVerb_occs {serde : Serde} {daemon : Daemon} {fuel conn : Nat}
    {res : Except Stop verb.Reply}
    (hx : Exec (netMachine serde daemon) (callVerb serde fuel conn verb) s es res s') :
    ∃ r s₁, Exec (netMachine serde daemon) (roundTrip serde fuel conn (.verb verb)) s es r s₁ := by
  rcases exec_bind_iff.1 hx with ⟨e, -, he⟩ | ⟨reply, s₁, es₁, es₂, h₁, h₂, rfl⟩
  · exact ⟨_, _, he⟩
  · obtain rfl := occs_ipcResult h₂
    exact ⟨_, _, by rwa [List.append_nil]⟩

/-- A call on a connection fails when an operation on it does. -/
theorem callVerb_fails {serde : Serde} {daemon : Daemon} {fuel conn : Nat}
    {res : Except Stop verb.Reply}
    (hx : Exec (netMachine serde daemon) (callVerb serde fuel conn verb) s es res s')
    (hfail : es.any (failsOn conn) = true) : ∃ kind, res = .error (.failed (.io kind)) := by
  have hff : FailFast conn (callVerb serde fuel conn verb) :=
    .bind (.roundTrip ..) fun _ => .ipcResult _
  refine (Contract.Obeys.exec hff hx fun _ _ _ => trivial).2 ?_
  rw [failFast_after, hfail]
  rfl

/-- What is written at most once is found in the round trip. -/
theorem call_atMostOnce {res : Except Stop verb.Reply} (hverb : verb.mutating = true)
    (hx : Exec (netMachine cl.serde answering) (call cl verb) s es res s')
    (hans : s.Answered) (hset : s.Settled) : AtMostOnce cl verb s es res s' where
  once := by
    rw [call_mutating hverb] at hx
    rcases noRetryOnIo_cases hx with ⟨e, -, he⟩ |
      ⟨conn, s₁, s₂, es₁, es₂, es₃, rfl, hconn, hcall, hend⟩
    · rw [List.countP_eq_zero.2 fun e he' => by
        simp [not_writesRequest_of_connects (he.only (ensureConnected_connects cl) e he')]]
      exact Nat.zero_le _
    · obtain ⟨r, s₃, hround⟩ := callVerb_occs hcall
      have hzero : es₁.countP (writesRequest verb) = 0 := List.countP_eq_zero.2 fun e he => by
        simp [not_writesRequest_of_connects (hconn.only (ensureConnected_connects cl) e he)]
      have hzero' : es₃.countP (writesRequest verb) = 0 := by
        rcases hend with rfl | rfl <;> simp [writesRequest]
      rw [List.countP_append, List.countP_append, hzero, hzero']
      have := countP_roundTrip_le hround
      omega
  answered r hr := by
    have hresult := (call_keeps hx hans hset).result
    subst hr
    generalize hres : (Except.ok r : Except Stop verb.Reply) = res at hresult
    cases hresult with
    | notConnected | refused | broken | running => cases hres
    | @replied conn s₁ es₁ es₂ reply hes hbefore hreply =>
      cases hj : readReply cl.serde reply with
      | error e => rw [hj] at hres; cases hres
      | ok j =>
        refine ⟨conn, es₁, es₂, s₁, reply, j, hes, hbefore, hreply, hj, ?_⟩
        rw [hj] at hres
        cases hd : verb.decode cl.serde j with
        | error e =>
          replace hres : Except.ok r = (verb.decode cl.serde j).mapError Stop.failed := hres
          rw [hd] at hres
          cases hres
        | ok r' => exact Verb.isOk_of_decode hd
  failed conn as r bs hes hfail := by
    rw [call_mutating hverb] at hx
    rcases noRetryOnIo_cases hx with ⟨e, -, he⟩ |
      ⟨conn', s₁, s₂, es₁, es₂, es₃, hsplit, hconn, hcall, hend⟩
    · exact (he.only (ensureConnected_connects cl) ⟨_, r⟩ (by rw [hes]; simp)).elim
    · obtain ⟨cs, hcs⟩ : ∃ cs, es₂ ++ es₃ = cs ++ ⟨.write conn (.request (.verb verb)), r⟩ :: bs := by
        rcases List.append_eq_append_iff.1 (hsplit.symm.trans hes) with
          ⟨cs, -, hcs⟩ | ⟨_ | ⟨e, cs⟩, hes₁, hcs⟩
        · exact ⟨cs, hcs⟩
        · exact ⟨[], hcs.symm⟩
        · obtain ⟨rfl, -⟩ := List.cons.inj hcs
          exact (hconn.only (ensureConnected_connects cl) ⟨_, r⟩ (by rw [hes₁]; simp)).elim
      obtain ⟨_, _, hround⟩ := callVerb_occs hcall
      have hmem : (⟨.write conn (.request (.verb verb)), r⟩ : Occ NetAct.Ret) ∈ es₂ := by
        have : (⟨.write conn (.request (.verb verb)), r⟩ : Occ NetAct.Ret) ∈ es₂ ++ es₃ := by
          rw [hcs]
          simp
        rcases List.mem_append.1 this with hmem | hmem
        · exact hmem
        · rcases hend with rfl | rfl <;> simp at hmem
      obtain ⟨rfl, -⟩ : conn = conn' ∧ _ :=
        hround.only (roundTrip_only cl.serde cl.fuel conn' (.verb verb)) ⟨_, r⟩ hmem
      refine callVerb_fails hcall ?_
      have hany : (es₂ ++ es₃).any (failsOn conn) = true := by
        rw [hcs, List.any_append, hfail, Bool.or_true]
      have hnone : es₃.any (failsOn conn) = false := by
        rcases hend with rfl | rfl <;> rfl
      rwa [List.any_append, hnone, Bool.or_false] at hany

/-- **Mutating verbs are sent at most once**, in every sequence of calls. -/
theorem calls_atMostOnce {l : List NetServed} {res : Except Stop verb.Reply}
    (h : (netService cl answering).Sequence Returned .new l s) (hverb : verb.mutating = true)
    (hx : Exec (netMachine cl.serde answering) (call cl verb) s es res s') :
    AtMostOnce cl verb s es res s' := by
  obtain ⟨hans, hset⟩ := sequence_settled h
  exact call_atMostOnce hverb hx hans hset

/-- The call of `mkdir` on a new client that the daemon answers with ok. -/
theorem calls_atMostOnce_mkdir :
    ∃ l s es s', (netService .sample answering).Sequence Returned .new l s ∧
      Exec (netMachine Serde.sample answering) (call .sample (.mkdir ['/', 'a'])) s es (.ok ()) s' ∧
      AtMostOnce .sample (.mkdir ['/', 'a']) s es (.ok ()) s' := by
  obtain ⟨l, s, es, s', hseq, hx⟩ := mkdir_answered
  exact ⟨l, s, es, s', hseq, hx, calls_atMostOnce hseq rfl hx⟩

end

end UnidriveMount
