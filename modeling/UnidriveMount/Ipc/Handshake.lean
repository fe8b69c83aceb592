import UnidriveMount.Ipc.AtMostOnce
import UnidriveMount.Ipc.Subscribe

/-!
# Nothing is sent before authentication

Against any daemon, a new connection of a client that authenticates carries the lines of the handshake
first, in their order and no others, and is used for something else only when the handshake succeeded
(`Authentic`): the daemon has proved that it has the key, or, to a client without a token, said that
it speaks the protocol without authentication.
-/

namespace UnidriveMount

open Lib
open Lib.Prog (only_perform)

/-! ## Connections grow -/

/-- From `c` to `c'` bytes were written and read. -/
structure Conn.Grows (c c' : Conn) : Prop where
  sent : c.sent <+: c'.sent
  got : c.got <+: c'.got
  pos : c.pos ≤ c'.pos

theorem Conn.Grows.refl {c : Conn} : c.Grows c := ⟨List.prefix_rfl, List.prefix_rfl, le_rfl⟩

theorem Conn.Grows.trans {c c₁ c' : Conn} (h : c.Grows c₁) (h' : c₁.Grows c') : c.Grows c' :=
  ⟨h.sent.trans h'.sent, h.got.trans h'.got, h.pos.trans h'.pos⟩

/-- What was consumed stays consumed. -/
theorem Conn.Grows.consumed {c c' : Conn} (h : c.Grows c') :
    c.got.take c.pos <+: c'.got.take c'.pos := by
  obtain ⟨more, hmore⟩ := h.got
  rw [← hmore]
  exact (List.take_prefix_take_left h.pos).trans ((List.prefix_append ..).take _)

section
variable {serde : Serde} {daemon : Daemon} {s s' : NetState}

theorem grows_modifyConn {conn c : Nat} {f : Conn → Conn}
    (hf : (s.conns conn).Grows (f (s.conns conn))) :
    (s.conns c).Grows ((s.modifyConn conn f).conns c) := by
  rw [modifyConn_conns]
  split
  · next h => exact h ▸ hf
  · exact .refl

/-- Whatever is done, the connections that exist grow. -/
theorem grows_of_step {a : NetAct} {r : a.Ret} (hst : (netMachine serde daemon).Step a s r s')
    {c : Nat} (hc : c < s.opened) : (s.conns c).Grows (s'.conns c) ∧ s.opened ≤ s'.opened := by
  obtain ⟨-, (w : NetWorld), (hrun : a.run serde daemon w s = (r, s'))⟩ := hst
  cases a with
  | connect =>
    simp only [NetAct.run] at hrun
    split at hrun <;> cases hrun
    · refine ⟨?_, Nat.le_succ _⟩
      simp only [Function.update_of_ne hc.ne]
      exact .refl
    · exact ⟨.refl, le_rfl⟩
  | write conn data =>
    simp only [NetAct.run] at hrun
    split at hrun <;> cases hrun <;>
      exact ⟨grows_modifyConn ⟨List.prefix_append .., List.prefix_rfl, le_rfl⟩, le_rfl⟩
  | fillBuf conn =>
    have hrun : s.fillBuf daemon w conn = (r, s') := hrun
    simp only [NetState.fillBuf] at hrun
    split at hrun
    · cases hrun
      exact ⟨.refl, le_rfl⟩
    · split at hrun
      · cases hrun
        exact ⟨.refl, le_rfl⟩
      · split at hrun
        · cases hrun
          exact ⟨.refl, le_rfl⟩
        · split at hrun <;> cases hrun
          · exact ⟨grows_modifyConn ⟨List.prefix_rfl, List.prefix_append .., le_rfl⟩, le_rfl⟩
          · exact ⟨grows_modifyConn ⟨List.prefix_rfl, List.prefix_rfl, le_rfl⟩, le_rfl⟩
  | consume conn n =>
    cases hrun
    exact ⟨grows_modifyConn ⟨List.prefix_rfl, List.prefix_rfl, Nat.le_add_right ..⟩, le_rfl⟩
  | _ =>
    cases congrArg Prod.snd hrun
    exact ⟨.refl, le_rfl⟩

theorem grows_of_exec {α : Type} {p : NetProg α} {es : List (Occ NetAct.Ret)}
    {res : Except Stop α} (hx : Exec (netMachine serde daemon) p s es res s') {c : Nat}
    (hc : c < s.opened) : (s.conns c).Grows (s'.conns c) := by
  induction hx with
  | ret => exact .refl
  | act hst _ ih =>
    obtain ⟨hgrows, hle⟩ := grows_of_step hst hc
    exact hgrows.trans (ih (hc.trans_le hle))

end

/-! ## Round trips with any daemon -/

/-- A round trip that led from `c` to `c'` on its connection: part of the request was written, all of
it if a reply was read, and the reply is what was consumed next. -/
structure Exchanged (serde : Serde) (req : Request) (c : Conn) (res : Except Stop Json) (c' : Conn) :
    Prop where
  sent : ∃ part, part <+: req.line serde ∧ c'.sent = c.sent ++ part
  replied : ∀ j, res = .ok j → c'.sent = c.sent ++ req.line serde ∧ c'.pos ≤ c'.got.length ∧
    ∃ reply, c'.got.take c'.pos = c.got.take c.pos ++ reply ∧ readReply serde reply = .ok j

section
variable {serde : Serde} {daemon : Daemon} {s s' : NetState} {conn : Nat}
  {es : List (Occ NetAct.Ret)}

theorem sent_of_readsFrom {a : NetAct} {r : a.Ret} (hst : (netMachine serde daemon).Step a s r s')
    (ha : a.ReadsFrom conn) : (s'.conns conn).sent = (s.conns conn).sent := by
  obtain ⟨-, (w : NetWorld), (hrun : a.run serde daemon w s = (r, s'))⟩ := hst
  cases a with
  | fillBuf c =>
    obtain rfl : c = conn := ha
    have hrun : s.fillBuf daemon w c = (r, s') := hrun
    simp only [NetState.fillBuf] at hrun
    split at hrun
    · cases hrun
      rfl
    · split at hrun
      · cases hrun
        rfl
      · split at hrun
        · cases hrun
          rfl
        · split at hrun <;> cases hrun <;> simp
  | consume c n =>
    obtain rfl : c = conn := ha
    cases hrun
    simp
  | _ => exact ha.elim

/-- Reading writes nothing. -/
theorem sent_of_exec {α : Type} {p : NetProg α} {res : Except Stop α}
    (hx : Exec (netMachine serde daemon) p s es res s') (hp : p.Only (NetAct.ReadsFrom conn)) :
    (s'.conns conn).sent = (s.conns conn).sent := by
  induction hx with
  | ret => rfl
  | act hst _ ih => exact (ih (hp.2 _)).trans (sent_of_readsFrom hst hp.1)

/-- What a reply is read from. -/
theorem receive_replied {fuel : Nat} {j : Json}
    (hx : Exec (netMachine serde daemon) (receive serde fuel conn) s es (.ok j) s')
    (hpos : (s.conns conn).pos ≤ (s.conns conn).got.length) :
    ∃ reply, (s.conns conn).Reads reply (s'.conns conn) ∧ readReply serde reply = .ok j := by
  rcases exec_bind_iff.1 hx with ⟨e, he, -⟩ | ⟨line, s₁, es₁, es₂, hread, hk, rfl⟩
  · cases he
  · obtain ⟨read, hreads, ⟨kind, hkind⟩ | hrun | ⟨line', hok, hsays⟩⟩ :=
      readInboundLine_spec hread (by decide) hpos
    · cases hkind
    · cases hrun
    · cases hok
      cases hsays with
      | eof =>
        obtain ⟨-, herr, -⟩ := exec_ret_iff.1 hk
        cases herr
      | tooLong =>
        obtain ⟨-, herr, -⟩ := exec_ret_iff.1 hk
        cases herr
      | line hline hle =>
        obtain ⟨hres, rfl⟩ := exec_ipcResult hk
        refine ⟨read, hreads.conn, ?_⟩
        rw [readReply, if_neg (Nat.not_lt.2 hle)]
        cases hparse : parseReply serde read <;> rw [hparse] at hres <;> cases hres
        rfl
      | cut hopen hsome hlt hend =>
        obtain ⟨hres, rfl⟩ := exec_ipcResult hk
        refine ⟨read, hreads.conn, ?_⟩
        rw [readReply, if_neg (Nat.not_lt.2 hlt.le)]
        cases hparse : parseReply serde read <;> rw [hparse] at hres <;> cases hres
        rfl

/-- **A round trip** with any daemon. -/
theorem roundTrip_exchanged {fuel : Nat} {req : Request} {res : Except Stop Json}
    (hx : Exec (netMachine serde daemon) (roundTrip serde fuel conn req) s es res s')
    (hpos : (s.conns conn).pos ≤ (s.conns conn).got.length) :
    Exchanged serde req (s.conns conn) res (s'.conns conn) := by
  rcases roundTrip_cases hx with ⟨-, rfl, -, rfl⟩ | ⟨-, kind, rfl, -, part, hpart, rfl⟩ |
    ⟨-, s₁, es₁, rfl, -, -, hk⟩
  · exact ⟨⟨[], List.nil_prefix, (List.append_nil _).symm⟩, by rintro _ ⟨⟩⟩
  · rw [s.wrote_conns]
    exact ⟨⟨part, hpart, rfl⟩, by rintro _ ⟨⟩⟩
  · have hsent := sent_of_exec hk (receive_only ..)
    rw [s.wrote_conns] at hsent
    refine ⟨⟨_, List.prefix_rfl, hsent⟩, ?_⟩
    rintro j rfl
    obtain ⟨reply, hreads, hreply⟩ := receive_replied hk (by rw [s.wrote_conns]; exact hpos)
    rw [s.wrote_conns] at hreads
    exact ⟨hsent, hreads.within, reply, hreads.take hpos, hreply⟩

end

/-! ## One connection -/

/-- How far a handshake with the key got on a connection, and whether the connection passed: only with
a proof of the daemon that it has the key, for the nonces of this connection and the client's own
proof. -/
inductive Handshake (env : NetEnv) (key : List UInt8) (profile : Str) (c : Conn) : Bool → Prop where
  | hello (nonce : Str) (hsent : c.sent <+: (Request.hello nonce).line env.serde) :
      Handshake env key profile c false
  | proof (nonce snonce : Str) {r₁ : List UInt8} {j₁ : Json} (hr₁ : r₁ <+: c.got.take c.pos)
      (hj₁ : readReply env.serde r₁ = .ok j₁) (hok₁ : j₁.isOk = true)
      (hsnonce : (j₁.index "snonce").asStr = some snonce)
      (hsent : c.sent <+: (Request.hello nonce).line env.serde ++
        (Request.helloProof (clientProof env.crypto key profile nonce snonce)).line env.serde) :
      Handshake env key profile c false
  | passed (nonce snonce : Str) {r₁ r₂ : List UInt8} {j₁ j₂ : Json}
      (hgot : c.got.take c.pos = r₁ ++ r₂)
      (hj₁ : readReply env.serde r₁ = .ok j₁) (hok₁ : j₁.isOk = true)
      (hsnonce : (j₁.index "snonce").asStr = some snonce)
      (hj₂ : readReply env.serde r₂ = .ok j₂) (hok₂ : j₂.isOk = true)
      (hverify : verifyServerProof env.crypto key profile nonce snonce
        (clientProof env.crypto key profile nonce snonce) ((j₂.index "proof").asStr.getD []) = true)
      (hsent : c.sent = (Request.hello nonce).line env.serde ++
        (Request.helloProof (clientProof env.crypto key profile nonce snonce)).line env.serde) :
      Handshake env key profile c true

/-- A connection without a token: it passes if the daemon's status names a protocol before 2. -/
structure StatusAsked (serde : Serde) (c : Conn) (passed : Bool) : Prop where
  sent : c.sent <+: Request.status.line serde
  version : passed = true → c.sent = Request.status.line serde ∧
    ∃ j, readReply serde (c.got.take c.pos) = .ok j ∧ protocolVersion j < protocol

/-- The token that was read for a connection. -/
def TokenIs (env : NetEnv) (auth : IpcAuth) (es : List (Occ NetAct.Ret))
    (token : Except Str TokenRead) : Prop :=
  match auth.tokenFile with
  | some path => ∃ text, (⟨.readToken path, text⟩ : Occ NetAct.Ret) ∈ es ∧
      token = readToken env.crypto path text
  | none => token = .ok .absent

/-- What the token asks of a new connection. -/
def Authenticated (env : NetEnv) (auth : IpcAuth) (c : Conn) (passed : Bool) :
    Except Str TokenRead → Prop
  | .error _ => c.sent = [] ∧ passed = false
  | .ok (.key key) => Handshake env key auth.profile c passed
  | .ok .absent => StatusAsked env.serde c passed

/-- One `connect_auth` that led from `s` to `s'`: the connection was refused, or it was opened and what
was written on it until the end is what the token asks for. -/
inductive Attempt (env : NetEnv) (auth : IpcAuth) (s s' : NetState) :
    List (Occ NetAct.Ret) → Except Stop Nat → Prop where
  | refused (kind : IoErrorKind) (hconns : s'.conns = s.conns) :
      Attempt env auth s s' [⟨.connect, .error kind⟩] (.error (.failed (.io kind)))
  | opened {es : List (Occ NetAct.Ret)} {res : Except Stop Nat} (token : Except Str TokenRead)
      (hname : ∀ conn, res = .ok conn → conn = s.opened)
      (hother : ∀ c, c ≠ s.opened → s'.conns c = s.conns c) (htoken : TokenIs env auth es token)
      (hauth : Authenticated env auth (s'.conns s.opened) res.isOk token) :
      Attempt env auth s s' (⟨.connect, .ok s.opened⟩ :: es) res

section
variable {env : NetEnv} {auth : IpcAuth} {daemon : Daemon} {s s' : NetState} {conn : Nat}
  {es : List (Occ NetAct.Ret)}

theorem newNonce_eq {serde : Serde} {res : Except Stop Str}
    (hx : Exec (netMachine serde daemon) (newNonce env) s es res s') : s' = s := by
  obtain ⟨r, s₁, es₁, hst, rfl, hk⟩ := exec_perform_bind_iff.1 hx
  obtain rfl := eq_of_idle hst (show NetAct.Idle 0 .random from trivial)
  cases r <;> exact (exec_ret_iff.1 hk).2.2

/-- **The handshake** on a new connection. -/
theorem handshake_spec {key : List UInt8} {profile : Str} {res : Except Stop Unit}
    (hx : Exec (netMachine env.serde daemon) (handshake env conn key profile) s es res s')
    (hnew : s.conns conn = .new) (hconn : conn < s.opened) :
    Handshake env key profile (s'.conns conn) res.isOk := by
  rcases exec_bind_iff.1 hx with ⟨e, rfl, he⟩ | ⟨nonce, s₁, es₁, es₂, hnonce, hk₁, rfl⟩
  · obtain rfl := newNonce_eq he
    exact .hello [] (by rw [hnew]; exact List.nil_prefix)
  obtain rfl := newNonce_eq hnonce
  have hpos : (s₁.conns conn).pos ≤ (s₁.conns conn).got.length := by rw [hnew]; exact le_rfl
  rcases exec_bind_iff.1 hk₁ with ⟨e, rfl, he⟩ | ⟨reply, s₂, es₃, es₄, hhello, hk₂, rfl⟩
  · obtain ⟨part, hpart, hsent⟩ := (roundTrip_exchanged he hpos).sent
    exact .hello nonce (by rw [hsent, hnew]; exact hpart)
  obtain ⟨hsent₂, hpos₂, r₁, hgot₂, hj₁⟩ := (roundTrip_exchanged hhello hpos).replied reply rfl
  rw [hnew] at hsent₂ hgot₂
  replace hsent₂ : (s₂.conns conn).sent = (Request.hello nonce).line env.serde := hsent₂
  replace hgot₂ : (s₂.conns conn).got.take (s₂.conns conn).pos = r₁ := hgot₂
  split at hk₂
  · obtain ⟨-, rfl, rfl⟩ := exec_ret_iff.1 hk₂
    exact .hello nonce (by rw [hsent₂])
  · next hok₁ =>
    have hok₁ : reply.isOk = true := by simpa using hok₁
    rcases exec_bind_iff.1 hk₂ with ⟨e, rfl, he⟩ | ⟨snonce, s₃, es₅, es₆, hfield, hk₃, rfl⟩
    · obtain ⟨-, rfl⟩ := exec_ipcResult he
      exact .hello nonce (by rw [hsent₂])
    obtain ⟨hfield, rfl⟩ := exec_ipcResult hfield
    have hsnonce : (reply.index "snonce").asStr = some snonce := by
      unfold textField at hfield
      split at hfield <;> cases hfield
      assumption
    have hopened₃ : conn < s₃.opened :=
      hconn.trans_le (frame_of_exec hhello (Talks.roundTrip _ env.fuel _ _).only).opened.ge
    rcases exec_bind_iff.1 hk₃ with ⟨e, rfl, he⟩ | ⟨reply', s₄, es₇, es₈, hproof, hk₄, rfl⟩
    · obtain ⟨part, hpart, hsent⟩ := (roundTrip_exchanged he hpos₂).sent
      refine .proof nonce snonce (hgot₂ ▸ (grows_of_exec he hopened₃).consumed) hj₁ hok₁ hsnonce ?_
      rw [hsent, hsent₂]
      exact (List.prefix_append_right_inj _).2 hpart
    obtain ⟨hsent₄, -, r₂, hgot₄, hj₂⟩ := (roundTrip_exchanged hproof hpos₂).replied reply' rfl
    rw [hsent₂] at hsent₄
    rw [hgot₂] at hgot₄
    have hfailed : Handshake env key profile (s₄.conns conn) false :=
      .proof nonce snonce (hgot₄ ▸ List.prefix_append ..) hj₁ hok₁ hsnonce (by rw [hsent₄])
    split at hk₄
    · obtain ⟨-, rfl, rfl⟩ := exec_ret_iff.1 hk₄
      exact hfailed
    · next hok₂ =>
      dsimp only at hk₄
      split at hk₄
      · obtain ⟨_, s₅, es₉, hst, rfl, hret⟩ := exec_perform_bind_iff.1 hk₄
        obtain ⟨-, rfl, rfl⟩ := exec_ret_iff.1 hret
        obtain rfl := eq_of_idle hst rfl
        exact hfailed
      · next hverify =>
        obtain ⟨-, rfl, rfl⟩ := exec_ret_iff.1 hk₄
        exact .passed nonce snonce hgot₄ hj₁ hok₁ hsnonce hj₂ (by simpa using hok₂)
          (by simpa using hverify) hsent₄

theorem tokenOf_spec {serde : Serde} {res : Except Stop TokenRead}
    (hx : Exec (netMachine serde daemon) (tokenOf env auth) s es res s') :
    s' = s ∧ ∃ token, TokenIs env auth es token ∧
      res = token.mapError fun msg => .failed (.serverError msg) := by
  unfold tokenOf at hx
  unfold TokenIs
  cases hpath : auth.tokenFile with
  | some path =>
    rw [hpath] at hx
    obtain ⟨text, s₁, es₁, hst, rfl, hk⟩ := exec_perform_bind_iff.1 hx
    obtain rfl := eq_of_idle hst (show NetAct.Idle 0 (.readToken path) from trivial)
    split at hk <;> next hread =>
      obtain ⟨-, rfl, rfl⟩ := exec_ret_iff.1 hk
      exact ⟨rfl, _, ⟨text, List.mem_cons_self .., hread.symm⟩, rfl⟩
  | none =>
    rw [hpath] at hx
    obtain ⟨-, rfl, rfl⟩ := exec_ret_iff.1 hx
    exact ⟨rfl, _, rfl, rfl⟩

theorem TokenIs.append {token : Except Str TokenRead} (h : TokenIs env auth es token)
    (es' : List (Occ NetAct.Ret)) : TokenIs env auth (es ++ es') token := by
  unfold TokenIs at *
  split at h
  · obtain ⟨text, hmem, htoken⟩ := h
    exact ⟨text, List.mem_append_left _ hmem, htoken⟩
  · exact h

/-- Authentication of a new connection does what the token asks for. -/
theorem authenticate_spec {res : Except Stop Unit}
    (hx : Exec (netMachine env.serde daemon) (authenticate env auth conn) s es res s')
    (hnew : s.conns conn = .new) (hconn : conn < s.opened) :
    ∃ token, TokenIs env auth es token ∧ Authenticated env auth (s'.conns conn) res.isOk token := by
  rcases exec_bind_iff.1 hx with ⟨e, rfl, he⟩ | ⟨token, s₁, es₁, es₂, htoken, hk, rfl⟩
  · obtain ⟨rfl, token, his, hres⟩ := tokenOf_spec he
    refine ⟨token, his, ?_⟩
    cases token with
    | ok t => cases hres
    | error msg => exact ⟨by rw [hnew]; rfl, rfl⟩
  · obtain ⟨rfl, token', his, hres⟩ := tokenOf_spec htoken
    obtain rfl : token' = .ok token := by
      cases token' with
      | ok t => cases hres; rfl
      | error msg => cases hres
    refine ⟨_, his.append es₂, ?_⟩
    cases token with
    | key key => exact handshake_spec hk hnew hconn
    | absent =>
      have hpos : (s₁.conns conn).pos ≤ (s₁.conns conn).got.length := by rw [hnew]; exact le_rfl
      rcases exec_bind_iff.1 hk with ⟨e, rfl, he⟩ | ⟨reply, s₂, es₃, es₄, hstatus, hk₂, rfl⟩
      · obtain ⟨part, hpart, hsent⟩ := (roundTrip_exchanged he hpos).sent
        exact ⟨by rw [hsent, hnew]; exact hpart, by rintro ⟨⟩⟩
      · obtain ⟨hsent, -, r, hgot, hreply⟩ := (roundTrip_exchanged hstatus hpos).replied reply rfl
        rw [hnew] at hsent hgot
        replace hsent : (s₂.conns conn).sent = Request.status.line env.serde := hsent
        replace hgot : (s₂.conns conn).got.take (s₂.conns conn).pos = r := hgot
        split at hk₂
        · obtain ⟨-, rfl, rfl⟩ := exec_ret_iff.1 hk₂
          exact ⟨by rw [hsent], by rintro ⟨⟩⟩
        · next hversion =>
          obtain ⟨-, rfl, rfl⟩ := exec_ret_iff.1 hk₂
          exact ⟨by rw [hsent], fun _ => ⟨hsent, reply, hgot.symm ▸ hreply, not_le.1 hversion⟩⟩

/-- **One `connect_auth`** does what the token asks for on the connection it opens, and nothing
elsewhere. -/
theorem connectAuth_attempt {res : Except Stop Nat}
    (hx : Exec (netMachine env.serde daemon) (connectAuth env auth) s es res s') :
    Attempt env auth s s' es res := by
  obtain ⟨r, s₁, es₁, hst, rfl, hk⟩ := exec_perform_bind_iff.1 hx
  cases r with
  | error kind =>
    obtain ⟨rfl, rfl, rfl⟩ := exec_ret_iff.1 hk
    refine .refused kind ?_
    obtain ⟨-, (w : NetWorld), hrun⟩ := hst
    simp only [netMachine, NetAct.run] at hrun
    split at hrun <;> cases hrun
    rfl
  | ok conn =>
    obtain ⟨hext, hnew⟩ := of_connect hst
    obtain ⟨rfl, hopened, hconn⟩ := hnew conn rfl
    replace hk : Exec _ (authenticate env auth s.opened >>= fun _ => pure s.opened) s₁ es₁ res s' := hk
    have hframe := frame_of_exec hk ((Talks.authenticate env auth).only.bind fun _ => trivial)
    have hother : ∀ c, c ≠ s.opened → s'.conns c = s.conns c := fun c hc => by
      rw [hframe.conns c hc]
      obtain ⟨-, (w : NetWorld), hrun⟩ := hst
      simp only [netMachine, NetAct.run] at hrun
      split at hrun <;> cases hrun
      exact Function.update_of_ne hc _ _
    rcases exec_bind_iff.1 hk with ⟨e, rfl, he⟩ | ⟨_, s₂, es₂, es₃, hauth, hret, rfl⟩
    · obtain ⟨token, his, hsays⟩ := authenticate_spec he hconn (by omega)
      exact .opened token (by rintro _ ⟨⟩) hother his hsays
    · obtain ⟨rfl, rfl, rfl⟩ := exec_ret_iff.1 hret
      obtain ⟨token, his, hsays⟩ := authenticate_spec hauth hconn (by omega)
      exact .opened token (by rintro _ ⟨⟩; rfl) hother (his.append _) hsays

end

/-! ## Runs -/

/-- The connection an action uses. -/
def NetAct.conn? : NetAct → Option Nat
  | write conn _ | flush conn | shutdown conn | fillBuf conn | consume conn _ => some conn
  | _ => none

/-- A run in which each connection is opened by `connect_auth`, and used for something else only after
this has succeeded. `passed` tells for which connections it has; a run starts with some, and ends with
some. -/
inductive Authentic (env : NetEnv) (auth : IpcAuth) (daemon : Daemon) :
    (Nat → Bool) → NetState → List (Occ NetAct.Ret) → (Nat → Bool) → NetState → Prop where
  | nil {passed : Nat → Bool} {s : NetState} : Authentic env auth daemon passed s [] passed s
  | attempt {passed passed' : Nat → Bool} {s s₁ s' : NetState} {es₁ es₂ : List (Occ NetAct.Ret)}
      {res : Except Stop Nat}
      (hx : Exec (netMachine env.serde daemon) (connectAuth env auth) s es₁ res s₁)
      (hattempt : Attempt env auth s s₁ es₁ res) (hfresh : passed s.opened = false)
      (h : Authentic env auth daemon (Function.update passed s.opened res.isOk) s₁ es₂ passed' s') :
      Authentic env auth daemon passed s (es₁ ++ es₂) passed' s'
  | step {passed passed' : Nat → Bool} {s s₁ s' : NetState} {a : NetAct} {r : a.Ret}
      {es : List (Occ NetAct.Ret)} (hst : (netMachine env.serde daemon).Step a s r s₁)
      (hconnect : a ≠ .connect) (hpassed : ∀ conn, a.conn? = some conn → passed conn = true)
      (h : Authentic env auth daemon passed s₁ es passed' s') :
      Authentic env auth daemon passed s (⟨a, r⟩ :: es) passed' s'

/-- The connection in use has passed, and none that is not opened yet. -/
structure NetState.Trusts (passed : Nat → Bool) (s : NetState) : Prop where
  inner : ∀ conn, s.inner = some conn → passed conn = true
  fresh : ∀ conn, s.opened ≤ conn → passed conn = false

section
variable {env : NetEnv} {auth : IpcAuth} {daemon : Daemon} {passed passed₁ passed' : Nat → Bool}
  {s s₁ s' : NetState} {es es₁ es₂ : List (Occ NetAct.Ret)}

theorem Authentic.append (h : Authentic env auth daemon passed s es₁ passed₁ s₁)
    (h' : Authentic env auth daemon passed₁ s₁ es₂ passed' s') :
    Authentic env auth daemon passed s (es₁ ++ es₂) passed' s' := by
  induction h with
  | nil => exact h'
  | attempt hx hattempt hfresh _ ih =>
    rw [List.append_assoc]
    exact .attempt hx hattempt hfresh (ih h')
  | step hst hconnect hpassed _ ih => exact .step hst hconnect hpassed (ih h')

/-- A connection that has passed stays so. -/
theorem Authentic.mono (h : Authentic env auth daemon passed s es passed' s') {conn : Nat}
    (hconn : passed conn = true) : passed' conn = true := by
  induction h with
  | nil => exact hconn
  | attempt _ _ hfresh _ ih =>
    refine ih ?_
    rw [Function.update_of_ne, hconn]
    rintro rfl
    rw [hfresh] at hconn
    cases hconn
  | step _ _ _ _ ih => exact ih hconn

/-- A conversation on a connection that has passed. -/
theorem authentic_of_uses {α : Type} {p : NetProg α} {res : Except Stop α} {conn : Nat}
    (hx : Exec (netMachine env.serde daemon) p s es res s') (hp : p.Only (NetAct.Uses conn))
    (hconn : passed conn = true) : Authentic env auth daemon passed s es passed s' := by
  induction hx with
  | ret => exact .nil
  | @act a k s s₁ s' r es res hst _ ih =>
    refine .step hst ?_ ?_ (ih (hp.2 _))
    · rintro rfl
      exact hp.1
    · intro c hc
      have huses := hp.1
      cases a <;> cases hc <;> (obtain rfl := huses; exact hconn)

theorem trusts_of_frame {conn : Nat} (h : s.Trusts passed) (hf : s.Frame conn s') :
    s'.Trusts passed :=
  ⟨fun c hc => h.inner c (hf.inner ▸ hc), fun c hc => h.fresh c (hf.opened ▸ hc)⟩

/-- `connect_auth` is an attempt, after which a new connection has passed if it succeeded. -/
theorem authentic_of_connectAuth {res : Except Stop Nat}
    (hx : Exec (netMachine env.serde daemon) (connectAuth env auth) s es res s')
    (h : s.Trusts passed) :
    ∃ passed', Authentic env auth daemon passed s es passed' s' ∧ s'.Trusts passed' ∧
      ∀ conn, res = .ok conn → passed' conn = true := by
  have hattempt := connectAuth_attempt hx
  have hfresh := h.fresh s.opened le_rfl
  have hinner : s'.inner = s.inner ∧ s.opened ≤ s'.opened ∧
      ∀ conn, s'.opened ≤ conn → res.isOk = true → conn ≠ s.opened := by
    obtain ⟨r, s₁, es₁, hst, rfl, hk⟩ := exec_perform_bind_iff.1 hx
    obtain ⟨hext, hnew⟩ := of_connect hst
    cases r with
    | error kind =>
      obtain ⟨-, rfl, rfl⟩ := exec_ret_iff.1 hk
      exact ⟨hext.inner, hext.opened, by rintro _ _ ⟨⟩⟩
    | ok conn =>
      obtain ⟨rfl, hopened, -⟩ := hnew conn rfl
      replace hk : Exec _ (authenticate env auth s.opened >>= fun _ => pure s.opened) s₁ es₁ res s' :=
        hk
      have hframe := frame_of_exec hk ((Talks.authenticate env auth).only.bind fun _ => trivial)
      rw [hframe.opened, hopened, hframe.inner]
      exact ⟨hext.inner, Nat.le_succ _, fun c hc _ => by omega⟩
  have hrun := Authentic.attempt hx hattempt hfresh .nil
  rw [List.append_nil] at hrun
  refine ⟨_, hrun, ⟨fun c hc => ?_, fun c hc => ?_⟩, ?_⟩
  · have hc := h.inner c (hinner.1 ▸ hc)
    rw [Function.update_of_ne, hc]
    rintro rfl
    rw [hfresh] at hc
    cases hc
  · rw [Function.update_apply]
    split
    · next heq =>
      by_contra hok
      exact hinner.2.2 c hc (by simpa using hok) heq
    · exact h.fresh c (hinner.2.1.trans hc)
  · rintro conn rfl
    cases hattempt with
    | opened _ hname =>
      rw [hname conn rfl, Function.update_self]
      rfl

/-- An action that uses no connection. -/
theorem authentic_of_step {a : NetAct} {r : a.Ret}
    (hst : (netMachine env.serde daemon).Step a s r s₁) (ha : a.conn? = none) (hc : a ≠ .connect)
    (h : Authentic env auth daemon passed s₁ es passed' s') :
    Authentic env auth daemon passed s (⟨a, r⟩ :: es) passed' s' :=
  .step hst hc (fun conn hconn => by rw [ha] at hconn; cases hconn) h

theorem trusts_of_notes {a : NetAct} {r : a.Ret}
    (hst : (netMachine env.serde daemon).Step a s r s') (ha : a.Notes) (h : s.Trusts passed) :
    s'.Trusts passed := by
  obtain ⟨-, (w : NetWorld), (hrun : a.run env.serde daemon w s = (r, s'))⟩ := hst
  cases a <;> first
    | exact ha.elim
    | cases hrun; exact ⟨h.inner, h.fresh⟩

end

/-! ## The reconnecting client -/

section
variable {cl : Reconnecting} {auth : IpcAuth} {daemon : Daemon} {passed : Nat → Bool}
  {s s' : NetState} {es : List (Occ NetAct.Ret)}

/-- Connections are made by `connect_auth` only. -/
theorem ensureConnected_authentic {res : Except Stop Nat} (hauth : cl.auth = some auth)
    (hx : Exec (netMachine cl.serde daemon) (ensureConnected cl) s es res s')
    (h : s.Trusts passed) :
    ∃ passed', Authentic cl.toNetEnv auth daemon passed s es passed' s' ∧ s'.Trusts passed' ∧
      ∀ conn, res = .ok conn → passed' conn = true := by
  have hopen : openConn cl = connectAuth cl.toNetEnv auth := by simp only [openConn, hauth]
  let P : NetState → List (Occ NetAct.Ret) → NetState → Prop := fun s es s' =>
    ∀ passed, s.Trusts passed →
      ∃ passed', Authentic cl.toNetEnv auth daemon passed s es passed' s' ∧ s'.Trusts passed'
  have hP : HoldsOfParts cl daemon P := {
    nil := fun passed h => ⟨passed, .nil, h⟩
    append := by
      intro s s₁ s' es₁ es₂ h₁ h₂ passed h
      obtain ⟨passed₁, hrun₁, htrust₁⟩ := h₁ passed h
      obtain ⟨passed₂, hrun₂, htrust₂⟩ := h₂ passed₁ htrust₁
      exact ⟨passed₂, hrun₁.append hrun₂, htrust₂⟩
    notes := by
      intro a r s s' hst ha passed h
      refine ⟨passed, authentic_of_step hst ?_ ?_ .nil, trusts_of_notes hst ha h⟩
      · cases a <;> first | exact ha.elim | rfl
      · rintro rfl
        exact ha
    unopened := by
      intro s es e s' hx passed h
      obtain ⟨passed', hrun, htrust, -⟩ := authentic_of_connectAuth (hopen ▸ hx) h
      exact ⟨passed', hrun, htrust⟩
    opened := by
      intro s es conn s' hx passed h
      obtain ⟨passed', hrun, htrust, hok⟩ := authentic_of_connectAuth (hopen ▸ hx) h
      refine ⟨passed', hrun.append (authentic_of_step ⟨rfl, .sends [], rfl⟩ rfl nofun .nil), ?_,
        htrust.fresh⟩
      rintro _ ⟨⟩
      exact hok conn rfl }
  obtain ⟨passed', hrun, htrust⟩ := hP.ensureConnected hx passed h
  refine ⟨passed', hrun, htrust, ?_⟩
  rintro conn rfl
  exact htrust.inner conn (ensureConnected_inner hx)

/-- The call of a verb on the connection that `ensure_connected` has found. -/
theorem callVerb_authentic {verb : Verb} {s₁ s₂ : NetState} {es₁ es₂ : List (Occ NetAct.Ret)}
    {conn : Nat} {r : Except Stop verb.Reply} (hauth : cl.auth = some auth)
    (hconn : Exec (netMachine cl.serde daemon) (ensureConnected cl) s es₁ (.ok conn) s₁)
    (hcall : Exec (netMachine cl.serde daemon) (callVerb cl.serde cl.fuel conn verb) s₁ es₂ r s₂)
    (h : s.Trusts passed) :
    ∃ passed', Authentic cl.toNetEnv auth daemon passed s (es₁ ++ es₂) passed' s₂ ∧
      s₂.Trusts passed' := by
  obtain ⟨passed₁, hrun₁, htrust₁, hok⟩ := ensureConnected_authentic hauth hconn h
  have honly := (Talks.callVerb cl.serde cl.fuel conn verb).only
  exact ⟨passed₁, hrun₁.append (authentic_of_uses hcall honly (hok conn rfl)),
    trusts_of_frame htrust₁ (frame_of_exec hcall honly)⟩

theorem setInner_none_authentic {serde : Serde} {r : Unit}
    (hst : (netMachine serde daemon).Step (.setInner none) s r s') (h : s.Trusts passed) :
    s'.Trusts passed := by
  obtain rfl := of_setInner hst
  exact ⟨by rintro _ ⟨⟩, h.fresh⟩

/-- Each round of a call is authentic. -/
theorem Rounds.authentic {verb : Verb} {tries : List Outcome} {res : Except Stop verb.Reply}
    (hauth : cl.auth = some auth) (hr : Rounds cl daemon verb tries s es res s') (h : s.Trusts passed) :
    ∃ passed', Authentic cl.toNetEnv auth daemon passed s es passed' s' ∧ s'.Trusts passed' := by
  have hdrop : ∀ {s : NetState}, (netMachine cl.serde daemon).Step (.setInner none) s ()
      { s with inner := none } := ⟨rfl, .sends [], rfl⟩
  induction hr generalizing passed with
  | outOfFuel => exact ⟨passed, .nil, h⟩
  | unconnected hconn =>
    obtain ⟨passed', hrun, htrust, -⟩ := ensureConnected_authentic hauth hconn.exec h
    exact ⟨passed', hrun, htrust⟩
  | called hconn hcall _ => exact callVerb_authentic hauth hconn.exec hcall h
  | dropped _ hconn hcall =>
    obtain ⟨passed', hrun, htrust⟩ := callVerb_authentic hauth hconn.exec hcall h
    rw [← List.append_assoc]
    exact ⟨passed', hrun.append (authentic_of_step hdrop rfl nofun .nil),
      setInner_none_authentic hdrop htrust⟩
  | again _ hconn hcall _ ih =>
    obtain ⟨passed₁, hrun, htrust⟩ := callVerb_authentic hauth hconn.exec hcall h
    obtain ⟨passed', hrun', htrust'⟩ := ih (setInner_none_authentic hdrop htrust)
    rw [← List.append_assoc]
    exact ⟨passed', hrun.append (authentic_of_step hdrop rfl nofun hrun'), htrust'⟩

theorem connectInner_authentic {res : Except Stop Unit} (hauth : cl.auth = some auth)
    (hx : Exec (netMachine cl.serde daemon) (connectInner cl) s es res s') (h : s.Trusts passed) :
    ∃ passed', Authentic cl.toNetEnv auth daemon passed s es passed' s' ∧ s'.Trusts passed' := by
  have hopen : openConn cl = connectAuth cl.toNetEnv auth := by simp only [openConn, hauth]
  rw [connectInner, hopen] at hx
  rcases exec_bind_iff.1 hx with ⟨e, rfl, he⟩ | ⟨conn, s₁, es₁, es₂, hconn, hk, rfl⟩
  · obtain ⟨passed', hrun, htrust, -⟩ := authentic_of_connectAuth he h
    exact ⟨passed', hrun, htrust⟩
  · obtain ⟨passed', hrun, htrust, hok⟩ := authentic_of_connectAuth hconn h
    obtain ⟨_, s₂, es₃, hst, rfl, hk₂⟩ := exec_perform_bind_iff.1 hk
    obtain ⟨_, s₃, es₄, hst', rfl, hret⟩ := exec_act_iff.1 hk₂
    obtain ⟨rfl, -, rfl⟩ := exec_ret_iff.1 hret
    refine ⟨passed', hrun.append (authentic_of_step hst rfl nofun
      (authentic_of_step hst' rfl nofun .nil)), trusts_of_notes hst' trivial ?_⟩
    obtain rfl := of_setInner hst
    refine ⟨?_, htrust.fresh⟩
    rintro _ ⟨⟩
    exact hok conn rfl

theorem trusts_new : NetState.new.Trusts fun _ => false :=
  ⟨by rintro _ ⟨⟩, fun _ _ => rfl⟩

/-- Every sequence of calls is authentic. -/
theorem sequence_authentic {ok : List NetServed → NetState → NetServed → Prop} {l : List NetServed}
    (hauth : cl.auth = some auth) (h : (netService cl daemon).Sequence ok .new l s) :
    ∃ passed, Authentic cl.toNetEnv auth daemon (fun _ => false) .new
      (l.reverse.flatMap Served.occs) passed s ∧ s.Trusts passed := by
  refine h.invariant (I := fun l s => ∃ passed, Authentic cl.toNetEnv auth daemon (fun _ => false)
    .new (l.reverse.flatMap Served.occs) passed s ∧ s.Trusts passed) ⟨_, .nil, trusts_new⟩ ?_
  rintro l s ⟨o, es, res⟩ s' ⟨passed, hrun, htrust⟩ hx -
  obtain ⟨passed', hrun', htrust'⟩ :
      ∃ passed', Authentic cl.toNetEnv auth daemon passed s es passed' s' ∧ s'.Trusts passed' := by
    cases o with
    | connect =>
      rcases exec_bind_iff.1 hx with ⟨e, -, he⟩ | ⟨_, s₁, es₁, es₂, hconn, hret, hes⟩
      · exact connectInner_authentic hauth he htrust
      · obtain ⟨rfl, -, rfl⟩ := exec_ret_iff.1 hret
        rw [show es = es₁ from hes.trans (List.append_nil _)]
        exact connectInner_authentic hauth hconn htrust
    | call verb =>
      obtain ⟨r, hcall, -⟩ := exec_map_iff.1 hx
      obtain ⟨tries, hrounds⟩ := rounds_of_exec hcall
      exact hrounds.authentic hauth htrust
  refine ⟨passed', ?_, htrust'⟩
  rw [List.reverse_cons, List.flatMap_append, List.flatMap_singleton]
  exact hrun.append hrun'

end

/-! ## The subscription -/

section
variable {env : NetEnv} {auth : IpcAuth} {daemon : Daemon} {passed : Nat → Bool}
  {s s' : NetState} {es : List (Occ NetAct.Ret)} {us : List (Occ SubAct.Ret)}

/-- How a call that ended with `r` is seen by the subscription. -/
def SeenAs {α : Type} : Except Stop α → Except Stop (Except IpcError α)
  | .ok x => .ok (.ok x)
  | .error (.failed e) => .ok (.error e)
  | .error .running => .error .running

theorem exec_resultOf {α : Type} {p : NetProg α} {M : Machine NetAct NetAct.Ret NetState}
    {res : Except Stop (Except IpcError α)} (hx : Exec M (resultOf p) s es res s') :
    ∃ r, Exec M p s es r s' ∧ res = SeenAs r := by
  obtain ⟨r, s₁, es₁, es₂, h₁, h₂, rfl⟩ := exec_onResult_iff.1 hx
  refine ⟨r, ?_⟩
  match r with
  | .ok x | .error (.failed _) | .error .running =>
    obtain ⟨rfl, rfl, rfl⟩ := exec_ret_iff.1 h₂
    exact ⟨by rwa [List.append_nil], rfl⟩

theorem resultOf_only {α : Type} {P : NetAct → Prop} {p : NetProg α} (hp : p.Only P) :
    (resultOf p).Only P := by
  refine hp.onResult fun r => ?_
  match r with
  | .ok _ | .error (.failed _) | .error .running => trivial

/-- A call of the subscription, on the connection in use, is authentic. -/
theorem impl_authentic {g : Feed} {a : SubAct} {res : Except Stop a.Ret} (hallows : g.Allows a)
    (hx : Exec (netMachine env.serde daemon) (a.impl env auth) s es res s')
    (h : s.Trusts passed) (hg : ∀ conn, g.conn = some conn → passed conn = true) :
    ∃ passed', Authentic env auth daemon passed s es passed' s' ∧ s'.Trusts passed' ∧
      ∀ x, res = .ok x → ∀ conn, (g.next a x).conn = some conn → passed' conn = true := by
  have huses : ∀ {sub : Nat} {p : NetProg a.Ret}, p.Only (NetAct.Uses sub) → g.conn = some sub →
      Exec (netMachine env.serde daemon) p s es res s' →
      (∀ x conn, (g.next a x).conn = some conn → g.conn = some conn) →
      ∃ passed', Authentic env auth daemon passed s es passed' s' ∧ s'.Trusts passed' ∧
        ∀ x, res = .ok x → ∀ conn, (g.next a x).conn = some conn → passed' conn = true :=
    fun honly hconn hx hsame => ⟨passed, authentic_of_uses hx honly (hg _ hconn),
      trusts_of_frame h (frame_of_exec hx honly), fun x _ conn hc => hg conn (hsame x conn hc)⟩
  cases a with
  | connect =>
    obtain ⟨r, hconn, rfl⟩ := exec_resultOf hx
    obtain ⟨passed', hrun, htrust, hok⟩ := authentic_of_connectAuth hconn h
    refine ⟨passed', hrun, htrust, ?_⟩
    match r with
    | .ok conn =>
      rintro _ ⟨⟩ _ ⟨⟩
      exact hok conn rfl
    | .error (.failed e) => rintro _ ⟨⟩ _ ⟨⟩
    | .error .running => rintro _ ⟨⟩
  | subscribe sub =>
    refine huses (resultOf_only ?_) hallows.2.2.2 hx (by rintro (_ | _) _ h <;> first | exact h | cases h)
    exact (Talks.roundTrip env.serde env.fuel sub .subscribe).only.bind
      fun _ => only_ipcResult _
  | readLine sub =>
    refine huses (resultOf_only ?_) hallows.2.2.2 hx (by rintro (_ | _) _ h <;> first | exact h | cases h)
    refine .bind ((readInboundLine_only ..).mono fun a ha => ?_) fun line => ?_
    · cases a <;> first | exact ha | exact ha.elim
    · cases line <;> trivial
  | event ev =>
    obtain ⟨r, s₁, es₁, hst, rfl, hret⟩ := exec_act_iff.1 hx
    obtain ⟨rfl, rfl, rfl⟩ := exec_ret_iff.1 hret
    obtain ⟨-, (w : NetWorld), hrun⟩ := hst
    obtain rfl : s' = s := (congrArg Prod.snd hrun).symm
    exact ⟨passed, authentic_of_step ⟨rfl, w, hrun⟩ rfl nofun .nil, h, fun _ _ => hg⟩
  | sleep ms =>
    obtain ⟨r, s₁, es₁, hst, rfl, hret⟩ := exec_act_iff.1 hx
    obtain ⟨rfl, rfl, rfl⟩ := exec_ret_iff.1 hret
    exact ⟨passed, authentic_of_step hst rfl nofun .nil, trusts_of_notes hst trivial h,
      fun _ _ => hg⟩

theorem realizes_authentic {Q : NetState → Occ SubAct.Ret → NetState → Prop} {g : Feed}
    (hr : Realizes (netMachine env.serde daemon) (SubAct.impl env auth) Q s us es s')
    (hkeeps : feed.Keeps g us) (h : s.Trusts passed)
    (hg : ∀ conn, g.conn = some conn → passed conn = true) :
    ∃ passed', Authentic env auth daemon passed s es passed' s' ∧ s'.Trusts passed' ∧
      ∀ conn, (feed.after g us).conn = some conn → passed' conn = true := by
  induction hr generalizing g passed with
  | nil => exact ⟨passed, .nil, h, hg⟩
  | cons hx _ _ ih =>
    obtain ⟨passed₁, hrun, htrust, hg₁⟩ := impl_authentic hkeeps.1 hx h hg
    obtain ⟨passed', hrun', htrust', hg'⟩ := ih (hkeeps.2 trivial) htrust (hg₁ _ rfl)
    exact ⟨passed', hrun.append hrun', htrust', hg'⟩

/-- **The subscription is authentic**. -/
theorem subscription_authentic {interval fuel : Nat} {res : Except Stop Unit}
    (hx : Exec (netMachine env.serde daemon) (subscription env auth interval fuel) s es res s')
    (h : s.Trusts passed) :
    ∃ passed', Authentic env auth daemon passed s es passed' s' := by
  obtain ⟨us, es₁, es₂, s₁, o, rfl, hreal, hpath, hend⟩ := exec_interp hx
  obtain ⟨hkeeps, hnext⟩ := (runSubscription_feed (g := .new) rfl rfl rfl rfl).path hpath
    fun _ _ _ => trivial
  obtain ⟨passed₁, hrun, htrust, hg⟩ := realizes_authentic hreal hkeeps h (by rintro _ ⟨⟩)
  rcases hend with ⟨-, rfl, rfl⟩ | ⟨a, e, rfl, rfl, hlast⟩
  · exact ⟨passed₁, by rwa [List.append_nil]⟩
  · obtain ⟨passed', hrun', -, -⟩ := impl_authentic hnext hlast htrust hg
    exact ⟨passed', hrun.append hrun'⟩

end

/-! ## The result -/

/-- The runs of the two users of the socket that authenticate: a sequence of calls of the reconnecting
client, and the subscription. -/
inductive AuthenticatedRun (env : NetEnv) (auth : IpcAuth) (interval budget : Nat)
    (daemon : Daemon) : List (Occ NetAct.Ret) → NetState → Prop where
  | calls {l : List NetServed} {s : NetState}
      (h : (netService ⟨env, some auth, interval, budget⟩ daemon).Sequence (fun _ _ _ => True)
        .new l s) :
      AuthenticatedRun env auth interval budget daemon (l.reverse.flatMap Served.occs) s
  | subscription {fuel : Nat} {es : List (Occ NetAct.Ret)} {res : Except Stop Unit} {s : NetState}
      (h : Exec (netMachine env.serde daemon) (subscription env auth interval fuel) .new es res s) :
      AuthenticatedRun env auth interval budget daemon es s

section
variable {env : NetEnv} {auth : IpcAuth} {daemon : Daemon} {passed passed' : Nat → Bool}
  {s s' : NetState} {es : List (Occ NetAct.Ret)}

/-- A request that is not the handshake's is written on a connection that has passed. -/
theorem Authentic.passed_of_request (h : Authentic env auth daemon passed s es passed' s')
    {conn : Nat} {req : Request} {r : Except IoErrorKind Unit}
    (hmem : (⟨.write conn (.request req), r⟩ : Occ NetAct.Ret) ∈ es) (hreq : ¬ req.Starts) :
    passed' conn = true := by
  induction h with
  | nil => cases hmem
  | attempt hx _ _ h ih =>
    rcases List.mem_append.1 hmem with hmem | hmem
    · have honly := hx.only (.bind (only_perform trivial) fun r => .bind (only_io r) fun conn =>
        .bind (authenticate_connects ..) fun _ => trivial) _ hmem
      cases req <;> first | exact honly.elim | exact absurd trivial hreq
    · exact ih hmem
  | step _ _ hpassed h ih =>
    rcases List.mem_cons.1 hmem with heq | hmem
    · cases heq
      exact h.mono (hpassed conn rfl)
    · exact ih hmem

/-- **Nothing is sent before authentication**: every run is authentic, and so a verb, and the
subscription, is only sent on a connection that has passed. -/
theorem runs_authentic {interval budget : Nat}
    (h : AuthenticatedRun env auth interval budget daemon es s) :
    ∃ passed, Authentic env auth daemon (fun _ => false) .new es passed s ∧
      ∀ conn req r, (⟨.write conn (.request req), r⟩ : Occ NetAct.Ret) ∈ es → ¬ req.Starts →
        passed conn = true := by
  obtain ⟨passed, hrun⟩ :
      ∃ passed, Authentic env auth daemon (fun _ => false) .new es passed s := by
    cases h with
    | calls h =>
      obtain ⟨passed, hrun, -⟩ := sequence_authentic rfl h
      exact ⟨passed, hrun⟩
    | subscription h => exact subscription_authentic h trusts_new
  exact ⟨passed, hrun, fun conn req r hmem => hrun.passed_of_request hmem⟩

/-- A client with a token makes its connection and calls `mkdir`: the daemon accepts its proof, and sends its
own. -/
theorem runs_authentic_mkdir :
    ∃ es s passed, AuthenticatedRun (.vector 4) ⟨some "/t".toList, "p1".toList⟩ 1 1 anyDaemon es s ∧
      es.any (writesRequest (.mkdir ['/', 'a'])) = true ∧
      Authentic (.vector 4) ⟨some "/t".toList, "p1".toList⟩ anyDaemon (fun _ => false) .new es passed s := by
  have hserve : ((netService ⟨.vector 4, some ⟨some "/t".toList, "p1".toList⟩, 1, 1⟩ anyDaemon).serveAll
      (fun _ _ x => x.res.isOk) [(.connect, .vector), (.call (.mkdir ['/', 'a']), .vector)] [] .new).any
      (fun x => (x.1.reverse.flatMap Served.occs).any (writesRequest (.mkdir ['/', 'a']))) = true := by
    decide +kernel
  obtain ⟨⟨l, s⟩, hs, hwrites⟩ := (Option.any_eq_true ..).1 hserve
  have hrun := AuthenticatedRun.calls
    (Service.sequence_of_serveAll (fun _ _ _ _ => trivial) .nil hs)
  obtain ⟨passed, hauth, -⟩ := runs_authentic hrun
  exact ⟨_, s, passed, hrun, hwrites, hauth⟩

end

end UnidriveMount
