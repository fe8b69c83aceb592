import UnidriveMount.Ipc.Reading

/-!
# Conversations

What the client does on one connection is a sequence of round trips, and apart from them nothing that
touches a connection (`Conversation`): the handshake, the subscription, and the call of a verb. What
holds of every round trip therefore holds of each of them.
-/

namespace UnidriveMount

open Lib
open Lib.Prog (only_perform)

/-- The action leaves the client and all bytes as they are. -/
def NetAct.Idle (conn : Nat) : NetAct → Prop
  | readToken _ | random => True
  | shutdown c => c = conn
  | _ => False

theorem eq_of_idle {serde : Serde} {daemon : Daemon} {conn : Nat} {s s' : NetState} {a : NetAct}
    {r : a.Ret} (hst : (netMachine serde daemon).Step a s r s') (ha : a.Idle conn) : s' = s := by
  obtain ⟨-, (w : NetWorld), (hrun : a.run serde daemon w s = (r, s'))⟩ := hst
  cases a <;> first | exact ha.elim | exact (congrArg Prod.snd hrun).symm

/-- The program makes round trips on the connection, with requests that satisfy `P`. -/
inductive Conversation (serde : Serde) (fuel conn : Nat) (P : Request → Prop) {α : Type} :
    NetProg α → Prop where
  | ok (x : α) : Conversation serde fuel conn P (.ret (.ok x))
  | failed (e : IpcError) : Conversation serde fuel conn P (.ret (.error (.failed e)))
  | idle {a : NetAct} {k : a.Ret → NetProg α} (ha : a.Idle conn)
      (hk : ∀ r, Conversation serde fuel conn P (k r)) : Conversation serde fuel conn P (.act a k)
  | roundTrip {req : Request} {f : Json → NetProg α} (hreq : P req)
      (hf : ∀ j, Conversation serde fuel conn P (f j)) :
      Conversation serde fuel conn P (roundTrip serde fuel conn req >>= f)

/-- The request belongs to the start of a connection. -/
def Request.Starts : Request → Prop
  | hello _ | helloProof _ | status => True
  | _ => False

namespace Conversation

section
variable {serde : Serde} {fuel conn : Nat} {P : Request → Prop} {α β : Type}

theorem bind {p : NetProg α} {f : α → NetProg β} (hp : Conversation serde fuel conn P p)
    (hf : ∀ x, Conversation serde fuel conn P (f x)) :
    Conversation serde fuel conn P (p >>= f) := by
  induction hp with
  | ok x => exact hf x
  | failed e => exact .failed e
  | idle ha _ ih => exact .idle ha ih
  | roundTrip hreq _ ih =>
    rw [Prog.bind_assoc]
    exact .roundTrip hreq ih

theorem ipcResult (r : Except IpcError α) : Conversation serde fuel conn P (ipcResult r) := by
  cases r with
  | ok x => exact .ok x
  | error e => exact .failed e

theorem perform {a : NetAct} (ha : a.Idle conn) :
    Conversation serde fuel conn P (performNet a) :=
  .idle ha fun _ => .ok _

/-- Every action belongs to a round trip, or is idle. -/
theorem only {p : NetProg α} {Q : NetAct → Prop} (hp : Conversation serde fuel conn P p)
    (hidle : ∀ a, a.Idle conn → Q a) (hround : ∀ req, P req → ∀ a, a.Exchanges conn req → Q a) :
    p.Only Q := by
  induction hp with
  | ok x => trivial
  | failed e => trivial
  | idle ha _ ih => exact ⟨hidle _ ha, ih⟩
  | roundTrip hreq _ ih => exact ((roundTrip_only ..).mono (hround _ hreq)).bind ih

end

/-! ## The conversations of the client -/

section
variable {env : NetEnv} {auth : IpcAuth} {conn : Nat}

theorem newNonce : Conversation env.serde env.fuel conn Request.Starts (newNonce env) :=
  .bind (.perform trivial) fun r => by
    cases r with
    | ok bytes => exact .ok _
    | error e => exact .failed _

theorem handshake (key : List UInt8) (profile : Str) :
    Conversation env.serde env.fuel conn Request.Starts (handshake env conn key profile) := by
  refine .bind .newNonce fun nonce => .roundTrip trivial fun reply => ?_
  split
  · exact .failed _
  · refine .bind (.ipcResult _) fun snonce => .roundTrip trivial fun reply' => ?_
    split
    · exact .failed _
    · dsimp only
      split
      · exact .bind (.perform rfl) fun _ => .failed _
      · exact .ok ()

theorem tokenOf : Conversation env.serde env.fuel conn Request.Starts (tokenOf env auth) := by
  unfold UnidriveMount.tokenOf
  split
  · refine .bind (.perform trivial) fun text => ?_
    split
    · exact .ok _
    · exact .failed _
  · exact .ok _

theorem authenticate :
    Conversation env.serde env.fuel conn Request.Starts (authenticate env auth conn) := by
  refine .bind .tokenOf fun token => ?_
  cases token with
  | key key => exact .handshake key auth.profile
  | absent =>
    refine .roundTrip trivial fun reply => ?_
    split
    · exact .failed _
    · exact .ok ()

variable {serde : Serde} {fuel : Nat}

theorem callVerb (verb : Verb) :
    Conversation serde fuel conn (· = .verb verb) (callVerb serde fuel conn verb) :=
  .roundTrip rfl fun _ => .ipcResult _

theorem subscribe : Conversation serde fuel conn (· = .subscribe) (subscribe serde fuel conn) :=
  .roundTrip rfl fun _ => .ipcResult _

end

end Conversation

/-! ## Nothing is consumed that has not arrived -/

/-- No more was consumed than has arrived. -/
def Conn.Sound (c : Conn) : Prop := c.pos ≤ c.got.length

section
variable {serde : Serde} {daemon : Daemon} {fuel conn : Nat} {s s' : NetState}
  {es : List (Occ NetAct.Ret)}

theorem receive_sound {res : Except Stop Json}
    (hx : Exec (netMachine serde daemon) (receive serde fuel conn) s es res s')
    (h : (s.conns conn).Sound) : (s'.conns conn).Sound := by
  rcases exec_bind_iff.1 hx with ⟨e, -, he⟩ | ⟨line, s₁, es₁, es₂, hread, hk, rfl⟩
  · obtain ⟨_, hreads, -⟩ := readInboundLine_spec he (by decide) h
    exact hreads.conn.within
  · obtain ⟨_, hreads, -⟩ := readInboundLine_spec hread (by decide) h
    cases line with
    | line buf =>
      obtain ⟨-, rfl⟩ := exec_ipcResult hk
      exact hreads.conn.within
    | eof | tooLong =>
      obtain ⟨-, -, rfl⟩ := exec_ret_iff.1 hk
      exact hreads.conn.within

theorem roundTrip_sound {req : Request} {res : Except Stop Json}
    (hx : Exec (netMachine serde daemon) (roundTrip serde fuel conn req) s es res s')
    (h : (s.conns conn).Sound) : (s'.conns conn).Sound := by
  rcases roundTrip_cases hx with ⟨-, -, -, rfl⟩ | ⟨-, kind, -, -, part, -, rfl⟩ |
    ⟨-, s₁, es₁, rfl, -, -, hk⟩
  · exact h
  · rw [s.wrote_conns]
    exact h
  · exact receive_sound hk (by rw [s.wrote_conns]; exact h)

/-- A conversation consumes no more than has arrived, however it ends. -/
theorem Conversation.sound {P : Request → Prop} {α : Type} {p : NetProg α}
    (hp : Conversation serde fuel conn P p) {res : Except Stop α}
    (hx : Exec (netMachine serde daemon) p s es res s') (h : (s.conns conn).Sound) :
    (s'.conns conn).Sound := by
  induction hp generalizing s es with
  | ok | failed =>
    obtain ⟨-, -, rfl⟩ := exec_ret_iff.1 hx
    exact h
  | idle ha _ ih =>
    obtain ⟨r, s₁, es₁, hst, -, hk⟩ := exec_act_iff.1 hx
    exact ih r hk (eq_of_idle hst ha ▸ h)
  | roundTrip _ _ ih =>
    rcases exec_bind_iff.1 hx with ⟨e, -, he⟩ | ⟨j, s₁, es₁, es₂, h₁, h₂, -⟩
    · exact roundTrip_sound he h
    · exact ih j h₂ (roundTrip_sound h₁ h)

end

end UnidriveMount
