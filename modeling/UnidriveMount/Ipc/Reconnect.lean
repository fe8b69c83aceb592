import UnidriveMount.Lib.Base64
import UnidriveMount.Ipc.Client
import UnidriveMount.Lib.Sequence

/-!
# The reconnecting client

`ReconnectingIpcClient` (`reconnect.rs`): the connection in use, if any, is in the slot `inner`; a
verb connects first when there is none, and drops the connection on an I/O error. The verbs that only
read are retried on a new connection, those that change something are not. A refused handshake is
remembered in the slot `authFailure`, and every later call fails with it.
-/

namespace UnidriveMount

open Lib
open Lib.Prog (fail)

/-- The configuration of a `ReconnectingIpcClient`, its durations in milliseconds. -/
structure Reconnecting extends NetEnv where
  auth : Option IpcAuth
  interval : Nat
  budget : Nat

/-- `DEFAULT_RETRY_INTERVAL`. -/
def defaultRetryInterval : Nat := 5000

/-- `DEFAULT_RETRY_BUDGET`. -/
def defaultRetryBudget : Nat := 60000

variable (cl : Reconnecting)

/-- `open`: a new connection, authenticated if the client is. -/
def openConn : NetProg Nat :=
  match cl.auth with
  | some auth => connectAuth cl.toNetEnv auth
  | none => do io (← performNet .connect)

/-- `connect_inner`: the first connection of a client. -/
def connectInner : NetProg Unit := do
  let conn ← openConn cl
  performNet (.setInner (some conn))
  performNet (.setAuthFailure none)

/-- The loop of `ensure_connected`, which began at `start`. -/
def reconnect (start : Nat) : Nat → NetProg Nat
  | 0 => fail .running
  | n + 1 => (openConn cl).onResult fun
    | .ok conn => do
      performNet (.setInner (some conn))
      return conn
    | .error (.failed e) =>
      if e.isAuthTerminal then
        match e with
        | .serverError msg => do
          performNet (.setAuthFailure (some msg))
          fail (.failed e)
        | e => fail (.failed e)
      else do
        let time ← performNet .now
        if cl.budget ≤ time - start then fail (.failed e)
        else do
          performNet (.sleep cl.interval)
          reconnect start n
    | .error .running => fail .running

/-- `ensure_connected`, with the connection that is in the slot afterwards. -/
def ensureConnected : NetProg Nat := do
  match ← performNet .authFailure with
  | some msg => fail (.failed (.serverError msg))
  | none =>
    match ← performNet .inner with
    | some conn => return conn
    | none =>
      let start ← performNet .now
      reconnect cl start cl.fuel

/-- `retry_io_loop!`. -/
def retryIoLoop (verb : Verb) : Nat → NetProg verb.Reply
  | 0 => fail .running
  | n + 1 => do
    let conn ← ensureConnected cl
    (callVerb cl.serde cl.fuel conn verb).onResult fun
      | .error (.failed (.io _)) => do
        performNet (.setInner none)
        retryIoLoop verb n
      | r => .ret r

/-- `no_retry_on_io!`. -/
def noRetryOnIo (verb : Verb) : NetProg verb.Reply := do
  let conn ← ensureConnected cl
  (callVerb cl.serde cl.fuel conn verb).onResult fun
    | .error (.failed (.io kind)) => do
      performNet (.setInner none)
      fail (.failed (.io kind))
    | r => .ret r

/-- The verbs that change something, and are not retried. -/
def Verb.mutating : Verb → Bool
  | openWrite .. | openWriteBegin .. | mkdir _ | unlink _ | rmdir _ | create .. | rename .. => true
  | _ => false

/-- A call of a verb. -/
def call (verb : Verb) : NetProg verb.Reply :=
  if verb.mutating then noRetryOnIo cl verb else retryIoLoop cl verb cl.fuel

/-! ## The service -/

/-- The calls on a client: making it, and the verbs. -/
inductive NetOp : Type where
  | connect
  | call (verb : Verb)
  deriving DecidableEq, Repr

/-- What a call returns. -/
inductive NetReply : Type where
  | connected
  | reply (verb : Verb) (r : verb.Reply)

/-- The program of a call. -/
def NetOp.prog : NetOp → NetProg NetReply
  | connect => do
    connectInner cl
    return .connected
  | call verb => do return .reply verb (← UnidriveMount.call cl verb)

/-- The client as a service, against a daemon. -/
def netService (daemon : Daemon) : Service NetAct NetAct.Ret NetState Stop NetOp NetReply where
  machine := netMachine cl.serde daemon
  prog := NetOp.prog cl

/-- A call that was served. -/
abbrev NetServed := Served NetAct.Ret Stop NetOp NetReply

/-! ## A sample -/

/-- A client of the concrete runs, without authentication. -/
def Reconnecting.sample : Reconnecting where
  serde := .sample
  crypto := ⟨fun _ => [], fun _ => none, fun _ _ => []⟩
  fuel := 4
  auth := none
  interval := defaultRetryInterval
  budget := defaultRetryBudget

/-- An outside in which everything succeeds and the daemon sends `bytes`. -/
def NetWorld.sends (bytes : List UInt8) : NetWorld where
  connect := .ok ()
  taken := 0
  writeError := none
  chunk := .ok bytes
  delay := 0
  token := none
  random := .ok []
  goesOn := true

/-! ### With a token

The handshake of the vectors in the tests of `ipc_auth.rs`: the profile `p1`, the token and the nonces that
count up from 0. -/

/-- The server's nonce. -/
def vectorSnonce : Str := "EBESExQVFhcYGRobHB0eHw".toList

/-- The client's proof. -/
def vectorClientProof : Str := "2TL-rOrEbuDB9pZ34fpxlSRakSFB9X49f3Kn7_plriA".toList

/-- The server's proof. -/
def vectorServerProof : Str := "qwZ4elXK7shenllL3frkDuObSaAhaSuBDra9Q94EuNo".toList

/-- The cryptography of the vectors: the two codes that they give. -/
def Crypto.vector : Crypto where
  encode := Base64.encode
  decode := Base64.decode
  mac _ message :=
    let nonce := "AAECAwQFBgcICQoLDA0ODw".toList
    let proof := if message = utf8 (clientMessage "p1".toList nonce vectorSnonce) then vectorClientProof
      else vectorServerProof
    (Base64.decode proof).getD []

/-- A reply that says ok, and has what the handshake, the recovery and the opening verbs look for. -/
def vectorReply : Json :=
  .obj [("cache_path".toList, .str "/c".toList), ("mtime_ms".toList, .num (.int 5)), ("ok".toList, .bool true),
    ("proof".toList, .str vectorServerProof), ("snonce".toList, .str vectorSnonce)]

/-- The text of that reply. -/
def vectorReplyText : Str :=
  "\x7b\"cache_path\":\"/c\",\"mtime_ms\":5,\"ok\":true,\"proof\":\"".toList ++ vectorServerProof ++
    "\",\"snonce\":\"".toList ++ vectorSnonce ++ "\"\x7d".toList

/-- The serde of the concrete runs, which knows that reply. -/
def Serde.vector : Serde :=
  { Serde.sample with
    parse := fun bytes =>
      if bytes = utf8 vectorReplyText then .ok vectorReply
      else .error "expected value at line 1 column 1".toList }

/-- The configuration of a client that has the token. -/
def NetEnv.vector (fuel : Nat) : NetEnv := ⟨.vector, .vector, fuel⟩

/-- The client that has the token. -/
def Reconnecting.vector (fuel : Nat) : Reconnecting :=
  ⟨.vector fuel, some ⟨some "/t".toList, "p1".toList⟩, defaultRetryInterval, defaultRetryBudget⟩

/-- An outside in which everything succeeds, with the token and the client's nonce. -/
def NetWorld.vector : NetWorld :=
  { NetWorld.sends (utf8 vectorReplyText ++ [newline]) with
    token := some "AAECAwQFBgcICQoLDA0ODxAREhMUFRYXGBkaGxwdHh8\n".toList
    random := .ok ((List.range 16).map .ofNat) }

end UnidriveMount
