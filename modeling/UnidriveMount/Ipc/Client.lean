import UnidriveMount.Ipc.Wire
import UnidriveMount.Lib.Program
import Mathlib.Logic.Function.Basic

/-!
# The client of the daemon's socket

`IpcClient` (`ipc.rs`) and the handshake of `ipc_auth.rs`, as programs over what the client asks of
the operating system: connections, the bytes written to them and read from them, the token file,
randomness and the clock. A connection is named by the number under which it was opened.

What the daemon sends is a `Daemon`: which bytes it may add to what it has sent on a connection. A
loop of the source without a bound gets one here, its fuel; a program that runs out of it ends as
`running`.
-/

namespace UnidriveMount

open Lib
open Lib.Prog (fail)

/-! ## Actions -/

/-- What is written to a connection: a request, or the line break after it. -/
inductive Payload : Type where
  | request (req : Request)
  | lineBreak
  deriving DecidableEq, Repr

/-- What the subscription hands to its consumer (`SubscriptionEvent`). -/
inductive SubscriptionEvent : Type where
  | line (text : Str)
  | gap
  deriving DecidableEq, Repr

/-- The actions of the client. -/
inductive NetAct : Type where
  | connect
  | write (conn : Nat) (data : Payload)
  | flush (conn : Nat)
  | shutdown (conn : Nat)
  | fillBuf (conn : Nat)
  | consume (conn n : Nat)
  -- the slots of `ReconnectingIpcClient`
  | inner
  | setInner (conn : Option Nat)
  | authFailure
  | setAuthFailure (msg : Option Str)
  -- the system
  | readToken (path : Str)
  | random
  | now
  | sleep (ms : Nat)
  -- the consumer of the subscription
  | onEvent (ev : SubscriptionEvent)
  deriving DecidableEq, Repr

/-- What an action answers. -/
abbrev NetAct.Ret : NetAct → Type
  | connect => Except IoErrorKind Nat
  | write .. | flush _ => Except IoErrorKind Unit
  | shutdown _ => Unit
  | fillBuf _ => Except IoErrorKind (List UInt8)
  | consume .. => Unit
  | inner => Option Nat
  | setInner _ => Unit
  | authFailure => Option Str
  | setAuthFailure _ => Unit
  | readToken _ => Option Str
  | random => Except Str (List UInt8)
  | now => Nat
  | sleep _ => Unit
  | onEvent _ => Bool

/-! ## State -/

/-- A connection: the bytes written to it, the bytes that have arrived, how many of these were
consumed, and whether the end of the stream was seen. -/
structure Conn : Type where
  sent : List UInt8
  got : List UInt8
  pos : Nat
  eof : Bool

/-- A connection just opened. -/
def Conn.new : Conn := ⟨[], [], 0, false⟩

/-- The state of the client's process: its connections, of which the first `opened` exist, the slots
of `ReconnectingIpcClient`, and the clock in milliseconds. -/
structure NetState : Type where
  conns : Nat → Conn
  opened : Nat
  inner : Option Nat
  authFailure : Option Str
  clock : Nat

/-- No connection was made. -/
def NetState.new : NetState := ⟨fun _ => .new, 0, none, none, 0⟩

/-- Change a connection. -/
def NetState.modifyConn (s : NetState) (conn : Nat) (f : Conn → Conn) : NetState :=
  { s with conns := Function.update s.conns conn (f (s.conns conn)) }

/-- What the outside contributes to an action. -/
structure NetWorld : Type where
  connect : Except IoErrorKind Unit
  taken : Nat
  writeError : Option IoErrorKind
  chunk : Except IoErrorKind (List UInt8)
  delay : Nat
  token : Option Str
  random : Except Str (List UInt8)
  goesOn : Bool

/-- A daemon: whether it sends these bytes next on the connection. -/
abbrev Daemon := Conn → List UInt8 → Bool

/-- A daemon that sends what it likes. -/
def anyDaemon : Daemon := fun _ _ => true

/-- The bytes of a payload. -/
def Payload.bytes (serde : Serde) : Payload → List UInt8
  | request req => utf8 (serde.render req.json)
  | lineBreak => [newline]

/-- `fill_buf`: what has arrived and was not consumed, or the next bytes of the stream. -/
def NetState.fillBuf (s : NetState) (daemon : Daemon) (w : NetWorld) (conn : Nat) :
    Except IoErrorKind (List UInt8) × NetState :=
  let c := s.conns conn
  if c.pos < c.got.length then (.ok (c.got.drop c.pos), s)
  else if c.eof then (.ok [], s)
  else match w.chunk with
    | .error kind => (.error kind, s)
    | .ok chunk =>
      if chunk ≠ [] ∧ daemon c chunk = true then
        (.ok chunk, s.modifyConn conn fun c => { c with got := c.got ++ chunk })
      else (.ok [], s.modifyConn conn fun c => { c with eof := true })

/-- The execution of an action. -/
def NetAct.run (serde : Serde) (daemon : Daemon) :
    (a : NetAct) → NetWorld → NetState → a.Ret × NetState
  | connect, w, s =>
    match w.connect with
    | .ok () => (.ok s.opened, { s with
        conns := Function.update s.conns s.opened .new
        opened := s.opened + 1
        clock := s.clock + w.delay })
    | .error kind => (.error kind, { s with clock := s.clock + w.delay })
  | write conn data, w, s =>
    match w.writeError with
    | none => (.ok (), s.modifyConn conn fun c => { c with sent := c.sent ++ data.bytes serde })
    | some kind => (.error kind, s.modifyConn conn fun c =>
        { c with sent := c.sent ++ (data.bytes serde).take w.taken })
  | flush _, w, s => (match w.writeError with | none => .ok () | some kind => .error kind, s)
  | shutdown _, _, s => ((), s)
  | fillBuf conn, w, s => s.fillBuf daemon w conn
  | consume conn n, _, s => ((), s.modifyConn conn fun c => { c with pos := c.pos + n })
  | inner, _, s => (s.inner, s)
  | setInner conn, _, s => ((), { s with inner := conn })
  | authFailure, _, s => (s.authFailure, s)
  | setAuthFailure msg, _, s => ((), { s with authFailure := msg })
  | readToken _, w, s => (w.token, s)
  | random, w, s => (w.random, s)
  | now, w, s => (s.clock + w.delay, { s with clock := s.clock + w.delay })
  | sleep ms, w, s => ((), { s with clock := s.clock + ms + w.delay })
  | onEvent _, w, s => (w.goesOn, s)

/-- The machine of the client's actions. -/
def netMachine (serde : Serde) (daemon : Daemon) : Machine NetAct NetAct.Ret NetState :=
  ⟨NetWorld, fun _ _ => true, NetAct.run serde daemon⟩

/-! ## Programs -/

/-- How a program of the client can stop early: with an error, or because a loop goes on. -/
inductive Stop : Type where
  | failed (e : IpcError)
  | running
  deriving DecidableEq, Repr

/-- A program of the client. -/
abbrev NetProg := Prog NetAct NetAct.Ret Stop

/-- One action of the client. -/
abbrev performNet (a : NetAct) : NetProg a.Ret := Prog.perform a

/-- `?` on the result of an operation of the system. -/
def io {α : Type} (r : Except IoErrorKind α) : NetProg α :=
  match r with
  | .ok x => pure x
  | .error kind => fail (.failed (.io kind))

/-- `?` on the result of a call. -/
def ipcResult {α : Type} (r : Except IpcError α) : NetProg α :=
  match r with
  | .ok x => pure x
  | .error e => fail (.failed e)

/-- The decimal digits of a number. -/
def natText (n : Nat) : Str := Nat.toDigits 10 n

/-! ### Reading a line -/

/-- Longest inbound line, in bytes (`MAX_INBOUND_LINE_BYTES`). -/
def maxInboundLineBytes : Nat := 4 * 1024 * 1024

/-- A line that was read (`InboundLine`). -/
inductive InboundLine : Type where
  | eof
  | line (buf : List UInt8)
  | tooLong
  deriving DecidableEq, Repr

/-- How many of the bytes belong to a line: up to its line break, or all; and whether there is one. -/
def lineBytes (available : List UInt8) : Nat × Bool :=
  match available.findIdx? (· = newline) with
  | some i => (i + 1, true)
  | none => (available.length, false)

/-- `read_until(b'\n')` on `take(limit)`. The first number bounds the iterations, of which there are
at most `limit`. -/
def readUntil (conn : Nat) : Nat → Nat → List UInt8 → NetProg (List UInt8)
  | 0, _, buf => pure buf
  | n + 1, limit, buf =>
    if limit = 0 then pure buf
    else do
      let available := (← io (← performNet (.fillBuf conn))).take limit
      let (used, done) := lineBytes available
      performNet (.consume conn used)
      if done || used = 0 then return buf ++ available.take used
      else readUntil conn n (limit - used) (buf ++ available.take used)

/-- Drop the rest of a line, up to its line break. -/
def discardLine (conn : Nat) : Nat → NetProg InboundLine
  | 0 => fail .running
  | fuel + 1 => do
    let chunk ← io (← performNet (.fillBuf conn))
    if chunk.isEmpty then fail (.failed (.io .unexpectedEof))
    else
      let (used, done) := lineBytes chunk
      performNet (.consume conn used)
      if done then return .tooLong else discardLine conn fuel

/-- `read_inbound_line`. -/
def readInboundLine (fuel conn limit : Nat) : NetProg InboundLine := do
  let buf ← readUntil conn limit limit []
  if buf.isEmpty then return .eof
  else if buf.getLast? = some newline || buf.length < limit then return .line buf
  else discardLine conn fuel

/-- A line without its line break (`strip_suffix(b"\n")`). -/
def stripLineBreak (buf : List UInt8) : List UInt8 :=
  if buf.getLast? = some newline then buf.dropLast else buf

/-! ### Round trips -/

/-- Longest request with its line break, in bytes. -/
def maxRequestBytes : Nat := 64 * 1024

/-- The error of a request that is too long to be sent. -/
def requestTooLong (n : Nat) : IpcError :=
  .malformed ("request ".toList ++ natText n ++ " bytes exceeds 64 KiB JVM cap".toList)

/-- The error of a reply that was too long and was discarded. -/
def replyTooLong : IpcError :=
  .malformed ("reply longer than ".toList ++ natText maxInboundLineBytes ++
    " bytes, discarded".toList)

/-- The JSON of a reply line. -/
def parseReply (serde : Serde) (buf : List UInt8) : Except IpcError Json :=
  match serde.parse (stripLineBreak buf) with
  | .ok j => .ok j
  | .error e =>
    .error (.malformed (e ++ ": ".toList ++ fromUtf8Lossy (stripLineBreak buf)))

/-- The second half of `round_trip`: read the reply. -/
def receive (serde : Serde) (fuel conn : Nat) : NetProg Json := do
  match ← readInboundLine fuel conn maxInboundLineBytes with
  | .line buf => ipcResult (parseReply serde buf)
  | .eof => fail (.failed (.io .unexpectedEof))
  | .tooLong => fail (.failed replyTooLong)

/-- `round_trip`. -/
def roundTrip (serde : Serde) (fuel conn : Nat) (req : Request) : NetProg Json :=
  let line := utf8 (serde.render req.json)
  if maxRequestBytes < line.length + 1 then fail (.failed (requestTooLong line.length))
  else do
    io (← performNet (.write conn (.request req)))
    io (← performNet (.write conn .lineBreak))
    io (← performNet (.flush conn))
    receive serde fuel conn

/-- The line of a request. -/
def Request.line (serde : Serde) (req : Request) : List UInt8 :=
  utf8 (serde.render req.json) ++ [newline]

/-- The call of a verb on a connection. -/
def callVerb (serde : Serde) (fuel conn : Nat) (verb : Verb) : NetProg verb.Reply := do
  ipcResult (verb.decode serde (← roundTrip serde fuel conn (.verb verb)))

/-- `IpcClient::subscribe`. -/
def subscribe (serde : Serde) (fuel conn : Nat) : NetProg Unit := do
  ipcResult (okReply (← roundTrip serde fuel conn .subscribe) (.ok ()))

/-- `read_event_line`. -/
def readEventLine (fuel conn : Nat) : NetProg Str := do
  match ← readInboundLine fuel conn maxInboundLineBytes with
  | .line buf => return fromUtf8Lossy (stripLineBreak buf)
  | .eof => fail (.failed (.io .unexpectedEof))
  | .tooLong => fail (.failed (.io .invalidData))

/-! ### Authentication -/

/-- The functions the handshake is computed with: base64url without padding, and the HMAC of a
message under a key. -/
structure Crypto : Type where
  encode : List UInt8 → Str
  decode : Str → Option (List UInt8)
  mac : List UInt8 → List UInt8 → List UInt8

/-- How a connection authenticates (`IpcAuth`). -/
structure IpcAuth : Type where
  tokenFile : Option Str
  profile : Str

/-- `ipc_auth::AUTH_FAILED`. -/
def authFailed : Str := "auth_failed".toList

/-- `ipc_auth::AUTH_UNAVAILABLE`. -/
def authUnavailable : Str := "auth_unavailable".toList

/-- A refused or impossible handshake (`is_auth_terminal`). -/
def IpcError.isAuthTerminal : IpcError → Bool
  | serverError m => authFailed.isPrefixOf m || authUnavailable.isPrefixOf m
  | _ => false

/-- `char::is_whitespace`. -/
def isWhitespace (c : Char) : Bool :=
  let n := c.toNat
  (9 ≤ n && n ≤ 13) || n = 0x20 || n = 0x85 || n = 0xA0 || n = 0x1680 ||
    (0x2000 ≤ n && n ≤ 0x200A) || n = 0x2028 || n = 0x2029 || n = 0x202F || n = 0x205F || n = 0x3000

/-- `str::trim`. -/
def trim (s : Str) : Str :=
  ((s.dropWhile isWhitespace).reverse.dropWhile isWhitespace).reverse

/-- A token that was read (`TokenRead`). -/
inductive TokenRead : Type where
  | key (key : List UInt8)
  | absent
  deriving DecidableEq, Repr

/-- `read_token`, of a file whose text is `text` if it can be read. -/
def readToken (crypto : Crypto) (path : Str) (text : Option Str) : Except Str TokenRead :=
  match text with
  | none => .ok .absent
  | some text =>
    match crypto.decode (trim text) with
    | none => .error (authUnavailable ++ ": token file ".toList ++ path ++
        " is not base64url".toList)
    | some key =>
      if key.length ≠ 32 then
        .error (authUnavailable ++ ": token file ".toList ++ path ++
          " does not hold 32 bytes".toList)
      else .ok (.key key)

/-- `client_message`. -/
def clientMessage (profile nonce snonce : Str) : Str :=
  "unidrive-ipc-v2|client|".toList ++ scope.toList ++ '|' :: natText (byteLen profile) ++
    ':' :: profile ++ '|' :: nonce ++ '|' :: snonce

/-- `server_message`. -/
def serverMessage (profile nonce snonce clientProof : Str) : Str :=
  "unidrive-ipc-v2|server|".toList ++ scope.toList ++ '|' :: natText (byteLen profile) ++
    ':' :: profile ++ '|' :: nonce ++ '|' :: snonce ++ '|' :: clientProof

/-- `client_proof`. -/
def clientProof (crypto : Crypto) (key : List UInt8) (profile nonce snonce : Str) : Str :=
  crypto.encode (crypto.mac key (utf8 (clientMessage profile nonce snonce)))

/-- `verify_server_proof`. -/
def verifyServerProof (crypto : Crypto) (key : List UInt8)
    (profile nonce snonce clientProof serverProof : Str) : Bool :=
  match crypto.decode serverProof with
  | none => false
  | some got => crypto.mac key (utf8 (serverMessage profile nonce snonce clientProof)) = got

/-- The error of a handshake that failed. -/
def handshakeFailed (why : Str) : IpcError := .serverError (authFailed ++ ": ".toList ++ why)

/-- Why `hello` was refused. -/
def helloRefused (err : Str) : Str :=
  if err = "unknown_verb".toList then
    "a token file exists but the daemon does not speak protocol 2; restart the daemon".toList
  else "the daemon refused hello (".toList ++ err ++ "); restart the mount".toList

/-- Why the client's proof was refused. -/
def proofRefused (err : Str) : Str :=
  "the daemon rejected the IPC token (".toList ++ err ++ "); restart the mount".toList

/-- What the client's process is configured with: serde and the functions of the handshake, and the
fuel of its loops. -/
structure NetEnv : Type where
  serde : Serde
  crypto : Crypto
  fuel : Nat

/-- `new_nonce`. -/
def newNonce (env : NetEnv) : NetProg Str := do
  match ← performNet .random with
  | .ok bytes => return env.crypto.encode bytes
  | .error e => fail (.failed (.serverError
      (authFailed ++ ": no OS randomness for the nonce: ".toList ++ e)))

/-- `IpcClient::handshake`. -/
def handshake (env : NetEnv) (conn : Nat) (key : List UInt8) (profile : Str) : NetProg Unit := do
  let nonce ← newNonce env
  let reply ← roundTrip env.serde env.fuel conn (.hello nonce)
  if !reply.isOk then fail (.failed (handshakeFailed (helloRefused reply.errorText)))
  else
    let snonce ← ipcResult (textField env.serde reply "snonce")
    let proof := clientProof env.crypto key profile nonce snonce
    let reply ← roundTrip env.serde env.fuel conn (.helloProof proof)
    if !reply.isOk then fail (.failed (handshakeFailed (proofRefused reply.errorText)))
    else
      let serverProof := (reply.index "proof").asStr.getD []
      if !verifyServerProof env.crypto key profile nonce snonce proof serverProof then do
        performNet (.shutdown conn)
        fail (.failed (handshakeFailed
          "the daemon's proof did not match; connection closed".toList))
      else return ()

/-- The protocol version a status reply gives. -/
def protocolVersion (reply : Json) : Nat := (reply.index "protocol_version").asU64.getD 1

/-- The error of a daemon that wants authentication from a client without a token. -/
def cannotAuthenticate (auth : IpcAuth) (version : Nat) : IpcError :=
  let reason := match auth.tokenFile with
    | some path => "no readable token at ".toList ++ path
    | none => "no token file configured (--ipc-token-file)".toList
  .serverError (authUnavailable ++ ": cannot authenticate to this daemon (protocol ".toList ++
    natText version ++ "): ".toList ++ reason)

/-- The token of a connection. -/
def tokenOf (env : NetEnv) (auth : IpcAuth) : NetProg TokenRead := do
  match auth.tokenFile with
  | some path =>
    match readToken env.crypto path (← performNet (.readToken path)) with
    | .ok token => return token
    | .error msg => fail (.failed (.serverError msg))
  | none => return .absent

/-- Authenticate a new connection. -/
def authenticate (env : NetEnv) (auth : IpcAuth) (conn : Nat) : NetProg Unit := do
  match ← tokenOf env auth with
  | .key key => handshake env conn key auth.profile
  | .absent =>
    let reply ← roundTrip env.serde env.fuel conn .status
    if protocol ≤ protocolVersion reply then
      fail (.failed (cannotAuthenticate auth (protocolVersion reply)))
    else return ()

/-- `IpcClient::connect_auth`. -/
def connectAuth (env : NetEnv) (auth : IpcAuth) : NetProg Nat := do
  let conn ← io (← performNet .connect)
  authenticate env auth conn
  return conn

end UnidriveMount
