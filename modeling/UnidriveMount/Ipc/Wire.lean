import UnidriveMount.Ipc.Verb
import Mathlib.Algebra.Ring.Int.Defs
import Mathlib.Data.Char
import Mathlib.Data.List.Lex
import Mathlib.Data.List.Sort

/-!
# Requests and replies on the wire

How a request becomes a line of JSON, and a line a reply (`ipc.rs`): the fields of each request, how
the reply to each verb is read, and the texts of the errors. JSON itself is serde's: its compact
rendering and its parser are the parameters `Serde`.
-/

namespace UnidriveMount

/-! ## Bytes -/

/-- The byte of `\n`. -/
def newline : UInt8 := 10

/-- The UTF-8 encoding (`str::as_bytes`). -/
def utf8 (s : Str) : List UInt8 := s.flatMap String.utf8EncodeChar

theorem mod_of_newline_eq {n : Nat} (h : newline = UInt8.ofNat n) : n % 256 = 10 := by
  simpa [newline] using (congrArg UInt8.toNat h).symm

/-- No other character's encoding contains the newline byte. -/
theorem eq_newline_of_mem {c : Char} (h : newline ∈ String.utf8EncodeChar c) : c = '\n' := by
  rw [String.utf8EncodeChar] at h
  have hval : c.val.toNat = 10 := by
    generalize c.val.toNat = v at h
    split at h
    · have := mod_of_newline_eq (List.mem_singleton.1 h)
      omega
    · split at h
      · simp only [List.mem_cons, List.not_mem_nil, or_false] at h
        rcases h with h | h <;> have := mod_of_newline_eq h <;> omega
      · split at h
        · simp only [List.mem_cons, List.not_mem_nil, or_false] at h
          rcases h with h | h | h <;> have := mod_of_newline_eq h <;> omega
        · simp only [List.mem_cons, List.not_mem_nil, or_false] at h
          rcases h with h | h | h | h <;> have := mod_of_newline_eq h <;> omega
  exact Char.ext (UInt32.toNat_inj.1 hval)

theorem newline_notMem_utf8 {s : Str} (h : '\n' ∉ s) : newline ∉ utf8 s := by
  intro hmem
  obtain ⟨c, hc, hb⟩ := List.mem_flatMap.1 hmem
  exact h (eq_newline_of_mem hb ▸ hc)

/-- Different texts have different encodings. -/
theorem utf8_injective : Function.Injective utf8 := by
  intro s t h
  have hbytes : s.utf8Encode = t.utf8Encode := congrArg List.toByteArray h
  have hstring : String.ofList s = String.ofList t := by
    rw [← String.toByteArray_inj, String.toByteArray_ofList, String.toByteArray_ofList, hbytes]
  exact String.ofList_injective hstring

/-- The replacement character. -/
def replacementChar : Char := Char.ofNat 0xFFFD

/-- Whether the byte continues a character. -/
def isContinuation (b : UInt8) : Bool := 0x80 ≤ b && b ≤ 0xBF

/-- Whether `b` can follow the first byte `b₀` of a character of three bytes, or of four. -/
def isSecond (b₀ b : UInt8) : Bool :=
  if b₀ = 0xE0 then 0xA0 ≤ b && b ≤ 0xBF
  else if b₀ = 0xED then 0x80 ≤ b && b ≤ 0x9F
  else if b₀ = 0xF0 then 0x90 ≤ b && b ≤ 0xBF
  else if b₀ = 0xF4 then 0x80 ≤ b && b ≤ 0x8F
  else isContinuation b

/-- The value of the six bits of a continuation byte. -/
def contBits (b : UInt8) : Nat := b.toNat % 64

/-- The character at the front, with the number of bytes after the first that it takes: a malformed
start is replaced, as far as it could have been the start of a character. -/
def frontChar (b₀ : UInt8) (rest : List UInt8) : Char × Nat :=
  if b₀ < 0x80 then (Char.ofNat b₀.toNat, 0)
  else if 0xC2 ≤ b₀ && b₀ ≤ 0xDF then
    match rest with
    | b₁ :: _ =>
      if isContinuation b₁ then (Char.ofNat (b₀.toNat % 32 * 64 + contBits b₁), 1)
      else (replacementChar, 0)
    | [] => (replacementChar, 0)
  else if 0xE0 ≤ b₀ && b₀ ≤ 0xEF then
    match rest with
    | b₁ :: b₂ :: _ =>
      if !isSecond b₀ b₁ then (replacementChar, 0)
      else if !isContinuation b₂ then (replacementChar, 1)
      else (Char.ofNat ((b₀.toNat % 16 * 64 + contBits b₁) * 64 + contBits b₂), 2)
    | [b₁] => (replacementChar, if isSecond b₀ b₁ then 1 else 0)
    | [] => (replacementChar, 0)
  else if 0xF0 ≤ b₀ && b₀ ≤ 0xF4 then
    match rest with
    | b₁ :: b₂ :: b₃ :: _ =>
      if !isSecond b₀ b₁ then (replacementChar, 0)
      else if !isContinuation b₂ then (replacementChar, 1)
      else if !isContinuation b₃ then (replacementChar, 2)
      else (Char.ofNat (((b₀.toNat % 8 * 64 + contBits b₁) * 64 + contBits b₂) * 64 + contBits b₃), 3)
    | [b₁, b₂] =>
      (replacementChar, if !isSecond b₀ b₁ then 0 else if isContinuation b₂ then 2 else 1)
    | [b₁] => (replacementChar, if isSecond b₀ b₁ then 1 else 0)
    | [] => (replacementChar, 0)
  else (replacementChar, 0)

/-- The text of the bytes, at most `n` characters of it. -/
def decodeLossy : Nat → List UInt8 → Str
  | 0, _ | _, [] => []
  | n + 1, b :: rest =>
    let (c, k) := frontChar b rest
    c :: decodeLossy n (rest.drop k)

/-- `String::from_utf8_lossy`. -/
def fromUtf8Lossy (bytes : List UInt8) : Str := decodeLossy bytes.length bytes

/-! ## JSON -/

/-- What the code uses of serde: `Value::to_string`, whose text has no line break, and `from_slice`,
with the text of its error. -/
structure Serde : Type where
  render : Json → Str
  parse : List UInt8 → Except Str Json
  render_oneLine : ∀ j, '\n' ∉ render j

namespace Json

/-- `value[key]`. -/
def index (j : Json) (key : String) : Json :=
  match j with
  | .obj fields => ((fields.find? fun f => f.1 = key.toList).map Prod.snd).getD .null
  | _ => .null

def asBool : Json → Option Bool
  | .bool b => some b
  | _ => none

def asStr : Json → Option Str
  | .str s => some s
  | _ => none

def asArray : Json → Option (List Json)
  | .arr vs => some vs
  | _ => none

def asU64 : Json → Option Nat
  | .num (.int i) => if 0 ≤ i ∧ i < 2 ^ 64 then some i.toNat else none
  | _ => none

def asI64 : Json → Option Int
  | .num (.int i) => if -2 ^ 63 ≤ i ∧ i < 2 ^ 63 then some i else none
  | _ => none

/-- Whether a reply says `"ok": true`. -/
def isOk (j : Json) : Bool := (j.index "ok").asBool.getD false

/-- The error a reply names. -/
def errorText (j : Json) : Str := (j.index "error").asStr.getD "unknown".toList

end Json

/-! ## Requests -/

/-- An object with text fields. -/
def textObj (fields : List (String × Str)) : Json :=
  .obj (fields.map fun f => (f.1.toList, .str f.2))

/-- The request of a verb. -/
def Verb.request : Verb → Json
  | openRead handleId path =>
    textObj [("verb", "hydration.open_read".toList), ("handle_id", handleId), ("path", path)]
  | openWrite handleId path cachePath =>
    textObj [("verb", "hydration.open_write".toList), ("handle_id", handleId), ("path", path),
      ("cache_path", cachePath)]
  | openWriteBegin path (some handleId) =>
    textObj [("verb", "hydration.open_write_begin".toList), ("path", path),
      ("handle_id", handleId)]
  | openWriteBegin path none =>
    textObj [("verb", "hydration.open_write_begin".toList), ("path", path)]
  | closeHandle handleId =>
    textObj [("verb", "hydration.close_handle".toList), ("handle_id", handleId)]
  | hydrate path => textObj [("verb", "hydration.hydrate".toList), ("path", path)]
  | dehydrate path => textObj [("verb", "hydration.dehydrate".toList), ("path", path)]
  | lastSynced path => textObj [("verb", "hydration.last_synced".toList), ("path", path)]
  | list parent => textObj [("verb", "hydration.list".toList), ("prefix", parent)]
  | daemonStatus => textObj [("verb", "daemon.status".toList)]
  | mkdir path => textObj [("verb", "hydration.mkdir".toList), ("path", path)]
  | unlink path => textObj [("verb", "hydration.unlink".toList), ("path", path)]
  | rmdir path => textObj [("verb", "hydration.rmdir".toList), ("path", path)]
  | create handleId path =>
    textObj [("verb", "hydration.create".toList), ("handle_id", handleId), ("path", path)]
  | rename oldPath newPath =>
    textObj [("verb", "hydration.rename".toList), ("old_path", oldPath), ("new_path", newPath)]

/-- `ipc_auth::PROTOCOL`. -/
def protocol : Nat := 2

/-- `ipc_auth::SCOPE`. -/
def scope : String := "full"

/-- `ipc_auth::CLIENT_NAME`. -/
def clientName : String := "unidrive-mount-linux"

/-- The requests of the client: the two of the handshake, the status request of a client without a
token, the subscription, and the verbs. -/
inductive Request : Type where
  | hello (nonce : Str)
  | helloProof (proof : Str)
  | status
  | subscribe
  | verb (v : Verb)
  deriving DecidableEq, Repr

/-- The JSON of a request. -/
def Request.json : Request → Json
  | hello nonce =>
    .obj [("verb".toList, .str "hello".toList), ("protocol".toList, .num (.int protocol)),
      ("scope".toList, .str scope.toList), ("client".toList, .str clientName.toList),
      ("nonce".toList, .str nonce)]
  | helloProof proof => textObj [("verb", "hello.proof".toList), ("proof", proof)]
  | status => textObj [("verb", "daemon.status".toList)]
  | subscribe => textObj [("verb", "hydration.subscribe".toList)]
  | verb v => v.request

/-! ## Replies -/

/-- A reply without the field that was asked for. -/
def malformed (serde : Serde) (reply : Json) : IpcError := .malformed (serde.render reply)

/-- `server_error`. -/
def serverError (reply : Json) : IpcError :=
  if reply.errorText = "busy".toList then .busy else .serverError reply.errorText

/-- `reply[key].as_str()`, or the reply is malformed. -/
def textField (serde : Serde) (reply : Json) (key : String) : Except IpcError Str :=
  match (reply.index key).asStr with
  | some s => .ok s
  | none => .error (malformed serde reply)

/-- The size of a list entry: a negative one, or none, counts as 0. -/
def entrySize (e : Json) : Nat :=
  match (e.index "size").asU64 with
  | some n => n
  | none => ((e.index "size").asI64.getD 0).toNat

/-- `parse_list_entry`. -/
def parseListEntry (serde : Serde) (e : Json) : Except IpcError ListEntry := do
  let path ← textField serde e "path"
  let some mtimeMs := (e.index "mtime_ms").asI64 | .error (malformed serde e)
  let some hydrated := (e.index "hydrated").asBool | .error (malformed serde e)
  let some folder := (e.index "folder").asBool | .error (malformed serde e)
  return ⟨path, entrySize e, mtimeMs, hydrated, folder, (e.index "remote_modified_ms").asI64,
    (e.index "pending_upload").asBool.getD false⟩

/-- Read a reply whose success carries what `f` finds in it. -/
def okReply {α : Type} (reply : Json) (f : Except IpcError α) : Except IpcError α :=
  if reply.isOk then f else .error (serverError reply)

/-- The cache file a reply names. -/
def cacheFile (serde : Serde) (reply : Json) : Except IpcError OpenReply := do
  return ⟨← textField serde reply "cache_path"⟩

/-- How the reply to a verb is read. -/
def Verb.decode (serde : Serde) (reply : Json) : (verb : Verb) → Except IpcError verb.Reply
  | openRead .. => okReply reply (cacheFile serde reply)
  | openWrite .. => okReply reply (cacheFile serde reply)
  | openWriteBegin .. => okReply reply (cacheFile serde reply)
  | closeHandle _ => okReply reply (.ok ())
  | hydrate _ => okReply reply (.ok ())
  | dehydrate _ => okReply reply (.ok ())
  | lastSynced _ =>
    if reply.isOk then
      match (reply.index "mtime_ms").asI64 with
      | some n => .ok n
      | none => .error (malformed serde reply)
    else .error (.unknown reply.errorText)
  | list _ => okReply reply <|
    match (reply.index "entries").asArray with
    | some entries => entries.mapM (parseListEntry serde)
    | none => .error (malformed serde reply)
  | daemonStatus => okReply reply (.ok reply)
  | mkdir _ => okReply reply (.ok ())
  | unlink _ => okReply reply (.ok ())
  | rmdir _ => okReply reply (.ok ())
  | create .. => okReply reply do
    let cachePath ← textField serde reply "cache_path"
    let handleId ← textField serde reply "handle_id"
    return (⟨cachePath, handleId⟩ : CreateReply)
  | rename .. => okReply reply (.ok ())

/-- Only a reply that says ok is read as a success. -/
theorem Verb.isOk_of_decode {serde : Serde} {reply : Json} {verb : Verb} {r : verb.Reply}
    (h : verb.decode serde reply = .ok r) : reply.isOk = true := by
  by_contra hok
  cases verb <;> simp [Verb.decode, okReply, hok] at h

/-! ## A sample -/

/-- The text of a number, or of a text without special characters. -/
def flatValue : Json → Str
  | .num (.int (.ofNat n)) => Nat.toDigits 10 n
  | .num (.int (.negSucc n)) => '-' :: Nat.toDigits 10 (n + 1)
  | j => '"' :: j.asStr.getD [] ++ ['"']

/-- The text of a field with such a value. -/
def flatField (f : Str × Json) : Str := '"' :: f.1 ++ "\":".toList ++ flatValue f.2

/-- The reply `{"ok":true}`. -/
def okReplyText : Str := "\x7b\"ok\":true\x7d".toList

/-- A serde for concrete runs: it renders the flat objects of plain texts and numbers, their fields in the
order of their names, and knows the reply that says ok and nothing else. -/
def Serde.sample : Serde where
  render j := (match j with
    | .obj fields => '{' :: (",".toList.intercalate
        ((fields.map flatField).insertionSort fun s s' => s ≤ s')) ++ ['}']
    | _ => "null".toList).filter (· ≠ '\n')
  parse bytes :=
    if bytes = utf8 okReplyText then .ok (.obj [("ok".toList, .bool true)])
    else .error "expected value at line 1 column 1".toList
  render_oneLine j := by simp

end UnidriveMount
