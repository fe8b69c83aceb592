import UnidriveMount.Path

/-!
# The verbs of the daemon

What the co-daemon asks the engine for (`ipc.rs`): the verbs of `ReconnectingIpcClient` with their
arguments, the type of the reply to each, and the errors a call can end in. The filesystem is
written against these; how a verb becomes a line of JSON, and a line a reply, is the concern of the
client's own modules.
-/

namespace UnidriveMount

/-! ## JSON -/

/-- A number of a JSON text: an integer, or one that is no integer. -/
inductive JsonNumber : Type where
  | int (i : Int)
  | float (text : Str)
  deriving DecidableEq

/-- A JSON value (`serde_json::Value`). -/
inductive Json : Type where
  | null
  | bool (b : Bool)
  | num (n : JsonNumber)
  | str (s : Str)
  | arr (vs : List Json)
  | obj (fields : List (Str × Json))

/-! ## Errors -/

/-- The kinds of I/O error the code tells apart (`std::io::ErrorKind`). -/
inductive IoErrorKind : Type where
  | notFound
  | connectionRefused
  | unexpectedEof
  | invalidData
  | other
  deriving DecidableEq, Repr

/-- What a call can fail with. -/
inductive IpcError : Type where
  | io (kind : IoErrorKind)
  | malformed (msg : Str)
  | serverError (msg : Str)
  | busy
  | unknown (reason : Str)
  deriving DecidableEq, Repr

/-! ## Verbs and replies -/

/-- One entry of a `hydration.list` reply. -/
structure ListEntry : Type where
  path : Str
  size : Nat
  mtimeMs : Int
  hydrated : Bool
  folder : Bool
  remoteModifiedMs : Option Int
  pendingUpload : Bool
  deriving DecidableEq, Repr

/-- The reply to a verb that materialises a cache file. -/
structure OpenReply : Type where
  cachePath : Str
  deriving DecidableEq, Repr

/-- The reply to `hydration.create`. The handle id may be the one sent or the engine's own. -/
structure CreateReply : Type where
  cachePath : Str
  handleId : Str
  deriving DecidableEq, Repr

/-- The verbs of `ReconnectingIpcClient`. -/
inductive Verb : Type where
  | openRead (handleId path : Str)
  | openWrite (handleId path cachePath : Str)
  | openWriteBegin (path : Str) (handleId : Option Str)
  | closeHandle (handleId : Str)
  | hydrate (path : Str)
  | dehydrate (path : Str)
  | lastSynced (path : Str)
  | list (parent : Str)
  | daemonStatus
  | mkdir (path : Str)
  | unlink (path : Str)
  | rmdir (path : Str)
  | create (handleId path : Str)
  | rename (oldPath newPath : Str)
  deriving DecidableEq, Repr

/-- What a successful call of the verb returns. -/
def Verb.Reply : Verb → Type
  | openRead .. => OpenReply
  | openWrite .. => OpenReply
  | openWriteBegin .. => OpenReply
  | closeHandle _ => Unit
  | hydrate _ => Unit
  | dehydrate _ => Unit
  | lastSynced _ => Int
  | list _ => List ListEntry
  | daemonStatus => Json
  | mkdir _ => Unit
  | unlink _ => Unit
  | rmdir _ => Unit
  | create .. => CreateReply
  | rename .. => Unit

end UnidriveMount
