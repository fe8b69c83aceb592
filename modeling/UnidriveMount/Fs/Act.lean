import UnidriveMount.Fs.Types
import UnidriveMount.PathMap
import UnidriveMount.Lib.Program

/-!
# The critical sections of the filesystem

The state behind `UnidriveFs`, and its atomic actions: one for each critical section of
`fuse_fs.rs` (what happens under one acquisition of a lock), for each atomic counter, for each
operation on a cache file, and two for an exchange with the daemon. The daemon is called under the
lock of the client, so `call` needs the lock and takes it, and `reply` releases it; everything else
can happen in between. The daemon carries a request out somewhere between the two; `reply` stands for the
moment at which it comes to its answer, so the replies come in a run in the order of the answers.

What the outside contributes to an action is a `World`: the clock, the daemon's answer, what the
engine does to the cache folder while it serves a request, and whether a file operation succeeds.
-/

namespace UnidriveMount

open Lib

/-! ## State -/

/-- Number of values of a `u64` counter, which wraps around. -/
def counterSpace : Nat := 2 ^ 64

/-- The shared state of the filesystem, with the cache folder it works on. `ipcBusy` tells whether
the lock of the client is taken. -/
structure FsState : Type where
  ipcBusy : Bool
  paths : PathMap
  attrs : HashMap Ino CachedAttr
  openHandles : HashMap Nat OpenHandle
  nextFh : Nat
  nextHandleId : Nat
  quarantineWarned : List Str
  rawNames : HashMap Str Str
  disk : Disk

/-- `UnidriveFs::new`, over a cache folder. -/
def FsState.new (disk : Disk) : FsState where
  ipcBusy := false
  paths := PathMap.new
  attrs := ∅
  openHandles := ∅
  nextFh := 1
  nextHandleId := 1
  quarantineWarned := []
  rawNames := ∅
  disk := disk

/-! ## Actions -/

/-- What an `fsync` takes out of a handle while it claims the dirty mark. -/
structure Claim : Type where
  handleId : Str
  remotePath : Str
  cachePath : Str
  wasDirty : Bool
  deriving DecidableEq, Repr

/-- The atomic actions. -/
inductive Act : Type where
  -- the path map
  | pathFor (inode : Ino)
  | pathForBoth (inode inode' : Ino)
  | inodeFor (path : Str)
  | intern (path : Str)
  | forget (path : Str)
  | renamePaths (old new : Str)
  -- the visible names
  | rawName (cp : Str)
  | rawInsert (cp name : Str)
  | rawRemove (cp : Str)
  | forgetRawNames (cp : Str)
  | renameRawNames (old new : Str)
  | cloneRawNames
  -- the attribute cache
  | attrOf (inode : Ino)
  | hasAttr (inode : Ino)
  | attrInsert (inode : Ino) (attr : CachedAttr)
  | attrRemove (inode : Ino)
  | attrEdit (inode : Ino) (edit : AttrEdit)
  | attrOpened (inode : Ino) (len : Nat)
  | warnQuarantined (paths : List Str)
  | insertListed (entries : List ListEntry)
  | applyInvalidation (change : Invalidation) (unsent : List Str)
  -- the open handles
  | nextHandleId
  | nextFh
  | handleInsert (fh : Nat) (handle : OpenHandle)
  | handleRemove (fh : Nat)
  | handleRead (fh offset size : Nat)
  | handleWrite (fh offset : Nat) (data : List UInt8)
  | handleSetLen (fh newSize : Nat)
  | handleClaim (fh : Nat) (datasync : Bool)
  | handleRestore (fh : Nat)
  | followRenames (old new : Str)
  | unsentPaths
  -- the daemon
  | call (verb : Verb)
  | reply (verb : Verb)
  -- the cache folder and the clock
  | openFile (path : Str) (mode : OpenMode)
  | fileLen (file : File)
  | setLen (file : File) (newSize : Nat)
  | removeFile (path : Str)
  | removeDirAll (path : Str)
  | nowMs
  deriving DecidableEq, Repr

/-- What an action answers. -/
abbrev Act.Ret : Act → Type
  | pathFor _ => Option Str
  | pathForBoth .. => Option Str × Option Str
  | inodeFor _ => Option Ino
  | intern _ => Ino
  | forget _ => Option Ino
  | renamePaths .. => Unit
  | rawName _ => Option Str
  | rawInsert .. => Unit
  | rawRemove _ => Unit
  | forgetRawNames _ => Unit
  | renameRawNames .. => Unit
  | cloneRawNames => HashMap Str Str
  | attrOf _ => Option CachedAttr
  | hasAttr _ => Bool
  | attrInsert .. => Unit
  | attrRemove _ => Unit
  | attrEdit .. => Unit
  | attrOpened .. => Bool
  | warnQuarantined _ => Unit
  | insertListed _ => List (Ino × ListEntry)
  | applyInvalidation .. => Unit
  | nextHandleId => Nat
  | nextFh => Nat
  | handleInsert .. => Unit
  | handleRemove _ => Option OpenHandle
  | handleRead .. => Except Errno (List UInt8)
  | handleWrite .. => Except Errno Nat
  | handleSetLen .. => Except Errno Unit
  | handleClaim .. => Except Errno Claim
  | handleRestore _ => Unit
  | followRenames .. => Unit
  | unsentPaths => List Str
  | call _ => Unit
  | reply verb => Except IpcError verb.Reply
  | openFile .. => Option File
  | fileLen _ => Option Nat
  | setLen .. => Bool
  | removeFile _ => Unit
  | removeDirAll _ => Unit
  | nowMs => Int

/-- What the outside contributes: the time, the daemon's answer, the engine's work in the cache
folder, whether a file operation succeeds, and how many bytes it transfers at most. -/
structure World : Type where
  clock : Int
  reply : (verb : Verb) → Except IpcError verb.Reply
  engine : Disk → Disk
  io : Bool
  count : Nat

/-- A successful reply, every cache file being at `cachePath` and every folder empty. -/
def Verb.okReply (cachePath : Str) : (verb : Verb) → verb.Reply
  | openRead .. => (⟨cachePath⟩ : OpenReply)
  | openWrite .. => (⟨cachePath⟩ : OpenReply)
  | openWriteBegin .. => (⟨cachePath⟩ : OpenReply)
  | create handleId _ => (⟨cachePath, handleId⟩ : CreateReply)
  | list _ => ([] : List ListEntry)
  | lastSynced _ => (0 : Int)
  | daemonStatus => Json.null
  | closeHandle _ | hydrate _ | dehydrate _ | mkdir _ | unlink _ | rmdir _ | rename .. => ()

/-- An outside in which everything succeeds. -/
def World.calm : World where
  clock := 0
  reply verb := .ok (verb.okReply ['c'])
  engine := id
  io := true
  count := 4096

/-- An outside whose listings have these entries. -/
def World.lists (entries : Str → List ListEntry) : World :=
  { World.calm with
    reply := fun verb => match verb with
      | .list parent => .ok (entries parent)
      | verb => .ok (verb.okReply ['c']) }

namespace FsState

variable (s : FsState)

/-! ### The tables -/

/-- Move the raw names of `old` and everything below it to `new`. -/
def renamedRawNames (old new : Str) : HashMap Str Str :=
  let moved := (s.rawNames.iter.filter fun e => old ++ ['/'] <+: e.1).map fun e =>
    (new ++ '/' :: e.1.drop (old.length + 1), e.2)
  (s.rawNames.retain fun k _ => k ≠ old ∧ ¬ old ++ ['/'] <+: k).extend moved

/-- Intern every listed path and cache its attributes. -/
def insertListed : FsState → List ListEntry → List (Ino × ListEntry) × FsState
  | s, [] => ([], s)
  | s, e :: entries =>
    let (ino, paths) := s.paths.intern e.path
    let s := { s with paths := paths, attrs := s.attrs.insert ino (.ofListEntry e) }
    let (out, s) := s.insertListed entries
    ((ino, e) :: out, s)

/-- The attributes a change event leaves, `unsent` being the remote paths of the handles with
unsent writes. -/
def invalidatedAttrs (change : Invalidation) (unsent : List Str) : HashMap Ino CachedAttr :=
  let keep := unsent.filterMap s.paths.inodeFor
  match change with
  | .all => s.attrs.retain fun ino _ => keep.contains ino
  | .paths roots =>
    (s.paths.inodesAtOrBelow roots).foldl
      (fun attrs ino => if keep.contains ino then attrs else attrs.remove ino) s.attrs

/-! ### The open handles -/

/-- `read_at` on the handle's file. -/
def handleRead (w : World) (fh offset size : Nat) : Except Errno (List UInt8) :=
  match s.openHandles.get fh with
  | none => .error .EBADF
  | some h =>
    if w.io && decide (offset ≤ maxOffset) then
      .ok (((s.disk.bytes h.file).drop offset).take (min size w.count))
    else .error Errno.EIO

/-- `write_at` on the handle's file, and the dirty mark. -/
def handleWrite (w : World) (fh offset : Nat) (data : List UInt8) :
    Except Errno Nat × FsState :=
  match s.openHandles.get fh with
  | none => (.error .EBADF, s)
  | some h =>
    if w.io && h.file.writable && decide (offset ≤ maxOffset) then
      let n := min (min w.count data.length) (maxOffset - offset)
      (.ok n, { s with
        openHandles := s.openHandles.insert fh { h with dirty := true }
        disk := s.disk.write h.file offset (data.take n) })
    else (.error Errno.EIO, s)

/-- `set_len` on the handle's file, and the dirty mark. -/
def handleSetLen (w : World) (fh newSize : Nat) : Except Errno Unit × FsState :=
  match s.openHandles.get fh with
  | none => (.error .EBADF, s)
  | some h =>
    if w.io && h.file.writable && decide (newSize ≤ maxOffset) then
      (.ok (), { s with
        openHandles := s.openHandles.insert fh { h with dirty := true }
        disk := s.disk.setLen h.file newSize })
    else (.error Errno.EIO, s)

/-- Flush the handle's file, and swap its dirty mark for a clear one. -/
def handleClaim (w : World) (fh : Nat) : Except Errno Claim × FsState :=
  match s.openHandles.get fh with
  | none => (.error .EBADF, s)
  | some h =>
    if w.io then
      (.ok ⟨h.handleId, h.remotePath, h.cachePath, h.dirty⟩,
        { s with openHandles := s.openHandles.insert fh { h with dirty := false } })
    else (.error Errno.EIO, s)

end FsState

/-- Whether the action can be executed: the lock of the client must be free for a call. -/
def Act.ready : Act → FsState → Bool
  | call _, s => !s.ipcBusy
  | _, _ => true

/-- The execution of an action. -/
def Act.run : (a : Act) → World → FsState → a.Ret × FsState
  | pathFor inode, _, s => (s.paths.pathFor inode, s)
  | pathForBoth inode inode', _, s => ((s.paths.pathFor inode, s.paths.pathFor inode'), s)
  | inodeFor path, _, s => (s.paths.inodeFor path, s)
  | intern path, _, s => ((s.paths.intern path).1, { s with paths := (s.paths.intern path).2 })
  | forget path, _, s => ((s.paths.forget path).1, { s with paths := (s.paths.forget path).2 })
  | renamePaths old new, _, s => ((), { s with paths := s.paths.rename old new })
  | rawName cp, _, s => (s.rawNames.get cp, s)
  | rawInsert cp name, _, s => ((), { s with rawNames := s.rawNames.insert cp name })
  | rawRemove cp, _, s => ((), { s with rawNames := s.rawNames.remove cp })
  | forgetRawNames cp, _, s =>
    ((), { s with rawNames := s.rawNames.retain fun k _ => k ≠ cp ∧ ¬ cp ++ ['/'] <+: k })
  | renameRawNames old new, _, s => ((), { s with rawNames := s.renamedRawNames old new })
  | cloneRawNames, _, s => (s.rawNames, s)
  | attrOf inode, _, s => (s.attrs.get inode, s)
  | hasAttr inode, _, s => (s.attrs.containsKey inode, s)
  | attrInsert inode attr, _, s => ((), { s with attrs := s.attrs.insert inode attr })
  | attrRemove inode, _, s => ((), { s with attrs := s.attrs.remove inode })
  | attrEdit inode edit, w, s =>
    ((), { s with attrs := s.attrs.modify inode (edit.apply w.clock) })
  | attrOpened inode len, _, s =>
    match s.attrs.get inode with
    | some a => (a.size != len, { s with attrs := s.attrs.insert inode { a with size := len } })
    | none => (false, s)
  | warnQuarantined paths, _, s =>
    ((), { s with quarantineWarned := paths.foldl (fun l p => l.insert p) s.quarantineWarned })
  | insertListed entries, _, s => s.insertListed entries
  | applyInvalidation change unsent, _, s =>
    ((), { s with attrs := s.invalidatedAttrs change unsent })
  | nextHandleId, _, s =>
    (s.nextHandleId, { s with nextHandleId := (s.nextHandleId + 1) % counterSpace })
  | nextFh, _, s => (s.nextFh, { s with nextFh := (s.nextFh + 1) % counterSpace })
  | handleInsert fh h, _, s => ((), { s with openHandles := s.openHandles.insert fh h })
  | handleRemove fh, _, s =>
    (s.openHandles.get fh, { s with openHandles := s.openHandles.remove fh })
  | handleRead fh offset size, w, s => (s.handleRead w fh offset size, s)
  | handleWrite fh offset data, w, s => s.handleWrite w fh offset data
  | handleSetLen fh newSize, w, s => s.handleSetLen w fh newSize
  | handleClaim fh _, w, s => s.handleClaim w fh
  | handleRestore fh, _, s =>
    ((), { s with openHandles := s.openHandles.modify fh fun h => { h with dirty := true } })
  | followRenames old new, _, s =>
    ((), { s with openHandles := s.openHandles.mapValues fun h => h.followRename old new })
  | unsentPaths, _, s =>
    ((s.openHandles.values.filter fun h => h.dirty).map OpenHandle.remotePath, s)
  | call _, _, s => ((), { s with ipcBusy := true })
  | reply verb, w, s => (w.reply verb, { s with ipcBusy := false, disk := w.engine s.disk })
  | openFile path mode, w, s =>
    if w.io then ((s.disk.openFile path mode).1, { s with disk := (s.disk.openFile path mode).2 })
    else (none, s)
  | fileLen f, w, s => (if w.io then some (s.disk.bytes f).length else none, s)
  | setLen f newSize, w, s =>
    if w.io && f.writable && decide (newSize ≤ maxOffset) then
      (true, { s with disk := s.disk.setLen f newSize })
    else (false, s)
  | removeFile path, w, s =>
    ((), if w.io then { s with disk := s.disk.removeFile path } else s)
  | removeDirAll path, w, s =>
    ((), if w.io then { s with disk := s.disk.removeDirAll path } else s)
  | nowMs, w, s => (w.clock, s)

/-- The machine of the filesystem's actions. -/
def fsMachine : Machine Act Act.Ret FsState := ⟨World, Act.ready, Act.run⟩

end UnidriveMount
