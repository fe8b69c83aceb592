import UnidriveMount.Fs.Act
import UnidriveMount.Lib.Sequence

/-!
# The operations of the filesystem

Each operation of `impl Filesystem for UnidriveFs` as a program over the critical sections, and
`ViewCache::apply`, with the helpers they share. `Op` collects the requests, and `fsService` is the
service that answers them. Logging is not modelled; a result that the source only logs is dropped
here too.

`nfc` stands for Unicode's normalisation of a name to NFC.
-/

namespace UnidriveMount

open Lib
open Lib.Prog (fail okOr ofExcept)

/-- A program of the filesystem. -/
abbrev FsProg := Prog Act Act.Ret Errno

/-- One action of the filesystem. -/
abbrev perform (a : Act) : FsProg a.Ret := Prog.perform a

/-- A name of a request: its text, if its bytes are one (`OsStr::to_str`). -/
abbrev OsStr := Option Str

/-- A call of the daemon. -/
def ipc (verb : Verb) : FsProg (Except IpcError verb.Reply) := do
  perform (.call verb)
  perform (.reply verb)

/-- `map_err(f)?` on the result of a call. -/
def mapErr {α : Type} (f : IpcError → Errno) (r : Except IpcError α) : FsProg α :=
  match r with
  | .ok x => pure x
  | .error e => fail (f e)

/-! ## Replies -/

/-- Seconds the kernel may keep an entry or its attributes. -/
def ttl : Nat := 1

/-- Open flag: reads and writes bypass the kernel's idea of the file size. -/
def fopenDirectIo : Nat := 1

/-- The reply to `lookup`, `mkdir` and `mknod`. -/
structure ReplyEntry : Type where
  ttl : Nat
  attr : FileAttr
  generation : Nat
  deriving DecidableEq, Repr

/-- The reply to `getattr` and `setattr`. -/
structure ReplyAttr : Type where
  ttl : Nat
  attr : FileAttr
  deriving DecidableEq, Repr

/-- The reply to `open`. -/
structure ReplyOpen : Type where
  fh : Nat
  flags : Nat
  deriving DecidableEq, Repr

/-- The reply to `create`. -/
structure ReplyCreated : Type where
  ttl : Nat
  attr : FileAttr
  generation : Nat
  fh : Nat
  flags : Nat
  deriving DecidableEq, Repr

/-- An entry of a `readdir` reply. -/
structure DirectoryEntry : Type where
  inode : Ino
  kind : FileType
  name : Str
  offset : Int
  deriving DecidableEq, Repr

/-- An entry of a `readdirplus` reply. -/
structure DirectoryEntryPlus : Type where
  inode : Ino
  generation : Nat
  kind : FileType
  name : Str
  offset : Int
  attr : FileAttr
  entryTtl : Nat
  attrTtl : Nat
  deriving DecidableEq, Repr

/-! ## Helpers -/

/-- The name the entry at NFC path `cp` is visible under. -/
def visibleName (cp : Str) : FsProg Str := do
  match ← perform (.rawName cp) with
  | some raw => return raw
  | none => return basename cp

/-- Whether the entry's name can be a local path component. -/
def isRepresentable (e : ListEntry) : Bool := isRepresentableComponent (basename e.path)

/-- List `parent` and take the entries over into the path map and the attribute cache. Entries
whose name cannot be a local path component are skipped. -/
def populateFromList (parent : Str) : FsProg (Except IpcError (List (Ino × ListEntry))) := do
  match ← ipc (.list parent) with
  | .error e => return .error e
  | .ok entries =>
    perform (.warnQuarantined ((entries.filter fun e => !isRepresentable e).map ListEntry.path))
    return .ok (← perform (.insertListed (entries.filter isRepresentable)))

/-- The attributes of `inode`, from the cache or from a listing of its parent. -/
def getOrFetchAttr (inode : Ino) : FsProg CachedAttr := do
  if inode = rootInode then
    return .root
  else
    match ← perform (.attrOf inode) with
    | some a => return a
    | none =>
      let path ← okOr (← perform (.pathFor inode)) .ENOENT
      let _ ← mapErr ipcErrorToErrno (← populateFromList (parentPrefix path))
      okOr (← perform (.attrOf inode)) .ENOENT

/-- The inode of the `..` entry of the directory at `dirInode`. -/
def dotdotInode (dirInode : Ino) (dirPath : Str) : FsProg Ino := do
  if dirInode = rootInode then
    return rootInode
  else
    perform (.intern (parentPrefix dirPath))

/-- Whether the path map and the attribute cache know `cp`. -/
def isCached (cp : Str) : FsProg Bool := do
  match ← perform (.inodeFor cp) with
  | some ino => perform (.hasAttr ino)
  | none => return false

/-- Fail when `name` would land on an existing entry at `cp` that is visible under a name with
different code points. -/
def refuseNfcCollision (parentPath cp name : Str) : FsProg Unit := do
  let visible ← visibleName cp
  if visible = name then
    return ()
  else if ← isCached cp then
    fail .EEXIST
  else
    let listed ← mapErr ipcErrorToErrno (← populateFromList parentPath)
    if listed.any fun e => e.2.path = cp then fail .EEXIST else return ()

/-- Remember `name` as the visible name of `cp` when it is not in NFC, forget any other otherwise. -/
def recordRawName (nfc : Str → Str) (cp name : Str) : FsProg Unit :=
  if isNfcName nfc name then perform (.rawRemove cp) else perform (.rawInsert cp name)

/-! ## Lookup and attributes -/

/-- The cached attributes of the entry at `cp`, with its inode. -/
def cachedEntry (cp : Str) : FsProg (Option (Ino × CachedAttr)) := do
  match ← perform (.inodeFor cp) with
  | some ino => return (← perform (.attrOf ino)).map fun a => (ino, a)
  | none => return none

/-- The reply for an entry. -/
def replyEntry (ino : Ino) (a : CachedAttr) : ReplyEntry := ⟨ttl, fileAttrFromCached ino a, 0⟩

/-- `Filesystem::lookup`. -/
def lookup (nfc : Str → Str) (parent : Ino) (name : OsStr) : FsProg ReplyEntry := do
  let name ← okOr name .EINVAL
  let parentPath ← okOr (← perform (.pathFor parent)) .ENOENT
  let cp := childPath nfc parentPath name
  let visible ← visibleName cp
  if visible ≠ name then
    fail .ENOENT
  else
    match ← cachedEntry cp with
    | some (ino, a) => return replyEntry ino a
    | none =>
      let listed ← mapErr ipcErrorToErrno (← populateFromList parentPath)
      match listed.find? fun e => e.2.path = cp with
      | some (ino, e) => return replyEntry ino (.ofListEntry e)
      | none => fail .ENOENT

/-- `Filesystem::getattr`. -/
def getattr (inode : Ino) : FsProg ReplyAttr := do
  let a ← getOrFetchAttr inode
  return ⟨ttl, fileAttrFromCached inode a⟩

/-! ## Open, read, write, sync, close -/

/-- `O_ACCMODE`, `O_WRONLY`, `O_RDWR` and `O_TRUNC`. -/
def isWritable (flags : UInt32) : Bool := flags &&& 3 == 1 || flags &&& 3 == 2

/-- Whether the open is for writing and truncates. -/
def isTruncating (flags : UInt32) : Bool := isWritable flags && flags &&& 0o1000 != 0

/-- A handle id: a prefix for debugging and the value of the counter. -/
def handleIdOf (pre : String) (n : Nat) : Str := pre.toList ++ Nat.toDigits 10 n

/-- The prefix of the handle ids of an open with these flags. -/
def openPrefix (flags : UInt32) : String := if isWritable flags then "wh-" else "rh-"

/-- Ask the daemon for the cache file of an open: an empty one for `O_TRUNC`, the materialised
content otherwise. -/
def openCacheFile (flags : UInt32) (handleId path : Str) : FsProg Str := do
  if isTruncating flags then
    return (← mapErr namespaceErrToErrno (← ipc (.openWriteBegin path (some handleId)))).cachePath
  else
    return (← mapErr ipcErrorToErrno (← ipc (.openRead handleId path))).cachePath

/-- Take over the length of the cache file that was opened, unless it was just emptied. Answers
whether the cached size was another. -/
def syncSize (flags : UInt32) (inode : Ino) (file : File) : FsProg Bool := do
  if isTruncating flags then
    return false
  else
    match ← perform (.fileLen file) with
    | some len => perform (.attrOpened inode len)
    | none => return false

/-- Put a handle into the table under a new number. -/
def publish (h : OpenHandle) : FsProg Nat := do
  let fh ← perform .nextFh
  perform (.handleInsert fh h)
  return fh

/-- `Filesystem::open`. -/
def «open» (inode : Ino) (flags : UInt32) : FsProg ReplyOpen := do
  let path ← okOr (← perform (.pathFor inode)) .ENOENT
  if path.isEmpty then
    fail .EISDIR
  else
    let handleId := handleIdOf (openPrefix flags) (← perform .nextHandleId)
    let cachePath ← openCacheFile flags handleId path
    perform (.attrEdit inode (if isTruncating flags then .truncated else .hydrated))
    let mode := if isWritable flags then OpenMode.write else OpenMode.read
    let file ← okOr (← perform (.openFile cachePath mode)) Errno.EIO
    let sizeWasStale ← syncSize flags inode file
    let fh ← publish ⟨file, handleId, path, cachePath, isTruncating flags⟩
    return ⟨fh, if sizeWasStale then fopenDirectIo else 0⟩

/-- `Filesystem::read`. -/
def read (fh offset size : Nat) : FsProg (List UInt8) := do
  ofExcept (← perform (.handleRead fh offset size))

/-- `Filesystem::write`. -/
def write (inode : Ino) (fh offset : Nat) (data : List UInt8) : FsProg Nat := do
  let n ← ofExcept (← perform (.handleWrite fh offset data))
  perform (.attrEdit inode (.grown (offset + n)))
  return n

/-- `Filesystem::fsync`. -/
def fsync (fh : Nat) (datasync : Bool) : FsProg Unit := do
  let claim ← ofExcept (← perform (.handleClaim fh datasync))
  if !claim.wasDirty then
    return ()
  else
    match ← ipc (.openWrite claim.handleId claim.remotePath claim.cachePath) with
    | .error e =>
      perform (.handleRestore fh)
      fail (ipcErrorToErrno e)
    | .ok _ => return ()

/-- Upload a handle's bytes if no upload has claimed them. -/
def commitIfDirty (h : OpenHandle) : FsProg Unit := do
  if h.dirty then
    let _ ← ipc (.openWrite h.handleId h.remotePath h.cachePath)
    return ()
  else
    return ()

/-- `Filesystem::release`. -/
def release (fh : Nat) : FsProg Unit := do
  match ← perform (.handleRemove fh) with
  | none => return ()
  | some h =>
    commitIfDirty h
    let _ ← ipc (.closeHandle h.handleId)
    return ()

/-! ## Directories -/

/-- The kind of a listed entry. -/
def entryKind (e : ListEntry) : FileType := if e.folder then .directory else .regularFile

/-- The name a listed entry is shown under. -/
def shownName (rawNames : HashMap Str Str) (e : ListEntry) : Str :=
  (rawNames.get e.path).getD (basename e.path)

/-- The entries of a directory: itself, its parent, and what was listed. -/
def directoryEntries (parent dotdot : Ino) (rawNames : HashMap Str Str)
    (listed : List (Ino × ListEntry)) : List DirectoryEntry :=
  ⟨parent, .directory, ['.'], 1⟩ :: ⟨dotdot, .directory, ['.', '.'], 2⟩ ::
    listed.mapIdx fun i e => ⟨e.1, entryKind e.2, shownName rawNames e.2, i + 3⟩

/-- `Filesystem::readdir`. -/
def readdir (parent : Ino) (offset : Int) : FsProg (List DirectoryEntry) := do
  let parentPath ← okOr (← perform (.pathFor parent)) .ENOENT
  let listed ← mapErr ipcErrorToErrno (← populateFromList parentPath)
  let dotdot ← dotdotInode parent parentPath
  let rawNames ← perform .cloneRawNames
  return (directoryEntries parent dotdot rawNames listed).drop offset.toNat

/-- The entries of a directory with their attributes. -/
def directoryEntriesPlus (parent dotdot : Ino) (parentAttr : CachedAttr)
    (rawNames : HashMap Str Str) (listed : List (Ino × ListEntry)) : List DirectoryEntryPlus :=
  ⟨parent, 0, .directory, ['.'], 1, fileAttrFromCached parent parentAttr, ttl, ttl⟩ ::
  ⟨dotdot, 0, .directory, ['.', '.'], 2, fileAttrFromCached dotdot parentAttr, ttl, ttl⟩ ::
    listed.mapIdx fun i e =>
      ⟨e.1, 0, entryKind e.2, shownName rawNames e.2, i + 3,
        fileAttrFromCached e.1 (.ofListEntry e.2), ttl, ttl⟩

/-- `Filesystem::readdirplus`. -/
def readdirplus (parent : Ino) (offset : Nat) : FsProg (List DirectoryEntryPlus) := do
  let parentPath ← okOr (← perform (.pathFor parent)) .ENOENT
  let listed ← mapErr ipcErrorToErrno (← populateFromList parentPath)
  let parentAttr ← getOrFetchAttr parent
  let dotdot ← dotdotInode parent parentPath
  let rawNames ← perform .cloneRawNames
  return (directoryEntriesPlus parent dotdot parentAttr rawNames listed).drop offset

/-! ## The namespace -/

/-- `Filesystem::mkdir`. -/
def mkdir (nfc : Str → Str) (parent : Ino) (name : OsStr) : FsProg ReplyEntry := do
  let name ← okOr name .EINVAL
  let parentPath ← okOr (← perform (.pathFor parent)) .ENOENT
  let cp := childPath nfc parentPath name
  refuseNfcCollision parentPath cp name
  mapErr namespaceErrToErrno (← ipc (.mkdir cp))
  let newIno ← perform (.intern cp)
  recordRawName nfc cp name
  let mtimeMs ← perform .nowMs
  perform (.attrInsert newIno (.newFolder mtimeMs))
  return replyEntry newIno (.newFolder mtimeMs)

/-- Drop the entry at `cp` from the path map, the raw names and the attribute cache. -/
def forgetEntry (cp : Str) : FsProg Unit := do
  let ino ← perform (.forget cp)
  perform (.forgetRawNames cp)
  match ino with
  | some inode => perform (.attrRemove inode)
  | none => return ()

/-- The location of a path's cache file. -/
def evictionPath (root cp : Str) : Str := joinPath root (trimStartSlashes cp)

/-- `Filesystem::unlink`. -/
def unlink (nfc : Str → Str) (cacheRoot : Option Str) (parent : Ino) (name : OsStr) :
    FsProg Unit := do
  let name ← okOr name .EINVAL
  let parentPath ← okOr (← perform (.pathFor parent)) .ENOENT
  let cp := childPath nfc parentPath name
  mapErr namespaceErrToErrno (← ipc (.unlink cp))
  forgetEntry cp
  match cacheRoot with
  | some root => perform (.removeFile (evictionPath root cp))
  | none => return ()

/-- `Filesystem::rmdir`. -/
def rmdir (nfc : Str → Str) (cacheRoot : Option Str) (parent : Ino) (name : OsStr) :
    FsProg Unit := do
  let name ← okOr name .EINVAL
  let parentPath ← okOr (← perform (.pathFor parent)) .ENOENT
  let cp := childPath nfc parentPath name
  mapErr namespaceErrToErrno (← ipc (.rmdir cp))
  forgetEntry cp
  match cacheRoot with
  | some root => perform (.removeDirAll (evictionPath root cp))
  | none => return ()

/-- `UnidriveFs::create_internal`. -/
def createInternal (nfc : Str → Str) (parent : Ino) (name : OsStr) :
    FsProg (Nat × FileAttr × Ino) := do
  let name ← okOr name .EINVAL
  let parentPath ← okOr (← perform (.pathFor parent)) .ENOENT
  let cp := childPath nfc parentPath name
  refuseNfcCollision parentPath cp name
  let handleId := handleIdOf "create-" (← perform .nextHandleId)
  let reply ← mapErr namespaceErrToErrno (← ipc (.create handleId cp))
  let file ← okOr (← perform (.openFile reply.cachePath .createTruncate)) Errno.EIO
  let newIno ← perform (.intern cp)
  recordRawName nfc cp name
  let mtimeMs ← perform .nowMs
  perform (.attrInsert newIno (.newFile mtimeMs))
  let fh ← publish ⟨file, reply.handleId, cp, reply.cachePath, true⟩
  return (fh, fileAttrFromCached newIno (.newFile mtimeMs), newIno)

/-- `Filesystem::create`. -/
def create (nfc : Str → Str) (parent : Ino) (name : OsStr) : FsProg ReplyCreated := do
  let (fh, attr, _) ← createInternal nfc parent name
  return ⟨ttl, attr, 0, fh, 0⟩

/-- Whether the mode of a `mknod` asks for something else than a regular file. -/
def isSpecialNode (mode : UInt32) : Bool :=
  mode &&& 0o170000 != 0 && mode &&& 0o170000 != 0o100000

/-- `Filesystem::mknod`: a `create` whose handle is closed at once. -/
def mknod (nfc : Str → Str) (parent : Ino) (name : OsStr) (mode : UInt32) :
    FsProg ReplyEntry := do
  if isSpecialNode mode then
    fail .EPERM
  else
    let (fh, attr, _) ← createInternal nfc parent name
    match ← perform (.handleRemove fh) with
    | some h =>
      let _ ← ipc (.openWrite h.handleId h.remotePath h.cachePath)
      let _ ← ipc (.closeHandle h.handleId)
      return ⟨ttl, attr, 0⟩
    | none => return ⟨ttl, attr, 0⟩

/-! ## Truncation -/

/-- Truncate to zero without a handle: an empty cache file from the daemon, uploaded at once. -/
def bareTruncateToZero (path : Str) : FsProg Unit := do
  let reply ← mapErr namespaceErrToErrno (← ipc (.openWriteBegin path none))
  let handleId := handleIdOf "trunc0-" (← perform .nextHandleId)
  let upload ← ipc (.openWrite handleId path reply.cachePath)
  let _ ← ipc (.closeHandle handleId)
  let _ ← mapErr ipcErrorToErrno upload
  return ()

/-- Truncate to `newSize` without a handle: the content from the daemon, cut locally, uploaded at
once. The handle id is closed whatever fails. -/
def bareTruncateToSize (path : Str) (newSize : Nat) : FsProg Unit := do
  let handleId := handleIdOf "truncN-" (← perform .nextHandleId)
  let reply ← mapErr ipcErrorToErrno (← ipc (.openRead handleId path))
  match ← perform (.openFile reply.cachePath .write) with
  | none =>
    let _ ← ipc (.closeHandle handleId)
    fail Errno.EIO
  | some file =>
    if ← perform (.setLen file newSize) then
      let upload ← ipc (.openWrite handleId path reply.cachePath)
      let _ ← ipc (.closeHandle handleId)
      let _ ← mapErr ipcErrorToErrno upload
      return ()
    else
      let _ ← ipc (.closeHandle handleId)
      fail Errno.EIO

/-- Truncate to `newSize`: the file of the open handle, or without one. -/
def truncate (path : Str) (fh : Option Nat) (newSize : Nat) : FsProg Unit := do
  match fh with
  | some fh => ofExcept (← perform (.handleSetLen fh newSize))
  | none =>
    if newSize = 0 then bareTruncateToZero path else bareTruncateToSize path newSize

/-- The part of `setattr` that changes the size. -/
def setattrSize (inode : Ino) (path : Str) (fh : Option Nat) (size : Option Nat) :
    FsProg Unit := do
  match size with
  | some newSize =>
    truncate path fh newSize
    perform (.attrEdit inode (if newSize = 0 then .truncated else .resized newSize))
  | none => return ()

/-- `Filesystem::setattr`: the size is changed, everything else accepted and ignored. -/
def setattr (inode : Ino) (fh : Option Nat) (size : Option Nat) : FsProg ReplyAttr := do
  let path ← okOr (← perform (.pathFor inode)) .ENOENT
  setattrSize inode path fh size
  let a ← getOrFetchAttr inode
  return ⟨ttl, fileAttrFromCached inode a⟩

/-! ## Rename -/

/-- `Filesystem::rename`. -/
def rename (nfc : Str → Str) (oldParent : Ino) (oldName : OsStr) (newParent : Ino)
    (newName : OsStr) : FsProg Unit := do
  let oldName ← okOr oldName .EINVAL
  let newName ← okOr newName .EINVAL
  let parents ← perform (.pathForBoth oldParent newParent)
  let oldParentPath ← okOr parents.1 .ENOENT
  let newParentPath ← okOr parents.2 .ENOENT
  let oldPath := childPath nfc oldParentPath oldName
  let newPath := childPath nfc newParentPath newName
  refuseNfcCollision newParentPath newPath newName
  mapErr namespaceErrToErrno (← ipc (.rename oldPath newPath))
  perform (.renamePaths oldPath newPath)
  perform (.followRenames oldPath newPath)
  perform (.renameRawNames oldPath newPath)
  recordRawName nfc newPath newName

/-! ## Change events -/

/-- `ViewCache::apply`. -/
def apply (change : Invalidation) : FsProg Unit := do
  let unsent ← perform .unsentPaths
  perform (.applyInvalidation change unsent)

/-! ## The service -/

/-- The requests of the kernel, and the change events. -/
inductive Op : Type where
  | lookup (parent : Ino) (name : OsStr)
  | getattr (inode : Ino)
  | «open» (inode : Ino) (flags : UInt32)
  | read (fh offset size : Nat)
  | write (inode : Ino) (fh offset : Nat) (data : List UInt8)
  | fsync (fh : Nat) (datasync : Bool)
  | release (fh : Nat)
  | readdir (parent : Ino) (offset : Int)
  | readdirplus (parent : Ino) (offset : Nat)
  | mkdir (parent : Ino) (name : OsStr)
  | unlink (parent : Ino) (name : OsStr)
  | rmdir (parent : Ino) (name : OsStr)
  | create (parent : Ino) (name : OsStr)
  | mknod (parent : Ino) (name : OsStr) (mode : UInt32)
  | setattr (inode : Ino) (fh : Option Nat) (size : Option Nat)
  | rename (oldParent : Ino) (oldName : OsStr) (newParent : Ino) (newName : OsStr)
  | apply (change : Invalidation)
  deriving DecidableEq, Repr

/-- What a request is answered with. -/
inductive Reply : Type where
  | entry (r : ReplyEntry)
  | attr (r : ReplyAttr)
  | opened (r : ReplyOpen)
  | data (bytes : List UInt8)
  | written (n : Nat)
  | directory (entries : List DirectoryEntry)
  | directoryPlus (entries : List DirectoryEntryPlus)
  | created (r : ReplyCreated)
  | done
  deriving DecidableEq, Repr

/-- The program that answers a request. -/
def Op.prog (nfc : Str → Str) (cacheRoot : Option Str) : Op → FsProg Reply
  | lookup parent name => do return .entry (← UnidriveMount.lookup nfc parent name)
  | getattr inode => do return .attr (← UnidriveMount.getattr inode)
  | «open» inode flags => do return .opened (← UnidriveMount.open inode flags)
  | read fh offset size => do return .data (← UnidriveMount.read fh offset size)
  | write inode fh offset data => do
    return .written (← UnidriveMount.write inode fh offset data)
  | fsync fh datasync => do
    UnidriveMount.fsync fh datasync
    return .done
  | release fh => do
    UnidriveMount.release fh
    return .done
  | readdir parent offset => do return .directory (← UnidriveMount.readdir parent offset)
  | readdirplus parent offset => do
    return .directoryPlus (← UnidriveMount.readdirplus parent offset)
  | mkdir parent name => do return .entry (← UnidriveMount.mkdir nfc parent name)
  | unlink parent name => do
    UnidriveMount.unlink nfc cacheRoot parent name
    return .done
  | rmdir parent name => do
    UnidriveMount.rmdir nfc cacheRoot parent name
    return .done
  | create parent name => do return .created (← UnidriveMount.create nfc parent name)
  | mknod parent name mode => do return .entry (← UnidriveMount.mknod nfc parent name mode)
  | setattr inode fh size => do return .attr (← UnidriveMount.setattr inode fh size)
  | rename oldParent oldName newParent newName => do
    UnidriveMount.rename nfc oldParent oldName newParent newName
    return .done
  | apply change => do
    UnidriveMount.apply change
    return .done

/-- The filesystem as a service. -/
def fsService (nfc : Str → Str) (cacheRoot : Option Str) :
    Service Act Act.Ret FsState Errno Op Reply where
  machine := fsMachine
  prog := Op.prog nfc cacheRoot

/-- An entry of the log of the filesystem. -/
abbrev FsEvent := Event Act.Ret Errno Op Reply

/-- A request of the filesystem that was served. -/
abbrev FsServed := Served Act.Ret Errno Op Reply

/-- A configuration of the filesystem. -/
abbrev FsConfig := Config Act.Ret FsState Errno Op Reply

/-- The filesystem of the concrete runs: every name is in NFC as it is, and there is no cache folder
to evict from. -/
abbrev plainFs : Service Act Act.Ret FsState Errno Op Reply := fsService id none

end UnidriveMount
