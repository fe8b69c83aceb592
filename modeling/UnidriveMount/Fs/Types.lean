import UnidriveMount.Ipc.Verb
import UnidriveMount.Lib.HashMap

/-!
# Data of the filesystem

The values `fuse_fs.rs` works on: cached attributes and what is made of them for the kernel, the
errnos and how the daemon's errors become errnos, the local cache files, and the open handles.
Ownership (`uid`, `gid`) is not modelled: nothing reads it.
-/

namespace UnidriveMount

open Lib

/-! ## Errors -/

/-- The errnos the filesystem answers with. -/
inductive Errno : Type where
  | ENOENT | EIO | EBADF | EBUSY | EEXIST | ENOTDIR | EISDIR | EINVAL | EPERM | ENOTEMPTY
  deriving DecidableEq, Repr

/-- The errno of a failed call. -/
def ipcErrorToErrno : IpcError → Errno
  | .io _ => Errno.EIO
  | .busy => .EBUSY
  | .serverError msg => if msg = "not_found".toList then .ENOENT else Errno.EIO
  | .malformed _ => Errno.EIO
  | .unknown _ => Errno.EIO

/-- The errno of a failed namespace verb: the engine's typed tokens, the rest as for any call. -/
def namespaceErrToErrno : IpcError → Errno
  | .serverError msg =>
    if msg = "parent_not_found".toList then .ENOENT
    else if msg = "unknown_path".toList then .ENOENT
    else if msg = "path_is_folder".toList then .EISDIR
    else if msg = "path_is_file".toList then .ENOTDIR
    else if msg = "not_empty".toList then .ENOTEMPTY
    else if msg = "path_exists".toList then .EEXIST
    else if msg = "old_path_not_found".toList then .ENOENT
    else if msg = "new_parent_not_found".toList then .ENOENT
    else if msg = "new_path_exists".toList then .EEXIST
    else ipcErrorToErrno (.serverError msg)
  | e => ipcErrorToErrno e

/-! ## Attributes -/

/-- The attributes cached for an inode. The remote time is the provider's, set only while the entry
is untouched locally or is a folder, and preferred over `mtimeMs`. -/
structure CachedAttr : Type where
  size : Nat
  mtimeMs : Int
  remoteMtimeMs : Option Int
  isFolder : Bool
  isHydrated : Bool
  pendingUpload : Bool
  deriving DecidableEq, Repr

/-- `CachedAttr::from(&ListEntry)`. -/
def CachedAttr.ofListEntry (e : ListEntry) : CachedAttr where
  size := e.size
  mtimeMs := e.mtimeMs
  remoteMtimeMs := if e.folder || (!e.hydrated && !e.pendingUpload) then e.remoteModifiedMs else none
  isFolder := e.folder
  isHydrated := e.hydrated
  pendingUpload := e.pendingUpload

/-- The attributes of the root, a directory whose size and times nothing depends on. -/
def CachedAttr.root : CachedAttr := ⟨0, 0, none, true, false, false⟩

/-- The attributes of an entry made by `mkdir`. -/
def CachedAttr.newFolder (mtimeMs : Int) : CachedAttr := ⟨0, mtimeMs, none, true, false, false⟩

/-- The attributes of an entry made by `create`. -/
def CachedAttr.newFile (mtimeMs : Int) : CachedAttr := ⟨0, mtimeMs, none, false, true, true⟩

/-- The changes operations make to an entry's cached attributes, the modified time with them. -/
inductive AttrEdit : Type where
  | truncated
  | hydrated
  | grown (newEnd : Nat)
  | resized (newSize : Nat)
  deriving DecidableEq, Repr

/-- The attributes after a change made at the time `now`. -/
def AttrEdit.apply (now : Int) : AttrEdit → CachedAttr → CachedAttr
  | truncated, a => { a with size := 0, mtimeMs := now, remoteMtimeMs := none }
  | hydrated, a => { a with isHydrated := true, remoteMtimeMs := none }
  | grown newEnd, a => { a with size := max a.size newEnd, mtimeMs := now, remoteMtimeMs := none }
  | resized newSize, a =>
    { a with size := newSize, mtimeMs := now, isHydrated := true, remoteMtimeMs := none }

/-- The kind of an entry. -/
inductive FileType : Type where
  | directory
  | regularFile
  deriving DecidableEq, Repr

/-- What the kernel is told about an inode. The three times are one. -/
structure FileAttr : Type where
  ino : Nat
  size : Nat
  blocks : Nat
  secs : Int
  nsec : Nat
  kind : FileType
  perm : Nat
  nlink : Nat
  rdev : Nat
  blksize : Nat
  deriving DecidableEq, Repr

/-- `file_attr_from_cached`. -/
def fileAttrFromCached (ino : Nat) (c : CachedAttr) : FileAttr :=
  let ms := c.remoteMtimeMs.getD c.mtimeMs
  { ino := ino
    size := c.size
    blocks := (c.size + 511) / 512
    secs := Int.fdiv ms 1000
    nsec := (Int.fmod ms 1000 * 1000000).toNat
    kind := if c.isFolder then .directory else .regularFile
    perm := if c.isFolder then 0o755 else 0o644
    nlink := if c.isFolder then 2 else 1
    rdev := 0
    blksize := 4096 }

@[simp] theorem fileAttrFromCached_size (ino : Nat) (c : CachedAttr) :
    (fileAttrFromCached ino c).size = c.size := rfl

/-! ## Cache files -/

/-- The largest offset the system takes (`i64::MAX`). -/
def maxOffset : Nat := 2 ^ 63 - 1

/-- The local cache folder: which file a path names, and the bytes of the files. -/
structure Disk : Type where
  names : HashMap Str Nat
  contents : HashMap Nat (List UInt8)
  next : Nat

/-- An empty cache folder. -/
def Disk.empty : Disk := ⟨∅, ∅, 0⟩

/-- An open file of the cache folder. -/
structure File : Type where
  no : Nat
  writable : Bool
  deriving DecidableEq, Repr

/-- How a cache file is opened. -/
inductive OpenMode : Type where
  | read
  | write
  | createTruncate
  deriving DecidableEq, Repr

/-- The bytes of a file. -/
def Disk.bytes (d : Disk) (f : File) : List UInt8 := (d.contents.get f.no).getD []

/-- Open the file at `path`: it must exist unless it is created, and is emptied when truncated. -/
def Disk.openFile (d : Disk) (path : Str) (mode : OpenMode) : Option File × Disk :=
  match d.names.get path, mode with
  | some no, .read => (some ⟨no, false⟩, d)
  | some no, .write => (some ⟨no, true⟩, d)
  | some no, .createTruncate => (some ⟨no, true⟩, { d with contents := d.contents.insert no [] })
  | none, .createTruncate =>
    (some ⟨d.next, true⟩,
      ⟨d.names.insert path d.next, d.contents.insert d.next [], d.next + 1⟩)
  | none, _ => (none, d)

/-- `n` bytes at `offset`, filling the gap before it with zeros. -/
def writeAt (bytes : List UInt8) (offset : Nat) (data : List UInt8) : List UInt8 :=
  let head := bytes.take offset
  head ++ List.replicate (offset - head.length) 0 ++ data ++ bytes.drop (offset + data.length)

/-- Exactly `n` bytes: the rest cut off, or zeros added. -/
def setLength (bytes : List UInt8) (n : Nat) : List UInt8 :=
  bytes.take n ++ List.replicate (n - bytes.length) 0

/-- `data` written into the file; an empty write changes nothing. -/
def Disk.write (d : Disk) (f : File) (offset : Nat) (data : List UInt8) : Disk :=
  if data.isEmpty then d
  else { d with contents := d.contents.insert f.no (writeAt (d.bytes f) offset data) }

/-- The file cut or extended to `n` bytes. -/
def Disk.setLen (d : Disk) (f : File) (n : Nat) : Disk :=
  { d with contents := d.contents.insert f.no (setLength (d.bytes f) n) }

/-- The name `path` dropped. -/
def Disk.removeFile (d : Disk) (path : Str) : Disk := { d with names := d.names.remove path }

/-- Every name at or below `path` dropped. -/
def Disk.removeDirAll (d : Disk) (path : Str) : Disk :=
  { d with names := d.names.retain fun k _ => ¬ AtOrBelow path k }

/-- `PathBuf::join` of a relative path. -/
def joinPath (root rel : Str) : Str :=
  if root.isEmpty || root.getLast? = some '/' then root ++ rel else root ++ '/' :: rel

/-! ## Open handles -/

/-- An open handle of the table. `dirty` marks bytes that no upload has claimed yet. -/
structure OpenHandle : Type where
  file : File
  handleId : Str
  remotePath : Str
  cachePath : Str
  dirty : Bool
  deriving DecidableEq, Repr

/-- `str::strip_prefix`. -/
def stripPrefix (pre s : Str) : Option Str := if pre <+: s then some (s.drop pre.length) else none

/-- `str::strip_suffix`. -/
def stripSuffix (suf s : Str) : Option Str :=
  if suf <:+ s then some (s.take (s.length - suf.length)) else none

/-- Where the engine moves the handle's cache file when the remote path becomes `newRemote`: the
same relative path below the cache folder, if the cache path mirrors the remote one. -/
def OpenHandle.movedCachePath (h : OpenHandle) (newRemote : Str) : Str :=
  match stripSuffix (trimStartSlashes h.remotePath) h.cachePath with
  | some base => base ++ trimStartSlashes newRemote
  | none => h.cachePath

/-- `OpenHandle::follow_rename`. -/
def OpenHandle.followRename (h : OpenHandle) (old new : Str) : OpenHandle :=
  match stripPrefix old h.remotePath with
  | some rest =>
    if rest = [] ∨ ['/'] <+: rest then
      { h with remotePath := new ++ rest, cachePath := h.movedCachePath (new ++ rest) }
    else h
  | none => h

/-- A handle at or below the renamed path follows. -/
theorem OpenHandle.followRename_of_atOrBelow {h : OpenHandle} {old : Str} (new : Str)
    (hp : AtOrBelow old h.remotePath) :
    h.followRename old new =
      { h with
        remotePath := moved old new h.remotePath
        cachePath := h.movedCachePath (moved old new h.remotePath) } := by
  obtain ⟨rest, hrest, hp⟩ := atOrBelow_iff.1 hp
  have hstrip : stripPrefix old h.remotePath = some rest := by
    rw [hp, stripPrefix, if_pos (List.prefix_append ..), List.drop_left]
  have htail : rest = [] ∨ ['/'] <+: rest := by
    rcases hrest with rfl | ⟨r, rfl⟩
    · exact .inl rfl
    · exact .inr ⟨r, rfl⟩
  have hmoved : moved old new h.remotePath = new ++ rest := by rw [hp, moved_append hrest]
  rw [hmoved, followRename, hstrip]
  exact if_pos htail

/-- Every other handle stays as it is. -/
theorem OpenHandle.followRename_of_not {h : OpenHandle} {old : Str} (new : Str)
    (hp : ¬ AtOrBelow old h.remotePath) : h.followRename old new = h := by
  unfold followRename stripPrefix
  split
  · next rest hrest =>
    split at hrest
    · next hpre =>
      obtain ⟨t, ht⟩ := hpre
      cases hrest
      rw [← ht, List.drop_left]
      refine if_neg fun htail => hp ?_
      rw [← ht, atOrBelow_append_iff]
      rcases htail with rfl | ⟨r, rfl⟩
      · exact .inl rfl
      · exact .inr ⟨r, rfl⟩
    · cases hrest
  · rfl

theorem OpenHandle.followRename_remotePath (h : OpenHandle) (old new : Str) :
    (h.followRename old new).remotePath = moved old new h.remotePath := by
  by_cases hp : AtOrBelow old h.remotePath
  · rw [followRename_of_atOrBelow new hp]
  · rw [followRename_of_not new hp, moved_of_not hp]

@[simp] theorem OpenHandle.followRename_handleId (h : OpenHandle) (old new : Str) :
    (h.followRename old new).handleId = h.handleId := by
  by_cases hp : AtOrBelow old h.remotePath
  · rw [followRename_of_atOrBelow new hp]
  · rw [followRename_of_not new hp]

@[simp] theorem OpenHandle.followRename_dirty (h : OpenHandle) (old new : Str) :
    (h.followRename old new).dirty = h.dirty := by
  by_cases hp : AtOrBelow old h.remotePath
  · rw [followRename_of_atOrBelow new hp]
  · rw [followRename_of_not new hp]

/-! ## Change events -/

/-- What a change event says about the view (`subscribe.rs`). -/
inductive Invalidation : Type where
  | all
  | paths (roots : List Str)
  deriving DecidableEq, Repr

end UnidriveMount
