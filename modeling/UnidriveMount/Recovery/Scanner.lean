import UnidriveMount.Fs.Ops
import UnidriveMount.Lib.Worklist

/-!
# The crash-recovery scan

`cache_scanner.rs`: at start-up the cache folder is walked, and a file that was modified after its last
upload is uploaded again. The folder is a finite tree in which a directory, a file or an entry may
refuse to be read. Paths are canonical, so they are what they name: a link is never followed. File names
are sequences of characters and of bytes that are no UTF-8.
-/

namespace UnidriveMount

open Lib
open Lib.Prog (ofExcept)

/-! ## Paths -/

/-- A piece of a file name: a character, or bytes that are no character, and for which `to_string_lossy`
shows one U+FFFD (a maximal invalid sequence). -/
inductive NameChunk : Type where
  | char (c : Char)
  | raw (bytes : List UInt8)
  deriving DecidableEq, Repr

/-- The name of a directory entry. -/
abbrev FileName := List NameChunk

/-- A canonical path: the names below `/`. -/
abbrev PathBuf := List FileName

/-- A file name that is UTF-8. -/
def FileName.ofStr (s : Str) : FileName := s.map .char

/-- What `to_string_lossy` shows for a piece of a name. -/
def NameChunk.lossy : NameChunk → Char
  | char c => c
  | raw _ => '\uFFFD'

/-- `to_string_lossy` of a relative path. -/
def relToStringLossy (rel : PathBuf) : Str :=
  List.intercalate ['/'] (rel.map fun name => name.map NameChunk.lossy)

/-- `to_string_lossy` of an absolute path. -/
def PathBuf.toStringLossy (p : PathBuf) : Str := '/' :: relToStringLossy p

/-- `Path::strip_prefix`. -/
def PathBuf.stripPrefix (p root : PathBuf) : Option PathBuf :=
  if root <+: p then some (p.drop root.length) else none

/-! ## The cache folder -/

/-- What is in the cache folder. `resolves`: the path can be canonicalized. A file has the time of its last
modification, in nanoseconds since 1970, if it can be read. The iteration over a directory fails at a
`broken` entry. -/
inductive CacheNode : Type where
  | file (resolves : Bool) (modified : Option Int)
  | dir (resolves readable : Bool) (entries : List (FileName × CacheNode))
  | symlink
  | other
  | broken

/-- `DirEntry::file_type`. -/
inductive FileKind : Type where
  | file
  | dir
  | symlink
  | other
  deriving DecidableEq, Repr

namespace CacheNode

/-- The type of an entry, if the iteration gets to it. -/
def kind : CacheNode → Option FileKind
  | file .. => some .file
  | dir .. => some .dir
  | symlink => some .symlink
  | other => some .other
  | broken => none

/-- The path of the node can be canonicalized. -/
def resolves : CacheNode → Bool
  | file resolves _ => resolves
  | dir resolves .. => resolves
  | _ => true

/-- The node at a relative path. -/
def nodeAt : CacheNode → PathBuf → Option CacheNode
  | n, [] => some n
  | dir _ _ entries, name :: rel => (entries.lookup name).bind fun n => n.nodeAt rel
  | _, _ :: _ => none

/-- No directory has two entries of one name. -/
inductive Distinct : CacheNode → Prop where
  | file {resolves : Bool} {modified : Option Int} : Distinct (.file resolves modified)
  | dir {resolves readable : Bool} {entries : List (FileName × CacheNode)}
    (hnames : (entries.map Prod.fst).Nodup) (hentries : ∀ e ∈ entries, e.2.Distinct) :
    Distinct (.dir resolves readable entries)
  | symlink : Distinct .symlink
  | other : Distinct .other
  | broken : Distinct .broken

mutual
/-- How many directories there are. -/
def dirs : CacheNode → Nat
  | .dir _ _ entries => dirsIn entries + 1
  | _ => 0

/-- How many directories there are in some entries. -/
def dirsIn : List (FileName × CacheNode) → Nat
  | [] => 0
  | (_, n) :: entries => n.dirs + dirsIn entries
end

end CacheNode

/-- The cache folder, at its canonical path. -/
structure CacheRoot : Type where
  path : PathBuf
  readable : Bool
  entries : List (FileName × CacheNode)
  distinct : (CacheNode.dir true readable entries).Distinct

namespace CacheRoot

variable (root : CacheRoot)

/-- The cache folder itself. -/
def node : CacheNode := .dir true root.readable root.entries

/-- The node at a path in the folder. -/
def nodeAt (p : PathBuf) : Option CacheNode := (p.stripPrefix root.path).bind root.node.nodeAt

/-- `read_dir`. -/
def readDir (p : PathBuf) : Option (List (FileName × Option FileKind)) :=
  match root.nodeAt p with
  | some (.dir _ true entries) => some (entries.map fun e => (e.1, e.2.kind))
  | _ => none

/-- `canonicalize` of a path whose directory is canonical and that is no link. -/
def canonicalize (p : PathBuf) : Option PathBuf :=
  match root.nodeAt p with
  | some n => if n.resolves then some p else none
  | none => none

/-- `symlink_metadata`: the type and the time of modification of a file. -/
def symlinkMetadata (p : PathBuf) : Option (FileKind × Int) :=
  match root.nodeAt p with
  | some (.file _ (some modified)) => some (.file, modified)
  | _ => none

end CacheRoot

/-! ## The walk -/

/-- `ScannerError`: the walk over the cache folder failed. -/
inductive ScannerError : Type where
  | walk
  deriving DecidableEq, Repr

/-- The remote path of a file at a relative path. -/
def remoteOf (rel : PathBuf) : Str :=
  '/' :: (relToStringLossy rel).map fun c => if c = '\\' then '/' else c

section
variable (root : CacheRoot)

/-- One entry of the directory `dir`: the files it adds, with their remote paths, and the directories it
pushes. -/
def visitEntry (dir : PathBuf) (entry : FileName × Option FileKind) :
    Except ScannerError (List (PathBuf × Str) × List PathBuf) :=
  match entry.2 with
  | none => .error .walk
  | some .symlink => .ok ([], [])
  | some .dir =>
    match root.canonicalize (dir ++ [entry.1]) with
    | none => .ok ([], [])
    | some canonDir => if root.path <+: canonDir then .ok ([], [canonDir]) else .ok ([], [])
  | some .other => .ok ([], [])
  | some .file =>
    match root.canonicalize (dir ++ [entry.1]) with
    | none => .ok ([], [])
    | some canonPath =>
      if !decide (root.path <+: canonPath) then .ok ([], [])
      else match canonPath.stripPrefix root.path with
        | none => .ok ([], [])
        | some rel => .ok ([(canonPath, remoteOf rel)], [])

/-- The entries of the directory `dir`, in order, up to a failure. -/
def visitEntries (dir : PathBuf) :
    List (FileName × Option FileKind) → Except ScannerError (List (PathBuf × Str) × List PathBuf)
  | [] => .ok ([], [])
  | entry :: entries => do
    let (files, dirs) ← visitEntry root dir entry
    let (files', dirs') ← visitEntries dir entries
    return (files ++ files', dirs ++ dirs')

/-- One directory of the walk. -/
def visitDir (dir : PathBuf) : Except ScannerError (List (PathBuf × Str) × List PathBuf) :=
  match root.readDir dir with
  | none => .ok ([], [])
  | some entries => visitEntries root dir entries

/-- `collect_files`: the walk with its stack. There are never more directories on it than the folder has
(`collectFiles_drains`). -/
def collectFiles : Except ScannerError (List (PathBuf × Str)) :=
  (drain (visitDir root) root.node.dirs [root.path] []).getD (.ok [])

/-- The value of an `i64` cast. -/
def asI64 (i : Int) : Int := Int.bmod i (2 ^ 64)

/-- `mtime_ms`: when the file was modified, in milliseconds since 1970. -/
def mtimeMs (canonP : PathBuf) : Option Int :=
  if !decide (root.path <+: canonP) then none
  else match root.symlinkMetadata canonP with
    | none => none
    | some (kind, modified) =>
      if kind = .symlink then none
      else if modified < 0 then none
      else some (asI64 (modified / 1000000))

/-! ## The replay -/

/-- Programs over the requests to the daemon, one at a time. -/
abbrev ScanProg := Prog Verb (fun verb => Except IpcError verb.Reply) ScannerError

/-- One request, and how it was answered. -/
def ask (verb : Verb) : ScanProg (Except IpcError verb.Reply) := Prog.perform verb

/-- The loop over the collected files, with the number of handle ids used and of files replayed. -/
def replayFiles : List (PathBuf × Str) → Nat → Nat → ScanProg Nat
  | [], _, replayed => pure replayed
  | (cachePath, remotePath) :: files, handleN, replayed =>
    match mtimeMs root cachePath with
    | none => replayFiles files handleN replayed
    | some cacheMtimeMs => do
      match ← ask (.lastSynced remotePath) with
      | .error _ => replayFiles files handleN replayed
      | .ok watermark =>
        let watermark : Int := watermark
        if cacheMtimeMs < watermark then replayFiles files handleN replayed
        else do
          let handleId := handleIdOf "recovery-" (handleN + 1)
          match ← ask (.openWrite handleId remotePath cachePath.toStringLossy) with
          | .ok _ => replayFiles files (handleN + 1) (replayed + 1)
          | .error _ => replayFiles files (handleN + 1) replayed

end

/-- `scan_and_replay`, of a cache folder that may not exist. -/
def scanAndReplay (cacheRoot : Option CacheRoot) : ScanProg Nat :=
  match cacheRoot with
  | none => pure 0
  | some root => do
    let files ← ofExcept (collectFiles root)
    replayFiles root files 0 0

end UnidriveMount
