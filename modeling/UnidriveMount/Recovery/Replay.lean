import UnidriveMount.Recovery.RemotePaths

/-!
# What the scan replays

Whatever the daemon answers, the scan asks for the watermark of every file whose time of modification it
could read, once and in an order that depends on the folder alone, and uploads those modified since
(`scan_replays_due`). What is done for a file depends on nothing that happens to another.
-/

namespace UnidriveMount

open Lib
open Lib.Prog (ofExcept)

/-! ## Runs -/

/-- The daemon, which may answer every request as it likes. -/
def daemonMachine : Machine Verb (fun verb => Except IpcError verb.Reply) Unit where
  World := (verb : Verb) → Except IpcError verb.Reply
  ready _ _ := true
  run verb w s := (w verb, s)

/-- A request with its answer. -/
abbrev Answered := Occ fun verb : Verb => Except IpcError verb.Reply

/-- What was done for a file whose time of modification could be read: the answer to its `last_synced`, and to
its `open_write` if there was one. -/
structure Replay : Type where
  cachePath : PathBuf
  remotePath : Str
  mtime : Int
  watermark : Except IpcError Int
  upload : Option (Except IpcError OpenReply)

namespace Replay

/-- The file. -/
def file (v : Replay) : PathBuf × Str × Int := (v.cachePath, v.remotePath, v.mtime)

/-- The file was modified since its last upload, as far as the daemon knows. -/
def due (v : Replay) : Bool :=
  match v.watermark with
  | .ok watermark => decide (watermark ≤ v.mtime)
  | .error _ => false

/-- The upload of the file, as the `n`-th one. -/
def sent (v : Replay) (n : Nat) : Verb :=
  .openWrite (handleIdOf "recovery-" n) v.remotePath v.cachePath.toStringLossy

/-- The requests for the file, `n` handle ids having been used. -/
def requests (v : Replay) (n : Nat) : List Answered :=
  ⟨.lastSynced v.remotePath, v.watermark⟩ :: match v.upload with
    | some answer => [⟨.openWrite (handleIdOf "recovery-" (n + 1)) v.remotePath v.cachePath.toStringLossy,
        answer⟩]
    | none => []

end Replay

/-- The requests for files, one after the other, `n` handle ids having been used. -/
def requestsOf : List Replay → Nat → List Answered
  | [], _ => []
  | v :: vs, n => v.requests n ++ requestsOf vs (if v.upload.isSome then n + 1 else n)

/-- The upload a request is. -/
def Verb.upload? : Verb → Option Verb
  | .openWrite handleId path cachePath => some (.openWrite handleId path cachePath)
  | _ => none

/-- The request is an upload that was answered well. -/
def uploaded : Answered → Bool
  | ⟨.openWrite .., .ok _⟩ => true
  | _ => false

/-- The files whose time of modification can be read, in the order the scan comes to them. -/
def scanned (root : CacheRoot) (files : List (PathBuf × Str)) : List (PathBuf × Str × Int) :=
  files.filterMap fun x => (mtimeMs root x.1).map fun mtime => (x.1, x.2, mtime)

/-- The requests for files were made, and answered as recorded. -/
structure Replays (files : List (PathBuf × Str × Int)) (n : Nat) (vs : List Replay) (es : List Answered) :
    Prop where
  files : vs.map Replay.file = files
  due : ∀ v ∈ vs, v.upload.isSome = v.due
  requests : es = requestsOf vs n

section
variable {root : CacheRoot} {es : List Answered} {res : Except ScannerError Nat} {s s' : Unit}

section
variable {files : List (PathBuf × Str × Int)} {n : Nat} {vs : List Replay} {cachePath : PathBuf}
  {remotePath : Str} {mtime : Int} {watermark : Except IpcError Int}

/-- A file that is not due is asked about. -/
theorem Replays.skip (h : Replays files n vs es)
    (hdue : (⟨cachePath, remotePath, mtime, watermark, none⟩ : Replay).due = false) :
    Replays ((cachePath, remotePath, mtime) :: files) n
      (⟨cachePath, remotePath, mtime, watermark, none⟩ :: vs) (⟨.lastSynced remotePath, watermark⟩ :: es) where
  files := congrArg _ h.files
  due := List.forall_mem_cons.2 ⟨hdue.symm, h.due⟩
  requests := congrArg _ h.requests

/-- A file that is due is asked about and uploaded. -/
theorem Replays.send {answer : Except IpcError OpenReply} (h : Replays files (n + 1) vs es)
    (hdue : (⟨cachePath, remotePath, mtime, watermark, some answer⟩ : Replay).due = true) :
    Replays ((cachePath, remotePath, mtime) :: files) n
      (⟨cachePath, remotePath, mtime, watermark, some answer⟩ :: vs) (⟨.lastSynced remotePath, watermark⟩ ::
        ⟨.openWrite (handleIdOf "recovery-" (n + 1)) remotePath cachePath.toStringLossy, answer⟩ :: es) where
  files := congrArg _ h.files
  due := List.forall_mem_cons.2 ⟨hdue.symm, h.due⟩
  requests := congrArg (fun es => _ :: _ :: es) h.requests

end

/-- **The loop over the collected files.** -/
theorem exec_replayFiles {files : List (PathBuf × Str)} {n replayed : Nat}
    (hx : Exec daemonMachine (replayFiles root files n replayed) s es res s') :
    ∃ vs, Replays (scanned root files) n vs es ∧ res = .ok (replayed + es.countP uploaded) := by
  induction files generalizing n replayed es s with
  | nil =>
    obtain ⟨rfl, rfl, -⟩ := exec_ret_iff.1 hx
    exact ⟨[], ⟨rfl, fun v hv => (by cases hv), rfl⟩, rfl⟩
  | cons x files ih =>
    obtain ⟨cachePath, remotePath⟩ := x
    unfold replayFiles at hx
    cases hm : mtimeMs root cachePath with
    | none =>
      rw [hm] at hx
      have hscanned : scanned root ((cachePath, remotePath) :: files) = scanned root files := by
        simp [scanned, hm]
      rw [hscanned]
      exact ih hx
    | some mtime =>
      rw [hm] at hx
      have hscanned : scanned root ((cachePath, remotePath) :: files) =
          (cachePath, remotePath, mtime) :: scanned root files := by
        simp [scanned, hm]
      rw [hscanned]
      obtain ⟨(watermark : Except IpcError Int), s₁, es₁, -, rfl, h₁⟩ := exec_perform_bind_iff.1 hx
      cases watermark with
      | error e =>
        obtain ⟨vs, hvs, rfl⟩ := ih h₁
        exact ⟨_, hvs.skip rfl, rfl⟩
      | ok watermark =>
        change Exec daemonMachine (if mtime < watermark then _ else _) s₁ es₁ res s' at h₁
        split at h₁
        · next hlt =>
          obtain ⟨vs, hvs, rfl⟩ := ih h₁
          exact ⟨_, hvs.skip (decide_eq_false (Int.not_le.2 hlt)), rfl⟩
        · next hlt =>
          obtain ⟨answer, s₂, es₂, -, rfl, h₂⟩ := exec_perform_bind_iff.1 h₁
          have hdue : decide (watermark ≤ mtime) = true := decide_eq_true (Int.not_lt.1 hlt)
          cases answer with
          | error e =>
            obtain ⟨vs, hvs, rfl⟩ := ih h₂
            exact ⟨_, hvs.send hdue, rfl⟩
          | ok reply =>
            obtain ⟨vs, hvs, rfl⟩ := ih h₂
            refine ⟨_, hvs.send hdue, congrArg Except.ok ?_⟩
            have hcount : (⟨.lastSynced remotePath, .ok watermark⟩ ::
                ⟨.openWrite (handleIdOf "recovery-" (n + 1)) remotePath cachePath.toStringLossy, .ok reply⟩ ::
                es₂ : List Answered).countP uploaded = es₂.countP uploaded + 1 := by
              simp [List.countP_cons, uploaded]
            have hsum : replayed + 1 + es₂.countP uploaded = replayed + (es₂.countP uploaded + 1) := by omega
            exact hsum.trans (congrArg (replayed + ·) hcount.symm)

/-- **The handle ids are numbered in the order of the uploads.** -/
theorem uploads_requestsOf (vs : List Replay) (n : Nat) :
    (requestsOf vs n).filterMap (fun e => e.1.upload?) =
      (vs.filter fun v => v.upload.isSome).mapIdx fun i v => v.sent (n + i + 1) := by
  induction vs generalizing n with
  | nil => rfl
  | cons v vs ih =>
    obtain ⟨cachePath, remotePath, mtime, watermark, upload⟩ := v
    cases upload with
    | none => exact ih n
    | some answer =>
      have hshift : (fun (i : Nat) (v : Replay) => v.sent (n + (i + 1) + 1)) =
          fun i v => v.sent (n + 1 + i + 1) := by
        funext i v
        congr 1
        omega
      rw [List.filter_cons_of_pos rfl, List.mapIdx_cons, hshift, ← ih (n + 1)]
      rfl

/-- When a file was modified, if it can be read. -/
theorem mtimeMs_of_nodeAt {rel : PathBuf} {resolves : Bool} {modified : Option Int}
    (hat : root.nodeAt (root.path ++ rel) = some (.file resolves modified)) :
    mtimeMs root (root.path ++ rel) =
      modified.bind fun t => if t < 0 then none else some (asI64 (t / 1000000)) := by
  have hprefix : root.path <+: root.path ++ rel := List.prefix_append ..
  unfold mtimeMs CacheRoot.symlinkMetadata
  rw [decide_eq_true hprefix, hat]
  cases modified with
  | none => rfl
  | some t => rfl

/-- The path of a file, its remote path, and when it was modified. -/
theorem mem_scanned_iff {out : List (PathBuf × Str)} (hout : collectFiles root = .ok out) {p : PathBuf}
    {remote : Str} {mtime : Int} : (p, remote, mtime) ∈ scanned root out ↔
      ∃ rel modified, root.node.Finds rel (.file true (some modified)) ∧ 0 ≤ modified ∧
        p = root.path ++ rel ∧ remote = remoteOf rel ∧ mtime = asI64 (modified / 1000000) := by
  have hmtime : ∀ {rel modified}, root.node.Finds rel (.file true modified) →
      mtimeMs root (root.path ++ rel) =
        modified.bind fun t => if t < 0 then none else some (asI64 (t / 1000000)) := by
    intro rel modified hfinds
    have hat : root.nodeAt (root.path ++ rel) = some (.file true modified) := by
      rw [CacheRoot.nodeAt_append]
      exact hfinds.nodeAt root.distinct
    exact mtimeMs_of_nodeAt hat
  unfold scanned
  rw [List.mem_filterMap]
  constructor
  · rintro ⟨x, hx, hsome⟩
    obtain ⟨rel, modified, hfinds, rfl⟩ := (CacheRoot.mem_collectFiles hout).1 hx
    obtain ⟨t, ht, heq⟩ := Option.map_eq_some_iff.1 hsome
    cases heq
    rw [CacheRoot.collected, hmtime hfinds] at ht
    obtain ⟨modified, rfl, htime⟩ := Option.bind_eq_some_iff.1 ht
    split at htime
    · cases htime
    · next hneg =>
      cases htime
      exact ⟨rel, modified, hfinds, Int.not_lt.1 hneg, rfl, rfl, rfl⟩
  · rintro ⟨rel, modified, hfinds, hpos, rfl, rfl, rfl⟩
    refine ⟨root.collected rel, (CacheRoot.mem_collectFiles hout).2 ⟨rel, _, hfinds, rfl⟩, ?_⟩
    rw [CacheRoot.collected, hmtime hfinds, Option.bind_some, if_neg (Int.not_lt.2 hpos)]
    rfl

theorem nodup_scanned {out : List (PathBuf × Str)} (hout : collectFiles root = .ok out) :
    ((scanned root out).map Prod.fst).Nodup := by
  have hmap : (scanned root out).map Prod.fst =
      (out.filter fun x => (mtimeMs root x.1).isSome).map Prod.fst := by
    clear hout
    induction out with
    | nil => rfl
    | cons x out ih =>
      unfold scanned at ih ⊢
      cases hm : mtimeMs root x.1 <;> simp [hm, ih]
  rw [hmap]
  exact (List.filter_sublist.map Prod.fst).nodup (CacheRoot.nodup_collectFiles hout)

/-- **The scan replays exactly the files that are due.** The files it asks about depend on the folder alone:
each one that is found and whose time of modification can be read, once. Whatever is answered, those due are
uploaded and no others, their handle ids numbered in this order, and the uploads that went well counted. -/
theorem scan_replays_due (root : CacheRoot) (hbroken : ∀ rel, ¬ root.node.Finds rel .broken) :
    ∃ files, (files.map Prod.fst).Nodup ∧
      (∀ p remote mtime, (p, remote, mtime) ∈ files ↔
        ∃ rel modified, root.node.Finds rel (.file true (some modified)) ∧ 0 ≤ modified ∧
          p = root.path ++ rel ∧ remote = remoteOf rel ∧ mtime = asI64 (modified / 1000000)) ∧
      ∀ es res s s', Exec daemonMachine (scanAndReplay (some root)) s es res s' →
        ∃ vs, Replays files 0 vs es ∧
          es.filterMap (fun e => e.1.upload?) = (vs.filter Replay.due).mapIdx (fun i v => v.sent (i + 1)) ∧
          res = .ok (es.countP uploaded) := by
  obtain ⟨out, hout⟩ := CacheRoot.collectFiles_ok hbroken
  refine ⟨scanned root out, nodup_scanned hout, fun p remote mtime => mem_scanned_iff hout,
    fun es res s s' hx => ?_⟩
  have hx : Exec daemonMachine (replayFiles root out 0 0) s es res s' := by
    have hx : Exec daemonMachine (ofExcept (collectFiles root) >>= fun files => replayFiles root files 0 0)
        s es res s' := hx
    rw [hout] at hx
    exact hx
  obtain ⟨vs, hvs, hcount⟩ := exec_replayFiles hx
  refine ⟨vs, hvs, ?_, by rw [hcount, Nat.zero_add]⟩
  have hdue : vs.filter (fun v => v.upload.isSome) = vs.filter Replay.due :=
    List.filter_congr hvs.due
  rw [hvs.requests, uploads_requestsOf, hdue]
  simp only [Nat.zero_add]

end

/-! ## A folder with four files -/

/-- The files of `backslashRoot`, a file `c`, and a file `d` whose time of modification cannot be read. -/
def fourFiles : CacheRoot where
  path := [.ofStr ['r']]
  readable := true
  entries := backslashRoot.entries ++ [(.ofStr ['c'], .file true (some 0)), (.ofStr ['d'], .file true none)]
  distinct := by
    refine .dir (by decide) fun e he => ?_
    rcases List.mem_append.1 he with he | he
    · cases backslashRoot.distinct with
      | dir _ hentries => exact hentries e he
    · rcases List.mem_pair.1 he with rfl | rfl <;> exact .file

theorem fourFiles_iterates : ∀ rel, ¬ fourFiles.node.Finds rel .broken := by
  intro rel h
  have hentries : fourFiles.entries = [(.ofStr ['a', '\\', 'b'], .file true (some 0)),
      (.ofStr ['a'], .dir true true [(.ofStr ['b'], .file true (some 0))]),
      (.ofStr ['c'], .file true (some 0)), (.ofStr ['d'], .file true none)] := rfl
  unfold CacheRoot.node at h
  rw [hentries] at h
  cases h with
  | entry he => simp at he
  | deeper he hresolves h =>
    simp only [List.mem_cons, List.not_mem_nil, or_false, Prod.mk.injEq] at he
    rcases he with he | he | he | he
    · cases he.2
      cases h
    · cases he.2
      cases h with
      | entry he => cases List.mem_singleton.1 he
      | deeper he hresolves h =>
        cases List.mem_singleton.1 he
        cases h
    · cases he.2
      cases h
    · cases he.2
      cases h

/-- A daemon that has uploaded `/c` since it was modified, never had another file of the folder, and takes
what it is sent. -/
def taking : daemonMachine.World := fun verb => match verb with
  | .lastSynced path => .ok (if path = ['/', 'c'] then 1 else 0 : Int)
  | verb => .ok (verb.okReply ['c'])

/-- Three of the files are asked about, and two of them are replayed. -/
theorem scan_replays_both : ∃ es files vs, Exec daemonMachine (scanAndReplay (some fourFiles)) () es (.ok 2) () ∧
    es.length = 5 ∧ Replays files 0 vs es ∧
    es.filterMap (fun e => e.1.upload?) = (vs.filter Replay.due).mapIdx fun i v => v.sent (i + 1) := by
  have heval : (daemonMachine.exec taking (scanAndReplay (some fourFiles)) ()).any (fun x =>
      x.1.length = 5 && match x.2.1 with
      | .ok n => decide (n = 2)
      | .error _ => false) = true := by decide +kernel
  obtain ⟨⟨es, res, u⟩, hexec, h⟩ := (Option.any_eq_true ..).1 heval
  obtain ⟨hfive, h⟩ := Bool.and_eq_true_iff.1 h
  cases res with
  | error e => cases h
  | ok n =>
    have hn : n = 2 := of_decide_eq_true h
    subst hn
    have hexec := Machine.exec_sound hexec
    obtain ⟨files, -, -, hruns⟩ := scan_replays_due fourFiles fourFiles_iterates
    obtain ⟨vs, hvs, hsent, -⟩ := hruns es _ () u hexec
    exact ⟨es, files, vs, hexec, of_decide_eq_true hfive, hvs, hsent⟩

end UnidriveMount
