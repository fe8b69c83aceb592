import UnidriveMount.Fs.Truncation
import UnidriveMount.Lib.Edits

/-!
# What is read is what was written

The bytes of a cache file, while the engine leaves them as they are, are those of the edits that were
made through the mount: the writes and changes of length of the handles that are open on it, and the
truncations on the way of an open, in the order in which they were made, whichever requests made them
(`bytes_of_run`). So `read` and `write` are atomic, although requests overlap (`data_linearizable`), and
a `read` gives, byte by byte, what was written last (`read_after_write`).
-/

namespace UnidriveMount

open Lib

/-! ## The edits in a log -/

/-- The filesystem while the daemon leaves the bytes of a cache file as they are. -/
def sparingService (nfc : Str → Str) (cacheRoot : Option Str) (no : Nat) :
    Service Act Act.Ret FsState Errno Op Reply where
  machine := sparingMachine no
  prog := Op.prog nfc cacheRoot

/-- The files of the open handles after an entry of the log. -/
def filesNext (files : Nat → Option File) : FsEvent → Nat → Option File
  | .acted _ (.handleInsert fh h) _ => Function.update files fh (some h.file)
  | .acted _ (.handleRemove fh) _ => Function.update files fh none
  | _ => files

/-- The files of the open handles. -/
def filesOf (l : List FsEvent) : Nat → Option File := l.foldl filesNext fun _ => none

/-- The handle is open on the file. -/
def OpenOn (no : Nat) (files : Nat → Option File) (fh : Nat) : Prop :=
  (files fh).map File.no = some no

instance (no : Nat) (files : Nat → Option File) (fh : Nat) : Decidable (OpenOn no files fh) :=
  inferInstanceAs (Decidable (_ = _))

/-- What an entry of the log does to the bytes of the file, the files of the open handles being
`files`. -/
def editOf (no : Nat) (files : Nat → Option File) : FsEvent → Option (Edit UInt8)
  | .acted _ (.handleWrite fh offset data) (.ok n) =>
    if OpenOn no files fh then some (.write offset (data.take n)) else none
  | .acted _ (.handleSetLen fh n) (.ok _) => if OpenOn no files fh then some (.setLen n) else none
  | .acted _ (.setLen file n) true => if file.no = no then some (.setLen n) else none
  | .acted _ (.openFile _ .createTruncate) (some file) =>
    if file.no = no then some (.setLen 0) else none
  | _ => none

/-- The edits of the file that a log makes. -/
def editsFrom (no : Nat) : (Nat → Option File) → List FsEvent → List (Edit UInt8)
  | _, [] => []
  | files, e :: l => (editOf no files e).toList ++ editsFrom no (filesNext files e) l

/-- The edits of the file in the log. -/
def editsOf (no : Nat) (l : List FsEvent) : List (Edit UInt8) := editsFrom no (fun _ => none) l

/-- The bytes of the file after the first `q` entries of the log, from those at the beginning. -/
def bytesAt (no : Nat) (disk : Disk) (l : List FsEvent) (q : Nat) : List UInt8 :=
  Edit.applyAll 0 (editsOf no (l.take q)) (disk.bytes (copyFile no))

/-- The entry of the log decides the byte at `k` of the file. -/
def TouchesByte (no k : Nat) (files : Nat → Option File) (e : FsEvent) : Prop :=
  ∃ edit, editOf no files e = some edit ∧ edit.Touches k

section
variable {no : Nat} {files : Nat → Option File} {l l' : List FsEvent} {e : FsEvent}

@[simp] theorem filesOf_snoc : filesOf (l ++ [e]) = filesNext (filesOf l) e := by
  simp [filesOf]

theorem editsFrom_append : editsFrom no files (l ++ l') =
    editsFrom no files l ++ editsFrom no (l.foldl filesNext files) l' := by
  induction l generalizing files with
  | nil => rfl
  | cons e l ih => simp [editsFrom, ih]

@[simp] theorem editsOf_snoc :
    editsOf no (l ++ [e]) = editsOf no l ++ (editOf no (filesOf l) e).toList := by
  simp [editsOf, editsFrom_append, editsFrom, filesOf]

/-- Every edit is made by an entry. -/
theorem exists_of_mem_editsFrom {edit : Edit UInt8} (h : edit ∈ editsFrom no files l) :
    ∃ (m : Nat) (e : FsEvent), l[m]? = some e ∧
      editOf no ((l.take m).foldl filesNext files) e = some edit := by
  induction l generalizing files with
  | nil => cases h
  | cons e l ih =>
    rcases List.mem_append.1 h with h | h
    · exact ⟨0, e, rfl, Option.mem_toList.1 h⟩
    · obtain ⟨m, e', he', hedit⟩ := ih h
      exact ⟨m + 1, e', he', hedit⟩

end

/-! ## One step -/

section
variable {no : Nat} {s s' : FsState} {a : Act} {r : a.Ret}

theorem OpenHandle.followRename_file (h : OpenHandle) (old new : Str) :
    (h.followRename old new).file = h.file := by
  unfold OpenHandle.followRename
  split
  · split <;> rfl
  · rfl

/-- The file of a handle is the one it was inserted with, until it is removed. -/
theorem HandleStep.map_file {fh : Nat} {o o' : Option OpenHandle} (h : HandleStep fh a r o o') :
    o'.map OpenHandle.file = o.map OpenHandle.file ∨ (∃ h', a = .handleInsert fh h') ∨
      a = .handleRemove fh := by
  cases h with
  | insert h' => exact .inr (.inl ⟨h', rfl⟩)
  | remove => exact .inr (.inr rfl)
  | write | setLen | claim | frame => exact .inl rfl
  | restore =>
    left
    simp [Function.comp_def]
  | follow =>
    left
    simp [Function.comp_def, OpenHandle.followRename_file]

/-- The files of the open handles. -/
def FsState.files (s : FsState) (fh : Nat) : Option File := (s.openHandles.get fh).map OpenHandle.file

/-- A step changes the files of the open handles as its entry says. -/
theorem files_of_step (hst : fsMachine.Step a s r s') (t : Nat) :
    s'.files = filesNext s.files (.acted t a r) := by
  funext fh
  have h := handleStep_of_step hst fh
  unfold FsState.files
  generalize s'.openHandles.get fh = o' at h
  cases a with
  | handleInsert fh' h' =>
    by_cases hfh : fh = fh'
    · subst hfh
      simp [filesNext, h.of_insert]
    · rcases h.map_file with hsame | ⟨_, heq⟩ | heq
      · simpa [filesNext, FsState.files, hfh] using hsame
      · cases heq
        exact absurd rfl hfh
      · cases heq
  | handleRemove fh' =>
    by_cases hfh : fh = fh'
    · subst hfh
      simp [filesNext, h.of_remove.2]
    · rcases h.map_file with hsame | ⟨_, heq⟩ | heq
      · simpa [filesNext, FsState.files, hfh] using hsame
      · cases heq
      · cases heq
        exact absurd rfl hfh
  | _ =>
    rcases h.map_file with hsame | ⟨_, heq⟩ | heq
    · exact hsame
    · cases heq
    · cases heq

theorem bytes_insert (d : Disk) (no' : Nat) (v : List UInt8) :
    ({ d with contents := d.contents.insert no' v }).bytes (copyFile no) =
      if no' = no then v else d.bytes (copyFile no) := by
  by_cases h : no' = no
  · subst h
    simp [Disk.bytes, copyFile]
  · have hne : (copyFile no).no ≠ no' := Ne.symm h
    simp [Disk.bytes, HashMap.get_insert_ne _ _ hne, h]

theorem bytes_write (d : Disk) (f : File) (offset : Nat) (data : List UInt8) :
    (d.write f offset data).bytes (copyFile no) =
      if f.no = no then (Edit.write offset data).apply 0 (d.bytes (copyFile no))
      else d.bytes (copyFile no) := by
  unfold Disk.write
  by_cases hdata : data.isEmpty
  · simp [Edit.apply, hdata]
  · rw [if_neg hdata, bytes_insert]
    split
    · next h =>
      have hf : d.bytes f = d.bytes (copyFile no) := by simp [Disk.bytes, copyFile, h]
      rw [hf, Edit.apply, if_neg hdata]
      rfl
    · rfl

theorem bytes_setLen (d : Disk) (f : File) (n : Nat) :
    (d.setLen f n).bytes (copyFile no) =
      if f.no = no then (Edit.setLen n).apply 0 (d.bytes (copyFile no)) else d.bytes (copyFile no) := by
  unfold Disk.setLen
  rw [bytes_insert]
  split
  · next h =>
    have hf : d.bytes f = d.bytes (copyFile no) := by simp [Disk.bytes, copyFile, h]
    rw [hf]
    rfl
  · rfl

/-- Opening for writing anew empties the file. -/
theorem bytes_openFile (d : Disk) (path : Str) {file : File} {d' : Disk}
    (h : d.openFile path .createTruncate = (some file, d')) :
    d'.bytes (copyFile no) = if file.no = no then [] else d.bytes (copyFile no) := by
  unfold Disk.openFile at h
  cases hget : d.names.get path with
  | some no' =>
    rw [hget] at h
    cases h
    exact bytes_insert ..
  | none =>
    rw [hget] at h
    cases h
    exact bytes_insert d d.next []

theorem openOn_files {fh : Nat} {h : OpenHandle} (hget : s.openHandles.get fh = some h) :
    OpenOn no s.files fh ↔ h.file.no = no := by
  simp [OpenOn, FsState.files, hget]

/-- A step changes the bytes of the file as its entry says. -/
theorem bytes_of_step (hst : (sparingMachine no).Step a s r s') (t : Nat) :
    s'.disk.bytes (copyFile no) =
      Edit.applyAll 0 (editOf no s.files (.acted t a r)).toList (s.disk.bytes (copyFile no)) := by
  cases a with
  | openFile path mode =>
    cases mode with
    | read | write => exact sparing_bytes_of_step hst trivial
    | createTruncate =>
      obtain ⟨-, w, hrun⟩ := hst
      change (Act.openFile path .createTruncate).run w.1 s = (r, s') at hrun
      simp only [Act.run] at hrun
      split at hrun
      · cases hopen : s.disk.openFile path .createTruncate with
        | mk o d =>
          rw [hopen] at hrun
          cases hrun
          cases o with
          | none =>
            unfold Disk.openFile at hopen
            split at hopen <;> cases hopen
          | some file =>
            rw [bytes_openFile _ _ hopen]
            by_cases hno : file.no = no
            · simp [editOf, hno, Edit.apply]
            · simp [editOf, hno]
      · cases hrun
        rfl
  | setLen file n =>
    obtain ⟨-, w, hrun⟩ := hst
    change (Act.setLen file n).run w.1 s = (r, s') at hrun
    simp only [Act.run] at hrun
    split at hrun
    · cases hrun
      rw [bytes_setLen]
      by_cases hno : file.no = no
      · simp [editOf, hno]
      · simp [editOf, hno]
    · cases hrun
      rfl
  | handleWrite fh offset data =>
    obtain ⟨-, w, hrun⟩ := hst
    change s.handleWrite w.1 fh offset data = (r, s') at hrun
    unfold FsState.handleWrite at hrun
    split at hrun
    · cases hrun
      rfl
    · next h hget =>
      split at hrun
      · cases hrun
        simp only [bytes_write, editOf, openOn_files hget]
        split <;> rfl
      · cases hrun
        rfl
  | handleSetLen fh n =>
    obtain ⟨-, w, hrun⟩ := hst
    change s.handleSetLen w.1 fh n = (r, s') at hrun
    unfold FsState.handleSetLen at hrun
    split at hrun
    · cases hrun
      rfl
    · next h hget =>
      split at hrun
      · cases hrun
        simp only [bytes_setLen, editOf, openOn_files hget]
        split <;> rfl
      · cases hrun
        rfl
  | _ => exact sparing_bytes_of_step hst trivial

/-- A read answers a part of the bytes, and is not longer than asked. -/
theorem read_of_step {fh offset size : Nat} {out : List UInt8}
    (hst : fsMachine.Step (.handleRead fh offset size) s (.ok out) s') (hon : OpenOn no s.files fh) :
    out = ((s.disk.bytes (copyFile no)).drop offset).take out.length ∧ out.length ≤ size := by
  obtain ⟨-, (w : World), hrun⟩ := hst
  have hout : s.handleRead w fh offset size = .ok out := congrArg Prod.fst hrun
  unfold FsState.handleRead at hout
  split at hout
  · cases hout
  · next h hget =>
    split at hout
    · cases hout
      have hf : s.disk.bytes h.file = s.disk.bytes (copyFile no) := by
        simp [Disk.bytes, copyFile, (openOn_files hget).1 hon]
      rw [hf]
      constructor
      · rw [List.length_take, List.take_eq_take_iff]
        simp
      · rw [List.length_take]
        omega
    · cases hout

/-- A write that succeeds takes no more than it was given. -/
theorem write_of_step {fh offset n : Nat} {data : List UInt8}
    (hst : fsMachine.Step (.handleWrite fh offset data) s (.ok n) s') : n ≤ data.length := by
  obtain ⟨-, (w : World), hrun⟩ := hst
  have hout : (s.handleWrite w fh offset data).1 = .ok n := congrArg Prod.fst hrun
  unfold FsState.handleWrite at hout
  split at hout
  · cases hout
  · split at hout
    · cases hout
      omega
    · cases hout

end

/-! ## Runs -/

section
variable {nfc : Str → Str} {cacheRoot : Option Str} {no : Nat} {disk : Disk} {c : FsConfig}
  {ok : FsConfig → FsEvent → Prop}

theorem files_of_run (h : (sparingService nfc cacheRoot no).Run ok (.initial (.new disk)) c) :
    c.st.files = filesOf c.log := by
  refine h.invariant (I := fun c => c.st.files = filesOf c.log) ?_ fun c e c' _ hI hst _ => ?_
  · funext fh
    simp [FsState.files, filesOf, FsState.new]
  · rw [hst.log_eq, filesOf_snoc, ← hI]
    cases hst with
    | act _ hm => exact files_of_step (step_of_sparing hm) _
    | start | finish => rfl

/-- The bytes of the file are the edits of the log. -/
theorem bytes_of_run (h : (sparingService nfc cacheRoot no).Run ok (.initial (.new disk)) c) :
    c.st.disk.bytes (copyFile no) =
      Edit.applyAll 0 (editsOf no c.log) (disk.bytes (copyFile no)) := by
  refine h.invariant (I := fun c => c.st.disk.bytes (copyFile no) =
    Edit.applyAll 0 (editsOf no c.log) (disk.bytes (copyFile no))) rfl fun c e c' hrun hI hst _ => ?_
  rw [hst.log_eq, editsOf_snoc, Edit.applyAll_append, ← hI, ← files_of_run hrun]
  cases hst with
  | act _ hm => exact bytes_of_step hm _
  | start | finish => rfl

/-- What is read is part of what the edits before it make of the file. -/
theorem read_of_run (h : (sparingService nfc cacheRoot no).Run ok (.initial (.new disk)) c) {t j : Nat}
    {fh offset size : Nat} {out : List UInt8}
    (hj : c.log[j]? = some (.acted t (.handleRead fh offset size) (.ok out)))
    (hon : OpenOn no (filesOf (c.log.take j)) fh) :
    out = ((bytesAt no disk c.log j).drop offset).take out.length ∧ out.length ≤ size := by
  obtain ⟨c₁, c₂, hrun, hst, -, hlog⟩ := h.step_of_getElem? hj
  rw [← hlog, ← files_of_run hrun] at hon
  rw [bytesAt, ← hlog, ← bytes_of_run hrun]
  cases hst with
  | act _ hm => exact read_of_step (step_of_sparing hm) hon

/-- What is written is an edit. -/
theorem write_of_run (h : (sparingService nfc cacheRoot no).Run ok (.initial (.new disk)) c) {t i : Nat}
    {fh offset n : Nat} {data : List UInt8}
    (hi : c.log[i]? = some (.acted t (.handleWrite fh offset data) (.ok n))) : n ≤ data.length := by
  obtain ⟨c₁, c₂, -, hst, -, -⟩ := h.step_of_getElem? hi
  cases hst with
  | act _ hm => exact write_of_step (step_of_sparing hm)

/-- The edits around an entry. -/
theorem editsOf_split {l : List FsEvent} {i : Nat} {e : FsEvent} (hi : l[i]? = some e) :
    editsOf no l = editsOf no (l.take i) ++ (editOf no (filesOf (l.take i)) e).toList ++
      editsFrom no (filesOf (l.take (i + 1))) (l.drop (i + 1)) := by
  have htake : l.take (i + 1) = l.take i ++ [e] := by rw [List.take_add_one, hi]; rfl
  rw [← editsOf_snoc, ← htake]
  unfold editsOf filesOf
  rw [← editsFrom_append, List.take_append_drop]

/-- The edits after an entry are made by entries after it. -/
theorem exists_of_mem_after {l : List FsEvent} {i : Nat} {edit : Edit UInt8}
    (h : edit ∈ editsFrom no (filesOf (l.take i)) (l.drop i)) :
    ∃ m e, i ≤ m ∧ l[m]? = some e ∧ editOf no (filesOf (l.take m)) e = some edit := by
  obtain ⟨m, e, he, hm⟩ := exists_of_mem_editsFrom h
  rw [List.getElem?_drop] at he
  refine ⟨i + m, e, Nat.le_add_right .., he, ?_⟩
  rwa [List.take_add, filesOf, List.foldl_append, ← filesOf]

/-- A byte stays what it was written as, until an entry touches it. -/
theorem byte_after_write (h : (sparingService nfc cacheRoot no).Run ok (.initial (.new disk)) c)
    {t i j k fh offset n : Nat} {data : List UInt8} (hij : i < j)
    (hi : c.log[i]? = some (.acted t (.handleWrite fh offset data) (.ok n)))
    (hon : OpenOn no (filesOf (c.log.take i)) fh) (hk : offset ≤ k ∧ k < offset + n)
    (hlast : ∀ m e, i < m → m < j → c.log[m]? = some e →
      ¬ TouchesByte no k (filesOf (c.log.take m)) e) :
    (bytesAt no disk c.log j)[k]? = data[k - offset]? := by
  have hn := write_of_run h hi
  have htaken : (c.log.take j)[i]? = some (.acted t (.handleWrite fh offset data) (.ok n)) := by
    rwa [List.getElem?_take_of_lt hij]
  have hsplit := @editsOf_split no _ _ _ htaken
  have htake : (c.log.take j).take i = c.log.take i := by
    rw [List.take_take, Nat.min_eq_left (Nat.le_of_lt hij)]
  rw [htake, editOf, if_pos hon, Option.toList_some, List.append_assoc, List.singleton_append] at hsplit
  have hbyte : (bytesAt no disk c.log j)[k]? = (data.take n)[k - offset]? := by
    rw [bytesAt, hsplit]
    refine Edit.getElem?_applyAll_write hk.1 (by rw [List.length_take]; omega) fun edit hedit htouch => ?_
    obtain ⟨m, e, him, he, hm⟩ := exists_of_mem_after hedit
    have hmj : m < j := by
      have hlt := getElem?_lt he
      rw [List.length_take] at hlt
      omega
    rw [List.getElem?_take_of_lt hmj] at he
    rw [List.take_take, Nat.min_eq_left (Nat.le_of_lt hmj)] at hm
    exact hlast m e (by omega) hmj he ⟨edit, hm, htouch⟩
  rw [hbyte, List.getElem?_take_of_lt (by omega)]

/-- A byte that is read is the one that was written last. -/
theorem read_sees_last_write
    (h : (sparingService nfc cacheRoot no).Run ok (.initial (.new disk)) c) {t u i j k : Nat}
    {fh fh' offset offset' size n : Nat} {data out : List UInt8} (hij : i < j)
    (hi : c.log[i]? = some (.acted t (.handleWrite fh offset data) (.ok n)))
    (hon : OpenOn no (filesOf (c.log.take i)) fh) (hk : offset ≤ k ∧ k < offset + n)
    (hj : c.log[j]? = some (.acted u (.handleRead fh' offset' size) (.ok out)))
    (hon' : OpenOn no (filesOf (c.log.take j)) fh') (hk' : offset' ≤ k ∧ k < offset' + out.length)
    (hlast : ∀ m e, i < m → m < j → c.log[m]? = some e →
      ¬ TouchesByte no k (filesOf (c.log.take m)) e) :
    out[k - offset']? = data[k - offset]? := by
  obtain ⟨hout, -⟩ := read_of_run h hj hon'
  have hlt : k - offset' < out.length := by omega
  rw [hout, List.getElem?_take_of_lt hlt, List.getElem?_drop, Nat.add_sub_cancel' hk'.1,
    byte_after_write h hij hi hon hk hlast]

/-! ## Requests -/

/-- What a `read` or a `write` that succeeded has done. -/
def Op.Transferred : Op → Except Errno Reply → List (Occ Act.Ret) → Prop
  | .read fh offset size, .ok (.data out), es => es = [⟨.handleRead fh offset size, .ok out⟩]
  | .write inode fh offset data, .ok (.written n), es =>
    es = [⟨.handleWrite fh offset data, .ok n⟩, ⟨.attrEdit inode (.grown (offset + n)), ()⟩]
  | _, _, _ => True

/-- A read is one read of the file, and a write is one write. -/
theorem transferred : (sparingService nfc cacheRoot no).Honours Contract.history (fun _ => [])
    Op.Transferred := by
  intro o
  cases o with
  | read fh offset size =>
    refine ⟨trivial, fun r _ => ?_⟩
    cases r with
    | ok out => rfl
    | error e => trivial
  | write inode fh offset data =>
    refine ⟨trivial, fun r _ => ?_⟩
    cases r with
    | ok n => exact ⟨trivial, fun _ _ => rfl⟩
    | error e => trivial
  | _ => exact (Contract.history_obeys _ _).mono fun _ _ _ => trivial

/-- The handle stays open on the file between two entries of the log. -/
def OpenBetween (no : Nat) (l : List FsEvent) (q q' fh : Nat) : Prop :=
  ∀ m, q < m → m < q' → OpenOn no (filesOf (l.take m)) fh

/-- The moment of a read. -/
theorem moment_of_read (h : (sparingService nfc cacheRoot no).Run ok (.initial (.new disk)) c)
    {t q q' fh offset size : Nat} {out : List UInt8}
    (hq : c.log[q]? = some (.started t (.read fh offset size)))
    (hq' : c.log[q']? = some (.returned t (.read fh offset size) (.ok (.data out)))) :
    ∃ j, q < j ∧ j < q' ∧ c.log[j]? = some (.acted t (.handleRead fh offset size) (.ok out)) := by
  have hdone : occs t (c.log.take q') = _ := h.history_of_returned transferred hq'
  have hmem : (⟨.handleRead fh offset size, .ok out⟩ : Occ Act.Ret) ∈ occs t (c.log.take q') := by
    rw [hdone]
    exact List.mem_singleton_self _
  obtain ⟨j, hj⟩ := List.getElem?_of_mem (mem_of_mem_occs hmem)
  have hlt := getElem?_lt hj
  rw [List.length_take] at hlt
  have hj := getElem?_of_take hj
  exact ⟨j, h.started_lt_acted hj hq, by omega, hj⟩

/-- The moment of a write, after which the request changes nothing. -/
theorem moment_of_write (h : (sparingService nfc cacheRoot no).Run ok (.initial (.new disk)) c)
    {t q q' fh offset n : Nat} {inode : Ino} {data : List UInt8}
    (hq : c.log[q]? = some (.started t (.write inode fh offset data)))
    (hq' : c.log[q']? = some (.returned t (.write inode fh offset data) (.ok (.written n)))) :
    ∃ i, q < i ∧ i < q' ∧ c.log[i]? = some (.acted t (.handleWrite fh offset data) (.ok n)) ∧
      ∀ m e files, i < m → c.log[m]? = some e → e.tid = t → editOf no files e = none := by
  have hdone : occs t (c.log.take q') = _ := h.history_of_returned transferred hq'
  have hmem : (⟨.handleWrite fh offset data, .ok n⟩ : Occ Act.Ret) ∈ occs t (c.log.take q') := by
    rw [hdone]
    exact List.mem_cons_self ..
  obtain ⟨i, hi⟩ := List.getElem?_of_mem (mem_of_mem_occs hmem)
  have hiq' : i < q' := by
    have hlt := getElem?_lt hi
    rw [List.length_take] at hlt
    omega
  have hi' := getElem?_of_take hi
  refine ⟨i, h.started_lt_acted hi' hq, hiq', hi', fun m e files him hm he => ?_⟩
  cases e with
  | started | returned => rfl
  | acted u a r =>
    obtain rfl : u = t := he
    have hmq' : m < q' := by
      refine Nat.lt_of_le_of_ne (h.le_returned hq' hm rfl) ?_
      rintro rfl
      cases hm.symm.trans hq'
    have hm' : (c.log.take q')[m]? = some (.acted u a r) := by rwa [List.getElem?_take_of_lt hmq']
    have hsplit := occs_split hm'
    have hsplit' := occs_split (t := u) (l := (c.log.take q').take m) (m := i)
      (a := .handleWrite fh offset data) (r := .ok n) (by rwa [List.getElem?_take_of_lt him])
    rw [hdone, hsplit'] at hsplit
    generalize occs u (((c.log.take q').take m).take i) = xs at hsplit
    generalize occs u (((c.log.take q').take m).drop (i + 1)) = ys at hsplit
    generalize occs u ((c.log.take q').drop (m + 1)) = zs at hsplit
    -- nothing is between the write and the change of the attributes
    match xs, ys with
    | [], [] =>
      cases hsplit
      rfl
    | [], y :: ys | x :: xs, ys =>
      have hlen := congrArg List.length hsplit
      simp only [List.length_append, List.length_cons, List.length_nil] at hlen
      omega

/-- An entry of the log makes one edit of the file, or none. -/
theorem bytesAt_succ {i : Nat} {e : FsEvent} (hi : c.log[i]? = some e) :
    bytesAt no disk c.log (i + 1) =
      Edit.applyAll 0 (editOf no (filesOf (c.log.take i)) e).toList (bytesAt no disk c.log i) := by
  have htake : c.log.take (i + 1) = c.log.take i ++ [e] := by rw [List.take_add_one, hi]; rfl
  rw [bytesAt, htake, editsOf_snoc, Edit.applyAll_append, ← bytesAt]

/-- **Reads and writes are atomic.** A read is answered a part of the bytes at a moment between its start
and its return. A write that answers `n` puts the first `n` bytes it got in the file at a moment between
its start and its return, and changes nothing afterwards. The bytes after the last entry are those of
the file. -/
theorem data_linearizable (h : (sparingService nfc cacheRoot no).Run ok (.initial (.new disk)) c) :
    bytesAt no disk c.log c.log.length = c.st.disk.bytes (copyFile no) ∧
      (∀ t q q' fh offset size out, c.log[q]? = some (.started t (.read fh offset size)) →
        c.log[q']? = some (.returned t (.read fh offset size) (.ok (.data out))) →
        OpenBetween no c.log q q' fh →
        ∃ j, q < j ∧ j < q' ∧ out = ((bytesAt no disk c.log j).drop offset).take out.length ∧
          out.length ≤ size) ∧
      (∀ t q q' inode fh offset data n,
        c.log[q]? = some (.started t (.write inode fh offset data)) →
        c.log[q']? = some (.returned t (.write inode fh offset data) (.ok (.written n))) →
        OpenBetween no c.log q q' fh →
        ∃ i, q < i ∧ i < q' ∧ n ≤ data.length ∧
          bytesAt no disk c.log (i + 1) =
            (Edit.write offset (data.take n)).apply 0 (bytesAt no disk c.log i) ∧
          ∀ m e, i < m → c.log[m]? = some e → e.tid = t →
            bytesAt no disk c.log (m + 1) = bytesAt no disk c.log m) := by
  refine ⟨?_, ?_, ?_⟩
  · rw [bytesAt, List.take_length]
    exact (bytes_of_run h).symm
  · intro t q q' fh offset size out hq hq' hopen
    obtain ⟨j, hqj, hjq', hj⟩ := moment_of_read h hq hq'
    exact ⟨j, hqj, hjq', read_of_run h hj (hopen j hqj hjq')⟩
  · intro t q q' inode fh offset data n hq hq' hopen
    obtain ⟨i, hqi, hiq', hi, hlater⟩ := moment_of_write h hq hq'
    refine ⟨i, hqi, hiq', write_of_run h hi, ?_, fun m e him hm he => ?_⟩
    · rw [bytesAt_succ hi, editOf, if_pos (hopen i hqi hiq')]
      rfl
    · rw [bytesAt_succ hm, hlater m e _ him hm he]
      rfl

/-- **A read sees the last write.** A byte that a `read` answers is the one that a `write` has put there
which had returned before, unless another request has touched the byte since the `write` started. -/
theorem read_after_write (h : (sparingService nfc cacheRoot no).Run ok (.initial (.new disk)) c)
    {t u p p' q q' fh fh' offset offset' size n k : Nat} {inode : Ino} {data out : List UInt8}
    (hp : c.log[p]? = some (.started t (.write inode fh offset data)))
    (hp' : c.log[p']? = some (.returned t (.write inode fh offset data) (.ok (.written n))))
    (hq : c.log[q]? = some (.started u (.read fh' offset' size)))
    (hq' : c.log[q']? = some (.returned u (.read fh' offset' size) (.ok (.data out)))) (hpq : p' < q)
    (hopen : OpenBetween no c.log p p' fh) (hopen' : OpenBetween no c.log q q' fh')
    (hk : offset ≤ k ∧ k < offset + n) (hk' : offset' ≤ k ∧ k < offset' + out.length)
    (hothers : ∀ m e, p < m → m < q' → c.log[m]? = some e → e.tid ≠ t →
      ¬ TouchesByte no k (filesOf (c.log.take m)) e) :
    out[k - offset']? = data[k - offset]? := by
  obtain ⟨i, hpi, hip', hi, hlater⟩ := moment_of_write h hp hp'
  obtain ⟨j, hqj, hjq', hj⟩ := moment_of_read h hq hq'
  refine read_sees_last_write h (by omega) hi (hopen i hpi hip') hk hj (hopen' j hqj hjq') hk' ?_
  intro m e him hmj hm htouch
  by_cases he : e.tid = t
  · obtain ⟨edit, hedit, -⟩ := htouch
    rw [hlater m e _ him hm he] at hedit
    cases hedit
  · exact hothers m e (by omega) (by omega) hm he htouch

end

/-! ## A run -/

/-- A file is created, and written through its handle, `1`. -/
def createThenWrite : List (Move (sparingMachine 0).World Op) :=
  let calm : (sparingMachine 0).World := ⟨.calm, fun _ => rfl⟩
  [.start 0 (.create rootInode (some ['a']))] ++ List.replicate 12 (.act 0 calm) ++ [.finish 0] ++
    [.start 1 (.write 2 1 0 [10, 20, 30]), .act 1 calm, .act 1 calm, .finish 1]

/-- Request 1 has written the file of handle 1, which stays open, and nothing else has edited it since. -/
structure WrittenOnce (c : FsConfig) : Prop where
  write : c.log[14]? = some (.started 1 (.write 2 1 0 [10, 20, 30]))
  written : c.log[17]? = some (.returned 1 (.write 2 1 0 [10, 20, 30]) (.ok (.written 3)))
  opened : OpenBetween 0 c.log 14 c.log.length 1
  others : ∀ m e, 14 < m → c.log[m]? = some e → e.tid ≠ 1 → editOf 0 (filesOf (c.log.take m)) e = none

def writesOnce (c : FsConfig) : Bool :=
  (match (c.log[14]? : Option FsEvent), (c.log[17]? : Option FsEvent) with
  | some (.started 1 o), some (.returned 1 o' (.ok (.written 3))) =>
    decide (o = .write 2 1 0 [10, 20, 30] ∧ o' = o)
  | _, _ => false) &&
  (List.range c.log.length).all fun m => decide (m ≤ 14) ||
    (decide (OpenOn 0 (filesOf (c.log.take m)) 1) &&
      (c.log[m]?).all fun e => decide (e.tid = 1) || (editOf 0 (filesOf (c.log.take m)) e).isNone)

theorem writtenOnce_of_bool {c : FsConfig} (h : writesOnce c = true) : WrittenOnce c := by
  obtain ⟨hlog, hbetween⟩ := Bool.and_eq_true_iff.1 h
  have hm : ∀ m, 14 < m → m < c.log.length → OpenOn 0 (filesOf (c.log.take m)) 1 ∧
      ∀ e, c.log[m]? = some e → e.tid ≠ 1 → editOf 0 (filesOf (c.log.take m)) e = none := by
    intro m h14 hlt
    have hm := List.all_eq_true.1 hbetween m (List.mem_range.2 hlt)
    simp only [Bool.or_eq_true, decide_eq_true_eq, Nat.not_le.2 h14, false_or, Bool.and_eq_true,
      Option.all_eq_true, Option.isNone_iff_eq_none] at hm
    exact ⟨hm.1, fun e he htid => (hm.2 e he).resolve_left htid⟩
  split at hlog
  · next h14 h17 =>
    obtain ⟨rfl, rfl⟩ := of_decide_eq_true hlog
    exact ⟨h14, h17, fun m h h' => (hm m h h').1, fun m e h he => (hm m h (getElem?_lt he)).2 e he⟩
  · cases hlog

/-- Then it is read. -/
def readsBack (c : FsConfig) : Bool :=
  writesOnce c && match (c.log[18]? : Option FsEvent), (c.log[20]? : Option FsEvent) with
  | some (.started 2 o), some (.returned 2 o' (.ok (.data [20, 30]))) => decide (o = .read 1 1 8 ∧ o' = o)
  | _, _ => false

theorem readBack_run :
    ∃ c, (sparingService id none 0).Run (fun _ _ => True) (.initial (.new .empty)) c ∧ WrittenOnce c ∧
      c.log[18]? = some (.started 2 (.read 1 1 8)) ∧
      c.log[20]? = some (.returned 2 (.read 1 1 8) (.ok (.data [20, 30]))) := by
  have hplay : ((sparingService id none 0).play (fun _ _ => true)
      (createThenWrite ++ [.start 2 (.read 1 1 8), .act 2 ⟨.calm, fun _ => rfl⟩, .finish 2])
      (.initial (.new .empty))).any readsBack = true := by
    decide +kernel
  obtain ⟨c, hc, hb⟩ := (Option.any_eq_true ..).1 hplay
  obtain ⟨honce, hread⟩ := Bool.and_eq_true_iff.1 hb
  refine ⟨c, Service.run_of_play .refl hc fun _ _ _ _ => trivial, writtenOnce_of_bool honce, ?_⟩
  split at hread
  · next h18 h20 =>
    obtain ⟨rfl, rfl⟩ := of_decide_eq_true hread
    exact ⟨h18, h20⟩
  · cases hread

/-- The read of that run has its moment. -/
theorem data_linearizable_readBack :
    ∃ (c : FsConfig) (j : Nat), WrittenOnce c ∧ 18 < j ∧ j < 20 ∧
      [20, 30] = ((bytesAt 0 .empty c.log j).drop 1).take 2 := by
  obtain ⟨c, hrun, honce, hread, hdata⟩ := readBack_run
  obtain ⟨-, hreads, -⟩ := data_linearizable hrun
  have hlen := getElem?_lt hdata
  obtain ⟨j, hj, hj', hout, -⟩ := hreads 2 18 20 1 1 8 [20, 30] hread hdata fun m h h' =>
    honce.opened m (by omega) (by omega)
  exact ⟨c, j, honce, hj, hj', hout⟩

/-- It reads what the write has written. -/
theorem read_after_write_readBack :
    ∃ c, (sparingService id none 0).Run (fun _ _ => True) (.initial (.new .empty)) c ∧ WrittenOnce c ∧
      ([20, 30] : List UInt8)[2 - 1]? = ([10, 20, 30] : List UInt8)[2 - 0]? := by
  obtain ⟨c, hrun, honce, hread, hdata⟩ := readBack_run
  refine ⟨c, hrun, honce, ?_⟩
  have hlen := getElem?_lt hdata
  exact read_after_write (k := 2) hrun honce.write honce.written hread hdata (by omega)
    (fun m h h' => honce.opened m h (by omega)) (fun m h h' => honce.opened m (by omega) (by omega))
    (by decide) (by decide) fun m e h h' hm htid ⟨edit, hedit, _⟩ => by
      rw [honce.others m e h hm htid] at hedit
      cases hedit

end UnidriveMount
