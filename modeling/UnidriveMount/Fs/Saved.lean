import UnidriveMount.Fs.Data
import UnidriveMount.Fs.Fsync

/-!
# What is uploaded is what was written

An upload is a call of the daemon, which takes the bytes from the cache file while it serves it. When the
dirty mark of an open handle is clear, and no `fsync` has taken it and is not done with it, then every
byte written through the handle was in the file throughout an upload that the daemon answered with ok
(`clean_handle_saved`).
-/

namespace UnidriveMount

open Lib

section
variable {nfc : Str → Str} {cacheRoot : Option Str} {no : Nat} {disk : Disk} {c₀ c : FsConfig}
  {ok : FsConfig → FsEvent → Prop}

/-- Nothing else happens while the daemon leaves the file alone. -/
theorem run_of_sparing (h : (sparingService nfc cacheRoot no).Run ok c₀ c) :
    (fsService nfc cacheRoot).Run ok c₀ c := by
  induction h with
  | refl => exact .refl
  | step _ hst hok ih =>
    refine ih.step ?_ hok
    cases hst with
    | start hfresh hlive => exact .start hfresh hlive
    | act hlive hm => exact .act hlive (step_of_sparing hm)
    | finish hlive => exact .finish hlive

/-- **What a clean handle has written is saved.** A `write` through the handle has put the byte in the
file, and no other request has touched it since. If the handle is clean now and nobody holds its mark,
an `fsync` of it has sent an upload after the write, the daemon's answer was ok, and the byte was in the
file all the time in between. -/
theorem clean_handle_saved (hok : ∀ c e, ok c e → DrawsFew c e)
    (h : (sparingService nfc cacheRoot no).Run ok (.initial (.new disk)) c)
    {t p p' fh offset n k : Nat} {inode : Ino} {data : List UInt8} {handle : OpenHandle}
    (hget : c.st.openHandles.get fh = some handle) (hclean : handle.dirty = false)
    (hsettled : ¬ MarkTaken fh c)
    (hp : c.log[p]? = some (.started t (.write inode fh offset data)))
    (hp' : c.log[p']? = some (.returned t (.write inode fh offset data) (.ok (.written n))))
    (hopen : OpenBetween no c.log p p' fh) (hk : offset ≤ k ∧ k < offset + n)
    (hothers : ∀ m e, p < m → c.log[m]? = some e → e.tid ≠ t →
      ¬ TouchesByte no k (filesOf (c.log.take m)) e) :
    ∃ (id path cache : Str) (u j i : Nat) (r : OpenReply), Published c.log fh id ∧
      IsFsync c.log fh u ∧ p < j ∧ j < i ∧
      c.log[j]? = some (.acted u (.call (.openWrite id path cache)) ()) ∧
      c.log[i]? = some (.acted u (.reply (.openWrite id path cache)) (.ok r)) ∧
      ∀ q, j ≤ q → q ≤ i → (bytesAt no disk c.log q)[k]? = data[k - offset]? := by
  obtain ⟨m, hpm, hmp', hm, hlater⟩ := moment_of_write h hp hp'
  have hacc := run_accounted hok (run_of_sparing h) fh
  have hmod : Modifies fh (.acted t (.handleWrite fh offset data) (.ok n)) := rfl
  obtain ⟨id, path, cache, u, j, i, r, hpub, hsync, hmj, hji, hj, hi⟩ :=
    hacc.uploaded_of_clear hget hclean hsettled hm hmod.marks
  refine ⟨id, path, cache, u, j, i, r, hpub, hsync, by omega, hji, hj, hi, fun q hjq _ => ?_⟩
  refine byte_after_write h (by omega) hm (hopen m hpm hmp') hk fun m' e hmm' _ he htouch => ?_
  by_cases htid : e.tid = t
  · obtain ⟨edit, hedit, -⟩ := htouch
    rw [hlater m' e _ hmm' he htid] at hedit
    cases hedit
  · exact hothers m' e (by omega) he htid htouch

end

/-! ## A run -/

/-- No request is in progress when every one that has started has returned. -/
theorem quiet_of_returned {S : Service Act Act.Ret FsState Errno Op Reply} {s₀ : FsState} {c : FsConfig}
    {ok : FsConfig → FsEvent → Prop} (h : S.Run ok (.initial s₀) c)
    (hret : ∀ t o, .started t o ∈ c.log → ∃ o' res, .returned t o' res ∈ c.log) : c.Quiet := by
  intro t
  cases hlive : c.live t with
  | none => rfl
  | some op =>
    obtain ⟨i, hi⟩ := h.started_of_live hlive
    obtain ⟨o', res, hmem⟩ := hret t op.1 (List.mem_of_getElem? hi)
    exact absurd hmem (h.not_returned_of_live hlive)

/-- The handle is clean, and every request has returned. -/
def savesOnce (c : FsConfig) : Bool :=
  writesOnce c && ((c.st.openHandles.get 1).any fun h => !h.dirty) &&
  c.log.all fun
    | .started t _ => c.log.any fun
      | .returned u _ _ => decide (u = t)
      | _ => false
    | _ => true

/-- The file is written, and uploaded by an `fsync`. -/
theorem clean_handle_saved_single :
    ∃ (c : FsConfig) (id path cache : Str) (u j i : Nat) (r : OpenReply), WrittenOnce c ∧ j < i ∧
      c.log[j]? = some (.acted u (.call (.openWrite id path cache)) ()) ∧
      c.log[i]? = some (.acted u (.reply (.openWrite id path cache)) (.ok r)) ∧
      ∀ q, j ≤ q → q ≤ i → (bytesAt 0 .empty c.log q)[2]? = some 30 := by
  have hplay : ((sparingService id none 0).play (fun c e => decide (DrawsFew c e))
      (createThenWrite ++ [.start 2 (.fsync 1 false)] ++ List.replicate 3 (.act 2 ⟨.calm, fun _ => rfl⟩) ++
        [.finish 2]) (.initial (.new .empty))).any savesOnce = true := by
    decide +kernel
  obtain ⟨c, hc, hb⟩ := (Option.any_eq_true ..).1 hplay
  obtain ⟨hb, hreturned⟩ := Bool.and_eq_true_iff.1 hb
  obtain ⟨honce, hclean⟩ := Bool.and_eq_true_iff.1 hb
  obtain ⟨handle, hget, hclean⟩ := (Option.any_eq_true ..).1 hclean
  have honce := writtenOnce_of_bool honce
  have hrun : (sparingService id none 0).Run DrawsFew (.initial (.new .empty)) c :=
    Service.run_of_play .refl hc fun _ _ _ h => of_decide_eq_true h
  have hquiet : c.Quiet := quiet_of_returned hrun fun t o hmem => by
    obtain ⟨e, he, hret⟩ := List.any_eq_true.1 (List.all_eq_true.1 hreturned _ hmem)
    split at hret
    · next u o' res =>
      obtain rfl := of_decide_eq_true hret
      exact ⟨o', res, he⟩
    · cases hret
  have hsettled : ¬ MarkTaken 1 c := by
    rintro ⟨t, o, p, hlive, -⟩
    rw [hquiet t] at hlive
    cases hlive
  have hlen := getElem?_lt honce.written
  obtain ⟨id, path, cache, u, j, i, r, -, -, -, hji, hj, hi, hbyte⟩ :=
    clean_handle_saved (k := 2) (fun _ _ h => h) hrun hget (by simpa using hclean) hsettled honce.write
      honce.written (fun m h h' => honce.opened m h (by omega)) (by decide)
      fun m e h hm htid ⟨edit, hedit, _⟩ => by
        rw [honce.others m e h hm htid] at hedit
        cases hedit
  exact ⟨c, id, path, cache, u, j, i, r, honce, hji, hj, hi, hbyte⟩

end UnidriveMount
