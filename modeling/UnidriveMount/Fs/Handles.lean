import UnidriveMount.Fs.Footprint

/-!
# One handle of the table

What an action can do to the entry of one handle (`HandleStep`), said once for all actions. The
invariants about open handles are proved by cases on it.
-/

namespace UnidriveMount

open Lib

/-- Whether the action, answered so, leaves the entry of `fh` in the table alone, apart from the
paths a rename moves. -/
def Act.Spares (fh : Nat) : (a : Act) → a.Ret → Prop
  | handleInsert fh' _, _ => fh' ≠ fh
  | handleRemove fh', _ => fh' ≠ fh
  | handleWrite fh' _ _, .ok _ => fh' ≠ fh
  | handleSetLen fh' _, .ok _ => fh' ≠ fh
  | handleClaim fh' _, .ok _ => fh' ≠ fh
  | handleRestore fh', _ => fh' ≠ fh
  | followRenames .., _ => False
  | _, _ => True

/-- What an action makes of the entry of `fh`. -/
inductive HandleStep (fh : Nat) :
    (a : Act) → a.Ret → Option OpenHandle → Option OpenHandle → Prop where
  | insert (h : OpenHandle) (o : Option OpenHandle) :
      HandleStep fh (.handleInsert fh h) () o (some h)
  | remove (o : Option OpenHandle) : HandleStep fh (.handleRemove fh) o o none
  | write (offset : Nat) (data : List UInt8) (n : Nat) (h : OpenHandle) :
      HandleStep fh (.handleWrite fh offset data) (.ok n) (some h) (some { h with dirty := true })
  | setLen (newSize : Nat) (h : OpenHandle) :
      HandleStep fh (.handleSetLen fh newSize) (.ok ()) (some h) (some { h with dirty := true })
  | claim (datasync : Bool) (h : OpenHandle) :
      HandleStep fh (.handleClaim fh datasync)
        (.ok ⟨h.handleId, h.remotePath, h.cachePath, h.dirty⟩)
        (some h) (some { h with dirty := false })
  | restore (o : Option OpenHandle) :
      HandleStep fh (.handleRestore fh) () o (o.map fun h => { h with dirty := true })
  | follow (old new : Str) (o : Option OpenHandle) :
      HandleStep fh (.followRenames old new) () o (o.map fun h => h.followRename old new)
  | frame {a : Act} {r : a.Ret} (o : Option OpenHandle) (h : a.Spares fh r) :
      HandleStep fh a r o o

namespace HandleStep

variable {fh : Nat} {a : Act} {r : a.Ret} {o o' : Option OpenHandle}

/-- A claim finds the handle, answers what it holds, and clears its mark. -/
theorem of_claim {datasync : Bool} {c : Claim}
    (h : HandleStep fh (.handleClaim fh datasync) (.ok c) o o') :
    ∃ h, o = some h ∧ c = ⟨h.handleId, h.remotePath, h.cachePath, h.dirty⟩ ∧
      o' = some { h with dirty := false } := by
  cases h with
  | claim datasync h => exact ⟨h, rfl, rfl, rfl⟩
  | frame o h => exact absurd rfl h

/-- The handle id of an open handle is the one it was inserted with. -/
theorem handleId (h : HandleStep fh a r o o') {h' : OpenHandle} (ho : o' = some h') :
    (a = .handleInsert fh h') ∨ ∃ h, o = some h ∧ h.handleId = h'.handleId := by
  subst ho
  generalize hx : some h' = x at h
  cases h with
  | insert => cases hx; exact .inl rfl
  | remove => cases hx
  | write _ _ _ h => cases hx; exact .inr ⟨h, rfl, rfl⟩
  | setLen _ h => cases hx; exact .inr ⟨h, rfl, rfl⟩
  | claim _ h => cases hx; exact .inr ⟨h, rfl, rfl⟩
  | restore =>
    obtain ⟨h, hh, rfl⟩ := Option.map_eq_some_iff.1 hx.symm
    exact .inr ⟨h, hh, rfl⟩
  | follow =>
    obtain ⟨h, hh, rfl⟩ := Option.map_eq_some_iff.1 hx.symm
    exact .inr ⟨h, hh, by simp⟩
  | frame => exact .inr ⟨h', hx.symm, rfl⟩

/-- Only an insertion makes an entry where there was none. -/
theorem of_none (h : HandleStep fh a r o o') (ho : o = none) :
    o' = none ∨ ∃ h', a = .handleInsert fh h' := by
  cases h with
  | insert h' => exact .inr ⟨h', rfl⟩
  | remove => exact .inl rfl
  | write | setLen | claim => cases ho
  | restore | follow => subst ho; exact .inl rfl
  | frame => exact .inl ho

/-- Only a removal drops an entry. -/
theorem of_some {h₀ : OpenHandle} (h : HandleStep fh a r o o') (ho : o = some h₀) (t : Nat) :
    (∃ h', o' = some h') ∨ (Event.acted t a r : Event Act.Ret Errno Op Reply) =
      .acted t (.handleRemove fh) (some h₀) := by
  cases h with
  | remove => subst ho; exact .inr rfl
  | restore | follow => subst ho; exact .inl ⟨_, rfl⟩
  | frame => exact .inl ⟨h₀, ho⟩
  | insert | write | setLen | claim => exact .inl ⟨_, rfl⟩

/-- An insertion makes the entry. -/
theorem of_insert {h : OpenHandle} {r : Unit} (hs : HandleStep fh (.handleInsert fh h) r o o') :
    o' = some h := by
  cases hs with
  | insert => rfl
  | frame o hsp => exact absurd rfl hsp

/-- A removal answers the entry and drops it. -/
theorem of_remove {r : Option OpenHandle} (h : HandleStep fh (.handleRemove fh) r o o') :
    o = r ∧ o' = none := by
  cases h with
  | remove => exact ⟨rfl, rfl⟩
  | frame o h => exact absurd rfl h

end HandleStep

theorem FsState.insertListed_openHandles (s : FsState) (entries : List ListEntry) :
    (s.insertListed entries).2.openHandles = s.openHandles := by
  induction entries generalizing s with
  | nil => rfl
  | cons e entries ih => exact ih _

theorem FsState.insertListed_nextFh (s : FsState) (entries : List ListEntry) :
    (s.insertListed entries).2.nextFh = s.nextFh := by
  induction entries generalizing s with
  | nil => rfl
  | cons e entries ih => exact ih _

/-- Every action makes a `HandleStep` of every entry. -/
theorem handleStep_of_step {a : Act} {s s' : FsState} {r : a.Ret} (h : fsMachine.Step a s r s')
    (fh : Nat) : HandleStep fh a r (s.openHandles.get fh) (s'.openHandles.get fh) := by
  obtain ⟨-, (w : World), (hrun : a.run w s = (r, s'))⟩ := h
  cases a with
  | handleInsert fh' handle =>
    cases hrun
    by_cases hfh : fh' = fh
    · subst hfh
      simpa using HandleStep.insert handle _
    · rw [HashMap.get_insert_ne _ _ (Ne.symm hfh)]
      exact .frame _ hfh
  | handleRemove fh' =>
    cases hrun
    by_cases hfh : fh' = fh
    · subst hfh
      simpa using HandleStep.remove _
    · rw [HashMap.get_remove_ne _ (Ne.symm hfh)]
      exact .frame _ hfh
  | handleWrite fh' offset data =>
    simp only [Act.run, FsState.handleWrite] at hrun
    split at hrun
    · cases hrun
      exact .frame _ trivial
    · next h hget =>
      split at hrun
      · cases hrun
        by_cases hfh : fh' = fh
        · subst hfh
          simpa [hget] using HandleStep.write offset data _ h
        · rw [HashMap.get_insert_ne _ _ (Ne.symm hfh)]
          exact .frame _ hfh
      · cases hrun
        exact .frame _ trivial
  | handleSetLen fh' newSize =>
    simp only [Act.run, FsState.handleSetLen] at hrun
    split at hrun
    · cases hrun
      exact .frame _ trivial
    · next h hget =>
      split at hrun
      · cases hrun
        by_cases hfh : fh' = fh
        · subst hfh
          simpa [hget] using HandleStep.setLen newSize h
        · rw [HashMap.get_insert_ne _ _ (Ne.symm hfh)]
          exact .frame _ hfh
      · cases hrun
        exact .frame _ trivial
  | handleClaim fh' datasync =>
    simp only [Act.run, FsState.handleClaim] at hrun
    split at hrun
    · cases hrun
      exact .frame _ trivial
    · next h hget =>
      split at hrun
      · cases hrun
        by_cases hfh : fh' = fh
        · subst hfh
          simpa [hget] using HandleStep.claim datasync h
        · rw [HashMap.get_insert_ne _ _ (Ne.symm hfh)]
          exact .frame _ hfh
      · cases hrun
        exact .frame _ trivial
  | handleRestore fh' =>
    cases hrun
    by_cases hfh : fh' = fh
    · subst hfh
      simpa [HashMap.get_modify] using HandleStep.restore _
    · rw [HashMap.get_modify, if_neg (Ne.symm hfh)]
      exact .frame _ hfh
  | followRenames old new =>
    cases hrun
    simpa [HashMap.get_mapValues] using HandleStep.follow old new _
  | insertListed entries =>
    have hs : s' = (s.insertListed entries).2 := (congrArg Prod.snd hrun).symm
    rw [hs, s.insertListed_openHandles]
    exact .frame _ trivial
  | attrOpened | openFile | setLen =>
    simp only [Act.run] at hrun
    split at hrun <;> cases hrun <;> exact .frame _ trivial
  | removeFile path | removeDirAll path =>
    cases hrun
    split <;> exact .frame _ trivial
  | _ => cases hrun; exact .frame _ trivial

end UnidriveMount
