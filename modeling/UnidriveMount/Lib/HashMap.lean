import Mathlib.Data.List.AList

/-!
# Hash maps

A hash map is a finite partial function whose iteration order is not specified. It is modelled by
Mathlib's `AList`, a list of entries with distinct keys, under the method names of the language's
own map: `get`, `insert`, `remove`, `retain`, `iter`. Every operation is characterised by what
`get` answers after it, so a caller never depends on the order of the entries.
-/

namespace Lib

/-- A map from `κ` to `υ` with distinct keys, in some order. -/
abbrev HashMap (κ υ : Type) := AList (fun _ : κ => υ)

namespace HashMap

variable {κ υ ω : Type}

/-- The entries, in iteration order. -/
def iter (m : HashMap κ υ) : List (κ × υ) := m.entries.map fun e => (e.1, e.2)

/-- The values, in iteration order. -/
def values (m : HashMap κ υ) : List υ := m.iter.map Prod.snd

/-- The entries whose key and value pass `p`. -/
def retain (p : κ → υ → Bool) (m : HashMap κ υ) : HashMap κ υ where
  entries := m.entries.filter fun e => p e.1 e.2
  nodupKeys := m.nodupKeys.sublist List.filter_sublist

/-- Every value replaced by its image, the keys kept. -/
def mapValues (f : υ → ω) (m : HashMap κ υ) : HashMap κ ω where
  entries := m.entries.map fun e => ⟨e.1, f e.2⟩
  nodupKeys := by
    show (List.keys (m.entries.map fun e => (⟨e.1, f e.2⟩ : Σ _ : κ, ω))).Nodup
    have h : List.keys (m.entries.map fun e => (⟨e.1, f e.2⟩ : Σ _ : κ, ω)) = m.entries.keys := by
      simp [List.keys, Function.comp_def]
    exact h ▸ m.nodupKeys

/-- The keys of the iteration are distinct. -/
theorem iter_keys_nodup (m : HashMap κ υ) : (m.iter.map Prod.fst).Nodup := by
  have h : m.iter.map Prod.fst = m.entries.keys := by
    simp [iter, List.keys, Function.comp_def]
  exact h ▸ m.nodupKeys

variable [DecidableEq κ]

/-- The value stored at `k`. -/
def get (m : HashMap κ υ) (k : κ) : Option υ := m.lookup k

/-- Whether `k` has a value. -/
def containsKey (m : HashMap κ υ) (k : κ) : Bool := (m.get k).isSome

/-- Store `v` at `k`, in place of the value there. -/
def insert (m : HashMap κ υ) (k : κ) (v : υ) : HashMap κ υ := AList.insert k v m

/-- Drop the entry at `k`. -/
def remove (m : HashMap κ υ) (k : κ) : HashMap κ υ := AList.erase k m

/-- Replace the value at `k`, if there is one, by its image. -/
def modify (m : HashMap κ υ) (k : κ) (f : υ → υ) : HashMap κ υ :=
  match m.get k with
  | some v => m.insert k (f v)
  | none => m

/-- Store every pair of `l`, the later ones over the earlier ones. -/
def extend (m : HashMap κ υ) (l : List (κ × υ)) : HashMap κ υ :=
  l.foldl (fun m e => m.insert e.1 e.2) m

/-! ## What `get` answers -/

@[simp] theorem get_empty (k : κ) : get (∅ : HashMap κ υ) k = none := AList.lookup_empty k

theorem get_insert (m : HashMap κ υ) (k k' : κ) (v : υ) :
    (m.insert k v).get k' = if k' = k then some v else m.get k' := by
  split
  · next h => subst h; exact AList.lookup_insert m
  · next h => exact AList.lookup_insert_ne h

@[simp] theorem get_insert_self (m : HashMap κ υ) (k : κ) (v : υ) :
    (m.insert k v).get k = some v := AList.lookup_insert m

theorem get_insert_ne (m : HashMap κ υ) {k k' : κ} (v : υ) (h : k' ≠ k) :
    (m.insert k v).get k' = m.get k' := AList.lookup_insert_ne h

theorem get_remove (m : HashMap κ υ) (k k' : κ) :
    (m.remove k).get k' = if k' = k then none else m.get k' := by
  split
  · next h => subst h; exact AList.lookup_erase k' m
  · next h => exact AList.lookup_erase_ne h

@[simp] theorem get_remove_self (m : HashMap κ υ) (k : κ) : (m.remove k).get k = none :=
  AList.lookup_erase k m

theorem get_remove_ne (m : HashMap κ υ) {k k' : κ} (h : k' ≠ k) :
    (m.remove k).get k' = m.get k' := AList.lookup_erase_ne h

theorem get_modify (m : HashMap κ υ) (k k' : κ) (f : υ → υ) :
    (m.modify k f).get k' = if k' = k then (m.get k).map f else m.get k' := by
  unfold modify
  cases h : m.get k with
  | none => split <;> simp_all
  | some v => rw [get_insert]; simp

/-- An entry is iterated exactly when `get` answers it. -/
theorem mem_iter {m : HashMap κ υ} {k : κ} {v : υ} : (k, v) ∈ m.iter ↔ m.get k = some v := by
  have h : (k, v) ∈ m.iter ↔ (⟨k, v⟩ : Σ _ : κ, υ) ∈ m.entries := by
    simp only [iter, List.mem_map]
    constructor
    · rintro ⟨⟨_, _⟩, he, heq⟩
      cases heq
      exact he
    · exact fun he => ⟨_, he, rfl⟩
  rw [h, get]
  exact (AList.mem_lookup_iff).symm

theorem mem_values {m : HashMap κ υ} {v : υ} : v ∈ m.values ↔ ∃ k, m.get k = some v := by
  simp only [values, List.mem_map, Prod.exists, exists_eq_right]
  exact exists_congr fun k => mem_iter

theorem get_retain (p : κ → υ → Bool) (m : HashMap κ υ) (k : κ) :
    (m.retain p).get k = (m.get k).filter (p k) := by
  apply Option.ext
  intro v
  have hmem : ∀ m' : HashMap κ υ, m'.get k = some v ↔ (⟨k, v⟩ : Σ _ : κ, υ) ∈ m'.entries :=
    fun m' => AList.mem_lookup_iff
  simp only [hmem, retain, List.mem_filter, Option.filter_eq_some_iff]

theorem get_mapValues (f : υ → ω) (m : HashMap κ υ) (k : κ) :
    (m.mapValues f).get k = (m.get k).map f := by
  apply Option.ext
  intro w
  have hmem : (m.mapValues f).get k = some w ↔
      (⟨k, w⟩ : Σ _ : κ, ω) ∈ (m.mapValues f).entries := AList.mem_lookup_iff
  rw [hmem, Option.map_eq_some_iff]
  simp only [mapValues, List.mem_map]
  constructor
  · rintro ⟨⟨k', v⟩, he, heq⟩
    cases heq
    exact ⟨v, AList.mem_lookup_iff.2 he, rfl⟩
  · rintro ⟨v, hv, rfl⟩
    exact ⟨⟨k, v⟩, AList.mem_lookup_iff.1 hv, rfl⟩

theorem containsKey_iff {m : HashMap κ υ} {k : κ} : m.containsKey k = true ↔ ∃ v, m.get k = some v :=
  Option.isSome_iff_exists

/-- A value is stored by one of the pairs, or was there. -/
theorem mem_of_get_extend {m : HashMap κ υ} {l : List (κ × υ)} {k : κ} {v : υ}
    (h : (m.extend l).get k = some v) : (k, v) ∈ l ∨ m.get k = some v := by
  induction l generalizing m with
  | nil => exact .inr h
  | cons e l ih =>
    rcases ih (m := m.insert e.1 e.2) h with hmem | hget
    · exact .inl (List.mem_cons_of_mem _ hmem)
    · rw [get_insert] at hget
      split at hget
      · next hk =>
        cases hget
        rw [hk]
        exact .inl (List.mem_cons_self ..)
      · exact .inr hget

/-- Keys no stored pair names keep their value. -/
theorem get_extend_of_notMem (m : HashMap κ υ) {l : List (κ × υ)} {k : κ}
    (h : k ∉ l.map Prod.fst) : (m.extend l).get k = m.get k := by
  induction l generalizing m with
  | nil => rfl
  | cons e l ih =>
    rw [List.map_cons, List.mem_cons, not_or] at h
    change ((m.insert e.1 e.2).extend l).get k = _
    rw [ih _ h.2, get_insert_ne _ _ h.1]

/-- A key stored once has the value stored. -/
theorem get_extend_of_mem (m : HashMap κ υ) {l : List (κ × υ)} (hl : (l.map Prod.fst).Nodup)
    {k : κ} {v : υ} (h : (k, v) ∈ l) : (m.extend l).get k = some v := by
  induction l generalizing m with
  | nil => cases h
  | cons e l ih =>
    rw [List.map_cons, List.nodup_cons] at hl
    change ((m.insert e.1 e.2).extend l).get k = _
    rcases List.mem_cons.1 h with rfl | h
    · rw [get_extend_of_notMem _ hl.1, get_insert_self]
    · exact ih _ hl.2 h

end HashMap

end Lib
