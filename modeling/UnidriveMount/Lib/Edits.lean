import Mathlib.Tactic.Common

/-!
# Edits of a file

The bytes of a file under writes at an offset and changes of the length. A byte stays what it was
written as until an edit touches it (`Edit.getElem?_applyAll`), whatever else is edited in between, and
at whatever length the file was before.
-/

namespace Lib

/-- A change of a file's bytes: data written at an offset, or the length set. -/
inductive Edit (β : Type) : Type where
  | write (offset : Nat) (data : List β)
  | setLen (n : Nat)

namespace Edit

variable {β : Type}

/-- The bytes after the edit. Gaps are filled with `zero`, and an empty write changes nothing. -/
def apply (zero : β) : Edit β → List β → List β
  | write offset data, bytes =>
    if data.isEmpty then bytes
    else
      let head := bytes.take offset
      head ++ List.replicate (offset - head.length) zero ++ data ++ bytes.drop (offset + data.length)
  | setLen n, bytes => bytes.take n ++ List.replicate (n - bytes.length) zero

/-- The bytes after the edits, the first one first. -/
def applyAll (zero : β) (edits : List (Edit β)) (bytes : List β) : List β :=
  edits.foldl (fun bytes e => e.apply zero bytes) bytes

/-- The edit decides the byte at `k`: it is written, or cut off. -/
def Touches (k : Nat) : Edit β → Prop
  | write offset data => offset ≤ k ∧ k < offset + data.length
  | setLen n => n ≤ k

instance (k : Nat) (e : Edit β) : Decidable (e.Touches k) := by
  cases e <;> unfold Touches <;> infer_instance

variable {zero b : β} {k : Nat} {bytes : List β}

@[simp] theorem applyAll_nil : applyAll zero [] bytes = bytes := rfl

@[simp] theorem applyAll_append (es es' : List (Edit β)) :
    applyAll zero (es ++ es') bytes = applyAll zero es' (applyAll zero es bytes) := by
  simp [applyAll]

@[simp] theorem applyAll_cons (e : Edit β) (es : List (Edit β)) :
    applyAll zero (e :: es) bytes = applyAll zero es (e.apply zero bytes) := rfl

/-- What comes before written data is as long as its offset. -/
theorem length_padded (offset : Nat) :
    (bytes.take offset ++ List.replicate (offset - (bytes.take offset).length) zero).length = offset := by
  rw [List.length_append, List.length_replicate, List.length_take]
  omega

theorem apply_write_of_ne {offset : Nat} {data : List β} (h : data ≠ []) :
    (write offset data).apply zero bytes =
      bytes.take offset ++ List.replicate (offset - (bytes.take offset).length) zero ++
        (data ++ bytes.drop (offset + data.length)) := by
  rw [← List.append_assoc]
  exact if_neg (by simpa using h)

/-- A written byte. -/
theorem getElem?_apply_write {offset : Nat} {data : List β} (h : offset ≤ k)
    (h' : k < offset + data.length) :
    ((write offset data).apply zero bytes)[k]? = data[k - offset]? := by
  have hne : data ≠ [] := by
    rintro rfl
    simp at h'
    omega
  rw [apply_write_of_ne hne, List.getElem?_append_right (by rw [length_padded]; exact h), length_padded,
    List.getElem?_append_left (by omega)]

/-- A byte that is not touched stays. -/
theorem getElem?_apply (hb : bytes[k]? = some b) {e : Edit β} (he : ¬ e.Touches k) :
    (e.apply zero bytes)[k]? = some b := by
  have hk : k < bytes.length := (List.getElem?_eq_some_iff.1 hb).1
  cases e with
  | setLen n =>
    have hkn : k < n := by simpa [Touches] using he
    rw [apply, List.getElem?_append_left (by simp; omega), List.getElem?_take_of_lt hkn, hb]
  | write offset data =>
    by_cases hne : data = []
    · subst hne
      exact hb
    · rw [apply_write_of_ne hne]
      by_cases hko : k < offset
      · rw [List.append_assoc, List.getElem?_append_left (by simp; omega), List.getElem?_take_of_lt hko, hb]
      · have hkd : offset + data.length ≤ k := by
          simp only [Touches, not_and] at he
          omega
        rw [List.getElem?_append_right (by rw [length_padded]; omega), length_padded,
          List.getElem?_append_right (by omega), List.getElem?_drop, ← hb]
        congr 1
        omega

/-- **A byte keeps its value** over any edits that do not touch it. -/
theorem getElem?_applyAll (hb : bytes[k]? = some b) {es : List (Edit β)}
    (hes : ∀ e ∈ es, ¬ e.Touches k) : (applyAll zero es bytes)[k]? = some b := by
  induction es generalizing bytes with
  | nil => exact hb
  | cons e es ih =>
    exact ih (getElem?_apply hb (hes e (List.mem_cons_self ..)))
      fun e he => hes e (List.mem_cons_of_mem _ he)

/-- **The last write**: a byte is what the last edit that touched it has written. -/
theorem getElem?_applyAll_write {offset : Nat} {data : List β} (h : offset ≤ k)
    (h' : k < offset + data.length) {es es' : List (Edit β)} (hes' : ∀ e ∈ es', ¬ e.Touches k) :
    (applyAll zero (es ++ write offset data :: es') bytes)[k]? = data[k - offset]? := by
  obtain ⟨b, hb⟩ : ∃ b, data[k - offset]? = some b :=
    ⟨_, List.getElem?_eq_getElem (by omega)⟩
  rw [applyAll_append, applyAll_cons, hb]
  exact getElem?_applyAll ((getElem?_apply_write h h').trans hb) hes'

end Edit

end Lib
