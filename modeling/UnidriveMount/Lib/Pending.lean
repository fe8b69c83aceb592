import Mathlib.Data.List.Basic
import Mathlib.Data.List.Nodup

/-!
# Operations that reach two places

Several parties apply operations to one place, each first there and later to a second place. What
was applied to the first and not yet to the second is pending, in the order of the first, each
operation with the party that is to apply it. `catchUp f q x` is what the pending operations make of
a value of the second place. A party that applies its operation out of order leaves the same value to
catch up with, as long as the operation commutes with those before it (`catchUp_settle`).
-/

namespace Lib

variable {ρ α : Type} (f : ρ → α → α)

/-- What the pending operations make of a value. -/
def catchUp (q : List (Nat × ρ)) (x : α) : α := q.foldl (fun x e => f e.2 x) x

/-- What is pending after `t` has applied what it had to. -/
def settle (t : Nat) (q : List (Nat × ρ)) : List (Nat × ρ) := q.filter fun e => e.1 ≠ t

@[simp] theorem catchUp_nil (x : α) : catchUp f [] x = x := rfl

@[simp] theorem catchUp_cons (e : Nat × ρ) (q : List (Nat × ρ)) (x : α) :
    catchUp f (e :: q) x = catchUp f q (f e.2 x) := rfl

theorem catchUp_append (q q' : List (Nat × ρ)) (x : α) :
    catchUp f (q ++ q') x = catchUp f q' (catchUp f q x) := List.foldl_append

theorem catchUp_snoc (q : List (Nat × ρ)) (e : Nat × ρ) (x : α) :
    catchUp f (q ++ [e]) x = f e.2 (catchUp f q x) := catchUp_append f q [e] x

variable {f}

/-- Operations that leave the value alone. -/
theorem catchUp_of_fixed {q : List (Nat × ρ)} {x : α} (h : ∀ e ∈ q, f e.2 x = x) :
    catchUp f q x = x := by
  induction q with
  | nil => rfl
  | cons e q ih =>
    rw [catchUp_cons, h e (List.mem_cons_self ..)]
    exact ih fun e' he => h e' (List.mem_cons_of_mem _ he)

/-- An operation that commutes with the pending ones can be applied before them. -/
theorem catchUp_comm {q : List (Nat × ρ)} {r : ρ} (h : ∀ e ∈ q, ∀ x, f e.2 (f r x) = f r (f e.2 x))
    (x : α) : catchUp f q (f r x) = f r (catchUp f q x) := by
  induction q generalizing x with
  | nil => rfl
  | cons e q ih =>
    rw [catchUp_cons, catchUp_cons, h e (List.mem_cons_self ..)]
    exact ih (fun e' he => h e' (List.mem_cons_of_mem _ he)) _

variable {q q' A C : List (Nat × ρ)} {t : Nat} {r : ρ}

theorem mem_settle {e : Nat × ρ} : e ∈ settle t q ↔ e ∈ q ∧ e.1 ≠ t := by
  simp [settle, List.mem_filter]

/-- Who has nothing pending leaves what is pending. -/
theorem settle_of_notMem (h : ∀ r, (t, r) ∉ q) : settle t q = q := by
  refine List.filter_eq_self.2 fun e he => ?_
  simp only [ne_eq, decide_eq_true_eq]
  rintro rfl
  exact h e.2 he

theorem settle_append (q q' : List (Nat × ρ)) : settle t (q ++ q') = settle t q ++ settle t q' :=
  List.filter_append ..

theorem nodup_settle (h : (q.map Prod.fst).Nodup) : ((settle t q).map Prod.fst).Nodup :=
  h.sublist (List.filter_sublist.map _)

/-- The operation of `t`, in the order of the first place. -/
theorem settle_split (h : ((A ++ (t, r) :: C).map Prod.fst).Nodup) :
    settle t (A ++ (t, r) :: C) = A ++ C := by
  simp only [List.map_append, List.map_cons, List.nodup_append, List.nodup_cons, List.mem_map,
    List.mem_cons] at h
  obtain ⟨-, ⟨hC, -⟩, hA⟩ := h
  rw [settle_append, settle_of_notMem fun r' hr' => hA t ⟨_, hr', rfl⟩ t (.inl rfl) rfl]
  congr 1
  refine (List.filter_cons_of_neg (by simp)).trans (settle_of_notMem fun r' hr' => hC ⟨_, hr', rfl⟩)

/-- **An operation applied out of order** that commutes with those before it. -/
theorem catchUp_settle (hnd : (q.map Prod.fst).Nodup) (hq : q = A ++ (t, r) :: C)
    (hcomm : ∀ e ∈ A, ∀ x, f e.2 (f r x) = f r (f e.2 x)) (x : α) :
    catchUp f (settle t q) (f r x) = catchUp f q x := by
  subst hq
  rw [settle_split hnd, catchUp_append, catchUp_append, catchUp_cons, catchUp_comm hcomm]

end Lib
