import Mathlib.Algebra.Ring.Nat
import Mathlib.Data.List.Perm.Basic

/-!
# Draining a stack

A traversal that takes nodes off a stack, most recent first; a visit gives results and pushes further
nodes. It ends when the nodes a visit pushes weigh less together than the node visited
(`drain_ne_none`), fails only in a visit (`drain_error`), and otherwise yields what the nodes yield, each
result as often as it is there (`drain_perm`).
-/

namespace Lib

variable {N R ε : Type}

/-- Visit the nodes of the stack, with at most `fuel` visits. -/
def drain (visit : N → Except ε (List R × List N)) :
    Nat → List N → List R → Option (Except ε (List R))
  | _, [], out => some (.ok out)
  | 0, _ :: _, _ => none
  | fuel + 1, n :: stack, out =>
    match visit n with
    | .ok (rs, ns) => drain visit fuel (ns.reverse ++ stack) (out ++ rs)
    | .error e => some (.error e)

variable {visit : N → Except ε (List R × List N)} {Good : N → Prop} {weight : N → Nat}
  {fuel : Nat} {stack : List N} {out out' : List R}

/-- The nodes a visit pushes are good, and weigh less together than the node visited. -/
structure Weighs (visit : N → Except ε (List R × List N)) (Good : N → Prop) (weight : N → Nat) :
    Prop where
  pos : ∀ n, Good n → 0 < weight n
  good : ∀ n rs ns, Good n → visit n = .ok (rs, ns) → ∀ m ∈ ns, Good m
  push : ∀ n rs ns, Good n → visit n = .ok (rs, ns) → (ns.map weight).sum < weight n

theorem Weighs.pushed (h : Weighs visit Good weight) {n : N} {rs : List R} {ns : List N}
    (hgood : ∀ m ∈ n :: stack, Good m) (hvisit : visit n = .ok (rs, ns)) :
    ∀ m ∈ ns.reverse ++ stack, Good m := by
  intro m hm
  rcases List.mem_append.1 hm with hm | hm
  · exact h.good n rs ns (hgood n List.mem_cons_self) hvisit m (List.mem_reverse.1 hm)
  · exact hgood m (List.mem_cons_of_mem _ hm)

/-- Fuel for the weight of the stack is enough. -/
theorem drain_ne_none (h : Weighs visit Good weight) (hgood : ∀ n ∈ stack, Good n)
    (hfuel : (stack.map weight).sum ≤ fuel) : drain visit fuel stack out ≠ none := by
  induction fuel generalizing stack out with
  | zero =>
    cases stack with
    | nil => simp [drain]
    | cons n stack =>
      have hpos := h.pos n (hgood n List.mem_cons_self)
      rw [List.map_cons, List.sum_cons] at hfuel
      omega
  | succ fuel ih =>
    cases stack with
    | nil => simp [drain]
    | cons n stack =>
      unfold drain
      split
      · next rs ns hvisit =>
        have hpush := h.push n rs ns (hgood n List.mem_cons_self) hvisit
        refine ih (h.pushed hgood hvisit) ?_
        rw [List.map_cons, List.sum_cons] at hfuel
        rw [List.map_append, List.sum_append, List.map_reverse, List.sum_reverse]
        omega
      · simp

/-- A traversal fails only in a visit. -/
theorem drain_error (h : Weighs visit Good weight) (hgood : ∀ n ∈ stack, Good n) {e : ε}
    (hd : drain visit fuel stack out = some (.error e)) : ∃ n, Good n ∧ visit n = .error e := by
  induction fuel generalizing stack out with
  | zero => cases stack <;> simp [drain] at hd
  | succ fuel ih =>
    cases stack with
    | nil => simp [drain] at hd
    | cons n stack =>
      unfold drain at hd
      split at hd
      · next rs ns hvisit => exact ih (h.pushed hgood hvisit) hd
      · next e' hvisit =>
        cases hd
        exact ⟨n, hgood n List.mem_cons_self, hvisit⟩

/-- **The results are those of the nodes**, in some order, when a node yields the results of its visit
and what the nodes pushed there yield. -/
theorem drain_perm (h : Weighs visit Good weight) {collect : N → List R}
    (hcollect : ∀ n rs ns, Good n → visit n = .ok (rs, ns) →
      (collect n).Perm (rs ++ ns.flatMap collect))
    (hgood : ∀ n ∈ stack, Good n) (hd : drain visit fuel stack out = some (.ok out')) :
    out'.Perm (out ++ stack.flatMap collect) := by
  induction fuel generalizing stack out with
  | zero =>
    cases stack with
    | nil =>
      cases hd
      simp
    | cons n stack => simp [drain] at hd
  | succ fuel ih =>
    cases stack with
    | nil =>
      cases hd
      simp
    | cons n stack =>
      unfold drain at hd
      split at hd
      · next rs ns hvisit =>
        refine (ih (h.pushed hgood hvisit) hd).trans ?_
        have hn := hcollect n rs ns (hgood n List.mem_cons_self) hvisit
        rw [List.flatMap_append, List.flatMap_cons, List.append_assoc]
        refine List.Perm.append_left out ?_
        rw [← List.append_assoc]
        exact ((List.Perm.append_left rs ((List.reverse_perm ns).flatMap_right collect)).trans
          hn.symm).append_right _
      · cases hd

end Lib
