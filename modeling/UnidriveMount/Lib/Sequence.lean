import UnidriveMount.Lib.Pool

/-!
# Sequences of requests

The runs of a service in which every request is served alone: each program runs to its end before
the next request starts. A sequence is recorded as its history, the latest request first.
-/

namespace Lib

section
variable {A : Type} {Ret : A → Type} {σ ε O ρ : Type}

/-- A request that was served: what it was, the actions it performed, and how it ended. -/
structure Served (Ret : A → Type) (ε O ρ : Type) where
  req : O
  occs : List (Occ Ret)
  res : Except ε ρ

/-- The states reached from `s₀` by serving requests one after the other, with the history. `ok`
restricts which request may be served, and how, after a history and in a state. -/
inductive Service.Sequence (S : Service A Ret σ ε O ρ)
    (ok : List (Served Ret ε O ρ) → σ → Served Ret ε O ρ → Prop) (s₀ : σ) :
    List (Served Ret ε O ρ) → σ → Prop where
  | nil : S.Sequence ok s₀ [] s₀
  | cons {l : List (Served Ret ε O ρ)} {s s' : σ} {x : Served Ret ε O ρ}
      (h : S.Sequence ok s₀ l s) (hx : Exec S.machine (S.prog x.req) s x.occs x.res s')
      (hok : ok l s x) : S.Sequence ok s₀ (x :: l) s'

variable {S : Service A Ret σ ε O ρ} {ok ok' : List (Served Ret ε O ρ) → σ → Served Ret ε O ρ → Prop}
  {s₀ s : σ} {l : List (Served Ret ε O ρ)}

/-- The induction rule for sequences. -/
theorem Service.Sequence.invariant {I : List (Served Ret ε O ρ) → σ → Prop}
    (h : S.Sequence ok s₀ l s) (h₀ : I [] s₀)
    (hstep : ∀ l s x s', I l s → Exec S.machine (S.prog x.req) s x.occs x.res s' → ok l s x →
      I (x :: l) s') : I l s := by
  induction h with
  | nil => exact h₀
  | cons _ hx hok ih => exact hstep _ _ _ _ ih hx hok

theorem Service.Sequence.mono (h : S.Sequence ok s₀ l s) (himp : ∀ l s x, ok l s x → ok' l s x) :
    S.Sequence ok' s₀ l s := by
  induction h with
  | nil => exact .nil
  | cons _ hx hok ih => exact .cons ih hx (himp _ _ _ hok)

/-- Every request of the history was served, after those before it. -/
theorem Service.Sequence.exec_of_mem {x : Served Ret ε O ρ} (h : S.Sequence ok s₀ l s) (hx : x ∈ l) :
    ∃ l₁ l₂ s₁ s₂, l = l₁ ++ x :: l₂ ∧ S.Sequence ok s₀ l₂ s₁ ∧
      Exec S.machine (S.prog x.req) s₁ x.occs x.res s₂ := by
  induction h with
  | nil => cases hx
  | @cons l s s' y h hy _ ih =>
    rcases List.mem_cons.1 hx with rfl | hx
    · exact ⟨[], l, s, s', rfl, h, hy⟩
    · obtain ⟨l₁, l₂, s₁, s₂, rfl, hseq, hexec⟩ := ih hx
      exact ⟨y :: l₁, l₂, s₁, s₂, rfl, hseq, hexec⟩

/-- Serve the requests in order, the outside contributing one value to each. -/
def Service.serveAll (S : Service A Ret σ ε O ρ)
    (ok : List (Served Ret ε O ρ) → σ → Served Ret ε O ρ → Bool) :
    List (O × S.machine.World) → List (Served Ret ε O ρ) → σ →
      Option (List (Served Ret ε O ρ) × σ)
  | [], l, s => some (l, s)
  | (o, w) :: reqs, l, s =>
    match S.machine.exec w (S.prog o) s with
    | some (es, res, s') =>
      if ok l s ⟨o, es, res⟩ then S.serveAll ok reqs (⟨o, es, res⟩ :: l) s' else none
    | none => none

/-- What is served in order is a sequence. -/
theorem Service.sequence_of_serveAll {okb : List (Served Ret ε O ρ) → σ → Served Ret ε O ρ → Bool}
    (hok : ∀ l s x, okb l s x = true → ok l s x) {reqs : List (O × S.machine.World)}
    {x : List (Served Ret ε O ρ) × σ} (h₀ : S.Sequence ok s₀ l s)
    (h : S.serveAll okb reqs l s = some x) : S.Sequence ok s₀ x.1 x.2 := by
  induction reqs generalizing l s with
  | nil =>
    cases h
    exact h₀
  | cons req reqs ih =>
    simp only [Service.serveAll] at h
    split at h
    · next es res s' hexec =>
      split at h
      · next hb => exact ih (h₀.cons (Machine.exec_sound hexec) (hok _ _ _ hb)) h
      · cases h
    · cases h

end

end Lib
