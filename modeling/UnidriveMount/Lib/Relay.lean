import UnidriveMount.Lib.Pool

/-!
# Handing over

A producer, which is a program of its own, hands items to a service through a queue: a consumer takes them
from the queue one by one and makes a request of the service for each, while the service serves other
requests too. Whatever the order of the steps, every item is taken once, in the order in which the items
were produced (`Relay.inOrder_of_run`), the requests for them do not overlap (`Relay.serial_of_run`), and
when the queue is empty and the consumer idle, then every item was served after it was produced
(`Relay.served_of_run`).
-/

namespace Lib

/-- A producer, the items its actions hand over, and the service that gets them. The requests the
consumer makes are its own: nobody else makes them. -/
structure Relay (B : Type) (Ret' : B → Type) (τ ε' α A : Type) (Ret : A → Type) (σ ε O ρ ι : Type) where
  producer : Machine B Ret' τ
  prog : Prog B Ret' ε' α
  item : Occ Ret' → Option ι
  service : Service A Ret σ ε O ρ
  req : ι → O
  own : O → Option ι
  own_req : ∀ i, own (req i) = some i

namespace Relay

variable {B : Type} {Ret' : B → Type} {τ ε' α A : Type} {Ret : A → Type} {σ ε O ρ ι : Type}

/-- The service, the producer with the rest of its program and what it has done, the queue, and the
request the consumer waits for. -/
structure Config (B : Type) (Ret' : B → Type) (τ ε' α : Type) {A : Type} (Ret : A → Type)
    (σ ε O ρ ι : Type) where
  svc : Lib.Config Ret σ ε O ρ
  st : τ
  rest : Prog B Ret' ε' α
  done : List (Occ Ret')
  queue : List ι
  busy : Option Nat

variable (R : Relay B Ret' τ ε' α A Ret σ ε O ρ ι)

/-- Nothing has happened. -/
def initial (s : σ) (t : τ) : Config B Ret' τ ε' α Ret σ ε O ρ ι :=
  ⟨.initial s, t, R.prog, [], [], none⟩

/-- One step: of another request, of the producer, or of the consumer, which takes an item when it is
idle, and then waits for the request. -/
inductive Step : Config B Ret' τ ε' α Ret σ ε O ρ ι → Config B Ret' τ ε' α Ret σ ε O ρ ι → Prop where
  | other {c : Config B Ret' τ ε' α Ret σ ε O ρ ι} {e : Event Ret ε O ρ} {svc : Lib.Config Ret σ ε O ρ}
      (h : R.service.Step c.svc e svc) (hfree : c.busy ≠ some e.tid)
      (hown : ∀ t o, e = .started t o → R.own o = none) : Step c { c with svc := svc }
  | produce {c : Config B Ret' τ ε' α Ret σ ε O ρ ι} {b : B} {k : Ret' b → Prog B Ret' ε' α} {r : Ret' b}
      {t : τ} (hrest : c.rest = .act b k) (h : R.producer.Step b c.st r t) :
      Step c { c with
        st := t
        rest := k r
        done := c.done ++ [⟨b, r⟩]
        queue := c.queue ++ (R.item ⟨b, r⟩).toList }
  | take {c : Config B Ret' τ ε' α Ret σ ε O ρ ι} {i : ι} {l : List ι} {t : Nat}
      {svc : Lib.Config Ret σ ε O ρ} (hidle : c.busy = none) (hqueue : c.queue = i :: l)
      (h : R.service.Step c.svc (.started t (R.req i)) svc) :
      Step c { c with svc := svc, queue := l, busy := some t }
  | work {c : Config B Ret' τ ε' α Ret σ ε O ρ ι} {t : Nat} {a : A} {r : Ret a}
      {svc : Lib.Config Ret σ ε O ρ} (hbusy : c.busy = some t)
      (h : R.service.Step c.svc (.acted t a r) svc) : Step c { c with svc := svc }
  | finish {c : Config B Ret' τ ε' α Ret σ ε O ρ ι} {t : Nat} {o : O} {res : Except ε ρ}
      {svc : Lib.Config Ret σ ε O ρ} (hbusy : c.busy = some t)
      (h : R.service.Step c.svc (.returned t o res) svc) : Step c { c with svc := svc, busy := none }

/-- The configurations reachable from `c₀`. -/
inductive Run (c₀ : Config B Ret' τ ε' α Ret σ ε O ρ ι) :
    Config B Ret' τ ε' α Ret σ ε O ρ ι → Prop where
  | refl : Run c₀ c₀
  | step {c c' : Config B Ret' τ ε' α Ret σ ε O ρ ι} (h : Run c₀ c) (hst : R.Step c c') : Run c₀ c'

/-- The configurations reachable from the beginning. -/
def Reachable (s : σ) (t : τ) (c : Config B Ret' τ ε' α Ret σ ε O ρ ι) : Prop := R.Run (R.initial s t) c

/-- The items that were produced. -/
def items (es : List (Occ Ret')) : List ι := es.filterMap R.item

/-- The item whose request the entry starts. -/
def takenBy : Event Ret ε O ρ → Option ι
  | .started _ o => R.own o
  | _ => none

/-- The items that were taken. -/
def taken (l : List (Event Ret ε O ρ)) : List ι := l.filterMap R.takenBy

/-- The items were taken in order, the rest is in the queue, and only the request the consumer waits for
is in progress of those it has made. -/
structure InOrder (c : Config B Ret' τ ε' α Ret σ ε O ρ ι) : Prop where
  items : R.items c.done = R.taken c.svc.log ++ c.queue
  live : ∀ t o p, c.svc.live t = some (o, p) → R.own o ≠ none → c.busy = some t

variable {R} {c₀ c₁ c c' : Config B Ret' τ ε' α Ret σ ε O ρ ι} {s : σ} {t : τ}

theorem Run.trans (h : R.Run c₀ c₁) (h' : R.Run c₁ c) : R.Run c₀ c := by
  induction h' with
  | refl => exact h
  | step _ hst ih => exact ih.step hst

theorem items_append (es es' : List (Occ Ret')) : R.items (es ++ es') = R.items es ++ R.items es' :=
  List.filterMap_append ..

/-- What the service does is a run of its own. -/
theorem Run.svc (h : R.Run c₀ c) : R.service.Run (fun _ _ => True) c₀.svc c.svc := by
  induction h with
  | refl => exact .refl
  | step _ hst ih =>
    cases hst with
    | other h => exact ih.step h trivial
    | produce => exact ih
    | take _ _ h => exact ih.step h trivial
    | work _ h => exact ih.step h trivial
    | finish _ h => exact ih.step h trivial

/-- What was done stays done. -/
theorem Run.done_prefix (h : R.Run c₀ c) : c₀.done <+: c.done := by
  induction h with
  | refl => exact List.prefix_rfl
  | step _ hst ih =>
    cases hst with
    | produce => exact ih.trans (List.prefix_append ..)
    | other | take | work | finish => exact ih

/-- A step of a request that is in progress keeps the requests in progress what they are. -/
theorem own_of_live {e : Event Ret ε O ρ} {d d' : Lib.Config Ret σ ε O ρ} (h : R.service.Step d e d')
    {u : Nat} {o : O} {p : Prog A Ret ε ρ} (hlive : d'.live u = some (o, p)) :
    (∃ p', d.live u = some (o, p')) ∨ e = .started u o := by
  cases h with
  | start =>
    rw [Config.start_live] at hlive
    split at hlive
    · next hu =>
      subst hu
      cases hlive
      exact .inr rfl
    · exact .inl ⟨p, hlive⟩
  | act hl =>
    rw [Config.act_live] at hlive
    split at hlive
    · next hu =>
      subst hu
      cases hlive
      exact .inl ⟨_, hl⟩
    · exact .inl ⟨p, hlive⟩
  | finish =>
    rw [Config.finish_live] at hlive
    split at hlive
    · cases hlive
    · exact .inl ⟨p, hlive⟩

theorem InOrder.step (h : R.InOrder c) (hst : R.Step c c') : R.InOrder c' := by
  have hitems := h.items
  cases hst with
  | @other e svc hstep hfree hown =>
    refine ⟨?_, fun u o p hlive ho => ?_⟩
    · have hnone : R.takenBy e = none := by
        cases e with
        | started u o => exact hown u o rfl
        | acted | returned => rfl
      simp [hstep.log_eq, taken, hnone, hitems]
    · rcases own_of_live hstep hlive with ⟨p', hlive'⟩ | rfl
      · exact h.live u o p' hlive' ho
      · exact absurd (hown u o rfl) ho
  | @produce b k r t' hrest hm =>
    refine ⟨?_, h.live⟩
    have hnew : R.items [⟨b, r⟩] = (R.item ⟨b, r⟩).toList := by
      unfold Relay.items
      cases hi : R.item ⟨b, r⟩ <;> simp [hi]
    rw [items_append, hnew, hitems, List.append_assoc]
  | @take i l u svc hidle hqueue hstep =>
    refine ⟨?_, fun u' o p hlive ho => ?_⟩
    · simp [hstep.log_eq, taken, takenBy, R.own_req, hitems, hqueue]
    · rcases own_of_live hstep hlive with ⟨p', hlive'⟩ | heq
      · cases hidle.symm.trans (h.live u' o p' hlive' ho)
      · cases heq
        rfl
  | work hbusy hstep =>
    refine ⟨?_, fun u o p hlive ho => ?_⟩
    · simp [hstep.log_eq, taken, takenBy, hitems]
    · rcases own_of_live hstep hlive with ⟨p', hlive'⟩ | heq
      · exact h.live u o p' hlive' ho
      · cases heq
  | finish hbusy hstep =>
    refine ⟨?_, fun u o p hlive ho => ?_⟩
    · simp [hstep.log_eq, taken, takenBy, hitems]
    · cases hstep with
      | finish hl =>
        rw [Config.finish_live] at hlive
        split at hlive
        · cases hlive
        · next hu =>
          cases hbusy.symm.trans (h.live u o p hlive ho)
          exact absurd rfl hu

/-- **Every item is taken once, in order.** -/
theorem inOrder_of_run (h : R.Reachable s t c) : R.InOrder c := by
  induction h with
  | refl => exact ⟨rfl, fun u o p hlive => by cases hlive⟩
  | step _ hst ih => exact ih.step hst

/-- The start of a request of the consumer, by the place of its item. -/
theorem start_of_taken {l : List (Event Ret ε O ρ)} {k : Nat} {i : ι} (h : (R.taken l)[k]? = some i) :
    ∃ p u o, l[p]? = some (.started u o) ∧ R.own o = some i ∧ (R.taken (l.take p)).length = k := by
  induction l generalizing k with
  | nil => simp [taken] at h
  | cons e l ih =>
    have keep : ∀ k', (R.taken l)[k']? = some i → k' + (R.takenBy e).toList.length = k →
        ∃ p u o, (e :: l)[p]? = some (.started u o) ∧ R.own o = some i ∧
          (R.taken ((e :: l).take p)).length = k := by
      intro k' hk' hk
      obtain ⟨p, u, o, hp, ho, hlen⟩ := ih hk'
      refine ⟨p + 1, u, o, hp, ho, ?_⟩
      rw [List.take_succ_cons, taken, List.filterMap_cons, ← hk, ← hlen]
      cases R.takenBy e <;> simp [taken]
    rw [taken, List.filterMap_cons] at h
    cases he : R.takenBy e with
    | none =>
      rw [he] at h
      exact keep k h (by simp [he])
    | some i' =>
      rw [he] at h
      cases k with
      | zero =>
        cases h
        cases e with
        | started u o => exact ⟨0, u, o, rfl, he, rfl⟩
        | acted | returned => cases he
      | succ k => exact keep k h (by simp [he])

/-- A request of the consumer that it does not wait for has returned. -/
theorem InOrder.returned_of_free (hinv : R.InOrder c) (hrun : R.service.Run (fun _ _ => True) (.initial s) c.svc)
    {p u : Nat} {o : O} (hp : c.svc.log[p]? = some (.started u o)) (ho : R.own o ≠ none)
    (hbusy : c.busy ≠ some u) :
    ∃ (p' : Nat) (res : Except ε ρ), p < p' ∧ c.svc.log[p']? = some (.returned u o res) := by
  have hlive : c.svc.live u = none := by
    cases hl : c.svc.live u with
    | none => rfl
    | some op =>
      obtain ⟨q, hq⟩ := hrun.started_of_live hl
      obtain ⟨rfl, rfl⟩ := hrun.started_unique hp hq
      exact absurd (hinv.live u op.1 op.2 hl ho) hbusy
  obtain ⟨o', res, hmem⟩ := hrun.returned_of_not_live (List.mem_of_getElem? hp) hlive
  obtain ⟨p', hp'⟩ := List.getElem?_of_mem hmem
  obtain ⟨q, hq, hstart⟩ := hrun.started_of_returned hp'
  obtain ⟨rfl, rfl⟩ := hrun.started_unique hp hstart
  exact ⟨p', res, hq, hp'⟩

/-- The requests of the consumer do not overlap. -/
def Serial (R : Relay B Ret' τ ε' α A Ret σ ε O ρ ι) (l : List (Event Ret ε O ρ)) : Prop :=
  ∀ (p p' u u' : Nat) (o o' : O), l[p]? = some (.started u o) → R.own o ≠ none →
    l[p']? = some (.started u' o') → R.own o' ≠ none → p < p' →
    ∃ (q : Nat) (res : Except ε ρ), p < q ∧ q < p' ∧ l[q]? = some (.returned u o res)

theorem Serial.snoc {l : List (Event Ret ε O ρ)} {e : Event Ret ε O ρ} (h : R.Serial l)
    (he : ∀ u' o', e = .started u' o' → R.own o' ≠ none → ∀ (p u : Nat) (o : O),
      l[p]? = some (.started u o) → R.own o ≠ none →
      ∃ (q : Nat) (res : Except ε ρ), p < q ∧ l[q]? = some (.returned u o res)) :
    R.Serial (l ++ [e]) := by
  intro p p' u u' o o' hp ho hp' ho' hlt
  have hp : l[p]? = some (.started u o) := by
    refine (getElem?_snoc_iff.1 hp).resolve_right fun ⟨hlen, _⟩ => ?_
    have := getElem?_lt hp'
    rw [List.length_append, List.length_singleton] at this
    omega
  rcases getElem?_snoc_iff.1 hp' with hold | ⟨rfl, hnew⟩
  · obtain ⟨q, res, hpq, hqp', hq⟩ := h p p' u u' o o' hp ho hold ho' hlt
    exact ⟨q, res, hpq, hqp', getElem?_snoc _ hq⟩
  · obtain ⟨q, res, hpq, hq⟩ := he u' o' hnew.symm ho' p u o hp ho
    exact ⟨q, res, hpq, getElem?_lt hq, getElem?_snoc _ hq⟩

/-- **Items are served one at a time.** -/
theorem serial_of_run (h : R.Reachable s t c) : R.Serial c.svc.log := by
  induction h with
  | refl => exact fun p p' u u' o o' hp => by simp [initial] at hp
  | step hrun hst ih =>
    cases hst with
    | @other e svc hstep hfree hown =>
      rw [hstep.log_eq]
      exact ih.snoc fun u' o' he ho' => absurd (hown u' o' he) ho'
    | produce => exact ih
    | take hidle hqueue hstep =>
      rw [hstep.log_eq]
      refine ih.snoc fun _ _ _ _ p u o hp ho => ?_
      exact (inOrder_of_run hrun).returned_of_free hrun.svc hp ho (by simp [hidle])
    | work hbusy hstep =>
      rw [hstep.log_eq]
      exact ih.snoc fun _ _ he => by cases he
    | finish hbusy hstep =>
      rw [hstep.log_eq]
      exact ih.snoc fun _ _ he => by cases he

/-- A step of the producer is none of the service. -/
theorem Step.svc_eq {e : Occ Ret'} (hst : R.Step c c') (he : c'.done = c.done ++ [e]) : c'.svc = c.svc := by
  cases hst with
  | produce => rfl
  | other | take | work | finish => simp at he

/-- **Every item is served.** Once the queue is empty and the consumer idle, an item that the producer has
handed over had its request after that, which has returned. -/
theorem served_of_run {e : Occ Ret'} {i : ι} (h : R.Reachable s t c₀) (hst : R.Step c₀ c₁)
    (he : c₁.done = c₀.done ++ [e]) (hi : R.item e = some i) (h' : R.Run c₁ c) (hqueue : c.queue = [])
    (hidle : c.busy = none) :
    ∃ (p p' u : Nat) (o : O) (res : Except ε ρ), c₁.svc.log.length ≤ p ∧ p < p' ∧
      c.svc.log[p]? = some (.started u o) ∧ R.own o = some i ∧
      c.svc.log[p']? = some (.returned u o res) := by
  have hrun : R.Reachable s t c := (h.step hst).trans h'
  have hinv := inOrder_of_run hrun
  have hk : (R.taken c.svc.log)[(R.items c₀.done).length]? = some i := by
    have hpre : R.items c₀.done ++ [i] <+: R.taken c.svc.log := by
      have hnew : R.items c₁.done = R.items c₀.done ++ [i] := by
        rw [he, items_append]
        simp [items, hi]
      have hall := hinv.items
      rw [hqueue, List.append_nil] at hall
      rw [← hnew, ← hall]
      exact h'.done_prefix.filterMap _
    obtain ⟨rest, hrest⟩ := hpre
    rw [← hrest]
    simp
  obtain ⟨p, u, o, hp, ho, hlen⟩ := start_of_taken hk
  obtain ⟨p', res, hlt', hp'⟩ := hinv.returned_of_free hrun.svc hp (by simp [ho]) (by simp [hidle])
  refine ⟨p, p', u, o, res, ?_, hlt', hp, ho, hp'⟩
  -- an earlier start would have taken the item before it was handed over
  by_contra hlt
  have hbefore : c.svc.log.take (p + 1) <+: c₁.svc.log :=
    List.prefix_of_prefix_length_le (List.take_prefix ..) h'.svc.log_prefix (by simp; omega)
  have htaken : (R.taken (c.svc.log.take (p + 1))).length = (R.items c₀.done).length + 1 := by
    rw [List.take_add_one, hp, ← hlen]
    simp [taken, takenBy, ho]
  have hle : (R.taken (c.svc.log.take (p + 1))).length ≤ (R.taken c₁.svc.log).length :=
    (hbefore.sublist.filterMap _).length_le
  have hitems := congrArg List.length (inOrder_of_run h).items
  rw [List.length_append, ← hst.svc_eq he] at hitems
  omega

/-! ## Scheduled runs -/

/-- A choice of the scheduler. `w` and `v` are what the outside contributes to an action. -/
inductive Move (W V O : Type) : Type where
  | other (m : Lib.Move W O)
  | produce (v : V)
  | take (u : Nat)
  | work (w : W)
  | finish

/-- Whether the event belongs to a request of somebody else. -/
def isOther (R : Relay B Ret' τ ε' α A Ret σ ε O ρ ι) (c : Config B Ret' τ ε' α Ret σ ε O ρ ι)
    (e : Event Ret ε O ρ) : Bool :=
  decide (c.busy ≠ some e.tid) && match e with
    | .started _ o => (R.own o).isNone
    | _ => true

/-- What the choice leads to, if it can be made. -/
def move (R : Relay B Ret' τ ε' α A Ret σ ε O ρ ι) (c : Config B Ret' τ ε' α Ret σ ε O ρ ι) :
    Move R.service.machine.World R.producer.World O → Option (Config B Ret' τ ε' α Ret σ ε O ρ ι)
  | .other m =>
    match R.service.move c.svc m with
    | some (e, svc) => if R.isOther c e then some { c with svc := svc } else none
    | none => none
  | .produce v =>
    match c.rest with
    | .act b k =>
      if R.producer.ready b c.st then
        let (r, t) := R.producer.run b v c.st
        some { c with
          st := t
          rest := k r
          done := c.done ++ [⟨b, r⟩]
          queue := c.queue ++ (R.item ⟨b, r⟩).toList }
      else none
    | .ret _ => none
  | .take u =>
    match c.busy, c.queue with
    | none, i :: l =>
      match R.service.move c.svc (.start u (R.req i)) with
      | some (_, svc) => some { c with svc := svc, queue := l, busy := some u }
      | none => none
    | _, _ => none
  | .work w =>
    match c.busy with
    | some u =>
      match R.service.move c.svc (.act u w) with
      | some (_, svc) => some { c with svc := svc }
      | none => none
    | none => none
  | .finish =>
    match c.busy with
    | some u =>
      match R.service.move c.svc (.finish u) with
      | some (_, svc) => some { c with svc := svc, busy := none }
      | none => none
    | none => none

theorem step_of_move {m : Move R.service.machine.World R.producer.World O} (h : R.move c m = some c') :
    R.Step c c' := by
  cases m with
  | other m =>
    simp only [move] at h
    split at h
    · next e svc hm =>
      split at h
      · next hother =>
        cases h
        obtain ⟨hfree, hown⟩ := Bool.and_eq_true_iff.1 hother
        refine .other (Service.step_of_move hm) (of_decide_eq_true hfree) ?_
        rintro u o rfl
        simpa using hown
      · cases h
    · cases h
  | produce v =>
    simp only [move] at h
    split at h
    · next b k hrest =>
      split at h
      · next hready =>
        cases h
        exact .produce hrest ⟨hready, v, rfl⟩
      · cases h
    · cases h
  | take u =>
    simp only [move] at h
    split at h
    · next i l hidle hqueue =>
      split at h
      · next e svc hm =>
        cases h
        obtain rfl : e = .started u (R.req i) := Service.event_of_start hm
        exact .take hidle hqueue (Service.step_of_move hm)
      · cases h
    · cases h
  | work w =>
    simp only [move] at h
    split at h
    · next u hbusy =>
      split at h
      · next e svc hm =>
        cases h
        obtain ⟨a, r, rfl⟩ := Service.event_of_act hm
        exact .work hbusy (Service.step_of_move hm)
      · cases h
    · cases h
  | finish =>
    simp only [move] at h
    split at h
    · next u hbusy =>
      split at h
      · next e svc hm =>
        cases h
        obtain ⟨o, res, rfl⟩ := Service.event_of_finish hm
        exact .finish hbusy (Service.step_of_move hm)
      · cases h
    · cases h

/-- All the choices of a schedule, as long as they can be made. -/
def play (R : Relay B Ret' τ ε' α A Ret σ ε O ρ ι) :
    List (Move R.service.machine.World R.producer.World O) → Config B Ret' τ ε' α Ret σ ε O ρ ι →
      Option (Config B Ret' τ ε' α Ret σ ε O ρ ι)
  | [], c => some c
  | m :: ms, c =>
    match R.move c m with
    | some c' => R.play ms c'
    | none => none

/-- A schedule leads along a run. -/
theorem run_of_play {ms : List (Move R.service.machine.World R.producer.World O)}
    (h : R.play ms c = some c') : R.Run c c' := by
  induction ms generalizing c with
  | nil =>
    cases h
    exact .refl
  | cons m ms ih =>
    simp only [play] at h
    split at h
    · next c₁ hm => exact (Run.refl.step (step_of_move hm)).trans (ih h)
    · cases h

end Relay

end Lib
