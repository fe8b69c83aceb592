import UnidriveMount.Ipc.Attempts

/-!
# The retry budget

What `ensure_connected` makes of the outcomes of its attempts to connect (`reconnect.rs`): it goes on
until one succeeds, is refused for good, or fails when the budget has run out, and answers as that one
went. A refusal is kept in the slot `authFailure`, and from then on every verb fails with it, without an
attempt and without a byte (`honours_budget`).
-/

namespace UnidriveMount

open Lib

/-! ## The result of an outage -/

section
variable {cl : Reconnecting} {daemon : Daemon} {s s' : NetState} {es : List (Occ NetAct.Ret)}
  {start n : Nat} {tries : List Outcome} {t : Outcome} {res : Except Stop Nat}

/-- The attempts go on until one ends them. -/
theorem Outage.goesOn (h : Outage cl daemon start n tries s es res s') :
    ∀ t ∈ tries.dropLast, ¬ t.Ends cl.budget := by
  induction h with
  | outOfFuel => exact nofun
  | ended => exact nofun
  | @again n t ts s s₁ s₂ s' es₁ es₂ res _ hgo _ _ ih =>
    intro t' hmem
    cases ts with
    | nil => cases hmem
    | cons t₂ ts =>
      rw [List.dropLast_cons_cons] at hmem
      rcases List.mem_cons.1 hmem with rfl | hmem
      · exact hgo
      · exact ih t' hmem

/-- The one that ends them decides the result. -/
theorem Outage.decided (h : Outage cl daemon start n tries s es res s') (hmem : t ∈ tries)
    (hends : t.Ends cl.budget) : res = t.result := by
  induction h with
  | outOfFuel => cases hmem
  | ended =>
    obtain rfl := List.mem_singleton.1 hmem
    rfl
  | again _ hgo _ _ ih =>
    rcases List.mem_cons.1 hmem with rfl | hmem
    · exact absurd hends hgo
    · exact ih hmem

/-- Without one that ends them, the fuel was used up. -/
theorem Outage.ends (h : Outage cl daemon start n tries s es res s') :
    (∃ t ∈ tries, t.Ends cl.budget) ∨ res = .error .running ∧ tries.length = n := by
  induction h with
  | outOfFuel => exact .inr ⟨rfl, rfl⟩
  | ended _ hends => exact .inl ⟨_, List.mem_singleton_self _, hends⟩
  | again _ _ _ _ ih =>
    rcases ih with ⟨t, hmem, hends⟩ | ⟨hres, hlen⟩
    · exact .inl ⟨t, List.mem_cons_of_mem _ hmem, hends⟩
    · exact .inr ⟨hres, congrArg Nat.succ hlen⟩

/-- A refusal is kept. -/
theorem Outage.latched {e : IpcError} (h : Outage cl daemon start n tries s es res s')
    (hmem : .refused e ∈ tries) : ∃ msg, e = .serverError msg ∧ s'.authFailure = some msg := by
  induction h with
  | outOfFuel => cases hmem
  | ended htried _ =>
    obtain rfl := List.mem_singleton.1 hmem
    cases htried with
    | refused _ hterm =>
      obtain ⟨msg, rfl⟩ := IpcError.eq_serverError hterm
      exact ⟨msg, rfl, rfl⟩
  | again _ hgo _ _ ih =>
    rcases List.mem_cons.1 hmem with rfl | hmem
    · exact absurd trivial hgo
    · exact ih hmem

end

/-! ## The attempts of a call -/

section
variable {cl : Reconnecting} {daemon : Daemon} {verb : Verb} {s s' : NetState}
  {es : List (Occ NetAct.Ret)} {tries : List Outcome}

/-- A refusal is the result, and is kept. -/
theorem Connects.refused {res : Except Stop Nat} {e : IpcError}
    (h : Connects cl daemon tries s es res s') (hmem : .refused e ∈ tries) :
    res = .error (.failed e) ∧ ∃ msg, e = .serverError msg ∧ s'.authFailure = some msg := by
  cases h with
  | latched | held => cases hmem
  | outage _ _ _ h => exact ⟨h.decided hmem trivial, h.latched hmem⟩

/-- So the attempts that brought a connection were not refused. -/
theorem Connects.refused_notMem {conn : Nat} {e : IpcError}
    (h : Connects cl daemon tries s es (.ok conn) s') : .refused e ∉ tries := fun hmem => by
  cases (h.refused hmem).1

/-- Calling a verb on a connection makes no attempt. -/
theorem callVerb_attempts {conn : Nat} {res : Except Stop verb.Reply}
    (hx : Exec (netMachine cl.serde daemon) (callVerb cl.serde cl.fuel conn verb) s es res s') :
    attempts es = 0 :=
  attempts_of_only (hx.only (Talks.callVerb cl.serde cl.fuel conn verb).only) id

theorem Rounds.attempts_eq {res : Except Stop verb.Reply} (h : Rounds cl daemon verb tries s es res s') :
    attempts es = tries.length := by
  induction h with
  | outOfFuel => rfl
  | unconnected h => exact h.attempts_eq
  | called h hx _ => rw [attempts_append, h.attempts_eq, callVerb_attempts hx, Nat.add_zero]
  | dropped _ h hx =>
    rw [attempts_append, attempts_append, h.attempts_eq, callVerb_attempts hx]
    rfl
  | @again tries tries' s s₁ s₂ s' es₁ es₂ es₃ conn kind res _ h hx _ ih =>
    have hdrop : attempts (⟨.setInner none, ()⟩ :: es₃) = attempts es₃ := rfl
    rw [attempts_append, attempts_append, h.attempts_eq, callVerb_attempts hx, hdrop, ih, Nat.zero_add,
      List.length_append]

/-- A refusal is the result of the call, and is kept. -/
theorem Rounds.refused {res : Except Stop verb.Reply} {e : IpcError}
    (h : Rounds cl daemon verb tries s es res s') (hmem : .refused e ∈ tries) :
    res = .error (.failed e) ∧ ∃ msg, e = .serverError msg ∧ s'.authFailure = some msg := by
  induction h with
  | outOfFuel => cases hmem
  | unconnected h =>
    obtain ⟨hres, hkept⟩ := h.refused hmem
    cases hres
    exact ⟨rfl, hkept⟩
  | called h | dropped _ h => exact absurd hmem h.refused_notMem
  | again _ h _ _ ih => exact ih ((List.mem_append.1 hmem).resolve_left h.refused_notMem)

end

/-! ## The latch -/

/-- What is served is a call of a verb, on a client that was made before. -/
def IsCall (_ : List NetServed) (_ : NetState) (x : NetServed) : Prop := ∃ verb, x.req = .call verb

/-- The call fails with `e`, without an attempt to connect, and writes nothing. -/
structure FailsAtOnce (e : IpcError) (x : NetServed) : Prop where
  res : x.res = .error (.failed e)
  attempts : attempts x.occs = 0
  silent : ∀ conn data r, (⟨.write conn data, r⟩ : Occ NetAct.Ret) ∉ x.occs

section
variable {cl : Reconnecting} {daemon : Daemon} {s s' : NetState} {msg : Str}

/-- After a refusal `ensure_connected` only looks at the slot. -/
theorem ensureConnected_latched {res : Except Stop Nat} {es : List (Occ NetAct.Ret)}
    (hfailure : s.authFailure = some msg)
    (hx : Exec (netMachine cl.serde daemon) (ensureConnected cl) s es res s') :
    es = [⟨.authFailure, some msg⟩] ∧ res = .error (.failed (.serverError msg)) ∧ s' = s := by
  obtain ⟨es₁, rfl, hk⟩ := exec_perform_bind_of_run hx fun _ => rfl
  rw [hfailure] at hk ⊢
  obtain ⟨rfl, rfl, rfl⟩ := exec_ret_iff.1 hk
  exact ⟨rfl, rfl, rfl⟩

/-- So does what goes on from a connection. -/
theorem ensureConnected_bind_latched {α : Type} {f : Nat → NetProg α} {res : Except Stop α}
    {es : List (Occ NetAct.Ret)} (hfailure : s.authFailure = some msg)
    (hx : Exec (netMachine cl.serde daemon) (ensureConnected cl >>= f) s es res s') :
    es = [⟨.authFailure, some msg⟩] ∧ res = .error (.failed (.serverError msg)) ∧ s' = s := by
  rcases exec_bind_iff.1 hx with ⟨e, rfl, he⟩ | ⟨conn, s₁, es₁, es₂, hconn, -, -⟩
  · obtain ⟨rfl, hres, rfl⟩ := ensureConnected_latched hfailure he
    cases hres
    exact ⟨rfl, rfl, rfl⟩
  · cases (ensureConnected_latched hfailure hconn).2.1

/-- After a refusal a call only looks at the slot. -/
theorem call_latched {verb : Verb} {res : Except Stop verb.Reply} {es : List (Occ NetAct.Ret)}
    (hfuel : 0 < cl.fuel) (hfailure : s.authFailure = some msg)
    (hx : Exec (netMachine cl.serde daemon) (call cl verb) s es res s') :
    es = [⟨.authFailure, some msg⟩] ∧ res = .error (.failed (.serverError msg)) ∧ s' = s := by
  unfold call at hx
  split at hx
  · exact ensureConnected_bind_latched hfailure hx
  · obtain ⟨n, hn⟩ := Nat.exists_eq_succ_of_ne_zero hfuel.ne'
    rw [hn] at hx
    exact ensureConnected_bind_latched hfailure hx

/-- **The latch**: after a refusal every call of a verb fails with it, for good. -/
theorem sequence_latched {l : List NetServed} (hfuel : 0 < cl.fuel) (hfailure : s.authFailure = some msg)
    (h : (netService cl daemon).Sequence IsCall s l s') :
    s'.authFailure = some msg ∧ ∀ x ∈ l, FailsAtOnce (.serverError msg) x := by
  refine h.invariant (I := fun l s' => s'.authFailure = some msg ∧ ∀ x ∈ l,
    FailsAtOnce (.serverError msg) x) ⟨hfailure, nofun⟩ ?_
  rintro l s₁ ⟨req, es, res⟩ s₂ ⟨hkept, hall⟩ hx ⟨verb, hreq⟩
  obtain rfl : req = .call verb := hreq
  obtain ⟨r, hcall, hres⟩ := exec_map_iff.1 hx
  obtain ⟨rfl, rfl, rfl⟩ := call_latched hfuel hkept hcall
  refine ⟨hkept, fun x hmem => ?_⟩
  rcases List.mem_cons.1 hmem with rfl | hmem
  · exact ⟨hres, rfl, fun conn data r hmem => by cases List.mem_singleton.1 hmem⟩
  · exact hall x hmem

end

/-! ## The budget and the latch -/

/-- The outcomes of its attempts decide what `ensure_connected` answers: no attempt but the last ends
them, the one that ends them gives the result, and unless the fuel is used up there is one. With a pause
between the attempts the budget bounds them, and with enough fuel they come to an end. -/
structure Honours (cl : Reconnecting) (tries : List Outcome) (es : List (Occ NetAct.Ret))
    (res : Except Stop Nat) : Prop where
  attempts : attempts es = tries.length
  goesOn : ∀ t ∈ tries.dropLast, ¬ t.Ends cl.budget
  decided : ∀ t ∈ tries, t.Ends cl.budget → res = t.result
  ends : (∃ t ∈ tries, t.Ends cl.budget) ∨ res = .error .running ∧ tries.length = cl.fuel
  bounded : 0 < cl.interval → tries.length ≤ cl.budget / cl.interval + 2
  running : 0 < cl.interval → res = .error .running →
    cl.fuel ≤ cl.budget / cl.interval + 2 ∨ cl.fuel ≤ chunksRead es

section
variable {cl : Reconnecting} {daemon : Daemon}

theorem attemptsPerOutage_le (hint : 0 < cl.interval) :
    attemptsPerOutage cl ≤ cl.budget / cl.interval + 2 := by
  have hle : (cl.budget + cl.interval - 1) / cl.interval ≤ (cl.budget + cl.interval) / cl.interval :=
    Nat.div_le_div_right (Nat.sub_le _ _)
  rw [Nat.add_div_right _ hint] at hle
  exact Nat.succ_le_succ hle

/-- Without a connection and without a refusal the attempts are those of an outage. -/
theorem Connects.honours {tries : List Outcome} {s s' : NetState} {es : List (Occ NetAct.Ret)}
    {res : Except Stop Nat} (h : Connects cl daemon tries s es res s') (hfailure : s.authFailure = none)
    (hinner : s.inner = none) : Honours cl tries es res := by
  have hlen := h.attempts_eq
  have hx := h.exec
  cases h with
  | latched hsome => cases hfailure.symm.trans hsome
  | held _ hsome => cases hinner.symm.trans hsome
  | outage _ _ _ h =>
    refine ⟨hlen, h.goesOn, fun t => h.decided, h.ends, fun hint => ?_, fun hint hres => ?_⟩
    · exact hlen.symm.trans_le ((ensureConnected_attempts hint hx).1.trans (attemptsPerOutage_le hint))
    · exact ((ensureConnected_attempts hint hx).2 hres).imp_left
        fun hle => hle.trans (attemptsPerOutage_le hint)

/-- **`ensure_connected` honours its budget and the latch**: without a connection it answers as the first
attempt went that succeeds, is refused for good, or fails when the budget has run out. Every call's
attempts are made so, and once one of them was refused every later call fails at once. -/
theorem honours_budget (hfuel : 0 < cl.fuel) :
    (∀ s es res s', s.authFailure = none → s.inner = none →
      Exec (netMachine cl.serde daemon) (ensureConnected cl) s es res s' →
        ∃ tries, Connects cl daemon tries s es res s' ∧ Honours cl tries es res) ∧
    (∀ verb s es res s', Exec (netMachine cl.serde daemon) (call cl verb) s es res s' →
      ∃ tries, Rounds cl daemon verb tries s es res s' ∧ attempts es = tries.length) ∧
    (∀ verb tries s es res s', Rounds cl daemon verb tries s es res s' →
      ∀ e, .refused e ∈ tries → res = .error (.failed e) ∧
        ∀ l s'', (netService cl daemon).Sequence IsCall s' l s'' → ∀ x ∈ l, FailsAtOnce e x) := by
  refine ⟨fun s es res s' hfailure hinner hx => ?_, fun verb s es res s' hx => ?_,
    fun verb tries s es res s' h e hmem => ?_⟩
  · obtain ⟨tries, h⟩ := exec_ensureConnected_iff.1 hx
    exact ⟨tries, h, h.honours hfailure hinner⟩
  · obtain ⟨tries, h⟩ := rounds_of_exec hx
    exact ⟨tries, h, h.attempts_eq⟩
  · obtain ⟨hres, msg, rfl, hkept⟩ := h.refused hmem
    exact ⟨hres, fun l s'' hseq => (sequence_latched hfuel hkept hseq).2⟩

end

/-! ## Two outages -/

/-- A client with the token file `/t`, and a budget of one interval. -/
def Reconnecting.oneInterval : Reconnecting :=
  { Reconnecting.sample with
    auth := some ⟨some ['/', 't'], []⟩
    budget := defaultRetryInterval }

/-- The error of a call that was refused. -/
def refusal : Except Stop Nat → Option IpcError
  | .error (.failed e) => if e.isAuthTerminal then some e else none
  | _ => none

theorem of_refusal {res : Except Stop Nat} (h : (refusal res).isSome = true) :
    ∃ e, res = .error (.failed e) ∧ e.isAuthTerminal = true := by
  unfold refusal at h
  split at h
  · next e =>
    split at h
    · next hterm => exact ⟨e, rfl, hterm⟩
    · cases h
  · cases h

/-- With the socket gone there are two attempts, an interval apart. With a token file that holds no
token the first attempt is refused, and no call makes another. -/
theorem honours_budget_sample :
    (∃ tries es s', Honours .oneInterval tries es (.error (.failed (.io .connectionRefused))) ∧
      Exec (netMachine Serde.sample anyDaemon) (ensureConnected .oneInterval) .new es
        (.error (.failed (.io .connectionRefused))) s' ∧ tries.length = 2) ∧
    ∃ e es s', e.isAuthTerminal = true ∧
      Rounds .oneInterval anyDaemon .daemonStatus [.refused e] .new es (.error (.failed e)) s' ∧
      ∀ l s'', (netService .oneInterval anyDaemon).Sequence IsCall s' l s'' →
        ∀ x ∈ l, FailsAtOnce e x := by
  obtain ⟨hbudget, -, hlatch⟩ := @honours_budget .oneInterval anyDaemon (by decide)
  refine ⟨?_, ?_⟩
  · have hrun : ((netMachine Serde.sample anyDaemon).exec
        { NetWorld.sends [] with connect := .error .connectionRefused } (ensureConnected .oneInterval)
        .new).any (fun x => x.2.1 = .error (.failed (.io .connectionRefused)) && attempts x.1 = 2) =
        true := by
      decide +kernel
    simp only [Option.any_eq_true, Bool.and_eq_true, decide_eq_true_eq] at hrun
    obtain ⟨⟨es, _, s'⟩, hx, rfl, htwo⟩ := hrun
    have hx := Machine.exec_sound hx
    obtain ⟨tries, -, hhonours⟩ := hbudget _ _ _ _ rfl rfl hx
    exact ⟨tries, es, s', hhonours, hx, hhonours.attempts.symm.trans htwo⟩
  · have hrun : ((netMachine Serde.sample anyDaemon).exec
        { NetWorld.sends [] with token := some ['x'] } (openConn .oneInterval) .new).any
        (fun x => (refusal x.2.1).isSome) = true := by
      decide +kernel
    simp only [Option.any_eq_true] at hrun
    obtain ⟨⟨es, res, s'⟩, hx, hres⟩ := hrun
    obtain ⟨e, hres, hterm⟩ := of_refusal hres
    dsimp only at hres
    subst hres
    have hrounds : Rounds .oneInterval anyDaemon .daemonStatus [.refused e] .new _ (.error (.failed e)) _ :=
      .unconnected (.outage rfl rfl ⟨rfl, .sends [], rfl⟩
        (.ended (n := 3) (.refused (Machine.exec_sound hx) hterm) trivial))
    exact ⟨e, _, _, hterm, hrounds, (hlatch _ _ _ _ _ _ hrounds e (List.mem_singleton_self _)).2⟩

end UnidriveMount
