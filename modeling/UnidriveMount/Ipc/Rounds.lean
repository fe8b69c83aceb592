import UnidriveMount.Ipc.Outages

/-!
# The runs of a call

The runs of a verb (`retry_io_loop!`, `no_retry_on_io!`), by rounds (`Rounds`): `ensure_connected`, the
call on the connection, and after an I/O error the connection is given up, and a verb that only reads
goes on to the next round.
-/

namespace UnidriveMount

open Lib
open Lib.Prog (fail)

/-- What a verb does with the result of its call on a connection, `n` more rounds being left. -/
def afterCall (cl : Reconnecting) (verb : Verb) (n : Nat) : Except Stop verb.Reply → NetProg verb.Reply
  | .error (.failed (.io kind)) => do
    performNet (.setInner none)
    if verb.mutating then fail (.failed (.io kind)) else retryIoLoop cl verb n
  | r => .ret r

/-- A run of a verb, with the outcomes of all its attempts to connect, over the connections it used. -/
inductive Rounds (cl : Reconnecting) (daemon : Daemon) (verb : Verb) :
    List Outcome → NetState → List (Occ NetAct.Ret) → Except Stop verb.Reply → NetState → Prop where
  | outOfFuel {s : NetState} : Rounds cl daemon verb [] s [] (.error .running) s
  | unconnected {tries : List Outcome} {s s' : NetState} {es : List (Occ NetAct.Ret)} {e : Stop}
      (h : Connects cl daemon tries s es (.error e) s') : Rounds cl daemon verb tries s es (.error e) s'
  | called {tries : List Outcome} {s s₁ s' : NetState} {es₁ es₂ : List (Occ NetAct.Ret)} {conn : Nat}
      {res : Except Stop verb.Reply} (h : Connects cl daemon tries s es₁ (.ok conn) s₁)
      (hx : Exec (netMachine cl.serde daemon) (callVerb cl.serde cl.fuel conn verb) s₁ es₂ res s')
      (hother : ∀ kind, res ≠ .error (.failed (.io kind))) :
      Rounds cl daemon verb tries s (es₁ ++ es₂) res s'
  | dropped {tries : List Outcome} {s s₁ s₂ : NetState} {es₁ es₂ : List (Occ NetAct.Ret)} {conn : Nat}
      {kind : IoErrorKind} (hverb : verb.mutating = true) (h : Connects cl daemon tries s es₁ (.ok conn) s₁)
      (hx : Exec (netMachine cl.serde daemon) (callVerb cl.serde cl.fuel conn verb) s₁ es₂
        (.error (.failed (.io kind))) s₂) :
      Rounds cl daemon verb tries s (es₁ ++ (es₂ ++ [⟨.setInner none, ()⟩]))
        (.error (.failed (.io kind))) { s₂ with inner := none }
  | again {tries tries' : List Outcome} {s s₁ s₂ s' : NetState} {es₁ es₂ es₃ : List (Occ NetAct.Ret)}
      {conn : Nat} {kind : IoErrorKind} {res : Except Stop verb.Reply} (hverb : verb.mutating = false)
      (h : Connects cl daemon tries s es₁ (.ok conn) s₁)
      (hx : Exec (netMachine cl.serde daemon) (callVerb cl.serde cl.fuel conn verb) s₁ es₂
        (.error (.failed (.io kind))) s₂)
      (hrest : Rounds cl daemon verb tries' { s₂ with inner := none } es₃ res s') :
      Rounds cl daemon verb (tries ++ tries') s (es₁ ++ (es₂ ++ ⟨.setInner none, ()⟩ :: es₃)) res s'

section
variable {cl : Reconnecting} {daemon : Daemon} {verb : Verb} {s s' : NetState}
  {es : List (Occ NetAct.Ret)} {res : Except Stop verb.Reply}

theorem afterCall_retried (hverb : verb.mutating = false) (n : Nat) :
    afterCall cl verb n = fun
      | .error (.failed (.io _)) => do
        performNet (.setInner none)
        retryIoLoop cl verb n
      | r => .ret r := by
  funext r
  unfold afterCall
  split
  · rw [hverb]
    rfl
  · rfl

theorem afterCall_mutating (hverb : verb.mutating = true) (n : Nat) :
    afterCall cl verb n = fun
      | .error (.failed (.io kind)) => do
        performNet (.setInner none)
        fail (.failed (.io kind))
      | r => .ret r := by
  funext r
  unfold afterCall
  split
  · rw [hverb]
    rfl
  · rfl

theorem retryIoLoop_succ (hverb : verb.mutating = false) (n : Nat) :
    retryIoLoop cl verb (n + 1) = ensureConnected cl >>= fun conn =>
      (callVerb cl.serde cl.fuel conn verb).onResult (afterCall cl verb n) := by
  rw [afterCall_retried hverb]
  rfl

theorem call_mutating (hverb : verb.mutating = true) : call cl verb = noRetryOnIo cl verb :=
  if_pos hverb

theorem noRetryOnIo_eq (hverb : verb.mutating = true) (n : Nat) :
    noRetryOnIo cl verb = ensureConnected cl >>= fun conn =>
      (callVerb cl.serde cl.fuel conn verb).onResult (afterCall cl verb n) := by
  rw [afterCall_mutating hverb]
  rfl

/-- What a verb does after an I/O error. -/
theorem exec_afterCall_io {n : Nat} {kind : IoErrorKind}
    (hx : Exec (netMachine cl.serde daemon) (afterCall cl verb n (.error (.failed (.io kind)))) s es res
      s') :
    ∃ after, es = ⟨.setInner none, ()⟩ :: after ∧
      if verb.mutating then
        after = [] ∧ res = .error (.failed (.io kind)) ∧ s' = { s with inner := none }
      else Exec (netMachine cl.serde daemon) (retryIoLoop cl verb n) { s with inner := none } after res
        s' := by
  obtain ⟨_, s₁, es₁, hst, rfl, hk⟩ := exec_perform_bind_iff.1 hx
  obtain rfl := of_setInner hst
  refine ⟨es₁, rfl, ?_⟩
  split
  · next hverb =>
    rw [if_pos hverb] at hk
    exact exec_ret_iff.1 hk
  · next hverb => rwa [if_neg hverb] at hk

/-- A round of a call, as its parts say. -/
theorem rounds_of_callRun {n : Nat}
    (hagain : ∀ {s es}, verb.mutating = false →
      Exec (netMachine cl.serde daemon) (retryIoLoop cl verb n) s es res s' →
        ∃ tries, Rounds cl daemon verb tries s es res s')
    (hx : Exec (netMachine cl.serde daemon) (ensureConnected cl >>= fun conn =>
      (callVerb cl.serde cl.fuel conn verb).onResult (afterCall cl verb n)) s es res s') :
    ∃ tries, Rounds cl daemon verb tries s es res s' := by
  rcases exec_bind_iff.1 hx with ⟨e, rfl, he⟩ | ⟨conn, s₁, es₁, es₂, hconn, hk, rfl⟩
  · obtain ⟨tries, h⟩ := connects_of_exec he
    exact ⟨tries, .unconnected h⟩
  · obtain ⟨tries, h⟩ := connects_of_exec hconn
    obtain ⟨r, s₂, es₃, es₄, hcall, hend, rfl⟩ := exec_onResult_iff.1 hk
    by_cases hio : ∃ kind, r = .error (.failed (.io kind))
    · obtain ⟨kind, rfl⟩ := hio
      obtain ⟨after, rfl, hafter⟩ := exec_afterCall_io hend
      split at hafter
      · next hverb =>
        obtain ⟨rfl, rfl, rfl⟩ := hafter
        exact ⟨tries, .dropped hverb h hcall⟩
      · next hverb =>
        have hread := Bool.eq_false_iff.2 hverb
        obtain ⟨tries', hrest⟩ := hagain hread hafter
        exact ⟨_, .again hread h hcall hrest⟩
    · unfold afterCall at hend
      split at hend
      · exact absurd ⟨_, rfl⟩ hio
      · obtain ⟨rfl, rfl, rfl⟩ := exec_ret_iff.1 hend
        rw [List.append_nil]
        exact ⟨tries, .called h hcall fun kind hkind => hio ⟨kind, hkind⟩⟩

theorem rounds_of_retryIoLoop {n : Nat} (hverb : verb.mutating = false)
    (hx : Exec (netMachine cl.serde daemon) (retryIoLoop cl verb n) s es res s') :
    ∃ tries, Rounds cl daemon verb tries s es res s' := by
  induction n generalizing s es with
  | zero =>
    obtain ⟨rfl, rfl, rfl⟩ := exec_ret_iff.1 hx
    exact ⟨[], .outOfFuel⟩
  | succ n ih =>
    rw [retryIoLoop_succ hverb] at hx
    exact rounds_of_callRun (fun _ hx => ih hx) hx

/-- Every run of a verb is one of these. -/
theorem rounds_of_exec (hx : Exec (netMachine cl.serde daemon) (call cl verb) s es res s') :
    ∃ tries, Rounds cl daemon verb tries s es res s' := by
  cases hverb : verb.mutating with
  | true =>
    rw [call_mutating hverb, noRetryOnIo_eq hverb 0] at hx
    refine rounds_of_callRun (fun hread => ?_) hx
    cases hverb.symm.trans hread
  | false =>
    rw [call, if_neg (by rw [hverb]; exact Bool.false_ne_true)] at hx
    exact rounds_of_retryIoLoop hverb hx

end

end UnidriveMount
