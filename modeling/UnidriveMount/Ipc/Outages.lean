import UnidriveMount.Ipc.Reconnect

/-!
# Outages

The runs of `ensure_connected` (`reconnect.rs`), by the outcomes of their attempts to connect. Without a
connection there is one attempt after the other, an interval apart, up to the first that succeeds, is
refused for good, or fails when the budget has run out (`exec_reconnect_iff`). What holds of the parts of
such a run holds of the run (`HoldsOfParts.ensureConnected`).
-/

namespace UnidriveMount

open Lib

/-! ## Outcomes -/

/-- How an attempt to connect went: it brought a connection, it was refused for good, it failed, or a
read of it has not completed. A failure comes with the time since `ensure_connected` began, as it is
read after the attempt. -/
inductive Outcome : Type where
  | connected (conn : Nat)
  | refused (e : IpcError)
  | failed (e : IpcError) (elapsed : Nat)
  | unfinished
  deriving DecidableEq, Repr

namespace Outcome

/-- What `ensure_connected` answers when this is the last attempt. -/
def result : Outcome → Except Stop Nat
  | connected conn => .ok conn
  | refused e | failed e _ => .error (.failed e)
  | unfinished => .error .running

/-- No attempt follows. -/
def Ends (budget : Nat) : Outcome → Prop
  | failed _ elapsed => budget ≤ elapsed
  | _ => True

/-- What the client keeps of the last attempt. -/
def kept : Outcome → NetState → NetState
  | connected conn, s => { s with inner := some conn }
  | refused (.serverError msg), s => { s with authFailure := some msg }
  | _, s => s

/-- The occurrences by which it is kept. -/
def keeping : Outcome → List (Occ NetAct.Ret)
  | connected conn => [⟨.setInner (some conn), ()⟩]
  | refused (.serverError msg) => [⟨.setAuthFailure (some msg), ()⟩]
  | _ => []

@[simp] theorem keeping_failed (e : IpcError) (elapsed : Nat) : (failed e elapsed).keeping = [] := rfl

end Outcome

/-- A refusal has a text. -/
theorem IpcError.eq_serverError {e : IpcError} (h : e.isAuthTerminal = true) :
    ∃ msg, e = .serverError msg := by
  cases e with
  | serverError msg => exact ⟨msg, rfl⟩
  | _ => cases h

/-! ## The slots -/

/-- The action looks at the slots, takes time, or notes a failure. -/
def NetAct.Notes : NetAct → Prop
  | inner | authFailure | setAuthFailure _ | now | sleep _ => True
  | _ => False

section
variable {serde : Serde} {daemon : Daemon} {s s' : NetState} {r : Unit}

theorem of_setInner {conn : Option Nat}
    (hst : (netMachine serde daemon).Step (.setInner conn) s r s') : s' = { s with inner := conn } := by
  obtain ⟨-, (w : NetWorld), hrun⟩ := hst
  exact (congrArg Prod.snd hrun).symm

theorem of_setAuthFailure {msg : Option Str}
    (hst : (netMachine serde daemon).Step (.setAuthFailure msg) s r s') :
    s' = { s with authFailure := msg } := by
  obtain ⟨-, (w : NetWorld), hrun⟩ := hst
  exact (congrArg Prod.snd hrun).symm

end

/-! ## Outages -/

/-- A run of an attempt to connect that went so, up to the reading of the clock if it failed. -/
inductive Tried (cl : Reconnecting) (daemon : Daemon) (start : Nat) :
    Outcome → NetState → List (Occ NetAct.Ret) → NetState → Prop where
  | connected {conn : Nat} {s s' : NetState} {es : List (Occ NetAct.Ret)}
      (hx : Exec (netMachine cl.serde daemon) (openConn cl) s es (.ok conn) s') :
      Tried cl daemon start (.connected conn) s es s'
  | refused {e : IpcError} {s s' : NetState} {es : List (Occ NetAct.Ret)}
      (hx : Exec (netMachine cl.serde daemon) (openConn cl) s es (.error (.failed e)) s')
      (hterm : e.isAuthTerminal = true) : Tried cl daemon start (.refused e) s es s'
  | failed {e : IpcError} {time : Nat} {s s₁ s' : NetState} {es : List (Occ NetAct.Ret)}
      (hx : Exec (netMachine cl.serde daemon) (openConn cl) s es (.error (.failed e)) s₁)
      (hterm : e.isAuthTerminal = false) (hnow : (netMachine cl.serde daemon).Step .now s₁ time s') :
      Tried cl daemon start (.failed e (time - start)) s (es ++ [⟨.now, time⟩]) s'
  | unfinished {s s' : NetState} {es : List (Occ NetAct.Ret)}
      (hx : Exec (netMachine cl.serde daemon) (openConn cl) s es (.error .running) s') :
      Tried cl daemon start .unfinished s es s'

/-- The attempts of a client that has been without a connection since `start`, with an interval between
one and the next, up to the first that ends them, or until the fuel is used up. -/
inductive Outage (cl : Reconnecting) (daemon : Daemon) (start : Nat) :
    Nat → List Outcome → NetState → List (Occ NetAct.Ret) → Except Stop Nat → NetState → Prop where
  | outOfFuel {s : NetState} : Outage cl daemon start 0 [] s [] (.error .running) s
  | ended {n : Nat} {t : Outcome} {s s' : NetState} {es : List (Occ NetAct.Ret)}
      (h : Tried cl daemon start t s es s') (hends : t.Ends cl.budget) :
      Outage cl daemon start (n + 1) [t] s (es ++ t.keeping) t.result (t.kept s')
  | again {n : Nat} {t : Outcome} {ts : List Outcome} {s s₁ s₂ s' : NetState}
      {es₁ es₂ : List (Occ NetAct.Ret)} {res : Except Stop Nat} (h : Tried cl daemon start t s es₁ s₁)
      (hgo : ¬ t.Ends cl.budget)
      (hsleep : (netMachine cl.serde daemon).Step (.sleep cl.interval) s₁ () s₂)
      (hrest : Outage cl daemon start n ts s₂ es₂ res s') :
      Outage cl daemon start (n + 1) (t :: ts) s (es₁ ++ ⟨.sleep cl.interval, ()⟩ :: es₂) res s'

section
variable {cl : Reconnecting} {daemon : Daemon} {s s' : NetState} {es : List (Occ NetAct.Ret)}
  {start n : Nat} {tries : List Outcome} {t : Outcome} {res : Except Stop Nat}

/-- The loop of `ensure_connected` makes the attempts of an outage. -/
theorem outage_of_exec (hx : Exec (netMachine cl.serde daemon) (reconnect cl start n) s es res s') :
    ∃ tries, Outage cl daemon start n tries s es res s' := by
  induction n generalizing s es with
  | zero =>
    obtain ⟨rfl, rfl, rfl⟩ := exec_ret_iff.1 hx
    exact ⟨[], .outOfFuel⟩
  | succ n ih =>
    obtain ⟨r, s₁, es₁, es₂, hopen, hk, rfl⟩ := exec_onResult_iff.1 hx
    match r with
    | .ok conn =>
      obtain ⟨_, s₂, es₃, hst, rfl, hret⟩ := exec_perform_bind_iff.1 hk
      obtain ⟨rfl, rfl, rfl⟩ := exec_ret_iff.1 hret
      obtain rfl := of_setInner hst
      exact ⟨_, .ended (.connected hopen) trivial⟩
    | .error .running =>
      obtain ⟨rfl, rfl, rfl⟩ := exec_ret_iff.1 hk
      exact ⟨_, .ended (.unfinished hopen) trivial⟩
    | .error (.failed e) =>
      dsimp only at hk
      split at hk
      · next hterm =>
        obtain ⟨msg, rfl⟩ := e.eq_serverError hterm
        obtain ⟨_, s₂, es₃, hst, rfl, hret⟩ := exec_perform_bind_iff.1 hk
        obtain ⟨rfl, rfl, rfl⟩ := exec_ret_iff.1 hret
        obtain rfl := of_setAuthFailure hst
        exact ⟨_, .ended (.refused hopen hterm) trivial⟩
      · next hterm =>
        obtain ⟨time, s₂, es₃, hnow, rfl, hk₂⟩ := exec_perform_bind_iff.1 hk
        have htried : Tried cl daemon start (.failed e (time - start)) s (es₁ ++ [⟨.now, time⟩]) s₂ :=
          .failed hopen (Bool.eq_false_iff.2 hterm) hnow
        split at hk₂
        · next hbudget =>
          obtain ⟨rfl, rfl, rfl⟩ := exec_ret_iff.1 hk₂
          have := Outage.ended (n := n) htried hbudget
          rw [Outcome.keeping_failed, List.append_nil] at this
          exact ⟨_, this⟩
        · next hbudget =>
          obtain ⟨_, s₃, es₄, hsleep, rfl, hk₃⟩ := exec_perform_bind_iff.1 hk₂
          obtain ⟨ts, hrest⟩ := ih hk₃
          have := Outage.again htried hbudget hsleep hrest
          rw [List.append_assoc] at this
          exact ⟨_, this⟩

/-- An attempt that is the last runs in the loop. -/
theorem Tried.exec_ended (h : Tried cl daemon start t s es s') (hends : t.Ends cl.budget) :
    Exec (netMachine cl.serde daemon) (reconnect cl start (n + 1)) s (es ++ t.keeping) t.result
      (t.kept s') := by
  cases h with
  | connected hx =>
    exact exec_onResult_iff.2 ⟨_, _, _, _, hx, .act ⟨rfl, .sends [], rfl⟩ .ret, rfl⟩
  | refused hx hterm =>
    obtain ⟨msg, rfl⟩ := IpcError.eq_serverError hterm
    refine exec_onResult_iff.2 ⟨_, _, _, _, hx, ?_, rfl⟩
    dsimp only
    rw [if_pos hterm]
    exact .act ⟨rfl, .sends [], rfl⟩ .ret
  | failed hx hterm hnow =>
    rw [Outcome.keeping_failed, List.append_nil]
    refine exec_onResult_iff.2 ⟨_, _, _, _, hx, ?_, rfl⟩
    dsimp only
    rw [hterm, if_neg Bool.false_ne_true]
    refine exec_perform_bind_iff.2 ⟨_, _, _, hnow, rfl, ?_⟩
    rw [if_pos (show cl.budget ≤ _ from hends)]
    exact .ret
  | unfinished hx => exact exec_onResult_iff.2 ⟨_, _, _, _, hx, .ret, rfl⟩

/-- Every outage runs in the loop. -/
theorem Outage.exec (h : Outage cl daemon start n tries s es res s') :
    Exec (netMachine cl.serde daemon) (reconnect cl start n) s es res s' := by
  induction h with
  | outOfFuel => exact .ret
  | ended htried hends => exact htried.exec_ended hends
  | again htried hgo hsleep _ ih =>
    cases htried with
    | connected | refused | unfinished => exact absurd trivial hgo
    | failed hx hterm hnow =>
      rw [List.append_assoc]
      refine exec_onResult_iff.2 ⟨_, _, _, _, hx, ?_, rfl⟩
      dsimp only
      rw [hterm, if_neg Bool.false_ne_true]
      refine exec_perform_bind_iff.2 ⟨_, _, _, hnow, rfl, ?_⟩
      rw [if_neg (show ¬ cl.budget ≤ _ from hgo)]
      exact .act hsleep ih

/-- **The loop of `ensure_connected`** runs exactly the outages. -/
theorem exec_reconnect_iff : Exec (netMachine cl.serde daemon) (reconnect cl start n) s es res s' ↔
    ∃ tries, Outage cl daemon start n tries s es res s' :=
  ⟨outage_of_exec, fun ⟨_, h⟩ => h.exec⟩

end

/-! ## Connecting -/

/-- A run of `ensure_connected`, with the outcomes of its attempts. -/
inductive Connects (cl : Reconnecting) (daemon : Daemon) :
    List Outcome → NetState → List (Occ NetAct.Ret) → Except Stop Nat → NetState → Prop where
  | latched {msg : Str} {s : NetState} (hfailure : s.authFailure = some msg) :
      Connects cl daemon [] s [⟨.authFailure, some msg⟩] (.error (.failed (.serverError msg))) s
  | held {conn : Nat} {s : NetState} (hfailure : s.authFailure = none) (hinner : s.inner = some conn) :
      Connects cl daemon [] s [⟨.authFailure, none⟩, ⟨.inner, some conn⟩] (.ok conn) s
  | outage {start : Nat} {tries : List Outcome} {s s₁ s' : NetState} {es : List (Occ NetAct.Ret)}
      {res : Except Stop Nat} (hfailure : s.authFailure = none) (hinner : s.inner = none)
      (hnow : (netMachine cl.serde daemon).Step .now s start s₁)
      (h : Outage cl daemon start cl.fuel tries s₁ es res s') :
      Connects cl daemon tries s (⟨.authFailure, none⟩ :: ⟨.inner, none⟩ :: ⟨.now, start⟩ :: es) res s'

section
variable {cl : Reconnecting} {daemon : Daemon} {s s' : NetState} {es : List (Occ NetAct.Ret)}
  {start n : Nat} {tries : List Outcome} {res : Except Stop Nat}

/-- Every run of `ensure_connected` is one of these. -/
theorem connects_of_exec (hx : Exec (netMachine cl.serde daemon) (ensureConnected cl) s es res s') :
    ∃ tries, Connects cl daemon tries s es res s' := by
  obtain ⟨es₁, rfl, hk₁⟩ := exec_perform_bind_of_run hx fun _ => rfl
  cases hfailure : s.authFailure with
  | some msg =>
    rw [hfailure] at hk₁
    obtain ⟨rfl, rfl, rfl⟩ := exec_ret_iff.1 hk₁
    exact ⟨[], .latched hfailure⟩
  | none =>
    rw [hfailure] at hk₁
    obtain ⟨es₂, rfl, hk₂⟩ := exec_perform_bind_of_run hk₁ fun _ => rfl
    cases hinner : s.inner with
    | some conn =>
      rw [hinner] at hk₂
      obtain ⟨rfl, rfl, rfl⟩ := exec_ret_iff.1 hk₂
      exact ⟨[], .held hfailure hinner⟩
    | none =>
      rw [hinner] at hk₂
      obtain ⟨start, s₁, es₃, hnow, rfl, hk₃⟩ := exec_perform_bind_iff.1 hk₂
      obtain ⟨tries, h⟩ := exec_reconnect_iff.1 hk₃
      exact ⟨tries, .outage hfailure hinner hnow h⟩

theorem Connects.exec (h : Connects cl daemon tries s es res s') :
    Exec (netMachine cl.serde daemon) (ensureConnected cl) s es res s' := by
  cases h with
  | latched hfailure => exact .act ⟨rfl, .sends [], Prod.ext hfailure rfl⟩ .ret
  | held hfailure hinner =>
    exact .act ⟨rfl, .sends [], Prod.ext hfailure rfl⟩ (.act ⟨rfl, .sends [], Prod.ext hinner rfl⟩ .ret)
  | outage hfailure hinner hnow h =>
    exact .act ⟨rfl, .sends [], Prod.ext hfailure rfl⟩
      (.act ⟨rfl, .sends [], Prod.ext hinner rfl⟩ (.act hnow h.exec))

/-- **`ensure_connected`** runs exactly so. -/
theorem exec_ensureConnected_iff :
    Exec (netMachine cl.serde daemon) (ensureConnected cl) s es res s' ↔
      ∃ tries, Connects cl daemon tries s es res s' :=
  ⟨connects_of_exec, fun ⟨_, h⟩ => h.exec⟩

/-- The connection it answers is in the slot. -/
theorem Outage.inner {conn : Nat} (h : Outage cl daemon start n tries s es res s')
    (hok : res = .ok conn) : s'.inner = some conn := by
  induction h with
  | outOfFuel => cases hok
  | ended htried _ =>
    cases htried <;> cases hok
    rfl
  | again _ _ _ _ ih => exact ih hok

theorem ensureConnected_inner {conn : Nat}
    (hx : Exec (netMachine cl.serde daemon) (ensureConnected cl) s es (.ok conn) s') :
    s'.inner = some conn := by
  obtain ⟨tries, h⟩ := exec_ensureConnected_iff.1 hx
  cases h with
  | held _ hinner => exact hinner
  | outage _ _ _ h => exact h.inner rfl

/-! ## What holds of the parts -/

/-- What relates the ends of a run holds of the parts of `ensure_connected`, and of what consists of
them: of the looks at the slots and at the clock, of an attempt that brought no connection, and of one
that did, with the slot it is put into. -/
structure HoldsOfParts (cl : Reconnecting) (daemon : Daemon)
    (P : NetState → List (Occ NetAct.Ret) → NetState → Prop) : Prop where
  nil : ∀ {s}, P s [] s
  append : ∀ {s s₁ s' es₁ es₂}, P s es₁ s₁ → P s₁ es₂ s' → P s (es₁ ++ es₂) s'
  notes : ∀ {a : NetAct} {r s s'}, (netMachine cl.serde daemon).Step a s r s' → a.Notes →
    P s [⟨a, r⟩] s'
  unopened : ∀ {s es e s'}, Exec (netMachine cl.serde daemon) (openConn cl) s es (.error e) s' →
    P s es s'
  opened : ∀ {s es conn s'}, Exec (netMachine cl.serde daemon) (openConn cl) s es (.ok conn) s' →
    P s (es ++ [⟨.setInner (some conn), ()⟩]) { s' with inner := some conn }

namespace HoldsOfParts

variable {P : NetState → List (Occ NetAct.Ret) → NetState → Prop}

/-- Then it holds of an outage. -/
theorem outage (hP : HoldsOfParts cl daemon P) (h : Outage cl daemon start n tries s es res s') :
    P s es s' := by
  induction h with
  | outOfFuel => exact hP.nil
  | ended htried _ =>
    cases htried with
    | connected hx => exact hP.opened hx
    | refused hx hterm =>
      obtain ⟨msg, rfl⟩ := IpcError.eq_serverError hterm
      exact hP.append (hP.unopened hx) (hP.notes ⟨rfl, .sends [], rfl⟩ trivial)
    | failed hx _ hnow =>
      exact hP.append (hP.append (hP.unopened hx) (hP.notes hnow trivial)) hP.nil
    | unfinished hx => exact hP.append (hP.unopened hx) hP.nil
  | again htried hgo hsleep _ ih =>
    refine hP.append ?_ (hP.append (hP.notes hsleep trivial) ih)
    -- an attempt that is followed by another has failed
    cases htried with
    | connected | refused | unfinished => exact absurd trivial hgo
    | failed hx _ hnow => exact hP.append (hP.unopened hx) (hP.notes hnow trivial)

/-- **It holds of every run of `ensure_connected`.** -/
theorem ensureConnected (hP : HoldsOfParts cl daemon P)
    (hx : Exec (netMachine cl.serde daemon) (ensureConnected cl) s es res s') : P s es s' := by
  have hfailure : ∀ {s : NetState} {failure}, s.authFailure = failure → P s [⟨.authFailure, failure⟩] s :=
    fun h => hP.notes ⟨rfl, .sends [], Prod.ext h rfl⟩ trivial
  have hinner : ∀ {s : NetState} {conn}, s.inner = conn → P s [⟨.inner, conn⟩] s :=
    fun h => hP.notes ⟨rfl, .sends [], Prod.ext h rfl⟩ trivial
  obtain ⟨tries, h⟩ := exec_ensureConnected_iff.1 hx
  cases h with
  | latched hsome => exact hfailure hsome
  | held hnone hsome => exact hP.append (hfailure hnone) (hinner hsome)
  | outage hnone hnone' hnow h =>
    exact hP.append (hfailure hnone) (hP.append (hinner hnone')
      (hP.append (hP.notes hnow trivial) (hP.outage h)))

end HoldsOfParts

end

end UnidriveMount
