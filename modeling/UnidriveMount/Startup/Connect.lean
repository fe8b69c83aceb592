import UnidriveMount.Ipc.Budget

/-!
# The first connect

`connect_auth_at_startup` (`reconnect.rs`): at startup the daemon's listener may not be there yet, and the
mount waits for it. It waits only while the socket is missing or refuses, and only within the budget; what
any other attempt brings is returned as it is (`startup_connect_waits`). The attempts are bounded by the
budget and the interval, so it ends.
-/

namespace UnidriveMount

open Lib
open Lib.Prog (fail)

/-! ## The loop -/

/-- `STARTUP_CONNECT_INTERVAL`, in milliseconds. -/
def startupConnectInterval : Nat := 250

/-- `STARTUP_CONNECT_BUDGET`, in milliseconds. -/
def startupConnectBudget : Nat := 10000

/-- The listener is not there yet. -/
def IoErrorKind.NotReady (kind : IoErrorKind) : Prop := kind = .notFound ∨ kind = .connectionRefused

instance (kind : IoErrorKind) : Decidable kind.NotReady :=
  inferInstanceAs (Decidable (_ ∨ _))

section
variable (env : NetEnv) (auth : IpcAuth) (interval budget : Nat)

/-- The loop of `connect_auth_at_startup`, which began at `start`. -/
def awaitListener (start : Nat) : Nat → NetProg Nat
  | 0 => fail .running
  | n + 1 => (connectAuth env auth).onResult fun
    | .error (.failed (.io kind)) =>
      if kind.NotReady then do
        let time ← performNet .now
        if time - start < budget then do
          performNet (.sleep interval)
          awaitListener start n
        else fail (.failed (.io kind))
      else fail (.failed (.io kind))
    | r => .ret r

/-- `connect_auth_at_startup`. -/
def connectAuthAtStartup : NetProg Nat := do
  let start ← performNet .now
  awaitListener env auth interval budget start env.fuel

end

/-! ## Its runs -/

/-- The result is that of an attempt for which nothing is waited. -/
def Decides (res : Except Stop Nat) : Prop :=
  ∀ kind : IoErrorKind, kind.NotReady → res ≠ .error (.failed (.io kind))

/-- The runs of the loop: the listener was not there at the times `waited` since `start`, within the
budget, and an interval after each there was another attempt. -/
inductive Awaits (env : NetEnv) (auth : IpcAuth) (interval budget : Nat) (daemon : Daemon) (start : Nat) :
    Nat → List Nat → NetState → List (Occ NetAct.Ret) → Except Stop Nat → NetState → Prop where
  | outOfFuel {s : NetState} :
      Awaits env auth interval budget daemon start 0 [] s [] (.error .running) s
  | decided {n : Nat} {s s' : NetState} {es : List (Occ NetAct.Ret)} {res : Except Stop Nat}
      (hx : Exec (netMachine env.serde daemon) (connectAuth env auth) s es res s') (hres : Decides res) :
      Awaits env auth interval budget daemon start (n + 1) [] s es res s'
  | gaveUp {n time : Nat} {kind : IoErrorKind} {s s₁ s' : NetState} {es : List (Occ NetAct.Ret)}
      (hx : Exec (netMachine env.serde daemon) (connectAuth env auth) s es (.error (.failed (.io kind))) s₁)
      (hkind : kind.NotReady) (hnow : (netMachine env.serde daemon).Step .now s₁ time s')
      (hspent : budget ≤ time - start) :
      Awaits env auth interval budget daemon start (n + 1) [] s (es ++ [⟨.now, time⟩])
        (.error (.failed (.io kind))) s'
  | again {n time : Nat} {waited : List Nat} {kind : IoErrorKind} {s s₁ s₂ s₃ s' : NetState}
      {es es' : List (Occ NetAct.Ret)} {res : Except Stop Nat}
      (hx : Exec (netMachine env.serde daemon) (connectAuth env auth) s es (.error (.failed (.io kind))) s₁)
      (hkind : kind.NotReady) (hnow : (netMachine env.serde daemon).Step .now s₁ time s₂)
      (hleft : time - start < budget) (hsleep : (netMachine env.serde daemon).Step (.sleep interval) s₂ () s₃)
      (hrest : Awaits env auth interval budget daemon start n waited s₃ es' res s') :
      Awaits env auth interval budget daemon start (n + 1) ((time - start) :: waited) s
        (es ++ ⟨.now, time⟩ :: ⟨.sleep interval, ()⟩ :: es') res s'

/-- The attempt finds that the listener is not there. -/
def FindsNone (env : NetEnv) (auth : IpcAuth) (daemon : Daemon) (es : List (Occ NetAct.Ret)) : Prop :=
  ∃ (kind : IoErrorKind) (s s' : NetState), kind.NotReady ∧
    Exec (netMachine env.serde daemon) (connectAuth env auth) s es (.error (.failed (.io kind))) s'

/-- What comes after the waits: an attempt with any other result, or one that finds no listener when the
budget is spent. The model stops, too, when its fuel is used up. -/
inductive EndsWait (env : NetEnv) (auth : IpcAuth) (budget : Nat) (daemon : Daemon) (start : Nat) :
    List (Occ NetAct.Ret) → Except Stop Nat → Prop where
  | decided {s s' : NetState} {es : List (Occ NetAct.Ret)} {res : Except Stop Nat}
      (hx : Exec (netMachine env.serde daemon) (connectAuth env auth) s es res s') (hres : Decides res) :
      EndsWait env auth budget daemon start es res
  | spent {time : Nat} {kind : IoErrorKind} {s s' : NetState} {es : List (Occ NetAct.Ret)}
      (hx : Exec (netMachine env.serde daemon) (connectAuth env auth) s es (.error (.failed (.io kind))) s')
      (hkind : kind.NotReady) (hspent : budget ≤ time - start) :
      EndsWait env auth budget daemon start (es ++ [⟨.now, time⟩]) (.error (.failed (.io kind)))
  | outOfFuel : EndsWait env auth budget daemon start [] (.error .running)

/-- The waits, each with its attempt and the time after it. -/
def waitOccs (interval : Nat) (waits : List (List (Occ NetAct.Ret) × Nat)) : List (Occ NetAct.Ret) :=
  waits.flatMap fun w => w.1 ++ [⟨.now, w.2⟩, ⟨.sleep interval, ()⟩]

section
variable {env : NetEnv} {auth : IpcAuth} {interval budget start n : Nat} {daemon : Daemon}
  {waited : List Nat} {s s' : NetState} {es : List (Occ NetAct.Ret)} {res : Except Stop Nat}

/-- The loop makes the runs. -/
theorem awaits_of_exec
    (hx : Exec (netMachine env.serde daemon) (awaitListener env auth interval budget start n) s es res s') :
    ∃ waited, Awaits env auth interval budget daemon start n waited s es res s' := by
  induction n generalizing s es with
  | zero =>
    obtain ⟨rfl, rfl, rfl⟩ := exec_ret_iff.1 hx
    exact ⟨[], .outOfFuel⟩
  | succ n ih =>
    obtain ⟨r, s₁, es₁, es₂, hopen, hk, rfl⟩ := exec_onResult_iff.1 hx
    have hdecided : Decides r → Exec (netMachine env.serde daemon) (.ret r : NetProg Nat) s₁ es₂ res s' →
        ∃ waited, Awaits env auth interval budget daemon start (n + 1) waited s (es₁ ++ es₂) res s' := by
      intro hres hret
      obtain ⟨rfl, rfl, rfl⟩ := exec_ret_iff.1 hret
      rw [List.append_nil]
      exact ⟨[], .decided hopen hres⟩
    match r with
    | .error (.failed (.io kind)) =>
      dsimp only at hk
      split at hk
      · next hkind =>
        obtain ⟨time, s₂, es₃, hnow, rfl, hk₂⟩ := exec_perform_bind_iff.1 hk
        split at hk₂
        · next hleft =>
          obtain ⟨_, s₃, es₄, hsleep, rfl, hk₃⟩ := exec_perform_bind_iff.1 hk₂
          obtain ⟨waited, hrest⟩ := ih hk₃
          exact ⟨_, .again hopen hkind hnow hleft hsleep hrest⟩
        · next hspent =>
          obtain ⟨rfl, rfl, rfl⟩ := exec_ret_iff.1 hk₂
          exact ⟨[], .gaveUp hopen hkind hnow (Nat.not_lt.1 hspent)⟩
      · next hkind =>
        refine hdecided (fun kind' hkind' heq => ?_) hk
        cases heq
        exact hkind hkind'
    | .ok conn => exact hdecided (fun _ _ => nofun) hk
    | .error .running => exact hdecided (fun _ _ => nofun) hk
    | .error (.failed (.malformed _)) | .error (.failed (.serverError _)) | .error (.failed .busy)
    | .error (.failed (.unknown _)) => exact hdecided (fun _ _ => nofun) hk

/-- An attempt is one connection. -/
theorem connectAuth_attempts
    (hx : Exec (netMachine env.serde daemon) (connectAuth env auth) s es res s') :
    attempts es = 1 ∧ (res = .error .running → env.fuel ≤ chunksRead es) :=
  @openConn_attempts ⟨env, some auth, 0, 0⟩ _ _ _ _ _ hx

theorem of_now {time : Nat} (hnow : (netMachine env.serde daemon).Step .now s time s') :
    s'.clock = time ∧ s.clock ≤ time := by
  obtain ⟨-, (w : NetWorld), hrun⟩ := hnow
  cases hrun
  exact ⟨rfl, Nat.le_add_right ..⟩

theorem of_sleep {r : Unit} (hsleep : (netMachine env.serde daemon).Step (.sleep interval) s r s') :
    s.clock + interval ≤ s'.clock := by
  obtain ⟨-, (w : NetWorld), hrun⟩ := hsleep
  cases hrun
  exact Nat.le_add_right ..

namespace Awaits

/-- The loop connects once more than it waits, unless the fuel is used up. -/
theorem attempts_eq (h : Awaits env auth interval budget daemon start n waited s es res s') :
    attempts es = waited.length + 1 ∨ res = .error .running ∧ attempts es = waited.length ∧
      waited.length = n := by
  induction h with
  | outOfFuel => exact .inr ⟨rfl, rfl, rfl⟩
  | decided hx _ => exact .inl (connectAuth_attempts hx).1
  | gaveUp hx _ _ _ =>
    rw [attempts_append, (connectAuth_attempts hx).1]
    exact .inl rfl
  | @again n time waited kind s s₁ s₂ s₃ s' es es' res hx _ _ _ _ _ ih =>
    have hone := (connectAuth_attempts hx).1
    have hpause : attempts (⟨.now, time⟩ :: ⟨.sleep interval, ()⟩ :: es') = attempts es' := rfl
    rw [attempts_append, hone, hpause, List.length_cons]
    rcases ih with heq | ⟨hres, heq, hlen⟩
    · left
      omega
    · exact .inr ⟨hres, by omega, by omega⟩

/-- It waits only within the budget. -/
theorem within (h : Awaits env auth interval budget daemon start n waited s es res s') :
    ∀ t ∈ waited, t < budget := by
  induction h with
  | outOfFuel | decided | gaveUp => exact nofun
  | again _ _ _ hleft _ _ ih => exact List.forall_mem_cons.2 ⟨hleft, ih⟩

/-- The times are later than the beginning. -/
theorem later (h : Awaits env auth interval budget daemon start n waited s es res s') :
    ∀ t ∈ waited, s.clock - start ≤ t := by
  induction h with
  | outOfFuel | decided | gaveUp => exact nofun
  | @again n time waited kind s s₁ s₂ s₃ s' es es' res hx _ hnow _ hsleep _ ih =>
    have hclock := clock_of_exec hx
    obtain ⟨hnow, hle⟩ := of_now hnow
    have hlater := of_sleep hsleep
    refine List.forall_mem_cons.2 ⟨by omega, fun t ht => ?_⟩
    have := ih t ht
    omega

/-- An interval lies between one attempt and the next. -/
theorem spaced (hstart : start ≤ s.clock)
    (h : Awaits env auth interval budget daemon start n waited s es res s') :
    waited.Pairwise fun t t' => t + interval ≤ t' := by
  induction h with
  | outOfFuel | decided | gaveUp => exact .nil
  | @again n time waited kind s s₁ s₂ s₃ s' es es' res hx _ hnow _ hsleep hrest ih =>
    have hclock := clock_of_exec hx
    obtain ⟨hnow, hle⟩ := of_now hnow
    have hlater := of_sleep hsleep
    refine .cons (fun t ht => ?_) (ih (by omega))
    have := hrest.later t ht
    omega

/-- The budget bounds how often it waits. -/
theorem length_le (hint : 0 < interval) (hstart : start ≤ s.clock)
    (h : Awaits env auth interval budget daemon start n waited s es res s') :
    waited.length + 1 ≤ attemptsLeft ⟨env, some auth, interval, budget⟩ (budget - (s.clock - start)) := by
  induction h with
  | outOfFuel | decided | gaveUp => exact Nat.le_add_left ..
  | @again n time waited kind s s₁ s₂ s₃ s' es es' res hx _ hnow hleft hsleep hrest ih =>
    have hclock := clock_of_exec hx
    obtain ⟨hnow, hle⟩ := of_now hnow
    have hlater := of_sleep hsleep
    have hstep := @attemptsLeft_step ⟨env, some auth, interval, budget⟩ hint
      (budget - (s.clock - start)) (budget - (s₃.clock - start)) (by omega) (by dsimp only; omega)
    exact (Nat.succ_le_succ (ih (by omega))).trans hstep

/-- Without a result the fuel is used up, or a read took `fuel` chunks. -/
theorem running (h : Awaits env auth interval budget daemon start n waited s es res s')
    (hres : res = .error .running) : n ≤ waited.length ∨ env.fuel ≤ chunksRead es := by
  induction h with
  | outOfFuel => exact .inl le_rfl
  | decided hx _ =>
    exact .inr ((connectAuth_attempts hx).2 hres)
  | gaveUp => cases hres
  | @again n time waited kind s s₁ s₂ s₃ s' es es' res hx _ _ _ _ _ ih =>
    have hpause : chunksRead (⟨.now, time⟩ :: ⟨.sleep interval, ()⟩ :: es') = chunksRead es' := rfl
    rw [chunksRead_append, hpause, List.length_cons]
    exact (ih hres).imp Nat.succ_le_succ fun h => h.trans (Nat.le_add_left ..)

/-- The loop waits after attempts that find no listener, and then comes to its end. -/
theorem parts (h : Awaits env auth interval budget daemon start n waited s es res s') :
    ∃ waits last, es = waitOccs interval waits ++ last ∧ waits.map (fun w => w.2 - start) = waited ∧
      (∀ w ∈ waits, FindsNone env auth daemon w.1) ∧ EndsWait env auth budget daemon start last res := by
  induction h with
  | outOfFuel => exact ⟨[], [], rfl, rfl, nofun, .outOfFuel⟩
  | decided hx hres => exact ⟨[], _, rfl, rfl, nofun, .decided hx hres⟩
  | gaveUp hx hkind _ hspent => exact ⟨[], _, rfl, rfl, nofun, .spent hx hkind hspent⟩
  | @again n time waited kind s s₁ s₂ s₃ s' es es' res hx hkind _ _ _ _ ih =>
    obtain ⟨waits, last, rfl, rfl, hnone, hend⟩ := ih
    refine ⟨(es, time) :: waits, last, by simp [waitOccs], rfl, ?_, hend⟩
    exact List.forall_mem_cons.2 ⟨⟨kind, s, s₁, hkind, hx⟩, hnone⟩

/-- It gives up on a listener that is not there when the budget has run out. -/
theorem budget_spent {kind : IoErrorKind} (h : Awaits env auth interval budget daemon start n waited s es res s')
    (hstart : start ≤ s.clock) (hkind : kind.NotReady) (hres : res = .error (.failed (.io kind))) :
    start + budget ≤ s'.clock := by
  induction h with
  | outOfFuel => cases hres
  | decided _ hdec => exact absurd hres (hdec kind hkind)
  | gaveUp hx _ hnow hspent =>
    have hclock := clock_of_exec hx
    obtain ⟨hnow, hle⟩ := of_now hnow
    omega
  | again hx _ hnow _ hsleep _ ih =>
    have hclock := clock_of_exec hx
    obtain ⟨hnow, hle⟩ := of_now hnow
    have hlater := of_sleep hsleep
    exact ih (by omega) hres

end Awaits

/-- **The first connect waits for the listener, within its budget.** It waits only after an attempt that
found the socket missing or refusing, while some of the budget is left, for an interval each time. Then
comes its last attempt, whose result it returns: any other result at once, that of a listener which is not
there only when the budget has run out. The budget bounds its attempts, so it ends. -/
theorem startup_connect_waits
    (hx : Exec (netMachine env.serde daemon) (connectAuthAtStartup env auth interval budget) s es res s') :
    ∃ (start : Nat) (waits : List (List (Occ NetAct.Ret) × Nat)) (last : List (Occ NetAct.Ret)),
      es = ⟨.now, start⟩ :: (waitOccs interval waits ++ last) ∧
      (∀ w ∈ waits, FindsNone env auth daemon w.1 ∧ w.2 - start < budget) ∧
      (waits.map fun w => w.2 - start).Pairwise (fun t t' => t + interval ≤ t') ∧
      EndsWait env auth budget daemon start last res ∧
      (res ≠ .error .running → attempts es = waits.length + 1) ∧
      (∀ kind : IoErrorKind, kind.NotReady → res = .error (.failed (.io kind)) →
        start + budget ≤ s'.clock) ∧
      (0 < interval → attempts es ≤ budget / interval + 2 ∧
        (res = .error .running → env.fuel ≤ budget / interval + 2 ∨ env.fuel ≤ chunksRead es)) := by
  obtain ⟨start, s₁, es', hnow, rfl, hloop⟩ := exec_perform_bind_iff.1 hx
  obtain ⟨waited, h⟩ := awaits_of_exec hloop
  have hstart : start ≤ s₁.clock := (of_now hnow).1.ge
  have hattempts : attempts (⟨.now, start⟩ :: es') = attempts es' := rfl
  have hchunks : chunksRead (⟨.now, start⟩ :: es') = chunksRead es' := rfl
  obtain ⟨waits, last, hes, hwaited, hnone, hend⟩ := h.parts
  have hlength : waits.length = waited.length := by rw [← hwaited, List.length_map]
  refine ⟨start, waits, last, by rw [hes], fun w hw => ⟨hnone w hw, ?_⟩, hwaited ▸ h.spaced hstart, hend,
    fun hres => ?_, fun kind hkind hres => h.budget_spent hstart hkind hres, fun hint => ?_⟩
  · exact h.within _ (hwaited ▸ List.mem_map_of_mem hw)
  · rw [hattempts, hlength]
    exact h.attempts_eq.resolve_right fun hrun => hres hrun.1
  · have hle : waited.length + 1 ≤ budget / interval + 2 := by
      have hlen := h.length_le hint hstart
      rw [(of_now hnow).1, Nat.sub_self, Nat.sub_zero] at hlen
      exact hlen.trans (@attemptsPerOutage_le ⟨env, some auth, interval, budget⟩ hint)
    rw [hattempts, hchunks]
    constructor
    · rcases h.attempts_eq with heq | ⟨-, heq, -⟩ <;> omega
    · exact fun hres => (h.running hres).imp_left fun hn => by omega

end

/-! ## A run -/

/-- Without a listener it gives up, with the error of the last attempt, after the budget. -/
theorem startup_connect_waits_refused :
    ∃ es s', Exec (netMachine Serde.sample anyDaemon)
        (connectAuthAtStartup Reconnecting.sample.toNetEnv ⟨none, []⟩ 250 500) .new es
        (.error (.failed (.io .notFound))) s' ∧
      attempts es = 3 ∧ 500 ≤ s'.clock := by
  have hrun : ((netMachine Serde.sample anyDaemon).exec
      { NetWorld.sends [] with connect := .error .notFound }
      (connectAuthAtStartup Reconnecting.sample.toNetEnv ⟨none, []⟩ 250 500) .new).any
      (fun x => x.2.1 = .error (.failed (.io .notFound)) && attempts x.1 = 3) = true := by
    decide +kernel
  simp only [Option.any_eq_true, Bool.and_eq_true, decide_eq_true_eq] at hrun
  obtain ⟨⟨es, _, s'⟩, hx, rfl, hthree⟩ := hrun
  have hx := Machine.exec_sound hx
  obtain ⟨start, waits, last, -, -, -, -, -, hspent, -⟩ :=
    @startup_connect_waits Reconnecting.sample.toNetEnv _ _ _ anyDaemon _ _ _ _ hx
  exact ⟨es, s', hx, hthree, (Nat.le_add_left ..).trans (hspent .notFound (.inl rfl) rfl)⟩

end UnidriveMount
