import UnidriveMount.Ipc.AtMostOnce

/-!
# Retried verbs

How often a call of a verb that is retried connects. `ensure_connected` gives up when its budget has
run out, so it makes a number of attempts that the budget and the interval bound; but its clock starts
anew for each connection, and the loop of a retried verb has no bound of its own. So the attempts of a
call are bounded by the number of connections that are lost after the verb was sent on them, and by
nothing else: against a daemon that accepts every connection and closes it, the call never ends.
-/

namespace UnidriveMount

open Lib
open Lib.Prog (only_perform)

/-! ## Connections that are lost -/

/-- The attempts to connect. -/
def attempts (es : List (Occ NetAct.Ret)) : Nat := es.countP fun e => e.1 = .connect

/-- The chunks that were read. -/
def chunksRead (es : List (Occ NetAct.Ret)) : Nat :=
  es.countP fun e => match e.1 with
    | .fillBuf _ => true
    | _ => false

/-- The connection that an operation found broken: it failed, or the stream has ended. -/
def brokenConn : Occ NetAct.Ret → Option Nat
  | ⟨.write conn _, .error _⟩ | ⟨.flush conn, .error _⟩ | ⟨.fillBuf conn, .error _⟩
  | ⟨.fillBuf conn, .ok []⟩ => some conn
  | _ => none

/-- The connection on which a verb is sent. -/
def verbConn : Occ NetAct.Ret → Option Nat
  | ⟨.write conn (.request (.verb _)), _⟩ => some conn
  | _ => none

/-- How many connections are lost with a verb out on them. `waiting` is the connection on which a verb
was sent last, if it was not lost since. -/
def losses : Option Nat → List (Occ NetAct.Ret) → Nat
  | _, [] => 0
  | waiting, e :: es =>
    let waiting := (verbConn e).or waiting
    if waiting.isSome && brokenConn e = waiting then 1 + losses none es else losses waiting es

/-- The attempts to connect until the budget has run out: the budget in intervals, and one more. -/
def attemptsPerOutage (cl : Reconnecting) : Nat := (cl.budget + cl.interval - 1) / cl.interval + 1

section
variable {es es₁ es₂ : List (Occ NetAct.Ret)}

theorem attempts_append : attempts (es₁ ++ es₂) = attempts es₁ + attempts es₂ :=
  List.countP_append

theorem chunksRead_append : chunksRead (es₁ ++ es₂) = chunksRead es₁ + chunksRead es₂ :=
  List.countP_append

theorem attempts_of_only {P : NetAct → Prop} (h : ∀ e ∈ es, P e.1) (hP : ¬ P .connect) :
    attempts es = 0 :=
  List.countP_eq_zero.2 fun e he heq => hP (of_decide_eq_true heq ▸ h e he)

/-- The losses of a run are those of its parts. -/
theorem losses_append (waiting : Option Nat) (es₁ : List (Occ NetAct.Ret)) :
    ∃ waiting', ∀ es₂, losses waiting (es₁ ++ es₂) = losses waiting es₁ + losses waiting' es₂ := by
  induction es₁ generalizing waiting with
  | nil => exact ⟨waiting, fun es₂ => (Nat.zero_add _).symm⟩
  | cons e es₁ ih =>
    rw [losses]
    simp only [List.cons_append]
    split
    · next h =>
      obtain ⟨waiting', happend⟩ := ih none
      refine ⟨waiting', fun es₂ => ?_⟩
      rw [losses, if_pos h, happend, Nat.add_assoc]
    · next h =>
      obtain ⟨waiting', happend⟩ := ih ((verbConn e).or waiting)
      refine ⟨waiting', fun es₂ => ?_⟩
      rw [losses, if_neg h, happend]

/-- A connection that breaks while a verb is out on it is lost. -/
theorem losses_pos {conn : Nat} (hverb : ∀ e ∈ es, verbConn e = none)
    (hbroken : es.any fun e => brokenConn e = some conn) : 1 ≤ losses (some conn) es := by
  induction es with
  | nil => cases hbroken
  | cons e es ih =>
    have hnone : verbConn e = none := hverb e (List.mem_cons_self ..)
    simp only [losses, hnone, Option.none_or, Option.isSome_some, Bool.true_and, decide_eq_true_eq]
    split
    · omega
    · next hne =>
      refine ih (fun e he => hverb e (List.mem_cons_of_mem _ he)) ?_
      rw [List.any_cons, decide_eq_false hne, Bool.false_or] at hbroken
      exact hbroken

end

/-! ## A read that fails finds the connection broken -/

/-- The ghost value tells whether an operation found the connection broken. -/
def noticing (conn : Nat) : Contract NetAct NetAct.Ret Bool where
  pre _ _ := True
  allow _ _ _ := True
  next g a r := g || brokenConn ⟨a, r⟩ = some conn

theorem noticing_after (conn : Nat) (g : Bool) (es : List (Occ NetAct.Ret)) :
    (noticing conn).after g es = (g || es.any fun e => brokenConn e = some conn) := by
  induction es generalizing g with
  | nil => simp [Contract.after]
  | cons e es ih =>
    rw [Contract.after, ih, List.any_cons, ← Bool.or_assoc]
    rfl

/-- The program ended with an I/O error. -/
def FailedIo {α : Type} : Except Stop α → Prop
  | .error (.failed (.io _)) => True
  | _ => False

theorem readUntil_noticing {conn n limit : Nat} {buf : List UInt8} {g : Bool}
    (h : buf = [] → n ≠ 0 ∧ limit ≠ 0) :
    (noticing conn).Obeys
      (fun r g => r ≠ .error .running ∧ (FailedIo r ∨ r = .ok [] → g = true))
      (readUntil conn n limit buf) g := by
  induction n generalizing limit buf g with
  | zero =>
    refine ⟨fun h => (by cases h), ?_⟩
    rintro (hio | hnil)
    · exact hio.elim
    · exact absurd rfl (h (Except.ok.inj hnil)).1
  | succ n ih =>
    rw [readUntil]
    split
    · next hzero =>
      refine ⟨fun h => (by cases h), ?_⟩
      rintro (hio | hnil)
      · exact hio.elim
      · exact absurd hzero (h (Except.ok.inj hnil)).2
    · next hne =>
      refine ⟨trivial, fun r _ => ?_⟩
      cases r with
      | error kind => exact ⟨fun h => (by cases h), fun _ => by simp [noticing, brokenConn]⟩
      | ok chunk =>
        obtain ⟨hused, hdone, hopen⟩ := lineBytes_spec (chunk.take limit)
        show (noticing conn).Obeys _ (performNet (.consume conn (lineBytes (chunk.take limit)).1) >>=
          fun _ => if (lineBytes (chunk.take limit)).2 || (lineBytes (chunk.take limit)).1 = 0 then
            pure (buf ++ (chunk.take limit).take (lineBytes (chunk.take limit)).1)
          else readUntil conn n (limit - (lineBytes (chunk.take limit)).1)
            (buf ++ (chunk.take limit).take (lineBytes (chunk.take limit)).1)) _
        generalize lineBytes (chunk.take limit) = x at *
        obtain ⟨used, done⟩ := x
        dsimp only at *
        refine ⟨trivial, fun _ _ => ?_⟩
        split
        · next hstop =>
          refine ⟨fun h => (by cases h), ?_⟩
          rintro (hio | hnil)
          · exact hio.elim
          · -- nothing was read, so nothing was there
            obtain ⟨-, htake⟩ := List.append_eq_nil_iff.1 (Except.ok.inj hnil)
            have hchunk : chunk = [] := by
              cases done with
              | true => exact absurd htake (hdone rfl).ne_nil
              | false =>
                rcases List.take_eq_nil_iff.1 htake with hzero | hempty
                · have := (hopen rfl).1.symm.trans hzero
                  exact (List.take_eq_nil_iff.1 (List.eq_nil_of_length_eq_zero this)).resolve_left hne
                · exact (List.take_eq_nil_iff.1 hempty).resolve_left hne
            subst hchunk
            simp [noticing, brokenConn]
        · next hgo =>
          simp only [Bool.or_eq_true, decide_eq_true_eq, not_or, Bool.not_eq_true] at hgo
          refine ih fun hnil => ?_
          obtain ⟨-, htake⟩ := List.append_eq_nil_iff.1 hnil
          rcases List.take_eq_nil_iff.1 htake with hzero | hempty
          · exact absurd hzero hgo.2
          · rw [hempty] at hused
            exact absurd (Nat.le_zero.1 hused) hgo.2

theorem discardLine_noticing {conn fuel : Nat} {g : Bool} :
    (noticing conn).Obeys (fun r g => FailedIo r ∨ r = .ok .eof → g = true) (discardLine conn fuel)
      g := by
  induction fuel generalizing g with
  | zero => rintro (h | h) <;> cases h
  | succ fuel ih =>
    refine ⟨trivial, fun r _ => ?_⟩
    cases r with
    | error kind => exact fun _ => by simp [noticing, brokenConn]
    | ok chunk =>
      cases chunk with
      | nil => exact fun _ => by simp [noticing, brokenConn]
      | cons b chunk =>
        show (noticing conn).Obeys _ (performNet (.consume conn (lineBytes (b :: chunk)).1) >>=
          fun _ => if (lineBytes (b :: chunk)).2 then pure .tooLong else discardLine conn fuel) _
        refine ⟨trivial, fun _ _ => ?_⟩
        split
        · rintro (h | h) <;> cases h
        · exact ih

/-- A reply that fails with an I/O error does so because the connection broke. -/
theorem receive_noticing {serde : Serde} {fuel conn : Nat} {g : Bool} :
    (noticing conn).Obeys (fun r g => FailedIo r → g = true) (receive serde fuel conn) g := by
  have hline : (noticing conn).Obeys (fun r g => FailedIo r ∨ r = .ok .eof → g = true)
      (readInboundLine fuel conn maxInboundLineBytes) g := by
    refine Contract.obeys_bind.2 ((readUntil_noticing fun _ => ⟨by decide, by decide⟩).mono ?_)
    rintro (e | buf) g₁ ⟨-, hg⟩
    · rintro (h | h)
      · exact hg (.inl (by rcases e with (_ | _) | _ <;> exact h))
      · cases h
    · dsimp only
      split
      · next hempty => exact fun _ => hg (.inr (congrArg Except.ok (List.isEmpty_iff.1 hempty)))
      · split
        · rintro (h | h) <;> cases h
        · exact discardLine_noticing
  refine Contract.obeys_bind.2 (hline.mono ?_)
  rintro (e | line) g₁ hg
  · exact fun h => hg (.inl (by rcases e with (_ | _) | _ <;> exact h))
  · cases line with
    | line buf =>
      dsimp only
      unfold ipcResult parseReply
      cases serde.parse (stripLineBreak buf) <;> exact False.elim
    | eof => exact fun _ => hg (.inr rfl)
    | tooLong => exact False.elim

/-! ## Reads that complete -/

section
variable {serde : Serde} {daemon : Daemon} {fuel conn : Nat} {s s' : NetState}
  {es : List (Occ NetAct.Ret)}

/-- A discarded line that has not ended took `fuel` chunks. -/
theorem discardLine_running {res : Except Stop InboundLine}
    (hx : Exec (netMachine serde daemon) (discardLine conn fuel) s es res s')
    (hres : res = .error .running) : fuel ≤ chunksRead es := by
  induction fuel generalizing s es with
  | zero => exact Nat.zero_le _
  | succ fuel ih =>
    obtain ⟨r, s₁, es₁, hst, rfl, hk⟩ := exec_perform_bind_iff.1 hx
    cases r with
    | error kind =>
      obtain ⟨-, rfl, -⟩ := exec_ret_iff.1 hk
      cases hres
    | ok chunk =>
      replace hk : Exec _ (if chunk.isEmpty then Prog.fail (.failed (.io .unexpectedEof)) else
        performNet (.consume conn (lineBytes chunk).1) >>= fun _ =>
          if (lineBytes chunk).2 then pure .tooLong else discardLine conn fuel) s₁ es₁ res s' := hk
      split at hk
      · obtain ⟨-, rfl, -⟩ := exec_ret_iff.1 hk
        cases hres
      · obtain ⟨_, s₂, es₂, hst₂, rfl, hrest⟩ := exec_perform_bind_iff.1 hk
        split at hrest
        · obtain ⟨-, rfl, -⟩ := exec_ret_iff.1 hrest
          cases hres
        · have := ih hrest
          rw [chunksRead, List.countP_cons_of_pos rfl]
          exact Nat.succ_le_succ (this.trans (List.Sublist.countP_le (List.sublist_cons_self ..)))

/-- A line that has not been read took `fuel` chunks. -/
theorem readInboundLine_running {res : Except Stop InboundLine}
    (hx : Exec (netMachine serde daemon) (readInboundLine fuel conn maxInboundLineBytes) s es res s')
    (hres : res = .error .running) : fuel ≤ chunksRead es := by
  have hdone : (noticing conn).Obeys
      (fun r g => r ≠ .error .running ∧ (FailedIo r ∨ r = .ok [] → g = true))
      (readUntil conn maxInboundLineBytes maxInboundLineBytes []) false :=
    readUntil_noticing fun _ => ⟨by decide, by decide⟩
  rcases exec_bind_iff.1 hx with ⟨e, rfl, he⟩ | ⟨buf, s₁, es₁, es₂, hread, hk, rfl⟩
  · cases hres
    exact absurd rfl (hdone.exec he fun _ _ _ => trivial).2.1
  · split at hk
    · obtain ⟨-, rfl, -⟩ := exec_ret_iff.1 hk
      cases hres
    · split at hk
      · obtain ⟨-, rfl, -⟩ := exec_ret_iff.1 hk
        cases hres
      · rw [chunksRead_append]
        exact (discardLine_running hk hres).trans (Nat.le_add_left ..)

theorem receive_running {res : Except Stop Json}
    (hx : Exec (netMachine serde daemon) (receive serde fuel conn) s es res s')
    (hres : res = .error .running) : fuel ≤ chunksRead es := by
  rcases exec_bind_iff.1 hx with ⟨e, rfl, he⟩ | ⟨line, s₁, es₁, es₂, hread, hk, rfl⟩
  · cases hres
    exact readInboundLine_running he rfl
  · cases line with
    | line buf =>
      obtain ⟨rfl, -⟩ := exec_ipcResult hk
      cases hp : parseReply serde buf <;> rw [hp] at hres <;> cases hres
    | eof | tooLong =>
      obtain ⟨-, rfl, -⟩ := exec_ret_iff.1 hk
      cases hres

theorem roundTrip_running {req : Request} {res : Except Stop Json}
    (hx : Exec (netMachine serde daemon) (roundTrip serde fuel conn req) s es res s')
    (hres : res = .error .running) : fuel ≤ chunksRead es := by
  rcases roundTrip_cases hx with ⟨-, rfl, -⟩ | ⟨-, kind, rfl, -⟩ | ⟨-, s₁, es₁, -, rfl, -, hk⟩
  · cases hres
  · cases hres
  · rw [chunksRead_append]
    exact (receive_running hk hres).trans (Nat.le_add_left ..)

/-- A conversation that has not ended is in a read that took `fuel` chunks. -/
theorem Conversation.running {P : Request → Prop} {α : Type} {p : NetProg α}
    (hp : Conversation serde fuel conn P p) {res : Except Stop α}
    (hx : Exec (netMachine serde daemon) p s es res s') (hres : res = .error .running) :
    fuel ≤ chunksRead es := by
  induction hp generalizing s es with
  | ok | failed =>
    obtain ⟨-, rfl, -⟩ := exec_ret_iff.1 hx
    cases hres
  | idle ha _ ih =>
    obtain ⟨r, s₁, es₁, hst, rfl, hk⟩ := exec_act_iff.1 hx
    exact (ih r hk).trans (List.Sublist.countP_le (List.sublist_cons_self ..))
  | roundTrip _ _ ih =>
    rcases exec_bind_iff.1 hx with ⟨e, rfl, he⟩ | ⟨j, s₁, es₁, es₂, h₁, h₂, rfl⟩
    · cases hres
      exact roundTrip_running he rfl
    · rw [chunksRead_append]
      exact (ih j h₂).trans (Nat.le_add_left ..)

end

/-! ## Replies are no I/O errors -/

/-- The result is not an I/O error. -/
def NotIo {α : Type} : Except IpcError α → Prop
  | .error (.io _) => False
  | _ => True

namespace NotIo

variable {serde : Serde} {α β : Type}

theorem bind {r : Except IpcError α} {f : α → Except IpcError β} (hr : NotIo r)
    (hf : ∀ x, NotIo (f x)) : NotIo (r >>= f) := by
  match r with
  | .ok x => exact hf x
  | .error (.io _) => exact hr.elim
  | .error .busy | .error (.serverError _) | .error (.unknown _) | .error (.malformed _) => trivial

theorem mapM {f : α → Except IpcError β} (hf : ∀ x, NotIo (f x)) (xs : List α) :
    NotIo (xs.mapM f) := by
  induction xs with
  | nil => trivial
  | cons x xs ih =>
    rw [List.mapM_cons]
    exact .bind (hf x) fun _ => .bind ih fun _ => trivial

theorem okReply {reply : Json} {r : Except IpcError α} (hr : NotIo r) :
    NotIo (okReply reply r) := by
  unfold UnidriveMount.okReply serverError
  split
  · exact hr
  · split <;> trivial

theorem textField {reply : Json} {key : String} : NotIo (textField serde reply key) := by
  unfold UnidriveMount.textField
  split <;> trivial

theorem cacheFile {reply : Json} : NotIo (cacheFile serde reply) :=
  .bind .textField fun _ => trivial

theorem parseListEntry {e : Json} : NotIo (parseListEntry serde e) := by
  refine .bind .textField fun path => ?_
  split
  · split
    · split <;> trivial
    · trivial
  · trivial

theorem decode {reply : Json} (verb : Verb) : NotIo (verb.decode serde reply) := by
  cases verb with
  | openRead | openWrite | openWriteBegin => exact .okReply .cacheFile
  | create => exact .okReply (.bind .textField fun _ => .bind .textField fun _ => trivial)
  | lastSynced =>
    unfold Verb.decode
    split
    · split <;> trivial
    · trivial
  | list =>
    refine .okReply ?_
    split
    · exact .mapM (fun _ => .parseListEntry) _
    · trivial
  | _ => exact .okReply trivial

/-- Read as the end of a call, it is none either. -/
theorem not_failedIo {r : Except IpcError α} (h : NotIo r) :
    ¬ FailedIo (r.mapError Stop.failed) := by
  match r with
  | .error (.io _) => exact h.elim
  | .ok _ | .error .busy | .error (.serverError _) | .error (.unknown _) | .error (.malformed _) =>
    exact id

end NotIo

/-! ## Attempts to connect -/

section
variable {serde : Serde} {daemon : Daemon} {s s' : NetState}

/-- Time passes. -/
theorem clock_of_step {a : NetAct} {r : a.Ret} (hst : (netMachine serde daemon).Step a s r s') :
    s.clock ≤ s'.clock := by
  obtain ⟨-, (w : NetWorld), (hrun : a.run serde daemon w s = (r, s'))⟩ := hst
  cases a with
  | connect | write =>
    simp only [NetAct.run] at hrun
    split at hrun <;> cases hrun <;> first | exact le_rfl | exact Nat.le_add_right ..
  | fillBuf conn =>
    have hrun : s.fillBuf daemon w conn = (r, s') := hrun
    simp only [NetState.fillBuf] at hrun
    split at hrun
    · cases hrun
      exact le_rfl
    · split at hrun
      · cases hrun
        exact le_rfl
      · split at hrun
        · cases hrun
          exact le_rfl
        · split at hrun <;> cases hrun <;> exact le_rfl
  | now =>
    cases hrun
    exact Nat.le_add_right ..
  | sleep ms =>
    cases hrun
    exact (Nat.le_add_right ..).trans (Nat.le_add_right ..)
  | _ =>
    cases congrArg Prod.snd hrun
    exact le_rfl

theorem clock_of_exec {α : Type} {p : NetProg α} {es : List (Occ NetAct.Ret)} {res : Except Stop α}
    (hx : Exec (netMachine serde daemon) p s es res s') : s.clock ≤ s'.clock := by
  induction hx with
  | ret => exact le_rfl
  | act hst _ ih => exact (clock_of_step hst).trans ih

end

section
variable {cl : Reconnecting} {daemon : Daemon} {s s' : NetState} {es : List (Occ NetAct.Ret)}

/-- A new connection is one attempt, and no verb is sent on the way. -/
theorem openConn_attempts {res : Except Stop Nat}
    (hx : Exec (netMachine cl.serde daemon) (openConn cl) s es res s') :
    attempts es = 1 ∧ (res = .error .running → cl.fuel ≤ chunksRead es) := by
  unfold openConn at hx
  split at hx
  · next auth _ =>
    obtain ⟨r, s₁, es₁, hst, rfl, hk⟩ := exec_perform_bind_iff.1 hx
    cases r with
    | error kind =>
      obtain ⟨rfl, rfl, -⟩ := exec_ret_iff.1 hk
      exact ⟨rfl, by rintro ⟨⟩⟩
    | ok conn =>
      replace hk : Exec _ (authenticate cl.toNetEnv auth conn >>= fun _ => pure conn) s₁ es₁ res s' :=
        hk
      have hconv : Conversation cl.serde cl.fuel conn Request.Starts
          (authenticate cl.toNetEnv auth conn >>= fun _ => (pure conn : NetProg Nat)) :=
        .bind .authenticate fun _ => .ok conn
      have honly : ∀ e ∈ es₁, (e.1).Uses conn :=
        hk.only ((Talks.authenticate cl.toNetEnv auth).only.bind fun _ => trivial)
      refine ⟨?_, fun hres => (hconv.running hk hres).trans
        (List.Sublist.countP_le (List.sublist_cons_self ..))⟩
      rw [attempts, List.countP_cons_of_pos (by simp)]
      exact congrArg Nat.succ (attempts_of_only honly id)
  · obtain ⟨r, s₁, es₁, hst, rfl, hk⟩ := exec_perform_bind_iff.1 hx
    cases r <;> obtain ⟨rfl, rfl, -⟩ := exec_ret_iff.1 hk <;> exact ⟨rfl, by rintro ⟨⟩⟩

/-- The attempts that are left when so much of the budget is. -/
def attemptsLeft (cl : Reconnecting) (left : Nat) : Nat := (left + cl.interval - 1) / cl.interval + 1

theorem attemptsLeft_step (hint : 0 < cl.interval) {left left' : Nat} (hleft : 0 < left)
    (h : left' + cl.interval ≤ left ∨ left' = 0) :
    attemptsLeft cl left' + 1 ≤ attemptsLeft cl left := by
  unfold attemptsLeft
  rcases h with h | rfl
  · have := Nat.div_le_div_right (c := cl.interval)
      (show left' + cl.interval - 1 + cl.interval ≤ left + cl.interval - 1 by omega)
    rw [Nat.add_div_right _ hint] at this
    omega
  · rw [Nat.zero_add, Nat.div_eq_of_lt (by omega)]
    have : 1 ≤ (left + cl.interval - 1) / cl.interval :=
      (Nat.one_le_div_iff hint).2 (by omega)
    omega

theorem Outcome.attempts_keeping (t : Outcome) : attempts t.keeping = 0 := by
  unfold keeping
  split <;> rfl

/-- An attempt connects once. -/
theorem Tried.attempts_eq {start : Nat} {t : Outcome} (h : Tried cl daemon start t s es s') :
    attempts es = 1 := by
  cases h with
  | connected hx | refused hx _ | unfinished hx => exact (openConn_attempts hx).1
  | failed hx _ _ =>
    rw [attempts_append, (openConn_attempts hx).1]
    rfl

theorem Outage.attempts_eq {start n : Nat} {tries : List Outcome} {res : Except Stop Nat}
    (h : Outage cl daemon start n tries s es res s') : attempts es = tries.length := by
  induction h with
  | outOfFuel => rfl
  | ended htried _ =>
    rw [attempts_append, htried.attempts_eq, Outcome.attempts_keeping, List.length_singleton]
  | @again n t ts s s₁ s₂ s' es₁ es₂ res htried _ _ _ ih =>
    have hsleep : attempts (⟨.sleep cl.interval, ()⟩ :: es₂) = attempts es₂ := rfl
    rw [attempts_append, htried.attempts_eq, hsleep, ih, List.length_cons, Nat.add_comm]

theorem Connects.attempts_eq {tries : List Outcome} {res : Except Stop Nat}
    (h : Connects cl daemon tries s es res s') : attempts es = tries.length := by
  cases h with
  | latched | held => rfl
  | outage _ _ _ h => exact h.attempts_eq

/-- An attempt that is followed by another was over within the budget, and the next is an interval
later. -/
theorem Tried.clock_of_again {start : Nat} {t : Outcome} {s₁ s₂ : NetState}
    (h : Tried cl daemon start t s es s₁) (hgo : ¬ t.Ends cl.budget)
    (hsleep : (netMachine cl.serde daemon).Step (.sleep cl.interval) s₁ () s₂) :
    s₁.clock - start < cl.budget ∧ s.clock ≤ s₁.clock ∧ s₁.clock + cl.interval ≤ s₂.clock := by
  obtain ⟨-, (w : NetWorld), hrun⟩ := hsleep
  obtain ⟨-, rfl⟩ := Prod.mk.inj hrun.symm
  cases h with
  | connected | refused | unfinished => exact absurd trivial hgo
  | failed hx _ hnow =>
    have hclock := clock_of_exec hx
    obtain ⟨-, (w' : NetWorld), hrun'⟩ := hnow
    obtain ⟨rfl, rfl⟩ := Prod.mk.inj hrun'.symm
    exact ⟨Nat.lt_of_not_le hgo, hclock.trans (Nat.le_add_right ..), Nat.le_add_right ..⟩

/-- **The loop of `ensure_connected` is bounded**: each attempt after the first is an interval later,
within the budget. -/
theorem Outage.length_le {start n : Nat} {tries : List Outcome} {res : Except Stop Nat}
    (hint : 0 < cl.interval) (h : Outage cl daemon start n tries s es res s') (hstart : start ≤ s.clock) :
    tries.length ≤ attemptsLeft cl (cl.budget - (s.clock - start)) := by
  induction h with
  | outOfFuel => exact Nat.zero_le _
  | ended => exact Nat.le_add_left ..
  | @again n t ts s s₁ s₂ s' es₁ es₂ res htried hgo hsleep _ ih =>
    obtain ⟨hbudget, hclock, hlater⟩ := htried.clock_of_again hgo hsleep
    have hstep : attemptsLeft cl (cl.budget - (s₂.clock - start)) + 1 ≤
        attemptsLeft cl (cl.budget - (s.clock - start)) := attemptsLeft_step hint (by omega) (by omega)
    exact (Nat.succ_le_succ (ih (by omega))).trans hstep

/-- An outage that has not ended used up its fuel, or is in a read that took `fuel` chunks. -/
theorem Outage.running {start n : Nat} {tries : List Outcome} {res : Except Stop Nat}
    (h : Outage cl daemon start n tries s es res s') (hres : res = .error .running) :
    n ≤ tries.length ∨ cl.fuel ≤ chunksRead es := by
  induction h with
  | outOfFuel => exact .inl le_rfl
  | ended htried _ =>
    cases htried with
    | connected | refused | failed => cases hres
    | unfinished hx =>
      rw [chunksRead_append]
      exact .inr (((openConn_attempts hx).2 rfl).trans (Nat.le_add_right ..))
  | @again n t ts s s₁ s₂ s' es₁ es₂ res _ _ _ _ ih =>
    have hsleep : chunksRead (⟨.sleep cl.interval, ()⟩ :: es₂) = chunksRead es₂ := rfl
    rw [chunksRead_append, hsleep]
    exact (ih hres).imp Nat.succ_le_succ fun h => h.trans (Nat.le_add_left ..)

/-- **`ensure_connected` is bounded** by its budget. -/
theorem ensureConnected_attempts {res : Except Stop Nat} (hint : 0 < cl.interval)
    (hx : Exec (netMachine cl.serde daemon) (ensureConnected cl) s es res s') :
    attempts es ≤ attemptsPerOutage cl ∧
      (res = .error .running → cl.fuel ≤ attemptsPerOutage cl ∨ cl.fuel ≤ chunksRead es) := by
  obtain ⟨tries, h⟩ := exec_ensureConnected_iff.1 hx
  cases h with
  | latched | held => exact ⟨Nat.zero_le _, by rintro ⟨⟩⟩
  | @outage start _ _ s₁ _ es _ _ _ hnow h =>
    obtain ⟨-, (w : NetWorld), hrun⟩ := hnow
    obtain ⟨rfl, rfl⟩ := Prod.mk.inj hrun.symm
    have hle := h.length_le hint le_rfl
    rw [Nat.sub_self, Nat.sub_zero] at hle
    refine ⟨h.attempts_eq.trans_le hle, fun hres => (h.running hres).imp_left fun hn => hn.trans hle⟩

/-- A call that ends with an I/O error has lost its connection. -/
theorem callVerb_losses {serde : Serde} {fuel conn : Nat} {verb : Verb}
    {res : Except Stop verb.Reply}
    (hx : Exec (netMachine serde daemon) (callVerb serde fuel conn verb) s es res s')
    (hres : FailedIo res) (waiting : Option Nat) : 1 ≤ losses waiting es := by
  obtain ⟨r, s₁, hround, hr⟩ : ∃ r s₁,
      Exec (netMachine serde daemon) (roundTrip serde fuel conn (.verb verb)) s es r s₁ ∧
        FailedIo r := by
    rcases exec_bind_iff.1 hx with ⟨e, rfl, he⟩ | ⟨reply, s₁, es₁, es₂, h₁, h₂, rfl⟩
    · exact ⟨_, _, he, by rcases e with (_ | _) | _ <;> exact hres⟩
    · obtain ⟨rfl, -⟩ := exec_ipcResult h₂
      exact absurd hres (NotIo.decode verb).not_failedIo
  rcases roundTrip_cases hround with ⟨-, rfl, -⟩ | ⟨-, kind, -, hfails, -⟩ |
    ⟨-, s₂, es₁, -, rfl, -, hk⟩
  · exact hr.elim
  · rcases hfails with rfl | rfl | rfl <;> simp [losses, verbConn, brokenConn]
  · have hnotice : (noticing conn).Obeys (fun r g => FailedIo r → g = true)
        (receive serde fuel conn) false := receive_noticing
    have hbroken := (hnotice.exec hk fun _ _ _ => trivial).2 hr
    rw [noticing_after, Bool.false_or] at hbroken
    have hverb : ∀ e ∈ es₁, verbConn e = none := fun e he => by
      have := hk.only (receive_only ..) e he
      obtain ⟨a, x⟩ := e
      cases a <;> first | exact this.elim | rfl
    have := losses_pos hverb hbroken
    simpa [losses, written, verbConn, brokenConn] using this

/-- **The loop of a retried verb**: each outage is bounded, and there are as many as connections are
lost, and one more. -/
theorem retryIoLoop_attempts {verb : Verb} {n : Nat} {res : Except Stop verb.Reply}
    (hint : 0 < cl.interval)
    (hx : Exec (netMachine cl.serde daemon) (retryIoLoop cl verb n) s es res s')
    (waiting : Option Nat) :
    attempts es ≤ (losses waiting es + 1) * attemptsPerOutage cl ∧
      (res = .error .running → n ≤ losses waiting es ∨ cl.fuel ≤ attemptsPerOutage cl ∨
        cl.fuel ≤ chunksRead es) := by
  induction n generalizing s es waiting with
  | zero =>
    obtain ⟨rfl, rfl, -⟩ := exec_ret_iff.1 hx
    exact ⟨Nat.zero_le _, fun _ => .inl (Nat.zero_le _)⟩
  | succ n ih =>
    rcases exec_bind_iff.1 hx with ⟨e, rfl, he⟩ | ⟨conn, s₁, es₁, es₂, hconn, hk, rfl⟩
    · obtain ⟨hle, hrun⟩ := ensureConnected_attempts hint he
      refine ⟨hle.trans (Nat.le_mul_of_pos_left _ (Nat.succ_pos _)), fun hres => .inr (hrun ?_)⟩
      cases hres
      rfl
    · obtain ⟨hle, -⟩ := ensureConnected_attempts hint hconn
      obtain ⟨r, s₂, es₃, es₄, hcall, hend, rfl⟩ := exec_onResult_iff.1 hk
      have hnone : attempts es₃ = 0 := attempts_of_only
        (hcall.only (Talks.callVerb cl.serde cl.fuel conn verb).only) id
      obtain ⟨waiting₁, hlosses₁⟩ := losses_append waiting es₁
      obtain ⟨waiting₂, hlosses₂⟩ := losses_append waiting₁ es₃
      rw [attempts_append, attempts_append, hnone, hlosses₁, hlosses₂, chunksRead_append,
        chunksRead_append]
      split at hend
      · next kind =>
        obtain ⟨_, s₃, es₅, hst, rfl, hloop⟩ := exec_perform_bind_iff.1 hend
        have hlost := callVerb_losses hcall trivial waiting₁
        have hskip : losses waiting₂ (⟨.setInner none, ()⟩ :: es₅) = losses waiting₂ es₅ := by
          cases waiting₂ <;> rfl
        obtain ⟨hrest, hrun⟩ := ih hloop waiting₂
        rw [hskip]
        constructor
        · show attempts es₁ + (0 + attempts es₅) ≤ _
          calc attempts es₁ + (0 + attempts es₅)
              ≤ attemptsPerOutage cl + (losses waiting₂ es₅ + 1) * attemptsPerOutage cl := by omega
            _ = (losses waiting₂ es₅ + 1 + 1) * attemptsPerOutage cl := by
                rw [Nat.add_one_mul (losses waiting₂ es₅ + 1), Nat.add_comm]
            _ ≤ _ := Nat.mul_le_mul_right _ (by omega)
        · intro hres
          rcases hrun hres with h | h | h
          · exact .inl (by omega)
          · exact .inr (.inl h)
          · refine .inr (.inr ?_)
            show cl.fuel ≤ chunksRead es₁ + (chunksRead es₃ + chunksRead es₅)
            omega
      · obtain ⟨rfl, rfl, -⟩ := exec_ret_iff.1 hend
        refine ⟨?_, fun hres => .inr (.inr ?_)⟩
        · calc attempts es₁ + (0 + 0) ≤ attemptsPerOutage cl := hle
            _ ≤ _ := Nat.le_mul_of_pos_left _ (Nat.succ_pos _)
        · have := (Conversation.callVerb verb).running hcall hres
          omega

/-- **Retried verbs end** when the daemon loses only so many connections: a call that `losses` many
connections are lost in makes at most that many times the attempts of an outage, and those of one more;
and when it has not returned, its loops were cut short, or a read has not completed. -/
theorem retried_attempts {verb : Verb} {res : Except Stop verb.Reply} {lost : Nat}
    (hverb : verb.mutating = false) (hint : 0 < cl.interval) (hlost : losses none es ≤ lost)
    (hx : Exec (netMachine cl.serde daemon) (call cl verb) s es res s') :
    attempts es ≤ (lost + 1) * attemptsPerOutage cl ∧
      (res = .error .running →
        cl.fuel ≤ lost ∨ cl.fuel ≤ attemptsPerOutage cl ∨ cl.fuel ≤ chunksRead es) := by
  rw [call, if_neg (by simp [hverb])] at hx
  obtain ⟨hle, hrun⟩ := retryIoLoop_attempts hint hx none
  exact ⟨hle.trans (Nat.mul_le_mul_right _ (by omega)),
    fun hres => (hrun hres).imp_left fun h => h.trans hlost⟩

end

/-- The call is answered by the reply that says ok. -/
def saysOk : Except Stop Verb.daemonStatus.Reply → Bool
  | .ok (.obj [(key, .bool true)]) => key = "ok".toList
  | _ => false

/-- A daemon that closes the first connection, and answers on the second. -/
def closesFirst (s : NetState) : NetWorld :=
  .sends (if s.opened = 1 then [] else utf8 okReplyText ++ [newline])

/-- A call whose first connection is lost, and which is answered on the second. -/
theorem retried_attempts_status :
    ∃ es s', Exec (netMachine Serde.sample anyDaemon) (call .sample .daemonStatus) .new es
        (.ok (.obj [("ok".toList, .bool true)])) s' ∧ losses none es = 1 ∧ attempts es = 2 ∧
      attempts es ≤ (1 + 1) * attemptsPerOutage .sample := by
  have hrun : (((netMachine Serde.sample anyDaemon).under closesFirst).exec ()
      (call .sample .daemonStatus) .new).any
      (fun x => (decide (losses none x.1 = 1) && decide (attempts x.1 = 2)) && saysOk x.2.1) = true := by
    decide +kernel
  obtain ⟨⟨es, res, s'⟩, hx, hok⟩ := (Option.any_eq_true ..).1 hrun
  obtain ⟨hlost, hok⟩ := Bool.and_eq_true_iff.1 hok
  obtain ⟨hlost, htwo⟩ := Bool.and_eq_true_iff.1 hlost
  have hone : losses none es = 1 := of_decide_eq_true hlost
  have hx := (Machine.exec_sound hx).of_step fun _ _ _ _ => Machine.step_of_under
  have hbound := (@retried_attempts .sample anyDaemon _ _ _ _ _ 1 rfl (by decide) hone.le hx).1
  dsimp only at hok hx
  unfold saysOk at hok
  split at hok
  · obtain rfl := of_decide_eq_true hok
    exact ⟨es, s', hx, hone, of_decide_eq_true htwo, hbound⟩
  · cases hok

/-! ## A daemon that closes every connection -/

/-- A client without a token, with the default interval and budget. -/
def Reconnecting.tokenless (fuel : Nat) : Reconnecting where
  serde := .sample
  crypto := Reconnecting.sample.crypto
  fuel := fuel
  auth := some ⟨none, []⟩
  interval := defaultRetryInterval
  budget := defaultRetryBudget

/-- A connection on which everything was consumed and more may come. -/
def Conn.Quiet (c : Conn) : Prop := c.pos = c.got.length ∧ c.eof = false

section
variable {serde : Serde} {s : NetState} {conn fuel limit : Nat} {chunk : List UInt8}

theorem lineBytes_of_isLine (h : IsLine chunk) : lineBytes chunk = (chunk.length, true) := by
  obtain ⟨body, hbody, rfl⟩ := h
  have : (body ++ [newline]).findIdx? (· = newline) = some body.length := by
    rw [List.findIdx?_append, List.findIdx?_eq_none_iff.2 fun b hb => ?_]
    · simp
    · exact decide_eq_false fun heq => hbody (heq ▸ hb)
  rw [lineBytes, this]
  simp

/-- The daemon sends a line. -/
theorem exec_readUntil_line (serde : Serde) (n limit : Nat) (hq : (s.conns conn).Quiet) (hline : IsLine chunk)
    (hlen : chunk.length ≤ limit) :
    ∃ es, Exec (netMachine serde anyDaemon) (readUntil conn (n + 1) limit []) s es (.ok chunk)
      (s.modifyConn conn fun c =>
        { c with got := c.got ++ chunk, pos := c.pos + chunk.length }) := by
  have hpos : 0 < chunk.length := List.length_pos_iff.2 hline.ne_nil
  have htake : chunk.take limit = chunk := List.take_of_length_le hlen
  rw [readUntil, if_neg (by omega)]
  have hfill : s.fillBuf anyDaemon (.sends chunk) conn =
      (.ok chunk, s.modifyConn conn fun c => { c with got := c.got ++ chunk }) := by
    unfold NetState.fillBuf
    rw [if_neg (by rw [hq.1]; exact lt_irrefl _), if_neg (by rw [hq.2]; exact Bool.false_ne_true)]
    exact if_pos ⟨hline.ne_nil, rfl⟩
  refine ⟨[⟨.fillBuf conn, .ok chunk⟩, ⟨.consume conn chunk.length, ()⟩],
    .act ⟨rfl, .sends chunk, hfill⟩ ?_⟩
  show Exec _ (performNet (.consume conn (lineBytes (chunk.take limit)).1) >>= fun _ =>
    if (lineBytes (chunk.take limit)).2 || (lineBytes (chunk.take limit)).1 = 0 then
      pure ([] ++ (chunk.take limit).take (lineBytes (chunk.take limit)).1)
    else readUntil conn n (limit - (lineBytes (chunk.take limit)).1)
      ([] ++ (chunk.take limit).take (lineBytes (chunk.take limit)).1)) _ _ _ _
  rw [htake, lineBytes_of_isLine hline]
  refine .act ⟨rfl, .sends chunk, rfl⟩ ?_
  simp only [Bool.true_or, if_true, List.take_length, List.nil_append]
  rw [modifyConn_modifyConn]
  exact .ret

/-- The daemon has closed the connection. -/
theorem exec_readUntil_closed (serde : Serde) (n limit : Nat) (hq : (s.conns conn).Quiet) (hlimit : limit ≠ 0) :
    ∃ es, Exec (netMachine serde anyDaemon) (readUntil conn (n + 1) limit []) s es (.ok [])
      (s.modifyConn conn fun c => { c with eof := true, pos := c.pos + 0 }) := by
  rw [readUntil, if_neg hlimit]
  have hfill : s.fillBuf anyDaemon (.sends []) conn =
      (.ok [], s.modifyConn conn fun c => { c with eof := true }) := by
    unfold NetState.fillBuf
    rw [if_neg (by rw [hq.1]; exact lt_irrefl _), if_neg (by rw [hq.2]; exact Bool.false_ne_true)]
    exact if_neg fun h => h.1 rfl
  refine ⟨[⟨.fillBuf conn, .ok []⟩, ⟨.consume conn 0, ()⟩], .act ⟨rfl, .sends [], hfill⟩ ?_⟩
  show Exec _ (performNet (.consume conn (lineBytes ([].take limit)).1) >>= fun _ =>
    if (lineBytes ([].take limit)).2 || (lineBytes ([].take limit)).1 = 0 then
      pure ([] ++ ([].take limit).take (lineBytes ([].take limit)).1)
    else readUntil conn n (limit - (lineBytes ([].take limit)).1)
      ([] ++ ([].take limit).take (lineBytes ([].take limit)).1)) _ _ _ _
  rw [List.take_nil]
  refine .act ⟨rfl, .sends [], rfl⟩ ?_
  rw [modifyConn_modifyConn]
  exact .ret

/-- The requests of a client that are written, whatever it then receives. -/
theorem exec_roundTrip {req : Request} {j : Except Stop Json} {s' : NetState}
    {es : List (Occ NetAct.Ret)}
    (hshort : ¬ maxRequestBytes < (utf8 (serde.render req.json)).length + 1)
    (hx : Exec (netMachine serde anyDaemon) (receive serde fuel conn)
      ((s.wrote conn (utf8 (serde.render req.json))).wrote conn [newline]) es j s') :
    ∃ es, Exec (netMachine serde anyDaemon) (roundTrip serde fuel conn req) s es j s' := by
  unfold roundTrip
  dsimp only
  rw [if_neg hshort]
  exact ⟨_, .act ⟨rfl, .sends [], rfl⟩ (.act ⟨rfl, .sends [], rfl⟩ (.act ⟨rfl, .sends [], rfl⟩ hx))⟩

theorem quiet_wrote (bytes : List UInt8) (hq : (s.conns conn).Quiet) :
    ((s.wrote conn bytes).conns conn).Quiet := by
  rw [NetState.wrote_conns]
  exact hq

/-- The reply that says ok. -/
def okReplyJson : Json := .obj [("ok".toList, .bool true)]

/-- A request that is answered with ok. -/
theorem exec_roundTrip_ok (fuel : Nat) (req : Request) (hq : (s.conns conn).Quiet)
    (hshort : ¬ maxRequestBytes < (utf8 (Serde.sample.render req.json)).length + 1) :
    ∃ es s', Exec (netMachine Serde.sample anyDaemon) (roundTrip Serde.sample fuel conn req) s es
      (.ok okReplyJson) s' ∧ (s'.conns conn).Quiet := by
  have hline : IsLine (utf8 okReplyText ++ [newline]) := ⟨utf8 okReplyText, by decide, rfl⟩
  have hq' := quiet_wrote [newline] (quiet_wrote (utf8 (Serde.sample.render req.json)) hq)
  obtain ⟨es, hread⟩ := exec_readUntil_line Serde.sample (maxInboundLineBytes - 1) maxInboundLineBytes hq' hline (by decide)
  have hreceive : Exec (netMachine Serde.sample anyDaemon) (receive Serde.sample fuel conn)
      _ (es ++ [] ++ []) (.ok okReplyJson) _ :=
    exec_bind_iff.2 (.inr ⟨.line (utf8 okReplyText ++ [newline]), _, _, _,
      exec_bind_iff.2 (.inr ⟨_, _, _, _, hread, .ret, rfl⟩), .ret, rfl⟩)
  obtain ⟨es', hx⟩ := exec_roundTrip hshort hreceive
  refine ⟨es', _, hx, ?_⟩
  rw [modifyConn_conns, if_pos rfl]
  obtain ⟨hpos, heof⟩ := hq'
  exact ⟨by simp [hpos], heof⟩

/-- A request after which the daemon has closed the connection. -/
theorem exec_roundTrip_closed (fuel : Nat) (req : Request) (hq : (s.conns conn).Quiet)
    (hshort : ¬ maxRequestBytes < (utf8 (Serde.sample.render req.json)).length + 1) :
    ∃ es s', Exec (netMachine Serde.sample anyDaemon) (roundTrip Serde.sample fuel conn req) s es
      (.error (.failed (.io .unexpectedEof))) s' := by
  have hq' := quiet_wrote [newline] (quiet_wrote (utf8 (Serde.sample.render req.json)) hq)
  obtain ⟨es, hread⟩ := exec_readUntil_closed Serde.sample (maxInboundLineBytes - 1) maxInboundLineBytes hq' (by decide)
  have hreceive : Exec (netMachine Serde.sample anyDaemon) (receive Serde.sample fuel conn)
      _ (es ++ [] ++ []) (.error (.failed (.io .unexpectedEof))) _ :=
    exec_bind_iff.2 (.inr ⟨.eof, _, _, _,
      exec_bind_iff.2 (.inr ⟨_, _, _, _, hread, .ret, rfl⟩), .ret, rfl⟩)
  obtain ⟨es', hx⟩ := exec_roundTrip hshort hreceive
  exact ⟨es', _, hx⟩

end

/-- The daemon lets the client connect, and answers its status request. -/
theorem exec_openConn (fuel : Nat) (s : NetState) :
    ∃ es s', Exec (netMachine Serde.sample anyDaemon) (openConn (.tokenless fuel)) s es
      (.ok s.opened) s' ∧ (s'.conns s.opened).Quiet ∧ attempts es = 1 ∧
      s'.authFailure = s.authFailure := by
  let s₁ : NetState := { s with
    conns := Function.update s.conns s.opened .new
    opened := s.opened + 1
    clock := s.clock + 0 }
  have hq : (s₁.conns s.opened).Quiet := by
    simp only [s₁, Function.update_self]
    exact ⟨rfl, rfl⟩
  obtain ⟨es, s', hx, hq'⟩ := exec_roundTrip_ok fuel .status hq (by decide)
  have hauth : Exec (netMachine Serde.sample anyDaemon)
      (authenticate (Reconnecting.tokenless fuel).toNetEnv ⟨none, []⟩ s.opened >>= fun _ =>
        pure s.opened) s₁ (es ++ [] ++ []) (.ok s.opened) s' :=
    exec_bind_iff.2 (.inr ⟨(), _, _, _, exec_bind_iff.2 (.inr ⟨.absent, _, [], _, .ret,
      exec_bind_iff.2 (.inr ⟨_, _, _, _, hx, .ret, rfl⟩), rfl⟩), .ret, rfl⟩)
  have hconn : Exec (netMachine Serde.sample anyDaemon) (openConn (.tokenless fuel)) s
      (⟨.connect, .ok s.opened⟩ :: (es ++ [] ++ [])) (.ok s.opened) s' :=
    .act ⟨rfl, .sends [], rfl⟩ hauth
  have hframe := frame_of_exec hauth ((Talks.authenticate _ _).only.bind fun _ => trivial)
  exact ⟨_, s', hconn, hq', (@openConn_attempts (.tokenless fuel) _ _ _ _ _ hconn).1, hframe.authFailure⟩

/-- A client whose connection, if it has one, is quiet. -/
structure NetState.Idle (s : NetState) : Prop where
  authFailure : s.authFailure = none
  inner : ∀ conn, s.inner = some conn → (s.conns conn).Quiet

/-- Connecting succeeds at the first attempt. -/
theorem exec_ensureConnected (fuel : Nat) {s : NetState} (h : s.Idle) :
    ∃ es s' conn, Exec (netMachine Serde.sample anyDaemon) (ensureConnected (.tokenless (fuel + 1))) s es
      (.ok conn) s' ∧ (s'.conns conn).Quiet ∧ s'.authFailure = none ∧
      (s.inner = none → attempts es = 1) := by
  have hnone : (netMachine Serde.sample anyDaemon).Step .authFailure s none s :=
    ⟨rfl, .sends [], Prod.ext h.authFailure rfl⟩
  cases hinner : s.inner with
  | some conn =>
    exact ⟨_, s, conn, .act hnone (.act ⟨rfl, .sends [], Prod.ext hinner rfl⟩ .ret),
      h.inner conn hinner, h.authFailure, fun h => by cases h⟩
  | none =>
    obtain ⟨es, s', hopen, hq, hone, hfailure⟩ := exec_openConn (fuel + 1) { s with clock := s.clock + 0 }
    refine ⟨_, _, s.opened, .act hnone (.act ⟨rfl, .sends [], Prod.ext hinner rfl⟩
      (.act ⟨rfl, .sends [], rfl⟩ (exec_onResult_iff.2 ⟨.ok s.opened, s', es, _, hopen,
        .act ⟨rfl, .sends [], rfl⟩ .ret, rfl⟩))), hq, hfailure.trans h.authFailure, fun _ => ?_⟩
    show attempts (es ++ [⟨.setInner (some s.opened), ()⟩]) = 1
    rw [attempts_append, hone]
    rfl

/-- Against a daemon that closes each connection when the verb was sent, the loop goes on. -/
theorem exec_retryIoLoop (fuel n : Nat) {s : NetState} (h : s.Idle) :
    ∃ es s', Exec (netMachine Serde.sample anyDaemon)
      (retryIoLoop (.tokenless (fuel + 1)) .daemonStatus n) s es (.error .running) s' ∧
      (s.inner = none → n ≤ attempts es) ∧ n ≤ attempts es + 1 := by
  induction n generalizing s with
  | zero => exact ⟨[], s, .ret, fun _ => Nat.zero_le _, Nat.zero_le _⟩
  | succ n ih =>
    obtain ⟨es₁, s₁, conn, hconn, hq, hfailure, hone⟩ := exec_ensureConnected fuel h
    obtain ⟨es₂, s₂, hclosed⟩ :=
      exec_roundTrip_closed (fuel + 1) (.verb .daemonStatus) hq (by decide)
    have hcall : Exec (netMachine Serde.sample anyDaemon)
        (callVerb Serde.sample (fuel + 1) conn .daemonStatus) s₁ es₂
        (.error (.failed (.io .unexpectedEof))) s₂ := exec_bind_iff.2 (.inl ⟨_, rfl, hclosed⟩)
    have hframe := frame_of_exec hcall (Talks.callVerb Serde.sample _ _ _).only
    obtain ⟨es₃, s₃, hloop, hrest, -⟩ := ih (s := { s₂ with inner := none })
      ⟨hframe.authFailure.trans hfailure, nofun⟩
    refine ⟨es₁ ++ (es₂ ++ ⟨.setInner none, ()⟩ :: es₃), s₃, exec_bind_iff.2 (.inr ⟨conn, s₁, es₁, _,
      hconn, exec_onResult_iff.2 ⟨_, s₂, es₂, _, hcall, .act ⟨rfl, .sends [], rfl⟩ hloop, rfl⟩, rfl⟩),
      fun hinner => ?_, ?_⟩
    all_goals
      rw [attempts_append, attempts_append]
      have : attempts (⟨.setInner none, ()⟩ :: es₃) = attempts es₃ := rfl
      have := hrest rfl
    · have := hone hinner
      omega
    · omega

/-- **Retried verbs need not end**: no function of the budget and the interval bounds the attempts of a
call. A client connects, the daemon completes the handshake, and closes this connection and every
later one without an answer to the verb. -/
theorem retried_unbounded :
    ¬ ∃ bound : Nat → Nat → Nat, ∀ (cl : Reconnecting) (daemon : Daemon) (verb : Verb)
      (l : List NetServed) (s : NetState) (es : List (Occ NetAct.Ret))
      (res : Except Stop verb.Reply) (s' : NetState),
      (netService cl daemon).Sequence Returned .new l s → verb.mutating = false →
      Exec (netMachine cl.serde daemon) (call cl verb) s es res s' →
      attempts es ≤ bound cl.budget cl.interval := by
  rintro ⟨bound, hbound⟩
  let n := bound defaultRetryBudget defaultRetryInterval + 1
  obtain ⟨es₀, s₀, hopen, hq, -, hfailure⟩ := exec_openConn (n + 1) .new
  -- the client is made
  let es₁ : List (Occ NetAct.Ret) := es₀ ++ [⟨.setInner (some 0), ()⟩, ⟨.setAuthFailure none, ()⟩] ++ []
  have hconnect : Exec (netMachine Serde.sample anyDaemon)
      (NetOp.prog (.tokenless (n + 1)) .connect) .new es₁ (.ok .connected)
      { s₀ with inner := some 0, authFailure := none } :=
    exec_bind_iff.2 (.inr ⟨(), _, _, [], exec_bind_iff.2 (.inr ⟨_, s₀, es₀, _, hopen,
      .act ⟨rfl, .sends [], rfl⟩ (.act ⟨rfl, .sends [], rfl⟩ .ret), rfl⟩), .ret, rfl⟩)
  have hseq : (netService (.tokenless (n + 1)) anyDaemon).Sequence Returned .new
      [⟨.connect, es₁, .ok .connected⟩] { s₀ with inner := some 0, authFailure := none } :=
    .cons .nil hconnect fun h => nomatch h
  have hidle : NetState.Idle { s₀ with inner := some 0, authFailure := none } :=
    ⟨rfl, by rintro _ ⟨⟩; exact hq⟩
  obtain ⟨es, s', hloop, -, hmany⟩ := exec_retryIoLoop n (n + 1) hidle
  have := hbound (.tokenless (n + 1)) anyDaemon .daemonStatus _ _ es _ s' hseq rfl hloop
  have : attempts es ≤ bound defaultRetryBudget defaultRetryInterval := this
  omega

end UnidriveMount
