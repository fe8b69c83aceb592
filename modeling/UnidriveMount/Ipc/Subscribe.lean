import UnidriveMount.Ipc.Client
import UnidriveMount.Lib.Interp

/-!
# The subscription

`run_subscription` (`subscribe.rs`) keeps a connection of its own subscribed to the daemon's events. It
is a program over what the client of the socket offers it (`SubAct`): each of its actions is a call of
`IpcClient`, the consumer's callback, or a pause.
-/

namespace UnidriveMount

open Lib
open Lib.Prog (fail)

/-- What `run_subscription` does next. -/
inductive SubAct : Type where
  | connect
  | subscribe (sub : Nat)
  | readLine (sub : Nat)
  | event (ev : SubscriptionEvent)
  | sleep (ms : Nat)
  deriving DecidableEq, Repr

/-- What it is answered. -/
abbrev SubAct.Ret : SubAct → Type
  | connect => Except IpcError Nat
  | subscribe _ => Except IpcError Unit
  | readLine _ => Except IpcError Str
  | event _ => Bool
  | sleep _ => Unit

/-- A program over the calls of `IpcClient`. -/
abbrev SubProg := Prog SubAct SubAct.Ret Stop

/-- One call. -/
abbrev performSub (a : SubAct) : SubProg a.Ret := Prog.perform a

/-- The loop over the lines of a stream: `false` when the consumer wants no more, `true` when the
stream has ended. -/
def readEvents (sub : Nat) : Nat → SubProg Bool
  | 0 => fail .running
  | n + 1 => do
    match ← performSub (.readLine sub) with
    | .ok line =>
      let goesOn ← performSub (.event (.line line))
      if !goesOn then return false else readEvents sub n
    | .error _ => return true

/-- `run_subscription`, with the bound `fuel` on the lines of a stream. -/
def runSubscription (interval fuel : Nat) (hadStream : Bool) : Nat → SubProg Unit
  | 0 => fail .running
  | n + 1 => do
    match ← performSub .connect with
    | .error e =>
      if e.isAuthTerminal then return ()
      else do
        performSub (.sleep interval)
        runSubscription interval fuel hadStream n
    | .ok sub =>
      match ← performSub (.subscribe sub) with
      | .error _ =>
        performSub (.sleep interval)
        runSubscription interval fuel hadStream n
      | .ok () =>
        let goesOn ← if hadStream then performSub (.event .gap) else pure true
        if !goesOn then return ()
        else
          let ended ← readEvents sub fuel
          if !ended then return ()
          else do
            performSub (.sleep interval)
            runSubscription interval fuel true n

/-- The result of a call as a value. -/
def resultOf {α : Type} (p : NetProg α) : NetProg (Except IpcError α) :=
  p.onResult fun
    | .ok x => pure (.ok x)
    | .error (.failed e) => pure (.error e)
    | .error .running => fail .running

/-- The calls of `IpcClient`. -/
def SubAct.impl (env : NetEnv) (auth : IpcAuth) : (a : SubAct) → NetProg a.Ret
  | connect => resultOf (connectAuth env auth)
  | subscribe sub => resultOf (UnidriveMount.subscribe env.serde env.fuel sub)
  | readLine sub => resultOf (readEventLine env.fuel sub)
  | event ev => performNet (.onEvent ev)
  | sleep ms => performNet (.sleep ms)

/-- The subscription of a process, in which no stream was established yet. -/
def subscription (env : NetEnv) (auth : IpcAuth) (interval fuel : Nat) : NetProg Unit :=
  (runSubscription interval fuel false fuel).interp (SubAct.impl env auth)

/-! ## The discipline of the feed -/

/-- What the answers so far ask of the subscription: the connection in use; whether a stream runs on
it, that is, its subscription was accepted and no read has failed since; whether there was a stream
before; the event to hand out next; and whether it is over. -/
structure Feed : Type where
  conn : Option Nat
  streaming : Bool
  hadStream : Bool
  due : Option SubscriptionEvent
  finished : Bool
  deriving DecidableEq, Repr

/-- Nothing has happened. -/
def Feed.new : Feed := ⟨none, false, false, none, false⟩

/-- What an answer changes: a stream is established with a gap unless it is the first, a line of it is
handed out, an error of a read ends it; and it is all over when the consumer wants no more, or the
daemon refuses to authenticate. -/
def Feed.next (g : Feed) : (a : SubAct) → a.Ret → Feed
  | .connect, .ok sub => { g with conn := some sub, streaming := false }
  | .connect, .error e => { g with conn := none, streaming := false, finished := e.isAuthTerminal }
  | .subscribe _, .ok () =>
    { g with streaming := true, hadStream := true, due := if g.hadStream then some .gap else none }
  | .subscribe _, .error _ => { g with conn := none }
  | .readLine _, .ok line => { g with due := some (.line line) }
  | .readLine _, .error _ => { g with conn := none, streaming := false }
  | .event _, goesOn => { g with due := none, finished := !goesOn }
  | .sleep _, _ => g

/-- What may be done: an event is handed out when it is due, and nothing else is done then; a stream
is read while it runs, on the connection in use. -/
def Feed.Allows (g : Feed) (a : SubAct) : Prop :=
  g.finished = false ∧ match a with
    | .event ev => g.due = some ev
    | .connect | .sleep _ => g.due = none ∧ g.streaming = false
    | .subscribe sub => g.due = none ∧ g.streaming = false ∧ g.conn = some sub
    | .readLine sub => g.due = none ∧ g.streaming = true ∧ g.conn = some sub

/-- The rule of the subscription. -/
def feed : Contract SubAct SubAct.Ret Feed where
  pre := Feed.Allows
  allow _ _ _ := True
  next := Feed.next

/-- No event is due, and it is over exactly when the program has returned. -/
def Feed.Ended (res : Except Stop Unit) (g : Feed) : Prop :=
  g.due = none ∧ (g.finished = true ↔ res.isOk = true)

theorem readEvents_feed {sub n : Nat} {g : Feed} (hstream : g.streaming = true)
    (hconn : g.conn = some sub) (hdue : g.due = none) (hover : g.finished = false) :
    feed.Obeys (fun r g' => g'.due = none ∧ match r with
      | .ok true => g' = { g with conn := none, streaming := false }
      | .ok false => g'.finished = true
      | .error _ => g'.finished = false) (readEvents sub n) g := by
  induction n generalizing g with
  | zero => exact ⟨hdue, hover⟩
  | succ n ih =>
    refine ⟨⟨hover, hdue, hstream, hconn⟩, fun r _ => ?_⟩
    cases r with
    | error e => exact ⟨hdue, rfl⟩
    | ok line =>
      refine ⟨⟨hover, rfl⟩, fun goesOn _ => ?_⟩
      cases goesOn with
      | false => exact ⟨rfl, rfl⟩
      | true =>
        have hback : feed.next (feed.next g (.readLine sub) (.ok line)) (.event (.line line)) true
            = g := by
          cases g
          cases hdue
          cases hover
          rfl
        rw [hback]
        exact ih hstream hconn hdue hover

/-- **The subscription keeps the rule**. -/
theorem runSubscription_feed {interval fuel n : Nat} {hadStream : Bool} {g : Feed}
    (hstream : g.streaming = false) (hhad : g.hadStream = hadStream) (hdue : g.due = none)
    (hover : g.finished = false) :
    feed.Obeys (fun r g => g.Ended r) (runSubscription interval fuel hadStream n) g := by
  induction n generalizing g hadStream with
  | zero => exact ⟨hdue, by simp [hover, Except.isOk, Except.toBool]⟩
  | succ n ih =>
    refine ⟨⟨hover, hdue, hstream⟩, fun r _ => ?_⟩
    cases r with
    | error e =>
      show feed.Obeys _ (if e.isAuthTerminal then _ else _) _
      split
      · next h => exact ⟨hdue, iff_of_true h rfl⟩
      · next h =>
        have h : e.isAuthTerminal = false := by simpa using h
        exact ⟨⟨h, hdue, rfl⟩, fun _ _ => ih rfl hhad hdue h⟩
    | ok sub =>
      refine ⟨⟨hover, hdue, rfl, rfl⟩, fun r _ => ?_⟩
      cases r with
      | error e => exact ⟨⟨hover, hdue, rfl⟩, fun _ _ => ih rfl hhad hdue hover⟩
      | ok _ =>
        -- what follows the gap, if there is one
        have hrest : ∀ g' : Feed, g'.streaming = true → g'.conn = some sub → g'.hadStream = true →
            g'.due = none → g'.finished = false → feed.Obeys (fun r g => g.Ended r) (do
              let ended ← readEvents sub fuel
              if !ended then return ()
              else do
                performSub (.sleep interval)
                runSubscription interval fuel true n) g' := by
          intro g' hstream' hconn' hhad' hdue' hover'
          refine Contract.obeys_bind.2 ((readEvents_feed hstream' hconn' hdue' hover').mono ?_)
          rintro (e | ended) g₁ ⟨hdue₁, hend⟩
          · exact ⟨hdue₁, by simp [hend, Except.isOk, Except.toBool]⟩
          · cases ended with
            | false => exact ⟨hdue₁, iff_of_true hend rfl⟩
            | true =>
              obtain rfl := hend
              exact ⟨⟨hover', hdue', rfl⟩, fun _ _ => ih rfl hhad' hdue' hover'⟩
        cases hadStream with
        | false => exact hrest _ rfl rfl rfl (by simp [feed, Feed.next, hhad]) hover
        | true =>
          refine ⟨⟨hover, by simp [feed, Feed.next, hhad]⟩, fun goesOn _ => ?_⟩
          cases goesOn with
          | false => exact ⟨rfl, iff_of_true rfl rfl⟩
          | true => exact hrest _ rfl rfl rfl rfl rfl

end UnidriveMount
