import UnidriveMount.Fs.Events
import UnidriveMount.Ipc.Gaps
import UnidriveMount.Lib.Relay

/-!
# The view follows the daemon

`keep_view_fresh` (`view_refresh.rs`): while the kernel's requests are served, the subscription hands each
invalidation to an unbounded channel, and a task of its own takes them out and applies them one after the
other. Each is applied once, and in the order of the events (`view_in_order`). When the channel is empty
and nothing is being applied, then every event had its moment, after it was handed over, at which the
attributes of what it names were dropped (`view_follows_events`).
-/

namespace UnidriveMount

open Lib

/-! ## The system -/

/-- The client of the subscription, whose consumer always goes on. -/
def listeningMachine (serde : Serde) (daemon : Daemon) : Machine NetAct NetAct.Ret NetState where
  World := { w : NetWorld // w.goesOn = true }
  ready _ _ := true
  run a w := a.run serde daemon w.1

/-- What is handed over for an event. -/
def changeOf (parse : Str → Option Json) : Occ NetAct.Ret → Option Invalidation
  | ⟨.onEvent ev, _⟩ => invalidationOf parse ev
  | _ => none

/-- What the system depends on: the parser of event lines, the filesystem's parameters, and those of the
subscription. -/
structure ViewEnv : Type where
  parse : Str → Option Json
  nfc : Str → Str
  cacheRoot : Option Str
  net : NetEnv
  auth : IpcAuth
  daemon : Daemon
  interval : Nat
  fuel : Nat

/-- The filesystem. -/
abbrev ViewEnv.fs (v : ViewEnv) : Service Act Act.Ret FsState Errno Op Reply :=
  fsService v.nfc v.cacheRoot

/-- `keep_view_fresh`, while the requests of the kernel are served. -/
def keepViewFresh (v : ViewEnv) :
    Relay NetAct NetAct.Ret NetState Stop Unit Act Act.Ret FsState Errno Op Reply Invalidation where
  producer := listeningMachine v.net.serde v.daemon
  prog := subscription v.net v.auth v.interval v.fuel
  item := changeOf v.parse
  service := v.fs
  req := .apply
  own
    | .apply change => some change
    | _ => none
  own_req _ := rfl

/-- A configuration of the system. -/
abbrev ViewConfig :=
  Relay.Config NetAct NetAct.Ret NetState Stop Unit Act.Ret FsState Errno Op Reply Invalidation

/-- The invalidations whose application has started. -/
def appliedOf (l : List FsEvent) : List Invalidation :=
  l.filterMap fun
    | .started _ (.apply change) => some change
    | _ => none

section
variable {v : ViewEnv} {disk : Disk} {d : FsConfig} {c₀ c₁ c : ViewConfig}

theorem items_eq_handed (es : List (Occ NetAct.Ret)) :
    (keepViewFresh v).items es =
      (handed es).filterMap (invalidationOf v.parse) := by
  unfold Relay.items handed
  rw [List.filterMap_filterMap]
  congr 1
  funext ⟨a, r⟩
  cases a <;> rfl

theorem taken_eq_applied (l : List FsEvent) :
    (keepViewFresh v).taken l = appliedOf l := by
  unfold Relay.taken appliedOf
  congr 1
  funext e
  cases e with
  | started t o => cases o <;> rfl
  | acted | returned => rfl

/-- An application looks for unsent writes, then drops attributes, and cannot fail. -/
def Op.Applied (o : Op) (res : Except Errno Reply) (es : List (Occ Act.Ret)) : Prop :=
  ∀ change, o = .apply change → res = .ok .done ∧ ∃ unsent : List Str,
    es = [⟨.unsentPaths, unsent⟩, ⟨.applyInvalidation change unsent, ()⟩]

theorem applied : v.fs.Honours Contract.history (fun _ => []) Op.Applied := by
  intro o
  cases o with
  | apply change =>
    refine ⟨trivial, fun unsent _ => ⟨trivial, fun _ _ change' h => ?_⟩⟩
    cases h
    exact ⟨rfl, unsent, rfl⟩
  | _ => exact (Contract.history_obeys _ _).mono fun _ _ _ _ h => by cases h

/-- The invalidation of an event is about the inodes the event is about. -/
theorem concerns_iff_names {ev : SubscriptionEvent} {change : Invalidation}
    (hchange : invalidationOf v.parse ev = some change) (s : FsState) (ino : Ino) :
    s.Concerns ino change ↔ NamesInode v.parse ev s ino := by
  rcases invalidationOf_cases v.parse ev with ⟨hall, hinv⟩ | ⟨rs, hall, hpaths, hrs, -, hinv⟩ | ⟨-, hinv⟩
  · cases hinv.symm.trans hchange
    exact iff_of_true trivial (.inl hall)
  · cases hinv.symm.trans hchange
    refine PathMap.mem_inodesAtOrBelow.trans ?_
    simp only [isAtOrBelow_iff hrs, NamesInode, or_iff_right hall]
    constructor
    · rintro ⟨p, hp, r, hr, hbelow⟩
      exact ⟨p, r, hp, (hpaths r).2 hr, hbelow⟩
    · rintro ⟨p, r, hp, hr, hbelow⟩
      exact ⟨p, hp, r, (hpaths r).1 hr, hbelow⟩
  · cases hinv.symm.trans hchange

/-- The two moments of an application. -/
theorem moments_of_applied (h : v.fs.Run (fun _ _ => True) (.initial (.new disk)) d)
    {t p p' : Nat} {change : Invalidation} {res : Except Errno Reply}
    (hp : d.log[p]? = some (.started t (.apply change)))
    (hp' : d.log[p']? = some (.returned t (.apply change) res)) :
    ∃ (i j : Nat) (unsent : List Str), p < i ∧ i < j ∧
      d.log[i]? = some (.acted t .unsentPaths unsent) ∧
      d.log[j]? = some (.acted t (.applyInvalidation change unsent) ()) := by
  obtain ⟨-, unsent, hes⟩ := h.history_of_returned applied hp' change rfl
  have hsplit : occs t (d.log.take p') =
      [⟨.unsentPaths, unsent⟩] ++ ⟨.applyInvalidation change unsent, ()⟩ :: [] := hes
  obtain ⟨j, hj, hbefore⟩ := getElem?_of_occs hsplit
  have honly : occs t ((d.log.take p').take j) = [] ++ ⟨.unsentPaths, unsent⟩ :: [] := hbefore
  obtain ⟨i, hi, -⟩ := getElem?_of_occs honly
  have hij : i < j := by
    have hlt := getElem?_lt hi
    rw [List.length_take] at hlt
    omega
  have hi := getElem?_of_take (getElem?_of_take hi)
  exact ⟨i, j, unsent, h.started_lt_acted hi hp, hij, hi, getElem?_of_take hj⟩

/-- **Every invalidation is applied once, in the order of the events, one at a time.** -/
theorem view_in_order
    (h : (keepViewFresh v).Reachable (.new disk) .new c) :
    (handed c.done).filterMap (invalidationOf v.parse) = appliedOf c.svc.log ++ c.queue ∧
      (∀ (p t : Nat) (change : Invalidation), c.svc.log[p]? = some (.started t (.apply change)) →
        c.busy ≠ some t →
        ∃ q : Nat, p < q ∧ c.svc.log[q]? = some (.returned t (.apply change) (.ok .done))) ∧
      ∀ (p p' t t' : Nat) (change change' : Invalidation),
        c.svc.log[p]? = some (.started t (.apply change)) →
        c.svc.log[p']? = some (.started t' (.apply change')) → p < p' →
        ∃ q : Nat, p < q ∧ q < p' ∧ c.svc.log[q]? = some (.returned t (.apply change) (.ok .done)) := by
  have hinv := Relay.inOrder_of_run h
  have hrun := h.svc
  have hdone : ∀ {q t : Nat} {change : Invalidation} {res : Except Errno Reply},
      c.svc.log[q]? = some (.returned t (.apply change) res) → res = .ok .done :=
    fun hq => (hrun.history_of_returned applied hq _ rfl).1
  refine ⟨?_, ?_, ?_⟩
  · rw [← items_eq_handed, ← taken_eq_applied]
    exact hinv.items
  · intro p t change hp hbusy
    obtain ⟨q, res, hpq, hq⟩ := hinv.returned_of_free hrun hp (fun h => by cases h) hbusy
    obtain rfl := hdone hq
    exact ⟨q, hpq, hq⟩
  · intro p p' t t' change change' hp hp' hlt
    obtain ⟨q, res, hpq, hqp', hq⟩ := Relay.serial_of_run h p p' t t' _ _ hp (fun h => by cases h) hp'
      (fun h => by cases h) hlt
    obtain rfl := hdone hq
    exact ⟨q, hpq, hqp', hq⟩

/-- The inode is one that the event is about, and not one of a path in `unsent`. -/
def DroppedBy (parse : Str → Option Json) (ev : SubscriptionEvent) (unsent : List Str) (s : FsState)
    (ino : Ino) : Prop :=
  NamesInode parse ev s ino ∧ ∀ p ∈ unsent, s.paths.inodeFor p ≠ some ino

theorem unsent_of_step {d' : FsConfig} {t : Nat} {unsent : List Str}
    (hst : v.fs.Step d (.acted t .unsentPaths unsent) d') (p : Str) :
    p ∈ unsent ↔ ∃ fh h, d.st.openHandles.get fh = some h ∧ h.dirty = true ∧ h.remotePath = p := by
  cases hst with
  | act _ hm =>
    obtain ⟨-, w, hrun⟩ := hm
    cases hrun
    simp only [List.mem_map, List.mem_filter, HashMap.mem_values]
    constructor
    · rintro ⟨h, ⟨⟨fh, hfh⟩, hdirty⟩, rfl⟩
      exact ⟨fh, h, hfh, hdirty, rfl⟩
    · rintro ⟨fh, h, hfh, hdirty, rfl⟩
      exact ⟨h, ⟨⟨fh, hfh⟩, hdirty⟩, rfl⟩

theorem dropped_of_step {d' : FsConfig} {t : Nat} {ev : SubscriptionEvent} {change : Invalidation}
    {unsent : List Str} (hchange : invalidationOf v.parse ev = some change)
    (hst : v.fs.Step d (.acted t (.applyInvalidation change unsent) ()) d') (ino : Ino) :
    (DroppedBy v.parse ev unsent d.st ino → d'.st.attrs.get ino = none) ∧
      (¬ DroppedBy v.parse ev unsent d.st ino → d'.st.attrs.get ino = d.st.attrs.get ino) := by
  have hkeep : (∀ p ∈ unsent, d.st.paths.inodeFor p ≠ some ino) ↔
      ino ∉ unsent.filterMap d.st.paths.inodeFor := by
    simp [List.mem_filterMap]
  cases hst with
  | act _ hm =>
    obtain ⟨-, w, hrun⟩ := hm
    cases hrun
    rw [DroppedBy, ← concerns_iff_names hchange, hkeep]
    rcases d.st.get_invalidatedAttrs change unsent ino with ⟨hino, hnot, hnone⟩ | ⟨hor, heq⟩
    · exact ⟨fun _ => hnone, fun h => absurd ⟨hino, hnot⟩ h⟩
    · refine ⟨fun h => ?_, fun _ => heq⟩
      rcases hor with hnot | hmem
      · exact absurd h.1 hnot
      · exact absurd hmem h.2

/-- **The view follows the events**, whatever the kernel asks for meanwhile. Once the channel is empty and
nothing is being applied, an event about the view has had its moment: the handles with unsent writes were
looked up after it was handed over, and later the attributes of exactly the inodes it is about were
dropped, those of the unsent files apart. -/
theorem view_follows_events {ev : SubscriptionEvent} {goesOn : Bool}
    (h : (keepViewFresh v).Reachable (.new disk) .new c₀)
    (hev : (keepViewFresh v).Step c₀ c₁)
    (hdone : c₁.done = c₀.done ++ [⟨.onEvent ev, goesOn⟩])
    (h' : (keepViewFresh v).Run c₁ c)
    (hqueue : c.queue = []) (hidle : c.busy = none) (hview : IsViewEvent v.parse ev) :
    ∃ d₁ d₂ d₃ d₄ t change unsent,
      v.fs.Run (fun _ _ => True) c₁.svc d₁ ∧
      v.fs.Step d₁ (.acted t .unsentPaths unsent) d₂ ∧
      v.fs.Run (fun _ _ => True) d₂ d₃ ∧
      v.fs.Step d₃ (.acted t (.applyInvalidation change unsent) ()) d₄ ∧
      v.fs.Run (fun _ _ => True) d₄ c.svc ∧
      (∀ p, p ∈ unsent ↔ ∃ fh h, d₁.st.openHandles.get fh = some h ∧ h.dirty = true ∧ h.remotePath = p) ∧
      ∀ ino, (DroppedBy v.parse ev unsent d₃.st ino → d₄.st.attrs.get ino = none) ∧
        (¬ DroppedBy v.parse ev unsent d₃.st ino → d₄.st.attrs.get ino = d₃.st.attrs.get ino) := by
  obtain ⟨change, hchange⟩ : ∃ change, invalidationOf v.parse ev = some change := by
    rcases invalidationOf_cases v.parse ev with ⟨-, hinv⟩ | ⟨rs, -, -, -, -, hinv⟩ | ⟨hnot, -⟩
    · exact ⟨_, hinv⟩
    · exact ⟨_, hinv⟩
    · exact absurd hview hnot
  obtain ⟨p, p', t, o, res, hlate, -, hp, ho, hp'⟩ :=
    Relay.served_of_run h hev hdone hchange h' hqueue hidle
  obtain rfl : o = .apply change := by
    cases o with
    | apply => exact congrArg Op.apply (Option.some.inj ho)
    | _ => cases ho
  have hsvc := ((h.step hev).trans h').svc
  obtain ⟨i, j, unsent, hpi, hij, hi, hj⟩ := moments_of_applied hsvc hp hp'
  obtain ⟨d₃, d₄, hrun₃, hst₃, hrun₄, hlog₃⟩ := h'.svc.through hj (by omega)
  rw [← List.getElem?_take_of_lt hij, ← hlog₃] at hi
  obtain ⟨d₁, d₂, hrun₁, hst₁, hrun₂, -⟩ := hrun₃.through hi (by omega)
  refine ⟨d₁, d₂, d₃, d₄, t, change, unsent, hrun₁, hst₁, hrun₂, hst₃, hrun₄, ?_, fun ino => ?_⟩
  · exact unsent_of_step hst₁
  · exact dropped_of_step hchange hst₃ ino

end

/-! ## A run -/

/-- A filesystem without a token beside a daemon that may send anything. -/
def ViewEnv.sample : ViewEnv :=
  ⟨parseEventText, id, none, Reconnecting.sample.toNetEnv, ⟨none, []⟩, anyDaemon, 1, 3⟩

/-- The daemon sends the line. -/
def sendsLine (text : Str) : (keepViewFresh .sample).producer.World :=
  ⟨.sends (utf8 text ++ [newline]), rfl⟩

/-- The folder `/a` is made, and the stream is established, on which an invalidation of `/a` arrives. -/
def untilEvent : List (Relay.Move World (keepViewFresh .sample).producer.World Op) :=
  [.other (.start 0 (.mkdir rootInode (some ['a'])))] ++ List.replicate 8 (.other (.act 0 .calm)) ++
    [.other (.finish 0)] ++ List.replicate 11 (.produce (sendsLine okReplyText)) ++
    List.replicate 2 (.produce (sendsLine eventText))

/-- The invalidation is handed over by the next step of the subscription, and applied. -/
def handsOver (c₀ c₁ c : ViewConfig) : Bool :=
  (match c₀.rest with
  | .act (.onEvent ev) _ => decide (ev = .line eventText)
  | _ => false) && c.queue.isEmpty && c.busy.isNone &&
  (c₁.svc.st.attrs.get 2).isSome && (c.svc.st.attrs.get 2).isNone

theorem view_run :
    ∃ c₀ c₁ c, (keepViewFresh .sample).Reachable (.new .empty) .new c₀ ∧
      (keepViewFresh .sample).Step c₀ c₁ ∧ c₁.done = c₀.done ++ [⟨.onEvent (.line eventText), true⟩] ∧
      (keepViewFresh .sample).Run c₁ c ∧ c.queue = [] ∧ c.busy = none ∧
      c₁.svc.st.attrs.get 2 ≠ none ∧ c.svc.st.attrs.get 2 = none := by
  have hplay : ((keepViewFresh .sample).play untilEvent
      ((keepViewFresh .sample).initial (.new .empty) .new)).any (fun c₀ =>
        ((keepViewFresh .sample).move c₀ (.produce (sendsLine eventText))).any fun c₁ =>
          ((keepViewFresh .sample).play [.take 1, .work .calm, .work .calm, .finish] c₁).any fun c =>
            handsOver c₀ c₁ c) = true := by
    decide +kernel
  obtain ⟨c₀, h₀, hplay⟩ := (Option.any_eq_true ..).1 hplay
  obtain ⟨c₁, h₁, hplay⟩ := (Option.any_eq_true ..).1 hplay
  obtain ⟨c, h, hb⟩ := (Option.any_eq_true ..).1 hplay
  simp only [handsOver, Bool.and_eq_true, List.isEmpty_iff, Option.isNone_iff_eq_none] at hb
  obtain ⟨⟨⟨⟨hrest, hqueue⟩, hidle⟩, hcached⟩, hgone⟩ := hb
  have hst := Relay.step_of_move h₁
  refine ⟨c₀, c₁, c, Relay.run_of_play h₀, hst, ?_, Relay.run_of_play h, hqueue, hidle,
    Option.isSome_iff_ne_none.1 hcached, hgone⟩
  split at hrest
  · next ev k heq =>
    obtain rfl := of_decide_eq_true hrest
    simp only [Relay.move, heq] at h₁
    cases h₁
    rfl
  · cases hrest

/-- The invalidation is applied once in that run. -/
theorem view_in_order_run :
    ∃ c : ViewConfig, c.svc.st.attrs.get 2 = none ∧
      (handed c.done).filterMap (invalidationOf parseEventText) = appliedOf c.svc.log := by
  obtain ⟨c₀, c₁, c, h₀, hst, -, hrun, hqueue, -, -, hgone⟩ := view_run
  have hreach : (keepViewFresh .sample).Reachable (.new .empty) .new c := (h₀.step hst).trans hrun
  obtain ⟨hall, -⟩ := view_in_order hreach
  rw [hqueue, List.append_nil] at hall
  exact ⟨c, hgone, hall⟩

/-- The attributes of `/a` are dropped at some moment of that run. -/
theorem view_follows_events_run :
    ∃ (c₁ c : ViewConfig) (d₃ d₄ : FsConfig) (t : Nat) (change : Invalidation) (unsent : List Str),
      c₁.svc.st.attrs.get 2 ≠ none ∧ c.svc.st.attrs.get 2 = none ∧
      plainFs.Step d₃ (.acted t (.applyInvalidation change unsent) ()) d₄ ∧
      plainFs.Run (fun _ _ => True) d₄ c.svc ∧
      ∀ ino, DroppedBy parseEventText (.line eventText) unsent d₃.st ino → d₄.st.attrs.get ino = none := by
  obtain ⟨c₀, c₁, c, h₀, hst, hdone, hrun, hqueue, hidle, hcached, hgone⟩ := view_run
  have hview : IsViewEvent parseEventText (.line eventText) := by
    refine .inr (.inr ⟨_, eventText, rfl, if_pos rfl, ?_⟩)
    simp [Json.index]
  obtain ⟨d₁, d₂, d₃, d₄, t, change, unsent, -, -, -, hdrop, hrest, -, hino⟩ :=
    view_follows_events h₀ hst hdone hrun hqueue hidle hview
  exact ⟨c₁, c, d₃, d₄, t, change, unsent, hcached, hgone, hdrop, hrest, fun ino => (hino ino).1⟩

end UnidriveMount
