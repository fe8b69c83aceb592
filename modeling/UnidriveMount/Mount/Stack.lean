import UnidriveMount.Fs.Locks
import UnidriveMount.Ipc.AtMostOnce
import UnidriveMount.Ipc.Attempts
import UnidriveMount.Ipc.Handshake
import UnidriveMount.Lib.Layers

/-!
# The whole mount

The filesystem over the reconnecting client: a request that calls the daemon performs the program of the
call, write by write and read by read, while other requests go on (`mountService`). In the model of the
filesystem alone a reply is anything; here it is what the client makes of the bytes on its connections.

A run of the whole is a run of the filesystem, and below it a sequence of calls, one for each reply the
filesystem got, the last of which may still be under way (`mount_layers`). So what was shown of the
filesystem, whatever the daemon replies, and of sequences of calls holds of the whole: a request that
changes something sends its verb at most once (`mount_sendsOnce`) and succeeds only if the daemon said
so (`mount_acknowledged`), and no verb is sent on a connection before its handshake
(`mount_authentic`).
-/

namespace UnidriveMount

open Lib
open Lib.Prog (fail only_perform)

/-! ## The layers -/

/-- The action waits for a reply. -/
def Act.isReply : Act → Bool
  | reply _ => true
  | _ => false

/-- Replies are what the client's calls return. -/
def fsLayer (cl : Reconnecting) : Layer fsMachine NetAct.Ret Stop where
  remote := Act.isReply
  impl
    | .reply verb => resultOf (call cl verb)
    | _ => fail .running
  answer
    | .reply verb, r, (w : World) => { w with reply := Function.update w.reply verb r }
    | _, _, w => w
  run_answer a r w s ha := by
    cases a with
    | reply verb => exact Function.update_self ..
    | _ => cases ha

/-- What an action of the whole mount answers. -/
abbrev MountAnswer := Layered.Answer Act.Ret NetAct.Ret

/-- A configuration of the whole mount. -/
abbrev MountConfig := Config MountAnswer (FsState × NetState) Errno Op Reply

/-- An entry of the log of the whole mount. -/
abbrev MountEvent := Event MountAnswer Errno Op Reply

/-- The filesystem over a client, against a daemon. -/
def mountService (nfc : Str → Str) (cacheRoot : Option Str) (cl : Reconnecting) (daemon : Daemon) :
    Service (Layered Act.Ret NetAct) MountAnswer (FsState × NetState) Errno Op Reply :=
  Layer.service (S := fsService nfc cacheRoot) (fsLayer cl) (netMachine cl.serde daemon)

/-- What the filesystem did. -/
def fsLog (c : MountConfig) : List FsEvent := c.log.filterMap Event.above

/-- What the client did. -/
def netLog (c : MountConfig) : List (Occ NetAct.Ret) := c.log.filterMap Event.below

/-- The replies the filesystem got. -/
def repliesOf (log : List FsEvent) : List (Occ Act.Ret) := log.filterMap (Event.remote Act.isReply)

/-- How a call ended that returned `r`. -/
def NetReply.ofResult (verb : Verb) : Except IpcError verb.Reply → Except Stop NetReply
  | .ok r => .ok (.reply verb r)
  | .error e => .error (.failed e)

/-- The reply is what the call returned. -/
def RepliedBy (u : Occ Act.Ret) (x : NetServed) : Prop :=
  ∃ (verb : Verb) (r : Except IpcError verb.Reply), u = ⟨.reply verb, r⟩ ∧ x.req = .call verb ∧
    x.res = NetReply.ofResult verb r

/-- The configuration `c` seen as `d` by the filesystem. After the calls `l₀` the client made the calls
`l`, the last first, which led to the state `s`; since then it has performed the occurrences `es`, which
belong to the call that is under way, if there is one. -/
structure MountLayers (cl : Reconnecting) (daemon : Daemon) (l₀ : List NetServed) (c : MountConfig)
    (d : FsConfig) (l : List NetServed) (s : NetState) (es : List (Occ NetAct.Ret)) : Prop where
  log : fsLog c = d.log
  st : c.st.1 = d.st
  calls : (netService cl daemon).Sequence Returned .new (l ++ l₀) s
  replies : List.Forall₂ RepliedBy (repliesOf d.log) l.reverse
  below : netLog c = l.reverse.flatMap Served.occs ++ es
  underway : ∀ t verb, d.WaitsFor t verb →
    ∃ q, Reaches (netMachine cl.serde daemon) (resultOf (call cl verb)) s es q c.st.2
  atRest : (∀ t verb, ¬ d.WaitsFor t verb) → es = [] ∧ c.st.2 = s

section
variable {cl : Reconnecting} {daemon : Daemon} {l₀ : List NetServed} {s s' : NetState}
  {us : List (Occ Act.Ret)} {es : List (Occ NetAct.Ret)}

theorem ofResult_of_seen {verb : Verb} {r : Except Stop verb.Reply} {x : Except IpcError verb.Reply}
    (h : Except.ok x = SeenAs r) : r.map (NetReply.reply verb) = NetReply.ofResult verb x := by
  match r with
  | .ok _ | .error (.failed _) =>
    cases h
    rfl
  | .error .running => cases h

/-- Answers of the client are a sequence of calls. -/
theorem sequence_of_realizes
    (hr : Realizes (netMachine cl.serde daemon) (fsLayer cl).impl (fun _ _ _ => True) s us es s')
    (hus : ∀ u ∈ us, u.1.isReply = true) (h₀ : (netService cl daemon).Sequence Returned .new l₀ s) :
    ∃ l, (netService cl daemon).Sequence Returned .new (l ++ l₀) s' ∧
      List.Forall₂ RepliedBy us l.reverse ∧ es = l.reverse.flatMap Served.occs := by
  induction hr generalizing l₀ with
  | nil => exact ⟨[], h₀, .nil, rfl⟩
  | @cons a x s s₁ s' us es₁ es₂ hx _ _ ih =>
    have ha := hus ⟨a, x⟩ (List.mem_cons_self ..)
    cases a with
    | reply verb =>
      obtain ⟨r, hcall, hseen⟩ := exec_resultOf hx
      have hreturned : Returned l₀ s ⟨.call verb, es₁, NetReply.ofResult verb x⟩ := by
        cases x <;> exact nofun
      have hseq₁ : (netService cl daemon).Sequence Returned .new
          (⟨.call verb, es₁, NetReply.ofResult verb x⟩ :: l₀) s₁ :=
        .cons h₀ (exec_map_iff.2 ⟨r, hcall, (ofResult_of_seen hseen).symm⟩) hreturned
      obtain ⟨l, hseq, hreplies, rfl⟩ := ih (fun u hu => hus u (List.mem_cons_of_mem _ hu)) hseq₁
      refine ⟨l ++ [⟨.call verb, es₁, NetReply.ofResult verb x⟩], ?_, ?_, ?_⟩
      · simpa using hseq
      · rw [List.reverse_append, List.reverse_singleton, List.singleton_append]
        exact .cons ⟨verb, x, rfl, rfl, rfl⟩ hreplies
      · simp
    | _ => cases ha

end

section
variable {nfc : Str → Str} {cacheRoot : Option Str} {cl : Reconnecting} {daemon : Daemon} {disk : Disk}
  {l₀ : List NetServed} {t₀ : NetState} {c : MountConfig} {d : FsConfig}
  {ok : MountConfig → MountEvent → Prop}

/-- What a call under way has done is the beginning of a call. -/
theorem MountLayers.completes {l : List NetServed} {s : NetState} {es : List (Occ NetAct.Ret)} {t : Nat}
    {verb : Verb} (h : MountLayers cl daemon l₀ c d l s es) (hwaits : FsConfig.WaitsFor d t verb) :
    ∃ more res s', Exec (netMachine cl.serde daemon) (call cl verb) s (es ++ more) res s' := by
  obtain ⟨q, hreach⟩ := h.underway t verb hwaits
  obtain ⟨more, res, s', hx⟩ := hreach.complete (fun _ _ => rfl) (NetWorld.sends [])
  obtain ⟨r, hcall, -⟩ := exec_resultOf hx
  exact ⟨more, r, s', hcall⟩

/-- At most one request waits for a reply. -/
theorem atMostOne_reply {ok : FsConfig → FsEvent → Prop}
    (h : (fsService nfc cacheRoot).Run ok (.initial (.new disk)) d) :
    d.AtMostOne Act.isReply := by
  intro t u o o' a a' k k' ht hu ha ha'
  cases a with
  | reply verb =>
    cases a' with
    | reply verb' => exact (run_oneCaller h).one t u verb verb' ⟨o, k, ht⟩ ⟨o', k', hu⟩
    | _ => cases ha'
  | _ => cases ha

/-- A configuration of the whole mount that is seen as one of the filesystem has its layers. -/
theorem layers_of_tracks {s : NetState} {es : List (Occ NetAct.Ret)}
    (h₀ : (netService cl daemon).Sequence Returned .new l₀ t₀)
    (htracks : Tracks (S := fsService nfc cacheRoot) (fsLayer cl) (netMachine cl.serde daemon) t₀ c d s es) :
    ∃ l, MountLayers cl daemon l₀ c d l s es := by
  obtain ⟨es₀, hbelow, hreal⟩ := htracks.done
  have hremote : ∀ u ∈ repliesOf d.log, u.1.isReply = true := by
    intro u hu
    obtain ⟨e, -, he⟩ := List.mem_filterMap.1 hu
    cases e with
    | started | returned => cases he
    | acted t a x =>
      simp only [Event.remote, Option.ite_none_right_eq_some, Option.some.injEq] at he
      obtain ⟨ha, rfl⟩ := he
      exact ha
  obtain ⟨l, hseq, hreplies, rfl⟩ := sequence_of_realizes hreal hremote h₀
  refine ⟨l, htracks.log, htracks.st, hseq, hreplies, hbelow, ?_, ?_⟩
  · rintro t verb ⟨o, k, hlive⟩
    obtain ⟨q, -, hreach⟩ := htracks.there t o (.reply verb) k hlive rfl
    exact ⟨q, hreach⟩
  · intro hnone
    refine htracks.quiet fun t o a k hlive => ?_
    cases a with
    | reply verb => exact absurd ⟨o, k, hlive⟩ (hnone t verb)
    | _ => rfl

/-- A run of the whole mount has its layers. -/
theorem layers_of_run (h₀ : (netService cl daemon).Sequence Returned .new l₀ t₀)
    (h : (mountService nfc cacheRoot cl daemon).Run ok (.initial (.new disk, t₀)) c) :
    ∃ d l s es, (fsService nfc cacheRoot).Run (fun _ _ => True) (.initial (.new disk)) d ∧
      MountLayers cl daemon l₀ c d l s es := by
  obtain ⟨d, s, es, hrun, htracks⟩ := Layer.refines (fun d hd => atMostOne_reply hd) h
  obtain ⟨l, hlayers⟩ := layers_of_tracks h₀ htracks
  exact ⟨d, l, s, es, hrun, hlayers⟩

/-- **A run of the whole mount is a run of the filesystem over a sequence of calls.** What the filesystem
did is a run of its own, with the same state; its replies are what the calls `l` returned, one after the
other; and what went over the connections are these calls and the beginning of one more, at most, which
is there only while a request waits for its reply. -/
theorem mount_layers (h₀ : (netService cl daemon).Sequence Returned .new l₀ t₀)
    (h : (mountService nfc cacheRoot cl daemon).Run ok (.initial (.new disk, t₀)) c) :
    ∃ d l s es, (fsService nfc cacheRoot).Run (fun _ _ => True) (.initial (.new disk)) d ∧
      d.log = fsLog c ∧ d.st = c.st.1 ∧
      (netService cl daemon).Sequence Returned .new (l ++ l₀) s ∧
      List.Forall₂ RepliedBy (repliesOf (fsLog c)) l.reverse ∧
      netLog c = l.reverse.flatMap Served.occs ++ es ∧
      (es ≠ [] → ∃ t verb, FsConfig.WaitsFor d t verb ∧
        ∃ more res s', Exec (netMachine cl.serde daemon) (call cl verb) s (es ++ more) res s') := by
  obtain ⟨d, l, s, es, hrun, hlayers⟩ := layers_of_run h₀ h
  refine ⟨d, l, s, es, hrun, hlayers.log.symm, hlayers.st.symm, hlayers.calls, ?_, hlayers.below, ?_⟩
  · rw [hlayers.log]
    exact hlayers.replies
  · intro hes
    by_contra hnone
    refine hes (hlayers.atRest fun t verb hwaits => hnone ⟨t, verb, hwaits, ?_⟩).1
    exact hlayers.completes hwaits

end

/-! ## A run -/

/-- The outside of the run: everything succeeds, and the daemon sends its proof and ok. -/
def mountCalm : World × NetWorld := (.calm, .vector)

/-- The event is the success of a request of the kernel. -/
def MountEvent.succeeds (o : Op) : MountEvent → Bool
  | .returned _ o' (.ok _) => o' = o
  | _ => false

/-- A client with a token makes its connection, and a `mkdir` of the kernel succeeds. -/
theorem mkdir_served :
    ∃ l₀ t₀ c, (netService (.vector 4) answering).Sequence Returned .new l₀ t₀ ∧
      (mountService id none (.vector 4) answering).Run (fun _ _ => True)
        (.initial (.new .empty, t₀)) c ∧
      c.log.any (MountEvent.succeeds (.mkdir rootInode (some ['a']))) = true ∧
      (netLog c).any (writesRequest (.mkdir ['/', 'a'])) = true := by
  have hplay : ((netService (.vector 4) answering).serveAll (fun _ _ x => x.res.isOk)
      [(.connect, mountCalm.2)] [] .new).any (fun x =>
        ((mountService id none (.vector 4) answering).play (fun _ _ => true)
          (.start 0 (.mkdir rootInode (some ['a'])) :: List.replicate 15 (.act 0 mountCalm) ++ [.finish 0])
          (.initial (.new .empty, x.2))).any fun c =>
            c.log.any (MountEvent.succeeds (.mkdir rootInode (some ['a']))) &&
              (netLog c).any (writesRequest (.mkdir ['/', 'a']))) = true := by
    decide +kernel
  obtain ⟨⟨l₀, t₀⟩, hs, hc⟩ := (Option.any_eq_true ..).1 hplay
  obtain ⟨c, hrun, hlog⟩ := (Option.any_eq_true ..).1 hc
  rw [Bool.and_eq_true] at hlog
  refine ⟨l₀, t₀, c, ?_, ?_, hlog⟩
  · exact Service.sequence_of_serveAll (fun _ _ x hx h => by rw [h] at hx; cases hx) .nil hs
  · exact Service.run_of_play .refl hrun fun _ _ _ _ => trivial

/-- The layers of that run. -/
theorem mount_layers_mkdir :
    ∃ l₀ c d l s es, (netLog c).any (writesRequest (.mkdir ['/', 'a'])) = true ∧
      plainFs.Run (fun _ _ => True) (.initial (.new .empty)) d ∧ d.log = fsLog c ∧
      (netService (.vector 4) answering).Sequence Returned .new (l ++ l₀) s ∧
      netLog c = l.reverse.flatMap Served.occs ++ es := by
  obtain ⟨l₀, t₀, c, hseq, hrun, -, hwrites⟩ := mkdir_served
  obtain ⟨d, l, s, es, hfs, hlog, -, hcalls, -, hnet, -⟩ := mount_layers hseq hrun
  exact ⟨l₀, c, d, l, s, es, hwrites, hfs, hlog, hcalls, hnet⟩

end UnidriveMount
