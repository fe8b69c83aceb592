import UnidriveMount.Lib.Base64
import UnidriveMount.Ipc.Handshake

/-!
# The token file

What `read_token` makes of a file whose bytes can be read (`ipc_auth.rs`). A file of text fails closed:
without a token in it no connection is made (`failsClosed_iff`). Bytes that are no text do not: they
make `read_to_string` fail as for a file that is not there, and the client goes on without
authentication.
-/

namespace UnidriveMount

open Lib

/-- `std::fs::read_to_string` of a file that holds the bytes. -/
def readToString (content : List UInt8) : Option Str :=
  content.toByteArray.utf8Decode?.map Array.toList

theorem readToString_eq_some_iff {content : List UInt8} {text : Str} :
    readToString content = some text ↔ content = utf8 text := by
  constructor
  · intro h
    obtain ⟨chars, hchars, rfl⟩ := Option.map_eq_some_iff.1 h
    have hbytes := ByteArray.utf8Encode_get_utf8Decode? (b := content.toByteArray)
      (h := by rw [hchars]; rfl)
    simp only [hchars, Option.get_some] at hbytes
    exact (List.toByteArray_inj.1 hbytes).symm
  · rintro rfl
    have hencode : (utf8 text).toByteArray = text.utf8Encode := rfl
    rw [readToString, hencode, List.utf8Decode?_utf8Encode, Option.map_some]

/-- The content is the token `key`: base64url text of 32 bytes, and whitespace around it. -/
def HoldsToken (content key : List UInt8) : Prop :=
  key.length = 32 ∧ ∃ text, content = utf8 text ∧ trim text = Base64.encode key

/-- A file holds one token at most. -/
theorem HoldsToken.unique {content key key' : List UInt8} (h : HoldsToken content key)
    (h' : HoldsToken content key') : key = key' := by
  obtain ⟨-, text, htext, htrim⟩ := h
  obtain ⟨-, text', htext', htrim'⟩ := h'
  obtain rfl := utf8_injective (htext.symm.trans htext')
  have hencode : Base64.encode key = Base64.encode key' := htrim.symm.trans htrim'
  exact Option.some_injective _ (by rw [← Base64.decode_encode, hencode, Base64.decode_encode])

/-- A token file that fails closed: its token is read if it holds one, no connection is made if not,
and one that was made has passed a handshake with the token. -/
structure FailsClosed (env : NetEnv) (path : Str) (content : List UInt8) : Prop where
  key : ∀ key, HoldsToken content key →
    readToken env.crypto path (readToString content) = .ok (.key key)
  refused : (∀ key, ¬ HoldsToken content key) →
    ∃ msg, readToken env.crypto path (readToString content) = .error msg ∧
      authUnavailable <+: msg ∧ (IpcError.serverError msg).isAuthTerminal = true
  authenticated : ∀ {auth : IpcAuth} {daemon : Daemon} {s s' : NetState} {es : List (Occ NetAct.Ret)}
    {conn : Nat}, auth.tokenFile = some path →
    (∀ text, (⟨.readToken path, text⟩ : Occ NetAct.Ret) ∈ es → text = readToString content) →
    Exec (netMachine env.serde daemon) (connectAuth env auth) s es (.ok conn) s' →
    ∃ key, HoldsToken content key ∧ Handshake env key auth.profile (s'.conns conn) true

section
variable {env : NetEnv} {path : Str} {content : List UInt8}

theorem isAuthTerminal_of_prefix {msg : Str} (h : authUnavailable <+: msg) :
    (IpcError.serverError msg).isAuthTerminal = true := by
  simp only [IpcError.isAuthTerminal, List.isPrefixOf_iff_prefix.2 h, Bool.or_true]

/-- **`read_token`** of a file of text. -/
theorem readToken_text {crypto : Crypto}
    (hcodec : ∀ text bytes, crypto.decode text = some bytes ↔ Base64.encode bytes = text) (text : Str) :
    (∃ key, HoldsToken (utf8 text) key ∧ readToken crypto path (some text) = .ok (.key key)) ∨
    ((∀ key, ¬ HoldsToken (utf8 text) key) ∧
      ∃ msg, readToken crypto path (some text) = .error msg ∧ authUnavailable <+: msg) := by
  have hholds : ∀ {key}, HoldsToken (utf8 text) key →
      key.length = 32 ∧ crypto.decode (trim text) = some key := by
    rintro key ⟨hlen, text', htext, htrim⟩
    obtain rfl := utf8_injective htext
    exact ⟨hlen, (hcodec _ _).2 htrim.symm⟩
  cases hdecode : crypto.decode (trim text) with
  | none =>
    refine .inr ⟨fun key h => ?_, _, by rw [readToken, hdecode], ?_⟩
    · cases hdecode.symm.trans (hholds h).2
    · simp only [List.append_assoc]
      exact List.prefix_append ..
  | some key =>
    by_cases hlen : key.length = 32
    · refine .inl ⟨key, ⟨hlen, text, rfl, ((hcodec _ _).1 hdecode).symm⟩, ?_⟩
      simp only [readToken, hdecode, hlen, ne_eq, not_true_eq_false, if_false]
    · refine .inr ⟨fun key' h => ?_, authUnavailable ++ (": token file ".toList ++ (path ++
        " does not hold 32 bytes".toList)), ?_, List.prefix_append ..⟩
      · cases hdecode.symm.trans (hholds h).2
        exact hlen (hholds h).1
      · simp only [readToken, hdecode, ne_eq, hlen, not_false_eq_true, if_true, List.append_assoc]

/-- **The token file fails closed** exactly if it is a file of text. -/
theorem failsClosed_iff
    (hcodec : ∀ text bytes, env.crypto.decode text = some bytes ↔ Base64.encode bytes = text) :
    FailsClosed env path content ↔ ∃ text, content = utf8 text := by
  constructor
  · intro h
    by_contra hnot
    have hholds : ∀ key, ¬ HoldsToken content key := fun key ⟨_, text, htext, _⟩ => hnot ⟨text, htext⟩
    have hnone : readToString content = none :=
      Option.eq_none_iff_forall_ne_some.2 fun text htext =>
        hnot ⟨text, readToString_eq_some_iff.1 htext⟩
    obtain ⟨msg, hmsg, -⟩ := h.refused hholds
    rw [hnone] at hmsg
    cases hmsg
  · rintro ⟨text, rfl⟩
    have hsome : readToString (utf8 text) = some text := readToString_eq_some_iff.2 rfl
    have hread := @readToken_text path _ hcodec text
    rw [← hsome] at hread
    refine ⟨fun key hkey => ?_, fun hnot => ?_, fun {auth daemon s s' es conn} hfile htoken hx => ?_⟩
    · obtain ⟨key', hkey', hok⟩ | ⟨hnot, -⟩ := hread
      · rw [hok, hkey.unique hkey']
      · exact absurd hkey (hnot key)
    · obtain ⟨key, hkey, -⟩ | ⟨-, msg, hmsg, hprefix⟩ := hread
      · exact absurd hkey (hnot key)
      · exact ⟨msg, hmsg, hprefix, isAuthTerminal_of_prefix hprefix⟩
    · obtain ⟨_⟩ | ⟨token, hname, -, his, hauth⟩ := connectAuth_attempt hx
      obtain rfl := hname conn rfl
      simp only [TokenIs, hfile] at his
      obtain ⟨text', hmem, rfl⟩ := his
      rw [htoken text' (List.mem_cons_of_mem _ hmem)] at hauth
      obtain ⟨key, hkey, hok⟩ | ⟨-, msg, hmsg, -⟩ := hread
      · rw [hok] at hauth
        exact ⟨key, hkey, hauth⟩
      · rw [hmsg] at hauth
        cases hauth.2

end

/-- A client of the concrete runs that decodes tokens. -/
def NetEnv.sample : NetEnv where
  serde := .sample
  crypto := ⟨Base64.encode, Base64.decode, fun _ _ => []⟩
  fuel := 4

/-- No text has the byte `0xFF`. -/
theorem readToString_sample : readToString [0xFF] = none := by decide

theorem not_text_sample : ¬ ∃ text, [0xFF] = utf8 text := by
  rintro ⟨text, htext⟩
  cases readToString_sample.symm.trans (readToString_eq_some_iff.2 htext)

/-- The file of 43 times the letter `A` and a line break fails closed; that of the byte `0xFF` does
not. -/
theorem failsClosed_iff_sample :
    FailsClosed .sample "/t".toList (utf8 (List.replicate 43 'A' ++ ['\n'])) ∧
      ¬ FailsClosed .sample "/t".toList [0xFF] :=
  ⟨(failsClosed_iff fun _ _ => Base64.decode_eq_some_iff).2 ⟨_, rfl⟩,
    fun h => not_text_sample ((failsClosed_iff fun _ _ => Base64.decode_eq_some_iff).1 h)⟩

/-- Whether the action found no text in the token file, if it read it. -/
def findsNoToken : Occ NetAct.Ret → Bool
  | ⟨.readToken _, text⟩ => Option.isNone (α := Str) text
  | _ => true

/-- The token file is there, with the byte `0xFF` in it, and the client of a daemon that answers
`{"ok":true}` goes on: its connection is made and carried the request for the status only. -/
theorem not_failsClosed_sample :
    ¬ FailsClosed .sample "/t".toList [0xFF] ∧ (∀ key, ¬ HoldsToken [0xFF] key) ∧
    ∃ es s, Exec (netMachine Serde.sample anyDaemon) (connectAuth .sample ⟨some "/t".toList, []⟩) .new
        es (.ok 0) s ∧
      (∀ text, (⟨.readToken "/t".toList, text⟩ : Occ NetAct.Ret) ∈ es →
        text = readToString [0xFF]) ∧
      (s.conns 0).sent = Request.status.line .sample := by
  have hholds : ∀ key, ¬ HoldsToken [0xFF] key := fun key ⟨_, text, htext, _⟩ =>
    not_text_sample ⟨text, htext⟩
  have hrun : (((netMachine Serde.sample anyDaemon).exec
      (.sends (utf8 okReplyText ++ [newline])) (connectAuth .sample ⟨some "/t".toList, []⟩) .new).any
      fun x => x.1.all findsNoToken && x.2.1 = .ok 0 &&
        (x.2.2.conns 0).sent = Request.status.line .sample) = true := by
    decide +kernel
  obtain ⟨⟨es, res, s⟩, hx, hall⟩ := (Option.any_eq_true ..).1 hrun
  simp only [Bool.and_eq_true, decide_eq_true_eq, List.all_eq_true] at hall
  obtain ⟨⟨hnone, rfl⟩, hsent⟩ := hall
  have hread : ∀ text, (⟨.readToken "/t".toList, text⟩ : Occ NetAct.Ret) ∈ es →
      text = readToString [0xFF] := fun text hmem => by
    rw [readToString_sample]
    exact Option.isNone_iff_eq_none.1 (hnone _ hmem)
  have hx := Machine.exec_sound hx
  refine ⟨fun h => ?_, hholds, es, s, hx, hread, hsent⟩
  obtain ⟨key, hkey, -⟩ := h.authenticated rfl hread hx
  exact hholds key hkey

end UnidriveMount
