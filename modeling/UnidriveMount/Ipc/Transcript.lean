import UnidriveMount.Lib.Base64
import UnidriveMount.Ipc.Client

/-!
# The messages of the proofs

The proofs of the handshake are authentication codes of a message each (`ipc_auth.rs`). A message names
the direction, the length of the profile in bytes, the profile, and the nonces, between separators that
may also occur in the profile and in the daemon's nonce. It can be taken apart in one way only
(`messages_unambiguous`): the length is in digits up to the first colon and says where the profile
ends, and the other texts are base64url and contain no separator.
-/

namespace UnidriveMount

open Lib

/-! ## Taking texts apart -/

section
variable {α : Type} {c : α} {x y r t : List α}

/-- What precedes the first separator. -/
theorem eq_of_append_separator (hx : c ∉ x) (hy : c ∉ y) (h : x ++ c :: r = y ++ c :: t) :
    x = y ∧ r = t := by
  induction x generalizing y with
  | nil =>
    cases y with
    | nil => exact ⟨rfl, (List.cons.inj h).2⟩
    | cons b y =>
      obtain ⟨rfl, -⟩ := List.cons.inj h
      exact absurd (List.mem_cons_self ..) hy
  | cons a x ih =>
    rw [List.mem_cons, not_or] at hx
    cases y with
    | nil =>
      obtain ⟨rfl, -⟩ := List.cons.inj h
      exact absurd rfl hx.1
    | cons b y =>
      rw [List.mem_cons, not_or] at hy
      obtain ⟨hab, htail⟩ := List.cons.inj h
      obtain ⟨hxy, hrest⟩ := ih hx.2 hy.2 htail
      exact ⟨by rw [hab, hxy], hrest⟩

/-- What follows the last separator. -/
theorem eq_of_separator_append (hx : c ∉ x) (hy : c ∉ y) (h : r ++ c :: x = t ++ c :: y) :
    r = t ∧ x = y := by
  have hrev := congrArg List.reverse h
  simp only [List.reverse_append, List.reverse_cons, List.append_assoc, List.singleton_append] at hrev
  obtain ⟨hxy, hrt⟩ := eq_of_append_separator (by simpa using hx) (by simpa using hy) hrev
  exact ⟨List.reverse_inj.1 hrt, List.reverse_inj.1 hxy⟩

end

theorem byteLen_append (s t : Str) : byteLen (s ++ t) = byteLen s + byteLen t := by
  simp [byteLen]

/-- A text without bytes is empty. -/
theorem eq_nil_of_byteLen_eq_zero {s : Str} (h : byteLen s = 0) : s = [] := by
  cases s with
  | nil => rfl
  | cons c s =>
    have := c.utf8Size_pos
    simp only [byteLen, List.map_cons, List.sum_cons] at h
    omega

/-- The beginning of a text is determined by its number of bytes. -/
theorem eq_of_append_of_byteLen {p q r t : Str} (hlen : byteLen p = byteLen q)
    (h : p ++ r = q ++ t) : p = q ∧ r = t := by
  suffices heq : p = q by
    subst heq
    exact ⟨rfl, List.append_cancel_left h⟩
  rcases List.append_eq_append_iff.1 h with ⟨d, rfl, -⟩ | ⟨d, rfl, -⟩ <;>
  · rw [byteLen_append] at hlen
    rw [eq_nil_of_byteLen_eq_zero (s := d) (by omega), List.append_nil]

/-- A number is determined by its digits. -/
theorem natText_injective : Function.Injective natText := by
  intro m n h
  have := congrArg (fun digits => Nat.ofDigitChars 10 digits 0) h
  simpa only [natText, Nat.ofDigitChars_toDigits (b := 10) (by decide) (by decide)] using this

theorem colon_notMem_natText (n : Nat) : ':' ∉ natText n := by
  intro h
  have := Nat.isDigit_of_mem_toDigits (by decide) (by decide) h
  simp at this

/-! ## Messages -/

/-- A text that cannot be taken for more than one field of a message: one without a separator, as
base64url text is. -/
abbrev Field := {s : Str // '|' ∉ s}

/-- Nonces and proofs are fields. -/
theorem separator_notMem_encode (bytes : List UInt8) : '|' ∉ Base64.encode bytes := fun h =>
  absurd (Base64.mem_alphabet_of_mem_encode h) (by decide)

/-- What the client's proof is about. The daemon's nonce is whatever the daemon sent. -/
structure ClientTranscript : Type where
  profile : Str
  nonce : Field
  snonce : Str

/-- What the daemon's proof is about. -/
structure ServerTranscript : Type where
  profile : Str
  nonce : Field
  snonce : Str
  clientProof : Field

/-- The bytes that the client's proof authenticates. -/
def ClientTranscript.bytes (t : ClientTranscript) : List UInt8 :=
  utf8 (clientMessage t.profile t.nonce t.snonce)

/-- The bytes that the daemon's proof authenticates. -/
def ServerTranscript.bytes (t : ServerTranscript) : List UInt8 :=
  utf8 (serverMessage t.profile t.nonce t.snonce t.clientProof)

/-- The profile and the client's nonce are found behind the direction. -/
theorem eq_of_fields {p p' r r' : Str} {n n' : Field}
    (h : natText (byteLen p) ++ ':' :: (p ++ '|' :: (n ++ '|' :: r)) =
      natText (byteLen p') ++ ':' :: (p' ++ '|' :: (n' ++ '|' :: r'))) :
    p = p' ∧ n = n' ∧ r = r' := by
  obtain ⟨hdigits, h⟩ :=
    eq_of_append_separator (colon_notMem_natText _) (colon_notMem_natText _) h
  obtain ⟨hp, h⟩ := eq_of_append_of_byteLen (natText_injective hdigits) h
  obtain ⟨hn, hr⟩ := eq_of_append_separator n.2 n'.2 (List.cons.inj h).2
  exact ⟨hp, Subtype.ext hn, hr⟩

theorem clientMessage_eq (p n sn : Str) : clientMessage p n sn =
    ("unidrive-ipc-v2|client|".toList ++ scope.toList ++ ['|']) ++
      (natText (byteLen p) ++ ':' :: (p ++ '|' :: (n ++ '|' :: sn))) := by
  unfold clientMessage
  generalize "unidrive-ipc-v2|client|".toList = start
  generalize scope.toList = sc
  generalize natText (byteLen p) = digits
  simp only [List.append_assoc, List.cons_append, List.nil_append]

theorem serverMessage_eq (p n sn cp : Str) : serverMessage p n sn cp =
    ("unidrive-ipc-v2|server|".toList ++ scope.toList ++ ['|']) ++
      (natText (byteLen p) ++ ':' :: (p ++ '|' :: (n ++ '|' :: (sn ++ '|' :: cp)))) := by
  unfold serverMessage
  generalize "unidrive-ipc-v2|server|".toList = start
  generalize scope.toList = sc
  generalize natText (byteLen p) = digits
  simp only [List.append_assoc, List.cons_append, List.nil_append]

theorem ClientTranscript.bytes_injective : Function.Injective ClientTranscript.bytes := by
  intro ⟨p, n, sn⟩ ⟨p', n', sn'⟩ h
  have hmsg := utf8_injective h
  rw [clientMessage_eq, clientMessage_eq] at hmsg
  obtain ⟨rfl, rfl, rfl⟩ := eq_of_fields (List.append_cancel_left hmsg)
  rfl

theorem ServerTranscript.bytes_injective : Function.Injective ServerTranscript.bytes := by
  intro ⟨p, n, sn, cp⟩ ⟨p', n', sn', cp'⟩ h
  have hmsg := utf8_injective h
  rw [serverMessage_eq, serverMessage_eq] at hmsg
  obtain ⟨rfl, rfl, hrest⟩ := eq_of_fields (List.append_cancel_left hmsg)
  -- the daemon's nonce may contain separators, the client's proof does not
  obtain ⟨rfl, hcp⟩ := eq_of_separator_append cp.2 cp'.2 hrest
  rw [Subtype.ext hcp]

/-- The direction is read first. -/
theorem ClientTranscript.bytes_ne (t : ClientTranscript) (u : ServerTranscript) :
    t.bytes ≠ u.bytes := by
  intro h
  have hmsg := utf8_injective h
  rw [clientMessage_eq, serverMessage_eq] at hmsg
  have hdirection := (List.append_inj hmsg (by decide)).1
  exact absurd hdirection (by decide)

/-- **The messages are unambiguous**: the bytes that a proof authenticates are those of one transcript
in one direction only. -/
theorem messages_unambiguous :
    Function.Injective ClientTranscript.bytes ∧ Function.Injective ServerTranscript.bytes ∧
      ∀ (t : ClientTranscript) (u : ServerTranscript), t.bytes ≠ u.bytes :=
  ⟨ClientTranscript.bytes_injective, ServerTranscript.bytes_injective, ClientTranscript.bytes_ne⟩

/-- A proof that is accepted for two transcripts of the daemon takes a collision of the code. -/
theorem collision_of_accepted {crypto : Crypto} {key : List UInt8} {proof : Str}
    {t u : ServerTranscript} (htu : t ≠ u)
    (ht : verifyServerProof crypto key t.profile t.nonce t.snonce t.clientProof proof = true)
    (hu : verifyServerProof crypto key u.profile u.nonce u.snonce u.clientProof proof = true) :
    t.bytes ≠ u.bytes ∧ crypto.mac key t.bytes = crypto.mac key u.bytes := by
  refine ⟨fun h => htu (ServerTranscript.bytes_injective h), ?_⟩
  unfold verifyServerProof at ht hu
  cases hgot : crypto.decode proof with
  | none => simp [hgot] at ht
  | some got =>
    rw [hgot] at ht hu
    exact (of_decide_eq_true ht).trans (of_decide_eq_true hu).symm

/-- A proof of the client that is accepted as one of the daemon takes a collision of the code. -/
theorem collision_of_reflected {crypto : Crypto} {key : List UInt8} {t : ClientTranscript}
    {u : ServerTranscript} (hcodec : ∀ bytes, crypto.decode (crypto.encode bytes) = some bytes)
    (hu : verifyServerProof crypto key u.profile u.nonce u.snonce u.clientProof
      (clientProof crypto key t.profile t.nonce t.snonce) = true) :
    t.bytes ≠ u.bytes ∧ crypto.mac key t.bytes = crypto.mac key u.bytes := by
  refine ⟨t.bytes_ne u, ?_⟩
  rw [verifyServerProof, clientProof, hcodec] at hu
  exact (of_decide_eq_true hu).symm

end UnidriveMount
