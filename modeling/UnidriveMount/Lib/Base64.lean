import Mathlib.Tactic.Common
import Mathlib.Data.List.Nodup

/-!
# Base64url

The encoding of bytes as text in the URL-safe base64 alphabet, without padding, and its strict decoder:
a text that is cut inside a group, or whose last digit has bits that belong to no byte, is refused. So
each text that is decoded is the encoding of what it is decoded to (`decode_eq_some_iff`).
-/

namespace Lib.Base64

/-- The digits, by value. -/
def alphabet : List Char :=
  "ABCDEFGHIJKLMNOPQRSTUVWXYZabcdefghijklmnopqrstuvwxyz0123456789-_".toList

/-- The digit of a value below 64. -/
def digit (n : Nat) : Char := alphabet.getD n 'A'

/-- The value of a digit. -/
def value (c : Char) : Option Nat := alphabet.findIdx? (· = c)

/-- Three bytes become four digits; one or two bytes at the end become two or three. -/
def encode : List UInt8 → List Char
  | [] => []
  | [a] => [digit (a.toNat / 4), digit (a.toNat % 4 * 16)]
  | [a, b] =>
    [digit (a.toNat / 4), digit (a.toNat % 4 * 16 + b.toNat / 16), digit (b.toNat % 16 * 4)]
  | a :: b :: c :: rest =>
    digit (a.toNat / 4) :: digit (a.toNat % 4 * 16 + b.toNat / 16) ::
      digit (b.toNat % 16 * 4 + c.toNat / 64) :: digit (c.toNat % 64) :: encode rest

/-- The bytes of a text. -/
def decode : List Char → Option (List UInt8)
  | [] => some []
  | [_] => none
  | [w, x] => do
    let w ← value w
    let x ← value x
    if x % 16 = 0 then some [.ofNat (w * 4 + x / 16)] else none
  | [w, x, y] => do
    let w ← value w
    let x ← value x
    let y ← value y
    if y % 4 = 0 then some [.ofNat (w * 4 + x / 16), .ofNat (x % 16 * 16 + y / 4)] else none
  | w :: x :: y :: z :: rest => do
    let w ← value w
    let x ← value x
    let y ← value y
    let z ← value z
    let bytes ← decode rest
    some (.ofNat (w * 4 + x / 16) :: .ofNat (x % 16 * 16 + y / 4) :: .ofNat (y % 4 * 64 + z) :: bytes)

theorem length_alphabet : alphabet.length = 64 := by decide

theorem alphabet_nodup : alphabet.Nodup := by decide

theorem digit_eq {n : Nat} (h : n < alphabet.length) : digit n = alphabet[n] := by
  simp [digit, h]

theorem digit_mem (n : Nat) : digit n ∈ alphabet := by
  by_cases h : n < alphabet.length
  · rw [digit_eq h]
    exact List.getElem_mem _
  · rw [digit, List.getD_eq_getElem?_getD, List.getElem?_eq_none (Nat.not_lt.1 h)]
    decide

/-- The values are those of the digits. -/
theorem value_eq_some_iff {c : Char} {n : Nat} : value c = some n ↔ n < 64 ∧ digit n = c := by
  rw [value, List.findIdx?_eq_some_iff_getElem, ← length_alphabet]
  constructor
  · rintro ⟨hn, hc, -⟩
    exact ⟨hn, (digit_eq hn).trans (of_decide_eq_true hc)⟩
  · rintro ⟨hn, hc⟩
    rw [digit_eq hn] at hc
    refine ⟨hn, decide_eq_true hc, fun j hj heq => ?_⟩
    have := (List.Nodup.getElem_inj_iff alphabet_nodup).1 ((of_decide_eq_true heq).trans hc.symm)
    omega

theorem value_digit {n : Nat} (h : n < 64) : value (digit n) = some n :=
  value_eq_some_iff.2 ⟨h, rfl⟩

/-- What is encoded is decoded. -/
theorem decode_encode (bytes : List UInt8) : decode (encode bytes) = some bytes := by
  fun_induction encode bytes with
  | case1 => rfl
  | case2 a =>
    have ha := a.toNat_lt
    simp only [decode, value_digit (show a.toNat / 4 < 64 by omega),
      value_digit (show a.toNat % 4 * 16 < 64 by omega), Option.bind_eq_bind, Option.bind_some]
    rw [if_pos (by omega), show a.toNat / 4 * 4 + a.toNat % 4 * 16 / 16 = a.toNat by omega,
      UInt8.ofNat_toNat]
  | case3 a b =>
    have ha := a.toNat_lt
    have hb := b.toNat_lt
    simp only [decode, value_digit (show a.toNat / 4 < 64 by omega),
      value_digit (show a.toNat % 4 * 16 + b.toNat / 16 < 64 by omega),
      value_digit (show b.toNat % 16 * 4 < 64 by omega), Option.bind_eq_bind, Option.bind_some]
    rw [if_pos (by omega),
      show a.toNat / 4 * 4 + (a.toNat % 4 * 16 + b.toNat / 16) / 16 = a.toNat by omega,
      show (a.toNat % 4 * 16 + b.toNat / 16) % 16 * 16 + b.toNat % 16 * 4 / 4 = b.toNat by omega,
      UInt8.ofNat_toNat, UInt8.ofNat_toNat]
  | case4 a b c rest ih =>
    have ha := a.toNat_lt
    have hb := b.toNat_lt
    have hc := c.toNat_lt
    simp only [decode, value_digit (show a.toNat / 4 < 64 by omega),
      value_digit (show a.toNat % 4 * 16 + b.toNat / 16 < 64 by omega),
      value_digit (show b.toNat % 16 * 4 + c.toNat / 64 < 64 by omega),
      value_digit (show c.toNat % 64 < 64 by omega), ih, Option.bind_eq_bind, Option.bind_some]
    rw [show a.toNat / 4 * 4 + (a.toNat % 4 * 16 + b.toNat / 16) / 16 = a.toNat by omega,
      show (a.toNat % 4 * 16 + b.toNat / 16) % 16 * 16 + (b.toNat % 16 * 4 + c.toNat / 64) / 4 =
        b.toNat by omega,
      show (b.toNat % 16 * 4 + c.toNat / 64) % 4 * 64 + c.toNat % 64 = c.toNat by omega,
      UInt8.ofNat_toNat, UInt8.ofNat_toNat, UInt8.ofNat_toNat]

theorem toNat_ofNat_of_lt {n : Nat} (h : n < 256) : (UInt8.ofNat n).toNat = n := by
  simp [Nat.mod_eq_of_lt h]

/-- Only what is encoded is decoded. -/
theorem encode_of_decode {text : List Char} {bytes : List UInt8} (h : decode text = some bytes) :
    encode bytes = text := by
  fun_induction decode text generalizing bytes with
  | case1 =>
    cases h
    rfl
  | case2 => cases h
  | case3 w x =>
    simp only [Option.bind_eq_bind, Option.bind_eq_some_iff] at h
    obtain ⟨m, hm, n, hn, h⟩ := h
    obtain ⟨hm, rfl⟩ := value_eq_some_iff.1 hm
    obtain ⟨hn, rfl⟩ := value_eq_some_iff.1 hn
    split at h
    · cases h
      rw [encode, toNat_ofNat_of_lt (by omega), show (m * 4 + n / 16) / 4 = m by omega,
        show (m * 4 + n / 16) % 4 * 16 = n by omega]
    · cases h
  | case4 w x y =>
    simp only [Option.bind_eq_bind, Option.bind_eq_some_iff] at h
    obtain ⟨m, hm, n, hn, k, hk, h⟩ := h
    obtain ⟨hm, rfl⟩ := value_eq_some_iff.1 hm
    obtain ⟨hn, rfl⟩ := value_eq_some_iff.1 hn
    obtain ⟨hk, rfl⟩ := value_eq_some_iff.1 hk
    split at h
    · cases h
      rw [encode, toNat_ofNat_of_lt (by omega), toNat_ofNat_of_lt (by omega),
        show (m * 4 + n / 16) / 4 = m by omega,
        show (m * 4 + n / 16) % 4 * 16 + (n % 16 * 16 + k / 4) / 16 = n by omega,
        show (n % 16 * 16 + k / 4) % 16 * 4 = k by omega]
    · cases h
  | case5 w x y z rest ih =>
    simp only [Option.bind_eq_bind, Option.bind_eq_some_iff] at h
    obtain ⟨m, hm, n, hn, k, hk, j, hj, bytes, hrest, h⟩ := h
    obtain ⟨hm, rfl⟩ := value_eq_some_iff.1 hm
    obtain ⟨hn, rfl⟩ := value_eq_some_iff.1 hn
    obtain ⟨hk, rfl⟩ := value_eq_some_iff.1 hk
    obtain ⟨hj, rfl⟩ := value_eq_some_iff.1 hj
    cases h
    rw [encode, ih hrest, toNat_ofNat_of_lt (by omega), toNat_ofNat_of_lt (by omega),
      toNat_ofNat_of_lt (by omega), show (m * 4 + n / 16) / 4 = m by omega,
      show (m * 4 + n / 16) % 4 * 16 + (n % 16 * 16 + k / 4) / 16 = n by omega,
      show (n % 16 * 16 + k / 4) % 16 * 4 + (k % 4 * 64 + j) / 64 = k by omega,
      show (k % 4 * 64 + j) % 64 = j by omega]

/-- **The decoder inverts the encoding**, and accepts nothing else. -/
theorem decode_eq_some_iff {text : List Char} {bytes : List UInt8} :
    decode text = some bytes ↔ encode bytes = text :=
  ⟨encode_of_decode, fun h => h ▸ decode_encode bytes⟩

/-- A text is made of the digits. -/
theorem mem_alphabet_of_mem_encode {bytes : List UInt8} {c : Char} (h : c ∈ encode bytes) :
    c ∈ alphabet := by
  fun_induction encode bytes with
  | case1 => cases h
  | case2 a =>
    simp only [List.mem_cons, List.not_mem_nil, or_false] at h
    rcases h with rfl | rfl <;> exact digit_mem _
  | case3 a b =>
    simp only [List.mem_cons, List.not_mem_nil, or_false] at h
    rcases h with rfl | rfl | rfl <;> exact digit_mem _
  | case4 a b c rest ih =>
    simp only [List.mem_cons] at h
    rcases h with rfl | rfl | rfl | rfl | h
    · exact digit_mem _
    · exact digit_mem _
    · exact digit_mem _
    · exact digit_mem _
    · exact ih h

end Lib.Base64
