import UnidriveMount.Ipc.Transcript

/-!
# The oldest kernel

`kernel_floor.rs`: the mount needs Linux 6.9. The kernel's release begins with two numbers and a dot
between them (`NamesVersion`), and the check passes for exactly the releases whose numbers are at least
those (`kernel_floor_iff`).
-/

namespace UnidriveMount

/-! ## The check -/

/-- `KernelFloorError`. -/
inductive KernelFloorError : Type where
  | tooOld (found : Str)
  | unparseable (raw : Str)
  | ioError
  deriving DecidableEq, Repr

/-- `u32::from_str`. -/
def parseU32 (s : Str) : Option Nat :=
  let digits := match s with
    | '+' :: digits => digits
    | _ => s
  if digits ≠ [] ∧ digits.all Char.isDigit = true ∧ Nat.ofDigitChars 10 digits 0 < 2 ^ 32 then
    some (Nat.ofDigitChars 10 digits 0)
  else none

/-- `parse_major_minor`. -/
def parseMajorMinor (raw : Str) : Option (Nat × Nat) := do
  match (raw.takeWhile (· ≠ '-')).splitOn '.' with
  | majorText :: minorText :: _ =>
    let major ← parseU32 majorText
    let minor ← parseU32 minorText
    return (major, minor)
  | _ => none

/-- The pair is below `(6, 9)`. -/
def BelowFloor (version : Nat × Nat) : Prop := version.1 < 6 ∨ version.1 = 6 ∧ version.2 < 9

instance (version : Nat × Nat) : Decidable (BelowFloor version) := inferInstanceAs (Decidable (_ ∨ _))

/-- `check_kernel_floor`, of the kernel's release, if it could be read. -/
def checkKernelFloor (osrelease : Option Str) : Except KernelFloorError Unit :=
  match osrelease with
  | none => .error .ioError
  | some raw =>
    let trimmed := trim raw
    match parseMajorMinor trimmed with
    | none => .error (.unparseable trimmed)
    | some version => if BelowFloor version then .error (.tooOld trimmed) else .ok ()

/-! ## Numerals -/

/-- The text is a number of 32 bits. -/
def Numeral (s : Str) (n : Nat) : Prop :=
  ∃ digits : Str, (s = digits ∨ s = '+' :: digits) ∧ digits ≠ [] ∧ (∀ c ∈ digits, c.isDigit = true) ∧
    Nat.ofDigitChars 10 digits 0 = n ∧ n < 2 ^ 32

theorem parseU32_eq_some {s : Str} {n : Nat} : parseU32 s = some n ↔ Numeral s n := by
  have hdigits : ∀ digits : Str, (digits ≠ [] ∧ digits.all Char.isDigit = true ∧
      Nat.ofDigitChars 10 digits 0 < 2 ^ 32 ∧ Nat.ofDigitChars 10 digits 0 = n) ↔
      (digits ≠ [] ∧ (∀ c ∈ digits, c.isDigit = true) ∧ Nat.ofDigitChars 10 digits 0 = n ∧ n < 2 ^ 32) := by
    intro digits
    rw [List.all_eq_true]
    constructor
    · rintro ⟨hne, hall, hlt, rfl⟩
      exact ⟨hne, hall, rfl, hlt⟩
    · rintro ⟨hne, hall, rfl, hlt⟩
      exact ⟨hne, hall, hlt, rfl⟩
  unfold parseU32
  dsimp only
  split
  · next digits =>
    rw [Option.ite_none_right_eq_some, Option.some.injEq, and_assoc, and_assoc, hdigits]
    constructor
    · intro h
      exact ⟨digits, .inr rfl, h⟩
    · rintro ⟨ds, heq | heq, h⟩
      · -- a plus sign is no digit
        subst heq
        have := h.2.1 '+' (List.mem_cons_self ..)
        simp at this
      · cases heq
        exact h
  · next hplus =>
    rw [Option.ite_none_right_eq_some, Option.some.injEq, and_assoc, and_assoc, hdigits]
    constructor
    · intro h
      exact ⟨s, .inl rfl, h⟩
    · rintro ⟨ds, rfl | rfl, h⟩
      · exact h
      · exact absurd rfl (hplus ds)

theorem Numeral.notMem {s : Str} {n : Nat} (h : Numeral s n) {c : Char} (hc : c.isDigit = false)
    (hplus : c ≠ '+') : c ∉ s := by
  obtain ⟨digits, hs, -, hall, -⟩ := h
  have hnot : c ∉ digits := fun hmem => by
    have := hall c hmem
    simp [hc] at this
  rcases hs with rfl | rfl
  · exact hnot
  · simp [hplus, hnot]

/-- A number is written with its digits. -/
theorem numeral_natText {n : Nat} (h : n < 2 ^ 32) : Numeral (natText n) n := by
  refine ⟨natText n, .inl rfl, Nat.toDigits_ne_nil, fun c hc => ?_, Nat.ofDigitChars_ten_toDigits, h⟩
  exact Nat.isDigit_of_mem_toDigits (by decide) (by decide) hc

/-! ## Versions -/

/-- The release begins with a version: two numbers with a dot between them, up to a dot, a dash or the
end. -/
def NamesVersion (release : Str) (version : Nat × Nat) : Prop :=
  ∃ major minor rest : Str, release = major ++ '.' :: (minor ++ rest) ∧ Numeral major version.1 ∧
    Numeral minor version.2 ∧ (rest = [] ∨ rest.head? = some '.' ∨ rest.head? = some '-')

/-- A text up to a separator, and what follows. -/
theorem exists_upTo (c : Char) (s : Str) :
    ∃ a r, s = a ++ r ∧ c ∉ a ∧ (r = [] ∨ r.head? = some c) := by
  induction s with
  | nil => exact ⟨[], [], rfl, by simp, .inl rfl⟩
  | cons x s ih =>
    by_cases hx : x = c
    · exact ⟨[], x :: s, rfl, by simp, .inr (by simp [hx])⟩
    · obtain ⟨a, r, rfl, ha, hr⟩ := ih
      exact ⟨x :: a, r, rfl, by simp [Ne.symm hx, ha], hr⟩

theorem splitOn_upTo {c : Char} {a : Str} (ha : c ∉ a) (r : Str) :
    a.splitOn c = [a] ∧ (a ++ c :: r).splitOn c = a :: r.splitOn c := by
  have hall : ∀ x ∈ a, (x == c) = false := by
    intro x hx
    simp only [beq_eq_false_iff_ne, ne_eq]
    rintro rfl
    exact ha hx
  simp only [List.splitOn_eq_splitOnP]
  exact ⟨List.splitOnP_eq_singleton hall, List.splitOnP_append_cons_of_forall_mem hall c (by simp) r⟩

theorem takeWhile_upTo {c : Char} {a : Str} (ha : c ∉ a) (r : Str) :
    (a ++ r).takeWhile (· ≠ c) = a ++ r.takeWhile (· ≠ c) := by
  refine List.takeWhile_append_of_pos fun x hx => decide_eq_true ?_
  rintro rfl
  exact ha hx

theorem parseMajorMinor_eq_some {release : Str} {version : Nat × Nat} :
    parseMajorMinor release = some version ↔ NamesVersion release version := by
  obtain ⟨n, m⟩ := version
  constructor
  · intro h
    obtain ⟨head, tail, rfl, hhead, htail⟩ := exists_upTo '-' release
    have htaken : (head ++ tail).takeWhile (· ≠ '-') = head := by
      rw [takeWhile_upTo hhead]
      rcases htail with rfl | htail
      · simp
      · obtain ⟨t, rfl⟩ := List.head?_eq_some_iff.1 htail
        simp
    obtain ⟨major, r, rfl, hmajor, hr⟩ := exists_upTo '.' head
    rw [parseMajorMinor, htaken] at h
    rcases hr with rfl | hr
    · rw [List.append_nil, (splitOn_upTo hmajor []).1] at h
      cases h
    · obtain ⟨r, rfl⟩ := List.head?_eq_some_iff.1 hr
      rw [(splitOn_upTo hmajor r).2] at h
      obtain ⟨minor, more, rfl, hminor, hmore⟩ := exists_upTo '.' r
      have hfirst : ∃ l, (minor ++ more).splitOn '.' = minor :: l := by
        rcases hmore with rfl | hmore
        · exact ⟨[], by rw [List.append_nil, (splitOn_upTo hminor []).1]⟩
        · obtain ⟨more, rfl⟩ := List.head?_eq_some_iff.1 hmore
          exact ⟨_, (splitOn_upTo hminor more).2⟩
      obtain ⟨l, hfirst⟩ := hfirst
      rw [hfirst] at h
      simp only [Option.bind_eq_bind, Option.bind_eq_some_iff, Option.pure_def, Option.some.injEq,
        Prod.mk.injEq, parseU32_eq_some] at h
      obtain ⟨_, hn, _, hm, rfl, rfl⟩ := h
      refine ⟨major, minor, more ++ tail, by simp, hn, hm, ?_⟩
      rcases hmore with rfl | hmore
      · exact htail.imp_right .inr
      · obtain ⟨more, rfl⟩ := List.head?_eq_some_iff.1 hmore
        exact .inr (.inl rfl)
  · rintro ⟨major, minor, rest, rfl, hn, hm, hrest⟩
    have hmajor := hn.notMem (c := '.') (by decide) (by decide)
    have hminor := hm.notMem (c := '.') (by decide) (by decide)
    have hdash : '-' ∉ major ++ '.' :: minor := by
      simp [hn.notMem (c := '-') (by decide) (by decide), hm.notMem (c := '-') (by decide) (by decide)]
    have htaken : (major ++ '.' :: (minor ++ rest)).takeWhile (· ≠ '-') =
        major ++ '.' :: (minor ++ rest.takeWhile (· ≠ '-')) := by
      have := takeWhile_upTo hdash rest
      simpa using this
    have hfirst : ∃ l, (minor ++ rest.takeWhile (· ≠ '-')).splitOn '.' = minor :: l := by
      rcases hrest with rfl | hrest | hrest
      · exact ⟨[], by simp [(splitOn_upTo hminor []).1]⟩
      · obtain ⟨r, rfl⟩ := List.head?_eq_some_iff.1 hrest
        exact ⟨_, by simpa using (splitOn_upTo hminor _).2⟩
      · obtain ⟨r, rfl⟩ := List.head?_eq_some_iff.1 hrest
        exact ⟨[], by simp [(splitOn_upTo hminor []).1]⟩
    obtain ⟨l, hfirst⟩ := hfirst
    rw [parseMajorMinor, htaken, (splitOn_upTo hmajor _).2, hfirst]
    simp [parseU32_eq_some.2 hn, parseU32_eq_some.2 hm]

/-! ## The verdict -/

/-- What the check says about a release. -/
inductive KernelVerdict (release : Str) : Except KernelFloorError Unit → Prop where
  | passes {version : Nat × Nat} (h : NamesVersion release version) (hfloor : ¬ BelowFloor version) :
      KernelVerdict release (.ok ())
  | tooOld {version : Nat × Nat} (h : NamesVersion release version) (hbelow : BelowFloor version) :
      KernelVerdict release (.error (.tooOld release))
  | unparseable (h : ∀ version, ¬ NamesVersion release version) :
      KernelVerdict release (.error (.unparseable release))

/-- **The check passes for the releases from 6.9 on**, and says of every other that it is too old, or that
it names no version. -/
theorem kernel_floor_iff {raw : Str} {res : Except KernelFloorError Unit} :
    checkKernelFloor (some raw) = res ↔ KernelVerdict (trim raw) res := by
  unfold checkKernelFloor
  dsimp only
  constructor
  · rintro rfl
    cases hparse : parseMajorMinor (trim raw) with
    | none =>
      refine .unparseable fun version h => ?_
      cases hparse.symm.trans (parseMajorMinor_eq_some.2 h)
    | some version =>
      have hnames := parseMajorMinor_eq_some.1 hparse
      dsimp only
      split
      · next hbelow => exact .tooOld hnames hbelow
      · next hfloor => exact .passes hnames hfloor
  · intro h
    cases h with
    | passes h hfloor =>
      rw [parseMajorMinor_eq_some.2 h]
      exact if_neg hfloor
    | tooOld h hbelow =>
      rw [parseMajorMinor_eq_some.2 h]
      exact if_pos hbelow
    | unparseable h =>
      cases hparse : parseMajorMinor (trim raw) with
      | none => rfl
      | some version => exact absurd (parseMajorMinor_eq_some.1 hparse) (h version)

/-- A release as kernels have it names its version. -/
theorem namesVersion_of_natText {major minor : Nat} (hmajor : major < 2 ^ 32) (hminor : minor < 2 ^ 32)
    {rest : Str} (hrest : rest = [] ∨ rest.head? = some '.' ∨ rest.head? = some '-') :
    NamesVersion (natText major ++ '.' :: (natText minor ++ rest)) (major, minor) :=
  ⟨natText major, natText minor, rest, rfl, numeral_natText hmajor, numeral_natText hminor, hrest⟩

example : checkKernelFloor (some "6.10.2-arch1-1\n".toList) = .ok () := by decide

end UnidriveMount
