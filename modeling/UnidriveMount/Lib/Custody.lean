import Mathlib.Tactic.Common

/-!
# Resources with one holder each

Resources are taken up, opened, handed on and closed by holders, each of which has one at a time.
`Custody` says that no resource has two holders and that the open ones are those a holder has open:
`hold x` is what the holder `x` has, with whether it is open (one that was only taken up is not).
Every lemma is a step that keeps this, whatever the holders are.
-/

namespace Lib

variable {ι ρ : Type} {hold hold' : ι → Option (ρ × Bool)} {isOpen isOpen' : ρ → Prop}

/-- No resource has two holders, and the open resources are those that a holder has open. -/
structure Custody (hold : ι → Option (ρ × Bool)) (isOpen : ρ → Prop) : Prop where
  unique : ∀ {x y : ι} {r : ρ} {b b' : Bool}, hold x = some (r, b) → hold y = some (r, b') → x = y
  open_iff : ∀ {r : ρ}, isOpen r ↔ ∃ x, hold x = some (r, true)

namespace Custody

variable {x y : ι} {r : ρ} {b : Bool}

/-- A step that concerns no resource. -/
theorem congr (h : Custody hold isOpen) (hhold : ∀ x, hold' x = hold x)
    (hopen : ∀ r, isOpen' r ↔ isOpen r) : Custody hold' isOpen' where
  unique hx hy := h.unique ((hhold _).symm.trans hx) ((hhold _).symm.trans hy)
  open_iff {r} := (hopen r).trans (h.open_iff.trans (exists_congr fun x => by rw [hhold x]))

/-- A holder without a resource takes up one that nobody holds, open or not. -/
theorem take (h : Custody hold isOpen) (hx : hold x = none) (hx' : hold' x = some (r, b))
    (hrest : ∀ y, y ≠ x → hold' y = hold y) (hfree : ∀ y b', hold y ≠ some (r, b'))
    (hopen : ∀ r', isOpen' r' ↔ isOpen r' ∨ (r' = r ∧ b = true)) : Custody hold' isOpen' where
  unique {y z r' b₁ b₂} hy hz := by
    by_cases hyx : y = x <;> by_cases hzx : z = x
    · exact hyx.trans hzx.symm
    · subst hyx
      cases hx'.symm.trans hy
      exact absurd ((hrest z hzx).symm.trans hz) (hfree z _)
    · subst hzx
      cases hx'.symm.trans hz
      exact absurd ((hrest y hyx).symm.trans hy) (hfree y _)
    · exact h.unique ((hrest y hyx).symm.trans hy) ((hrest z hzx).symm.trans hz)
  open_iff {r'} := by
    rw [hopen, h.open_iff]
    constructor
    · rintro (⟨y, hy⟩ | ⟨rfl, rfl⟩)
      · have hyx : y ≠ x := fun heq => by cases hx.symm.trans (heq ▸ hy)
        exact ⟨y, (hrest y hyx).trans hy⟩
      · exact ⟨x, hx'⟩
    · rintro ⟨y, hy⟩
      by_cases hyx : y = x
      · subst hyx
        cases hx'.symm.trans hy
        exact .inr ⟨rfl, rfl⟩
      · exact .inl ⟨y, (hrest y hyx).symm.trans hy⟩

/-- A resource is opened for its holder. -/
theorem opened (h : Custody hold isOpen) (hx : hold x = some (r, b)) (hx' : hold' x = some (r, true))
    (hrest : ∀ y, y ≠ x → hold' y = hold y) (hopen : ∀ r', isOpen' r' ↔ isOpen r' ∨ r' = r) :
    Custody hold' isOpen' where
  unique {y z r' b₁ b₂} hy hz := by
    have hold_of : ∀ {y : ι} {r' : ρ} {b₁ : Bool}, hold' y = some (r', b₁) →
        ∃ b₂, hold y = some (r', b₂) := by
      intro y r' b₁ hy
      by_cases hyx : y = x
      · subst hyx
        cases hx'.symm.trans hy
        exact ⟨b, hx⟩
      · exact ⟨b₁, (hrest y hyx).symm.trans hy⟩
    obtain ⟨_, hy⟩ := hold_of hy
    obtain ⟨_, hz⟩ := hold_of hz
    exact h.unique hy hz
  open_iff {r'} := by
    rw [hopen, h.open_iff]
    constructor
    · rintro (⟨y, hy⟩ | rfl)
      · by_cases hyx : y = x
        · subst hyx
          cases hx.symm.trans hy
          exact ⟨y, hx'⟩
        · exact ⟨y, (hrest y hyx).trans hy⟩
      · exact ⟨x, hx'⟩
    · rintro ⟨y, hy⟩
      by_cases hyx : y = x
      · subst hyx
        cases hx'.symm.trans hy
        exact .inr rfl
      · exact .inl ⟨y, (hrest y hyx).symm.trans hy⟩

/-- A holder lets go of what it has, and it is closed if it was open. -/
theorem close (h : Custody hold isOpen) (hx : hold x = some (r, b)) (hx' : hold' x = none)
    (hrest : ∀ y, y ≠ x → hold' y = hold y) (hopen : ∀ r', isOpen' r' ↔ isOpen r' ∧ r' ≠ r) :
    Custody hold' isOpen' where
  unique {y z r' b₁ b₂} hy hz := by
    have ne : ∀ {y : ι} {r' : ρ} {b₁ : Bool}, hold' y = some (r', b₁) → y ≠ x := by
      rintro y r' b₁ hy rfl
      cases hx'.symm.trans hy
    exact h.unique ((hrest y (ne hy)).symm.trans hy) ((hrest z (ne hz)).symm.trans hz)
  open_iff {r'} := by
    rw [hopen, h.open_iff]
    constructor
    · rintro ⟨⟨y, hy⟩, hr⟩
      have hyx : y ≠ x := by
        rintro rfl
        cases hx.symm.trans hy
        exact hr rfl
      exact ⟨y, (hrest y hyx).trans hy⟩
    · rintro ⟨y, hy⟩
      have hyx : y ≠ x := by
        rintro rfl
        cases hx'.symm.trans hy
      have hy' := (hrest y hyx).symm.trans hy
      refine ⟨⟨y, hy'⟩, ?_⟩
      rintro rfl
      exact hyx (h.unique hy' hx)

/-- A holder lets go of something that was not opened. -/
theorem abandon (h : Custody hold isOpen) (hx : hold x = some (r, false)) (hx' : hold' x = none)
    (hrest : ∀ y, y ≠ x → hold' y = hold y) (hopen : ∀ r', isOpen' r' ↔ isOpen r') :
    Custody hold' isOpen' := by
  refine h.close hx hx' hrest fun r' => (hopen r').trans ⟨fun hr' => ⟨hr', ?_⟩, And.left⟩
  rintro rfl
  obtain ⟨y, hy⟩ := h.open_iff.1 hr'
  cases h.unique hx hy
  cases hx.symm.trans hy

/-- A holder hands what it has to one that has nothing. -/
theorem move (h : Custody hold isOpen) {v : ρ × Bool} (hx : hold x = some v) (hy : hold y = none)
    (hx' : hold' x = none) (hy' : hold' y = some v)
    (hrest : ∀ z, z ≠ x → z ≠ y → hold' z = hold z) (hopen : ∀ r, isOpen' r ↔ isOpen r) :
    Custody hold' isOpen' := by
  -- who has it afterwards had it before, and `y` has what `x` had
  have back : ∀ {z : ι} {v' : ρ × Bool}, hold' z = some v' →
      (z = y ∧ v' = v) ∨ (z ≠ x ∧ z ≠ y ∧ hold z = some v') := by
    intro z v' hz
    by_cases hzy : z = y
    · subst hzy
      cases hy'.symm.trans hz
      exact .inl ⟨rfl, rfl⟩
    · have hzx : z ≠ x := by
        rintro rfl
        cases hx'.symm.trans hz
      exact .inr ⟨hzx, hzy, (hrest z hzx hzy).symm.trans hz⟩
  constructor
  · intro z w r b b' hz hw
    rcases back hz with ⟨rfl, rfl⟩ | ⟨hzx, -, hz⟩ <;> rcases back hw with ⟨rfl, hv⟩ | ⟨hwx, -, hw⟩
    · rfl
    · exact absurd (h.unique hw hx) hwx
    · subst hv
      exact absurd (h.unique hz hx) hzx
    · exact h.unique hz hw
  · intro r
    rw [hopen, h.open_iff]
    constructor
    · rintro ⟨z, hz⟩
      by_cases hzx : z = x
      · subst hzx
        cases hx.symm.trans hz
        exact ⟨y, hy'⟩
      · have hzy : z ≠ y := by
          rintro rfl
          cases hy.symm.trans hz
        exact ⟨z, (hrest z hzx hzy).trans hz⟩
    · rintro ⟨z, hz⟩
      rcases back hz with ⟨rfl, rfl⟩ | ⟨-, -, hz⟩
      · exact ⟨x, hx⟩
      · exact ⟨z, hz⟩

end Custody

end Lib
