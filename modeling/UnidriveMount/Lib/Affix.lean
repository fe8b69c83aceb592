import Mathlib.Data.List.Infix

/-!
# Common affixes

The longest common prefix and suffix of two lists, and the number of elements in which they agree from
the front (`agreeing`), which is the length of the one (`longestCommonPrefix_take`) and, counted on
the reversed lists, of the other (`longestCommonSuffix_drop`).
-/

namespace Lib

section
variable {α : Type}

/-- `p` is the longest common prefix of the lists. -/
structure LongestCommonPrefix (p l l' : List α) : Prop where
  left : p <+: l
  right : p <+: l'
  longest : ∀ q, q <+: l → q <+: l' → q <+: p

/-- `s` is the longest common suffix of the lists. -/
structure LongestCommonSuffix (s l l' : List α) : Prop where
  left : s <:+ l
  right : s <:+ l'
  longest : ∀ q, q <:+ l → q <:+ l' → q <:+ s

/-- A suffix is a prefix of the reversed list. -/
theorem LongestCommonSuffix.of_reverse {s l l' : List α}
    (h : LongestCommonPrefix s.reverse l.reverse l'.reverse) : LongestCommonSuffix s l l' where
  left := List.reverse_prefix.1 h.left
  right := List.reverse_prefix.1 h.right
  longest _ hq hq' :=
    List.reverse_prefix.1 (h.longest _ (List.reverse_prefix.2 hq) (List.reverse_prefix.2 hq'))

variable [DecidableEq α]

/-- How many elements of the lists agree, from the front. -/
def agreeing (l l' : List α) : Nat := ((l.zip l').takeWhile fun e => e.1 = e.2).length

@[simp] theorem agreeing_nil_left (l : List α) : agreeing [] l = 0 := rfl

@[simp] theorem agreeing_nil_right (l : List α) : agreeing l [] = 0 := by
  simp [agreeing]

theorem agreeing_cons (x y : α) (l l' : List α) :
    agreeing (x :: l) (y :: l') = if x = y then agreeing l l' + 1 else 0 := by
  rw [agreeing, List.zip_cons_cons, List.takeWhile_cons]
  by_cases h : x = y <;> simp [h, agreeing]

theorem agreeing_comm (l l' : List α) : agreeing l l' = agreeing l' l := by
  induction l generalizing l' with
  | nil => simp
  | cons x l ih =>
    cases l' with
    | nil => simp
    | cons y l' =>
      rw [agreeing_cons, agreeing_cons, ih]
      exact if_congr eq_comm rfl rfl

theorem agreeing_le_length (l l' : List α) : agreeing l l' ≤ l.length := by
  induction l generalizing l' with
  | nil => simp
  | cons x l ih =>
    cases l' with
    | nil => simp
    | cons y l' =>
      rw [agreeing_cons]
      split
      · exact Nat.succ_le_succ (ih l')
      · exact Nat.zero_le _

theorem agreeing_le_length_right (l l' : List α) : agreeing l l' ≤ l'.length :=
  agreeing_comm l l' ▸ agreeing_le_length l' l

/-- What agrees is the longest common prefix. -/
theorem longestCommonPrefix_take (l l' : List α) :
    LongestCommonPrefix (l.take (agreeing l l')) l l' := by
  induction l generalizing l' with
  | nil => exact ⟨by simp, by simp, fun q hq _ => by simpa using hq⟩
  | cons x l ih =>
    cases l' with
    | nil => exact ⟨by simp, by simp, fun q _ hq => by simpa using hq⟩
    | cons y l' =>
      rw [agreeing_cons]
      split
      · next heq =>
        subst heq
        obtain ⟨hleft, hright, hlongest⟩ := ih l'
        refine ⟨List.take_prefix .., List.cons_prefix_cons.2 ⟨rfl, hright⟩, fun q hq hq' => ?_⟩
        cases q with
        | nil => exact List.nil_prefix
        | cons z q =>
          obtain ⟨hz, htail⟩ := List.cons_prefix_cons.1 hq
          obtain ⟨-, htail'⟩ := List.cons_prefix_cons.1 hq'
          exact List.cons_prefix_cons.2 ⟨hz, hlongest q htail htail'⟩
      · next hne =>
        refine ⟨by simp, by simp, fun q hq hq' => ?_⟩
        cases q with
        | nil => exact List.nil_prefix
        | cons z q =>
          obtain ⟨rfl, -⟩ := List.cons_prefix_cons.1 hq
          exact absurd (List.cons_prefix_cons.1 hq').1 hne

/-- The lists agree on it. -/
theorem take_agreeing (l l' : List α) : l.take (agreeing l l') = l'.take (agreeing l l') := by
  have hlen : (l.take (agreeing l l')).length = agreeing l l' :=
    List.length_take_of_le (agreeing_le_length l l')
  rw [List.prefix_iff_eq_take.1 (longestCommonPrefix_take l l').right, hlen]

/-- What agrees from the back is the longest common suffix. -/
theorem longestCommonSuffix_drop (l l' : List α) :
    LongestCommonSuffix (l.drop (l.length - agreeing l.reverse l'.reverse)) l l' := by
  refine .of_reverse ?_
  rw [List.reverse_drop, Nat.sub_sub_self (by simpa using agreeing_le_length l.reverse l'.reverse)]
  exact longestCommonPrefix_take ..

/-- The lists agree on it. -/
theorem drop_agreeing (l l' : List α) :
    l.drop (l.length - agreeing l.reverse l'.reverse) =
      l'.drop (l'.length - agreeing l.reverse l'.reverse) := by
  have h := congrArg List.reverse (take_agreeing l.reverse l'.reverse)
  simpa only [List.take_reverse, List.reverse_reverse] using h

end

end Lib
