import Mathlib.Tactic.Common
import Mathlib.Data.List.Basic

/-!
# Words that name options

A command line is a list of words: an option is named by a word, and the word after it is its value,
whatever it says. `Options.read` takes the options at the beginning of a list of words. What it leaves is
`Unread`, and the list is the words of these options followed by it (`words_read`).
-/

namespace Lib

/-- Options `K`, named by words. -/
structure Options (W K : Type) where
  name : K → W
  ofWord : W → Option K
  ofWord_eq_some : ∀ {w : W} {k : K}, ofWord w = some k ↔ name k = w

namespace Options

variable {W K : Type} (O : Options W K)

@[simp] theorem ofWord_name (k : K) : O.ofWord (O.name k) = some k := O.ofWord_eq_some.2 rfl

/-- The words of some options with their values. -/
def words : List (K × W) → List W
  | [] => []
  | (k, v) :: given => O.name k :: v :: words given

@[simp] theorem words_append (given given' : List (K × W)) :
    O.words (given ++ given') = O.words given ++ O.words given' := by
  induction given with
  | nil => rfl
  | cons g given ih =>
    obtain ⟨k, v⟩ := g
    simp [words, ih]

/-- The words do not begin with an option and its value. -/
def Unread : List W → Prop
  | [] | [_] => True
  | w :: _ :: _ => O.ofWord w = none

/-- The options at the beginning of the words, and the words after them. -/
def read : List W → List (K × W) × List W
  | [] => ([], [])
  | [w] => ([], [w])
  | w :: v :: rest =>
    match O.ofWord w with
    | some k => ((k, v) :: (read rest).1, (read rest).2)
    | none => ([], w :: v :: rest)

theorem words_read (l : List W) : O.words (O.read l).1 ++ (O.read l).2 = l := by
  fun_induction O.read l with
  | case1 | case2 | case4 => rfl
  | case3 w v rest k hk ih => simp [words, O.ofWord_eq_some.1 hk, ih]

theorem unread_read (l : List W) : O.Unread (O.read l).2 := by
  fun_induction O.read l with
  | case1 | case2 => trivial
  | case3 w v rest k hk ih => exact ih
  | case4 w v rest hk => exact hk

/-! ## The value given last -/

variable [DecidableEq K]

/-- The value given last for an option. -/
def last (k : K) (given : List (K × W)) : Option W := given.reverse.lookup k

@[simp] theorem last_nil (k : K) : last k ([] : List (K × W)) = none := rfl

theorem last_cons (k k' : K) (v : W) (given : List (K × W)) :
    last k ((k', v) :: given) = (last k given).or (if k = k' then some v else none) := by
  rw [last, List.reverse_cons, List.lookup_append, ← last]
  congr 1
  split
  · next h => simp [h]
  · next h => rw [List.lookup_cons, beq_false_of_ne h, List.lookup_nil]

end Options

end Lib
