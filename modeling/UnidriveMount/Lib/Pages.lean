import Mathlib.Data.List.Basic

/-!
# Reading a list by pages

A reader takes a list in pages and resumes each time where it stopped, by position, while the list
changes in between. `readPages` is what it reads. Of the elements that stay in the list, in one order,
it reads each once and in that order when the changes between two pages do not move them across the
position where it resumes (`filter_readPages`).
-/

namespace Lib

section
variable {α : Type} {S : α → Bool}

/-- What is read of the lists in pages: from `lo` on, up to the position that goes with the list, and
from there on in the next list. -/
def readPages : Nat → List (List α × Nat) → List α
  | _, [] => []
  | lo, (l, hi) :: pages => (l.drop lo).take (hi - lo) ++ readPages hi pages

/-- The positions where the reader stops do not go back, and the last page reads to the end. -/
def ReadsToEnd : Nat → List (List α × Nat) → Prop
  | _, [] => False
  | lo, [(l, hi)] => lo ≤ hi ∧ l.length ≤ hi
  | lo, (_, hi) :: page :: pages => lo ≤ hi ∧ ReadsToEnd hi (page :: pages)

/-- Before the position where the reader resumes there are as many elements of `S` in the new list as
in the old. -/
def Balanced (S : α → Bool) : List (List α × Nat) → Prop
  | (l, hi) :: (l', hi') :: pages =>
    (l.take hi).countP S = (l'.take hi).countP S ∧ Balanced S ((l', hi') :: pages)
  | _ => True

instance : (pages : List (List α × Nat)) → Decidable (Balanced S pages)
  | [] => .isTrue trivial
  | [_] => .isTrue trivial
  | (l, hi) :: (l', hi') :: pages =>
    have : Decidable (Balanced S ((l', hi') :: pages)) := instDecidableBalanced _
    inferInstanceAs (Decidable ((l.take hi).countP S = (l'.take hi).countP S ∧ _))

/-- A window after a prefix is a longer prefix. -/
theorem take_append_window (l : List α) {lo hi : Nat} (h : lo ≤ hi) :
    l.take lo ++ (l.drop lo).take (hi - lo) = l.take hi := by
  rw [← List.take_add, Nat.add_sub_cancel' h]

/-- Two prefixes with as many elements of `S` have the same ones, if the lists do. -/
theorem filter_take_eq {l l' : List α} (hl : l.filter S = l'.filter S) {n : Nat}
    (h : (l.take n).countP S = (l'.take n).countP S) :
    (l.take n).filter S = (l'.take n).filter S := by
  have hpre : ∀ l : List α, (l.take n).filter S = (l.filter S).take ((l.take n).countP S) := by
    intro l
    rw [List.countP_eq_length_filter]
    conv_rhs => rw [← List.take_append_drop n l, List.filter_append]
    rw [List.take_append_drop, List.take_left]
  rw [hpre l, hpre l', hl, h]

/-- **The elements that stay are read once each, in their order**, those before the start apart. -/
theorem filter_readPages {T : List α} {lo : Nat} {l : List α} {hi : Nat} {pages : List (List α × Nat)}
    (hstay : ∀ page ∈ (l, hi) :: pages, page.1.filter S = T) (hend : ReadsToEnd lo ((l, hi) :: pages))
    (hbal : Balanced S ((l, hi) :: pages)) :
    (l.take lo).filter S ++ (readPages lo ((l, hi) :: pages)).filter S = T := by
  induction pages generalizing lo l hi with
  | nil =>
    obtain ⟨hle, hlast⟩ := hend
    rw [readPages, readPages, List.append_nil, ← List.filter_append, take_append_window l hle,
      List.take_of_length_le hlast]
    exact hstay _ (List.mem_singleton_self _)
  | cons page pages ih =>
    obtain ⟨l', hi'⟩ := page
    obtain ⟨hle, hend⟩ := hend
    obtain ⟨hcount, hbal⟩ := hbal
    obtain ⟨hfirst, hrest⟩ := List.forall_mem_cons.1 hstay
    have hsame : (l.take hi).filter S = (l'.take hi).filter S := by
      refine filter_take_eq ?_ hcount
      rw [hfirst, hrest _ (List.mem_cons_self ..)]
    rw [readPages, List.filter_append, ← List.append_assoc, ← List.filter_append,
      take_append_window l hle, hsame]
    exact ih hrest hend hbal

end

end Lib
