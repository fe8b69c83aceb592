import UnidriveMount.Lib.Affix
import UnidriveMount.Path

/-!
# Differing code points

What the refusal of a name says about it (`fuse_fs.rs`): the code points in which it differs from the
name that is there. They are cut out of both names between the common prefix and the common suffix, by
slices that panic when they are out of range (`slice`); they never are, because the suffix is counted
on what follows the prefix (`differingCodePoints_isolates`).
-/

namespace UnidriveMount

open Lib

/-- `&l[start..stop]`, which panics out of range. -/
def slice (l : List Char) (start stop : Nat) : Option (List Char) :=
  if start ≤ stop ∧ stop ≤ l.length then some ((l.take stop).drop start) else none

/-- `m - n` of unsigned numbers, which must not go below zero. -/
def checkedSub (m n : Nat) : Option Nat := if n ≤ m then some (m - n) else none

/-- A code point as `U+XXXX`, in at least four digits. -/
def renderCodePoint (c : Char) : Str :=
  let digits := (Nat.toDigits 16 c.toNat).map Char.toUpper
  "U+".toList ++ List.replicate (4 - digits.length) '0' ++ digits

/-- Code points, separated by spaces. -/
def renderCodePoints (s : Str) : Str := [' '].intercalate (s.map renderCodePoint)

/-- `differing_code_points`; there is no result when a slice is out of range. -/
def differingCodePoints (a b : Str) : Option (Str × Str) := do
  let prefixLen := agreeing a b
  let restA ← slice a prefixLen a.length
  let restB ← slice b prefixLen b.length
  let suffixLen := agreeing restA.reverse restB.reverse
  let x ← slice a prefixLen (← checkedSub a.length suffixLen)
  let y ← slice b prefixLen (← checkedSub b.length suffixLen)
  return (renderCodePoints x, renderCodePoints y)

/-- What is left of a list between its first `m` elements and the last `n` of the rest. -/
theorem slice_between {l : List Char} {m n : Nat} (hm : m ≤ l.length) (hn : n ≤ (l.drop m).length) :
    ∃ stop, checkedSub l.length n = some stop ∧
      slice l m stop = some ((l.drop m).take ((l.drop m).length - n)) := by
  rw [List.length_drop] at *
  have hlen : l.length - n - m = l.length - m - n := by omega
  refine ⟨l.length - n, if_pos (by omega), ?_⟩
  rw [slice, if_pos ⟨by omega, Nat.sub_le ..⟩, List.drop_take, hlen]

/-- **The difference is isolated**: the slices are in range, and what is rendered is what is left of
the strings between their longest common prefix and the longest common suffix of the rests. -/
theorem differingCodePoints_isolates (a b : Str) :
    ∃ p x y s, a = p ++ x ++ s ∧ b = p ++ y ++ s ∧
      differingCodePoints a b = some (renderCodePoints x, renderCodePoints y) ∧
      LongestCommonPrefix p a b ∧ LongestCommonSuffix s (x ++ s) (y ++ s) := by
  have hprefix := longestCommonPrefix_take a b
  have hagree := take_agreeing a b
  have hlenA := agreeing_le_length a b
  have hlenB := agreeing_le_length_right a b
  unfold differingCodePoints
  generalize agreeing a b = m at *
  have hrestA : slice a m a.length = some (a.drop m) := by
    rw [slice, if_pos ⟨hlenA, le_rfl⟩, List.take_length]
  have hrestB : slice b m b.length = some (b.drop m) := by
    rw [slice, if_pos ⟨hlenB, le_rfl⟩, List.take_length]
  have hsuffix := longestCommonSuffix_drop (a.drop m) (b.drop m)
  have hagree' := drop_agreeing (a.drop m) (b.drop m)
  have hsufA := agreeing_le_length (a.drop m).reverse (b.drop m).reverse
  have hsufB := agreeing_le_length_right (a.drop m).reverse (b.drop m).reverse
  rw [List.length_reverse] at hsufA hsufB
  simp only [hrestA, hrestB, Option.bind_eq_bind, Option.bind_some]
  generalize agreeing (a.drop m).reverse (b.drop m).reverse = n at *
  -- the strings, taken apart
  have hx := List.take_append_drop ((a.drop m).length - n) (a.drop m)
  have hy := List.take_append_drop ((b.drop m).length - n) (b.drop m)
  rw [← hagree'] at hy
  refine ⟨a.take m, (a.drop m).take ((a.drop m).length - n), (b.drop m).take ((b.drop m).length - n),
    (a.drop m).drop ((a.drop m).length - n), ?_, ?_, ?_, hprefix, ?_⟩
  · rw [List.append_assoc, hx, List.take_append_drop]
  · rw [List.append_assoc, hy, hagree, List.take_append_drop]
  · obtain ⟨stopA, hstopA, hsliceA⟩ := slice_between hlenA hsufA
    obtain ⟨stopB, hstopB, hsliceB⟩ := slice_between hlenB hsufB
    rw [hstopA, Option.bind_some, hsliceA, Option.bind_some, hstopB, Option.bind_some, hsliceB,
      Option.bind_some]
    rfl
  · rw [hx, hy]
    exact hsuffix

/-- An accent that is one code point in the one name, and two in the other. -/
example : differingCodePoints ['c', 'a', 'f', Char.ofNat 0xE9, '.', 't', 'x', 't']
    ['c', 'a', 'f', 'e', Char.ofNat 0x301, '.', 't', 'x', 't'] =
      some ("U+00E9".toList, "U+0065 U+0301".toList) := by
  decide

end UnidriveMount
