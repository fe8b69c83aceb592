import Mathlib.Algebra.Ring.Nat
import Mathlib.Data.List.Infix

/-!
# Remote paths

A remote path is the empty string for the cloud root, and otherwise a parent's path followed by
`/` and a name. The helpers of `fuse_fs.rs` and `path_map.rs` that take paths apart are here, under
their source names, with the one relation all of them are about: a path is *at or below* another
(`AtOrBelow`), and a rename moves every such path (`moved`).

A string of the source is a sequence of Unicode scalar values, which is what a list of `Char` is.
Indices into strings are positions in that list; every index of the source is the position of a
`/`, where the byte and the character view agree.
-/

namespace UnidriveMount

/-- A string of the source. -/
abbrev Str := List Char

/-- Position of the last `c` (`str::rfind`). -/
def rfind (c : Char) : Str → Option Nat
  | [] => none
  | x :: s =>
    match rfind c s with
    | some i => some (i + 1)
    | none => if x = c then some 0 else none

/-- Number of bytes of the UTF-8 encoding (`str::len`). -/
def byteLen (s : Str) : Nat := (s.map Char.utf8Size).sum

/-- `str::trim_start_matches('/')`. -/
def trimStartSlashes (s : Str) : Str := s.dropWhile (· = '/')

/-- What follows the last `/`, the whole path if there is none. -/
def basename (path : Str) : Str :=
  match rfind '/' path with
  | none => path
  | some idx => path.drop (idx + 1)

/-- The parent's path: what precedes the last `/`, empty for a child of the root. -/
def parentPrefix (child : Str) : Str :=
  match rfind '/' child with
  | none => []
  | some 0 => []
  | some idx => child.take idx

/-- Linux `NAME_MAX`, in bytes. -/
def nameMax : Nat := 255

/-- Whether `name` can be a single Linux path component. -/
def isRepresentableComponent (name : Str) : Bool :=
  if name.isEmpty || name = ['.'] || name = ['.', '.'] then false
  else if name.contains '/' || name.contains (Char.ofNat 0) then false
  else if nameMax < byteLen name then false
  else true

/-- The remote path of `name` in the directory at `parent`, the name in NFC. The normalisation
`nfc` is Unicode's, which the engine keys its paths by. -/
def childPath (nfc : Str → Str) (parent name : Str) : Str :=
  let name := nfc name
  if parent.isEmpty then '/' :: name else parent ++ '/' :: name

/-- Whether `name` is in NFC already. -/
def isNfcName (nfc : Str → Str) (name : Str) : Bool := nfc name = name

/-- A child's path is never the root's. -/
theorem childPath_ne_nil (nfc : Str → Str) (parent name : Str) : childPath nfc parent name ≠ [] := by
  unfold childPath
  split <;> simp

/-- The position found is that of a `c`. -/
theorem rfind_lt {c : Char} {s : Str} {i : Nat} (h : rfind c s = some i) : i < s.length := by
  induction s generalizing i with
  | nil => cases h
  | cons x s ih =>
    unfold rfind at h
    split at h
    · next j hj =>
      cases h
      simpa using ih hj
    · split at h
      · cases h
        simp
      · cases h

theorem childPath_eq (nfc : Str → Str) (parent name : Str) :
    childPath nfc parent name = parent ++ '/' :: nfc name := by
  unfold childPath
  cases parent <;> simp

theorem rfind_eq_none {c : Char} {s : Str} (h : c ∉ s) : rfind c s = none := by
  induction s with
  | nil => rfl
  | cons x s ih =>
    rw [List.mem_cons, not_or] at h
    rw [rfind, ih h.2]
    simp [Ne.symm h.1]

theorem rfind_cons_self (c : Char) (s : Str) : ∃ i, rfind c (c :: s) = some i := by
  unfold rfind
  cases rfind c s with
  | some i => exact ⟨i + 1, rfl⟩
  | none => exact ⟨0, by simp⟩

/-- What the last `c` separates. -/
theorem eq_of_rfind {c : Char} {s : Str} {i : Nat} (h : rfind c s = some i) :
    s = s.take i ++ c :: s.drop (i + 1) := by
  induction s generalizing i with
  | nil => cases h
  | cons x s ih =>
    unfold rfind at h
    split at h
    · next j hj =>
      cases h
      exact congrArg (x :: ·) (ih hj)
    · split at h
      · next heq =>
        cases h
        rw [heq]
        rfl
      · cases h

theorem rfind_append {c : Char} {s : Str} {i : Nat} (p : Str) (h : rfind c s = some i) :
    rfind c (p ++ s) = some (p.length + i) := by
  induction p with
  | nil => simpa using h
  | cons x p ih =>
    rw [List.cons_append, rfind, ih]
    simp only [List.length_cons, Option.some.injEq]
    omega

/-- The basename is that of what follows any `/`, the `/` included. -/
theorem basename_append (p r : Str) : basename (p ++ '/' :: r) = basename ('/' :: r) := by
  obtain ⟨i, hi⟩ := rfind_cons_self '/' r
  unfold basename
  rw [rfind_append p hi, hi]
  simp only [List.drop_append]
  have hdrop : List.drop (p.length + i + 1) p = [] := List.drop_eq_nil_of_le (by omega)
  rw [hdrop, show p.length + i + 1 - p.length = i + 1 by omega]
  rfl

/-- The basename of a child's path is the child's name. -/
theorem basename_child (p : Str) {b : Str} (h : '/' ∉ b) : basename (p ++ '/' :: b) = b := by
  rw [basename_append, basename, rfind, rfind_eq_none h]
  simp

/-- Whether `path`, or what is left of it after cutting off components from the end, is in
`roots` (`is_at_or_below`). -/
def isAtOrBelow (path : Str) (roots : List Str) : Bool :=
  if roots.contains path then true
  else
    match _h : rfind '/' path with
    | some i => if 0 < i then isAtOrBelow (path.take i) roots else false
    | none => false
termination_by path.length
decreasing_by
  have := rfind_lt _h
  simp only [List.length_take]
  omega

/-! ## At or below -/

/-- `p` is the path `root` or lies below it. -/
def AtOrBelow (root p : Str) : Prop := p = root ∨ root ++ ['/'] <+: p

instance (root p : Str) : Decidable (AtOrBelow root p) :=
  inferInstanceAs (Decidable (_ ∨ _))

/-- What can follow a directory's path in a path at or below it. -/
def IsTail (rest : Str) : Prop := rest = [] ∨ ∃ r, rest = '/' :: r

theorem atOrBelow_iff {root p : Str} : AtOrBelow root p ↔ ∃ rest, IsTail rest ∧ p = root ++ rest := by
  constructor
  · rintro (rfl | ⟨r, rfl⟩)
    · exact ⟨[], .inl rfl, by simp⟩
    · exact ⟨'/' :: r, .inr ⟨r, rfl⟩, by simp⟩
  · rintro ⟨rest, rfl | ⟨r, rfl⟩, rfl⟩
    · exact .inl (by simp)
    · exact .inr ⟨r, by simp⟩

theorem atOrBelow_self (root : Str) : AtOrBelow root root := .inl rfl

theorem atOrBelow_append {root rest : Str} (h : IsTail rest) : AtOrBelow root (root ++ rest) :=
  atOrBelow_iff.2 ⟨rest, h, rfl⟩

/-- Whether `root ++ rest` is at or below `root` depends on `rest` alone. -/
theorem atOrBelow_append_iff {root rest : Str} : AtOrBelow root (root ++ rest) ↔ IsTail rest := by
  rw [atOrBelow_iff]
  constructor
  · rintro ⟨rest', h, he⟩
    exact List.append_cancel_left he ▸ h
  · exact fun h => ⟨rest, h, rfl⟩

theorem IsTail.append {a b : Str} (ha : IsTail a) (hb : IsTail b) : IsTail (a ++ b) := by
  rcases ha with rfl | ⟨r, rfl⟩
  · exact hb
  · exact .inr ⟨r ++ b, rfl⟩

theorem AtOrBelow.trans {a b c : Str} (hab : AtOrBelow a b) (hbc : AtOrBelow b c) :
    AtOrBelow a c := by
  obtain ⟨r, hr, rfl⟩ := atOrBelow_iff.1 hab
  obtain ⟨r', hr', rfl⟩ := atOrBelow_iff.1 hbc
  exact atOrBelow_iff.2 ⟨r ++ r', hr.append hr', by simp⟩

/-- Two paths above one path lie one above the other. -/
theorem AtOrBelow.total {a b p : Str} (ha : AtOrBelow a p) (hb : AtOrBelow b p) :
    AtOrBelow a b ∨ AtOrBelow b a := by
  obtain ⟨r, hr, rfl⟩ := atOrBelow_iff.1 ha
  obtain ⟨r', hr', heq⟩ := atOrBelow_iff.1 hb
  rcases List.append_eq_append_iff.1 heq with ⟨c, rfl, rfl⟩ | ⟨c, rfl, rfl⟩
  · refine .inl (atOrBelow_append ?_)
    rcases hr with h | ⟨t, h⟩
    · exact .inl (List.append_eq_nil_iff.1 h).1
    · cases c with
      | nil => exact .inl rfl
      | cons x c =>
        cases h
        exact .inr ⟨c, rfl⟩
  · refine .inr (atOrBelow_append ?_)
    rcases hr' with h | ⟨t, h⟩
    · exact .inl (List.append_eq_nil_iff.1 h).1
    · cases c with
      | nil => exact .inl rfl
      | cons x c =>
        cases h
        exact .inr ⟨c, rfl⟩

/-- Below a non-empty path is what is left at or below it when the last component is cut off. -/
theorem atOrBelow_iff_rfind {root p : Str} (hroot : root ≠ []) : AtOrBelow root p ↔
    p = root ∨ ∃ i, rfind '/' p = some i ∧ 0 < i ∧ AtOrBelow root (p.take i) := by
  constructor
  · rintro (rfl | ⟨r, rfl⟩)
    · exact .inl rfl
    · obtain ⟨j, hj⟩ := rfind_cons_self '/' r
      refine .inr ⟨root.length + j, ?_, ?_, ?_⟩
      · rw [List.append_assoc]
        exact rfind_append root hj
      · exact Nat.add_pos_left (List.length_pos_iff.2 hroot) j
      · rw [List.append_assoc, List.take_length_add_append]
        refine atOrBelow_append ?_
        cases j with
        | zero => exact .inl rfl
        | succ j => exact .inr ⟨r.take j, rfl⟩
  · rintro (rfl | ⟨i, hi, -, hp⟩)
    · exact atOrBelow_self _
    · refine hp.trans ?_
      conv_rhs => rw [eq_of_rfind hi]
      exact atOrBelow_append (.inr ⟨_, rfl⟩)

/-- `is_at_or_below`: some root is the path or lies above it. -/
theorem isAtOrBelow_iff {path : Str} {roots : List Str} (hroots : [] ∉ roots) :
    isAtOrBelow path roots = true ↔ ∃ root ∈ roots, AtOrBelow root path := by
  have hne : ∀ root ∈ roots, root ≠ [] := fun root hmem heq => hroots (heq ▸ hmem)
  induction hn : path.length using Nat.strongRecOn generalizing path with
  | ind n ih =>
    subst hn
    have hcut : (∃ root ∈ roots, AtOrBelow root path) ↔ path ∈ roots ∨
        ∃ i, rfind '/' path = some i ∧ 0 < i ∧ ∃ root ∈ roots, AtOrBelow root (path.take i) := by
      constructor
      · intro ⟨root, hmem, hp⟩
        rcases (atOrBelow_iff_rfind (hne root hmem)).1 hp with rfl | ⟨i, hi, hpos, hp⟩
        · exact .inl hmem
        · exact .inr ⟨i, hi, hpos, root, hmem, hp⟩
      · rintro (hmem | ⟨i, hi, hpos, root, hmem, hp⟩)
        · exact ⟨path, hmem, atOrBelow_self _⟩
        · exact ⟨root, hmem, (atOrBelow_iff_rfind (hne root hmem)).2 (.inr ⟨i, hi, hpos, hp⟩)⟩
    rw [hcut]
    unfold isAtOrBelow
    split
    · next hmem => exact iff_of_true rfl (.inl (List.contains_iff_mem.1 hmem))
    · next hmem =>
      rw [or_iff_right fun h => hmem (List.contains_iff_mem.2 h)]
      split
      · next i hi =>
        have hlt : (path.take i).length < path.length := by
          have := rfind_lt hi
          rw [List.length_take]
          omega
        split
        · next hpos =>
          refine (ih _ hlt rfl).trans ?_
          constructor
          · exact fun h => ⟨i, hi, hpos, h⟩
          · rintro ⟨j, hj, -, h⟩
            cases hi.symm.trans hj
            exact h
        · next hpos =>
          refine iff_of_false Bool.false_ne_true fun ⟨j, hj, hj', _⟩ => hpos ?_
          cases hi.symm.trans hj
          exact hj'
      · next hi =>
        refine iff_of_false Bool.false_ne_true fun ⟨j, hj, _⟩ => ?_
        cases hi.symm.trans hj

/-- A path at or below a non-empty one is not empty. -/
theorem AtOrBelow.ne_nil {root p : Str} (h : AtOrBelow root p) (hroot : root ≠ []) : p ≠ [] := by
  obtain ⟨r, -, rfl⟩ := atOrBelow_iff.1 h
  simp [hroot]

/-! ## What a rename does to a path -/

/-- Where the rename of `old` to `new` puts the path `p`: a path at or below `old` keeps what
follows `old`, every other path stays. -/
def moved (old new p : Str) : Str := if AtOrBelow old p then new ++ p.drop old.length else p

theorem moved_append {old new rest : Str} (h : IsTail rest) :
    moved old new (old ++ rest) = new ++ rest := by
  rw [moved, if_pos (atOrBelow_append h), List.drop_left]

theorem moved_of_not {old new p : Str} (h : ¬ AtOrBelow old p) : moved old new p = p := if_neg h

/-- A moved path is at or below the new place. -/
theorem atOrBelow_moved {old new p : Str} (h : AtOrBelow old p) : AtOrBelow new (moved old new p) := by
  obtain ⟨rest, hrest, rfl⟩ := atOrBelow_iff.1 h
  rw [moved_append hrest]
  exact atOrBelow_append hrest

/-- Two moved paths are equal only if the paths were. -/
theorem moved_inj {old new p q : Str} (hp : AtOrBelow old p) (hq : AtOrBelow old q)
    (h : moved old new p = moved old new q) : p = q := by
  obtain ⟨r, hr, rfl⟩ := atOrBelow_iff.1 hp
  obtain ⟨r', hr', rfl⟩ := atOrBelow_iff.1 hq
  rw [moved_append hr, moved_append hr'] at h
  rw [List.append_cancel_left h]

/-! ## Components -/

/-- The words of `c :: s`, `c` not being a slash, from those of `s`. -/
def consWord (c : Char) (s : Str) (words : List Str) : List Str :=
  match s, words with
  | [], _ => [[c]]
  | d :: _, words => if d = '/' then [c] :: words else words.modifyHead (c :: ·)

/-- The components of a path: what is not empty between its slashes. -/
def components : Str → List Str
  | [] => []
  | c :: s => if c = '/' then components s else consWord c s (components s)

theorem components_slash (s : Str) : components ('/' :: s) = components s := rfl

theorem components_cons {c : Char} (h : c ≠ '/') (s : Str) :
    components (c :: s) = consWord c s (components s) := if_neg h

theorem components_ne_nil {c : Char} (h : c ≠ '/') (s : Str) : components (c :: s) ≠ [] := by
  rw [components_cons h]
  induction s generalizing c with
  | nil => simp [consWord]
  | cons d s ih =>
    unfold consWord
    by_cases hd : d = '/'
    · simp [hd]
    · rw [components_cons hd]
      simpa [hd] using ih hd

/-- Leading slashes separate nothing. -/
theorem components_trimStartSlashes (s : Str) : components (trimStartSlashes s) = components s := by
  unfold trimStartSlashes
  induction s with
  | nil => rfl
  | cons c s ih =>
    by_cases h : c = '/'
    · subst h
      simpa [components_slash] using ih
    · simp [h]

/-- `b` can stand before a path: it is empty or ends in a slash. -/
def IsBase (b : Str) : Prop := b = [] ∨ ∃ b', b = b' ++ ['/']

instance (b : Str) : Decidable (IsBase b) :=
  decidable_of_iff (b = [] ∨ b.getLast? = some '/') <| or_congr_right <| by
    rw [List.getLast?_eq_some_iff]

theorem IsBase.tail {c : Char} {b : Str} (h : IsBase (c :: b)) : IsBase b ∧ (c ≠ '/' → b ≠ []) := by
  rcases h with h | ⟨b', h⟩
  · cases h
  · cases b' with
    | nil =>
      cases h
      exact ⟨.inl rfl, fun h => absurd rfl h⟩
    | cons x b' =>
      cases h
      exact ⟨.inr ⟨b', rfl⟩, fun _ => by simp⟩

/-- The components of a path under a base. -/
theorem components_append {b : Str} (h : IsBase b) (s : Str) :
    components (b ++ s) = components b ++ components s := by
  induction b with
  | nil => rfl
  | cons c b ih =>
    obtain ⟨hb, hne⟩ := h.tail
    by_cases hc : c = '/'
    · subst hc
      exact ih hb
    · rw [List.cons_append, components_cons hc, components_cons hc, ih hb]
      cases b with
      | nil => exact absurd rfl (hne hc)
      | cons d b =>
        unfold consWord
        by_cases hd : d = '/'
        · simp [hd]
        · obtain ⟨w, ws, hw⟩ := List.exists_cons_of_ne_nil (components_ne_nil hd b)
          simp [hd, hw]

/-- Without a slash between them the last component of the one and the first of the other are one. -/
theorem components_append_word {b s : Str} (hb : ¬ IsBase b) {c : Char} (hc : c ≠ '/')
    (hs : ∃ t, s = c :: t) : ∃ ws x y ys, components b = ws ++ [x] ∧ x ≠ [] ∧
      components s = y :: ys ∧ components (b ++ s) = ws ++ (x ++ y) :: ys := by
  obtain ⟨t, rfl⟩ := hs
  obtain ⟨y, ys, hy⟩ := List.exists_cons_of_ne_nil (components_ne_nil hc t)
  suffices h : ∃ ws x, components b = ws ++ [x] ∧ x ≠ [] ∧
      components (b ++ c :: t) = ws ++ (x ++ y) :: ys by
    obtain ⟨ws, x, hx, hne, happ⟩ := h
    exact ⟨ws, x, y, ys, hx, hne, hy, happ⟩
  induction b with
  | nil => exact absurd (.inl rfl) hb
  | cons d b ih =>
    by_cases hbase : IsBase b
    · -- the component is one character
      rcases hbase with rfl | ⟨b', rfl⟩
      · have hd : d ≠ '/' := fun h => hb (h ▸ .inr ⟨[], rfl⟩)
        refine ⟨[], [d], by rw [components_cons hd]; rfl, by simp, ?_⟩
        rw [List.cons_append, List.nil_append, components_cons hd, hy]
        simp [consWord, hc]
      · exact absurd (.inr ⟨d :: b', rfl⟩) hb
    · obtain ⟨ws, x, hx, hne, happ⟩ := ih hbase
      by_cases hd : d = '/'
      · subst hd
        exact ⟨ws, x, hx, hne, happ⟩
      · rw [List.cons_append, components_cons hd, components_cons hd, hx, happ]
        cases b with
        | nil => exact absurd (.inl rfl) hbase
        | cons e b =>
          unfold consWord
          by_cases he : e = '/'
          · exact ⟨[d] :: ws, x, by simp [he], hne, by simp [he]⟩
          · cases ws with
            | nil => exact ⟨[], d :: x, by simp [he], by simp, by simp [he]⟩
            | cons w ws => exact ⟨(d :: w) :: ws, x, by simp [he], hne, by simp [he]⟩

end UnidriveMount
