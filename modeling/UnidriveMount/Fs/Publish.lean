import UnidriveMount.Fs.Handles

/-!
# Publication of a handle

`open`, `create` and `mknod` draw a number from a counter and put the handle into the table under
it. The contract `births` says with which mark a request publishes a handle and that the number is
the one it has drawn. The counter has 64 bits: as long as fewer than 2^64 numbers are drawn, no
number is handed out twice (`handedOutOnce_of_step`), so a handle is the same one in the whole run.
-/

namespace UnidriveMount

open Lib
open Lib.Prog (only_perform)

/-- The handle `fh` was published under the handle id `id`. -/
def Published (l : List FsEvent) (fh : Nat) (id : Str) : Prop :=
  ∃ (i t : Nat) (h : OpenHandle),
    l[i]? = some (Event.acted t (.handleInsert fh h) ()) ∧ h.handleId = id

theorem Published.snoc {l : List FsEvent} {fh : Nat} {id : Str} (e : FsEvent)
    (h : Published l fh id) : Published (l ++ [e]) fh id := by
  obtain ⟨i, t, h, hi, hid⟩ := h
  exact ⟨i, t, h, getElem?_snoc e hi, hid⟩

theorem Published.of_take {l : List FsEvent} {fh n : Nat} {id : Str}
    (h : Published (l.take n) fh id) : Published l fh id := by
  obtain ⟨i, t, h, hi, hid⟩ := h
  exact ⟨i, t, h, getElem?_of_take hi, hid⟩

/-! ## The contract -/

/-- What is known of a handle before a request publishes it: whether it will be dirty, if the
request publishes one at all, and the number drawn for it. -/
structure Birth : Type where
  mark : Option Bool
  number : Option Nat

/-- What a request starts with: created handles and those opened truncating are dirty. -/
def Birth.init : Op → Birth
  | .create .. | .mknod .. => ⟨some true, none⟩
  | .open _ flags => ⟨some (isTruncating flags), none⟩
  | _ => ⟨none, none⟩

/-- The contract of the requests with respect to the handles they publish. -/
def births : Contract Act Act.Ret Birth where
  pre g
    | .handleInsert fh h => g.mark = some h.dirty ∧ g.number = some fh
    | _ => True
  allow _ _ _ := True
  next
    | g, .nextFh, n => ⟨g.mark, some n⟩
    | g, .handleInsert .., _ => ⟨g.mark, none⟩
    | g, _, _ => g

/-- The action is one of publishing a handle. -/
def Act.Publishes : Act → Prop
  | nextFh | handleInsert .. => True
  | _ => False

theorem births_pre {g : Birth} {a : Act} (ha : ¬ a.Publishes) : births.pre g a := by
  cases a with
  | handleInsert fh h => exact absurd trivial ha
  | _ => trivial

theorem births_next {g : Birth} {a : Act} (r : a.Ret) (ha : ¬ a.Publishes) :
    births.next g a r = g := by
  cases a with
  | nextFh | handleInsert => exact absurd trivial ha
  | _ => rfl

/-- No other request than an `open`, a `create` and a `mknod` publishes a handle. -/
theorem Op.May.not_publishes {o : Op} (ho : (Birth.init o).mark = none) {a : Act} (h : o.May a) :
    ¬ a.Publishes := by
  intro ha
  cases a with
  | nextFh | handleInsert =>
    rcases h with h | h
    · cases o with
      | «open» | create | mknod => cases ho
      | _ => exact h
    · cases o <;> simp [Op.Shared, Act.Looks, Act.Lists, Act.Records, Act.Forgets, Act.Commits] at h
  | _ => exact ha

theorem Act.Looks.not_publishes {a : Act} (h : a.Looks) : ¬ a.Publishes := by
  cases a <;> first | exact not_false | exact fun _ => h

theorem Act.Records.not_publishes {a : Act} (h : a.Records) : ¬ a.Publishes := by
  cases a <;> first | exact not_false | exact fun _ => h

section
variable {nfc : Str → Str} {cacheRoot : Option Str} {g : Birth}

/-- What publishes no handle can be skipped. -/
theorem births_skip {α β : Type} {p : FsProg α} {f : α → FsProg β}
    (hp : p.Only fun a => ¬ a.Publishes) (hf : ∀ x, births.Obeys (fun _ _ => True) (f x) g) :
    births.Obeys (fun _ _ => True) (p >>= f) g :=
  Contract.obeys_bind_of_only hp (fun _ => births_pre) (fun _ r ha => births_next r ha)
    (fun _ => trivial) hf

theorem births_publish {h : OpenHandle} (hg : g.mark = some h.dirty) {β : Type} {f : Nat → β} :
    births.Obeys (fun _ _ => True) (do return f (← publish h)) g := by
  simp only [publish, Contract.obeys_bind, Contract.obeys_perform]
  exact ⟨trivial, fun fh _ => ⟨⟨hg, rfl⟩, fun _ _ => trivial⟩⟩

theorem createInternal_births {parent : Ino} {name : OsStr} :
    births.Obeys (fun _ _ => True) (createInternal nfc parent name) ⟨some true, none⟩ :=
  births_skip (only_okOr ..) fun _ => births_skip (only_perform not_false) fun _ =>
  births_skip (only_okOr ..) fun _ =>
  births_skip (refuseNfcCollision_only fun _ ha => ha.not_publishes) fun _ =>
  births_skip (only_perform not_false) fun _ =>
  births_skip (only_ipc not_false not_false) fun _ =>
  births_skip (only_mapErr ..) fun _ => births_skip (only_perform not_false) fun _ =>
  births_skip (only_okOr ..) fun _ => births_skip (only_perform not_false) fun _ =>
  births_skip (recordRawName_only fun _ ha => ha.not_publishes) fun _ =>
  births_skip (only_perform not_false) fun _ => births_skip (only_perform not_false) fun _ =>
  births_publish rfl

theorem open_births {inode : Ino} {flags : UInt32} :
    births.Obeys (fun _ _ => True) («open» inode flags) ⟨some (isTruncating flags), none⟩ := by
  refine births_skip (only_perform not_false) fun _ => births_skip (only_okOr ..) fun path => ?_
  split
  · trivial
  · exact births_skip (only_perform not_false) fun _ =>
      births_skip (openCacheFile_only ⟨not_false, not_false⟩ ⟨not_false, not_false⟩) fun _ =>
      births_skip (only_perform not_false) fun _ => births_skip (only_perform not_false) fun _ =>
      births_skip (only_okOr ..) fun _ =>
      births_skip (syncSize_only not_false fun _ => not_false) fun _ => births_publish rfl

/-- **Every request publishes handles as it should.** -/
theorem births_honoured (nfc : Str → Str) (cacheRoot : Option Str) :
    (fsService nfc cacheRoot).Honours births Birth.init (fun _ _ _ => True) := by
  have weaken : ∀ {α : Type} {p : FsProg α} {g : Birth} {post : Except Errno α → Birth → Prop},
      (∀ r g, post r g) → births.Obeys (fun _ _ => True) p g → births.Obeys post p g :=
    fun hpost h => h.mono fun r g _ => hpost r g
  intro o
  by_cases hb : (Birth.init o).mark = none
  · exact Contract.obeys_of_only (Op.prog_only o) (fun a ha => births_pre (ha.not_publishes hb))
      (fun a r ha => births_next r (ha.not_publishes hb)) fun _ => trivial
  · cases o with
    | «open» inode flags =>
      exact Contract.obeys_bind.2 (weaken (by rintro (_ | _) _ <;> trivial) open_births)
    | create parent name =>
      refine Contract.obeys_bind.2 (Contract.obeys_bind.2 ?_)
      exact weaken (by rintro (_ | _) _ <;> trivial) createInternal_births
    | mknod parent name mode =>
      refine Contract.obeys_bind.2 ?_
      unfold UnidriveMount.mknod
      split
      · trivial
      · refine Contract.obeys_bind.2 (weaken ?_ createInternal_births)
        rintro (e | x) g
        · trivial
        · refine Contract.obeys_of_only (P := fun a => ¬ a.Publishes) ?_ (fun _ => births_pre)
            (fun _ r ha => births_next r ha) fun r => by cases r <;> trivial
          refine .bind (only_perform not_false) fun r => ?_
          cases r with
          | some h =>
            exact .bind (only_ipc not_false not_false) fun _ =>
              .bind (only_ipc not_false not_false) fun _ => only_pure _
          | none => exact only_pure _
    | _ => exact absurd rfl hb

end

/-- The mark a request publishes handles with does not change. -/
theorem births_ghost_mark (g : Birth) (t : Nat) (l : List FsEvent) :
    (births.ghost g t l).mark = g.mark := by
  unfold Contract.ghost
  induction occs t l generalizing g with
  | nil => rfl
  | cons e es ih =>
    obtain ⟨a, r⟩ := e
    rw [List.foldl_cons, ih]
    cases a <;> rfl

/-! ## Handle numbers -/

/-- Whether the entry draws a handle number. -/
def isDraw : FsEvent → Bool
  | .acted _ .nextFh _ => true
  | _ => false

/-- How many handle numbers were drawn. -/
def draws (l : List FsEvent) : Nat := l.countP isDraw

/-- The step does not draw more handle numbers than a counter of 64 bits has. -/
def DrawsFew (c : FsConfig) (e : FsEvent) : Prop := isDraw e = true → draws c.log < counterSpace

instance (c : FsConfig) (e : FsEvent) : Decidable (DrawsFew c e) :=
  inferInstanceAs (Decidable (isDraw e = true → draws c.log < counterSpace))

/-- The step does not hand out a handle number for the second time. -/
def HandedOutOnce (c : FsConfig) : FsEvent → Prop
  | .acted _ (.handleInsert fh _) _ => ∀ id, ¬ Published c.log fh id
  | _ => True

/-- The numbers drawn so far are the first ones of the counter, every published handle has one, and
one drawn for a handle that is not published yet is not in use. -/
structure Numbered (s : FsState) (l : List FsEvent) : Prop where
  next : s.nextFh = (1 + draws l) % counterSpace
  few : draws l ≤ counterSpace
  drawn : ∀ i t n : Nat, l[i]? = some (Event.acted t .nextFh n) →
    n = (1 + draws (l.take i)) % counterSpace
  pending : ∀ (t : Nat) (o : Op) (fh : Nat), (births.ghost (Birth.init o) t l).number = some fh →
    ∃ i : Nat, l[i]? = some (Event.acted t .nextFh fh)
  published : ∀ (fh : Nat) (id : Str), Published l fh id →
    ∃ i t : Nat, l[i]? = some (Event.acted t .nextFh fh)
  unused : ∀ (t : Nat) (o : Op) (fh : Nat) (id : Str),
    (births.ghost (Birth.init o) t l).number = some fh → ¬ Published l fh id

section
variable {l : List FsEvent} {s s' : FsState} {e : FsEvent}

theorem draws_snoc (l : List FsEvent) (e : FsEvent) :
    draws (l ++ [e]) = draws l + if isDraw e then 1 else 0 := by
  simp [draws, List.countP_singleton]

/-- A draw has fewer draws before it than any later point. -/
theorem draws_take_lt {i j : Nat} (hi : l[i]? = some e) (he : isDraw e = true) (hij : i < j) :
    draws (l.take i) < draws (l.take j) := by
  have hsucc : draws (l.take (i + 1)) = draws (l.take i) + 1 := by
    rw [List.take_add_one, hi, Option.toList_some, draws_snoc, if_pos he]
  have hle : draws (l.take (i + 1)) ≤ draws (l.take j) :=
    (List.take_sublist_take_left hij).countP_le
  omega

theorem nextFh_of_step {a : Act} {r : a.Ret} (h : fsMachine.Step a s r s') (ha : a ≠ .nextFh) :
    s'.nextFh = s.nextFh := by
  obtain ⟨-, (w : World), (hrun : a.run w s = (r, s'))⟩ := h
  cases a with
  | nextFh => exact absurd rfl ha
  | insertListed entries =>
    have hs : s' = (s.insertListed entries).2 := (congrArg Prod.snd hrun).symm
    rw [hs, s.insertListed_nextFh]
  | handleWrite | handleSetLen | handleClaim =>
    simp only [Act.run, FsState.handleWrite, FsState.handleSetLen, FsState.handleClaim] at hrun
    split at hrun
    · cases hrun
      rfl
    · split at hrun <;> cases hrun <;> rfl
  | attrOpened | openFile | setLen =>
    simp only [Act.run] at hrun
    split at hrun <;> cases hrun <;> rfl
  | removeFile path | removeDirAll path =>
    cases hrun
    split <;> rfl
  | _ => cases hrun; rfl

theorem draw_of_step {n : Nat} (h : fsMachine.Step .nextFh s n s') :
    n = s.nextFh ∧ s'.nextFh = (s.nextFh + 1) % counterSpace := by
  obtain ⟨-, (w : World), (hrun : Act.nextFh.run w s = (n, s'))⟩ := h
  cases hrun
  exact ⟨rfl, rfl⟩

theorem isDraw_eq_false {t : Nat} {a : Act} {r : a.Ret} (ha : a ≠ .nextFh) :
    isDraw (.acted t a r) = false := by
  cases a with
  | nextFh => exact absurd rfl ha
  | _ => rfl

/-- A number waits for its handle after it was drawn, until the handle is published. -/
theorem births_number {g : Birth} {t fh : Nat} {a : Act} {r : a.Ret}
    (h : (births.next g a r).number = some fh) :
    (Event.acted t a r : FsEvent) = .acted t .nextFh fh ∨
      (∀ fh h, a ≠ .handleInsert fh h) ∧ g.number = some fh := by
  cases a with
  | nextFh => cases h; exact .inl rfl
  | handleInsert => cases h
  | _ => exact .inr ⟨nofun, h⟩

namespace Numbered

theorem initial (disk : Disk) : Numbered (.new disk) [] where
  next := rfl
  few := Nat.zero_le _
  drawn i t n hi := by simp at hi
  pending t o fh h := by cases o <;> cases h
  published fh id h := by
    obtain ⟨i, t, h, hi, -⟩ := h
    simp at hi
  unused t o fh id h := by cases o <;> cases h

/-- No number is drawn twice. -/
theorem draw_unique (h : Numbered s l) {i j t u n : Nat}
    (hi : l[i]? = some (Event.acted t .nextFh n)) (hj : l[j]? = some (Event.acted u .nextFh n)) :
    i = j := by
  have hlt : ∀ {i t : Nat}, l[i]? = some (Event.acted t .nextFh n) →
      draws (l.take i) < counterSpace := fun {i t} hi => by
    have := draws_take_lt hi rfl (getElem?_lt hi)
    rw [List.take_length] at this
    exact this.trans_le h.few
  have heq : draws (l.take i) = draws (l.take j) := by
    have h1 := h.drawn i t n hi
    have h2 := h.drawn j u n hj
    have h3 := hlt hi
    have h4 := hlt hj
    unfold counterSpace at *
    omega
  rcases Nat.lt_trichotomy i j with hij | hij | hij
  · exact absurd heq (Nat.ne_of_lt (draws_take_lt hi rfl hij))
  · exact hij
  · exact absurd heq (Nat.ne_of_gt (draws_take_lt hj rfl hij))

/-- An entry that is no action keeps the numbers. -/
theorem snoc (h : Numbered s l) (he : ∀ t a r, e ≠ .acted t a r) : Numbered s (l ++ [e]) := by
  have hold : ∀ {i t : Nat} {a : Act} {r : a.Ret},
      (l ++ [e])[i]? = some (Event.acted t a r) → l[i]? = some (Event.acted t a r) :=
    fun hi => (getElem?_snoc_iff.1 hi).resolve_right fun hi => he _ _ _ hi.2.symm
  have hghost : ∀ (o : Op) (t : Nat),
      births.ghost (Birth.init o) t (l ++ [e]) = births.ghost (Birth.init o) t l := by
    intro o t
    cases e with
    | started u o' => exact Contract.ghost_snoc_started o'
    | returned u o' res => exact Contract.ghost_snoc_returned o' res
    | acted u a r => exact absurd rfl (he u a r)
  have hpub : ∀ {fh : Nat} {id : Str}, Published (l ++ [e]) fh id → Published l fh id := by
    rintro fh id ⟨i, t, h, hi, hid⟩
    exact ⟨i, t, h, hold hi, hid⟩
  have hdraw : isDraw e = false := by
    cases e with
    | acted u a r => exact absurd rfl (he u a r)
    | started | returned => rfl
  have hdraws : draws (l ++ [e]) = draws l := by rw [draws_snoc, hdraw]; rfl
  constructor
  · rw [hdraws]
    exact h.next
  · rw [hdraws]
    exact h.few
  · intro i t n hi
    rw [List.take_append_of_le_length (getElem?_lt (hold hi)).le]
    exact h.drawn i t n (hold hi)
  · intro t o fh hn
    rw [hghost] at hn
    obtain ⟨i, hi⟩ := h.pending t o fh hn
    exact ⟨i, getElem?_snoc e hi⟩
  · intro fh id hp
    obtain ⟨i, t, hi⟩ := h.published fh id (hpub hp)
    exact ⟨i, t, getElem?_snoc e hi⟩
  · intro t o fh id hn hp
    rw [hghost] at hn
    exact h.unused t o fh id hn (hpub hp)

variable {t : Nat} {o : Op} {a : Act} {r : a.Ret}

/-- The number the counter is at was not drawn before. -/
theorem unused_of_draw (h : Numbered s l) (hfew : draws l < counterSpace) {i u : Nat} :
    l[i]? ≠ some (Event.acted u .nextFh s.nextFh) := by
  intro hi
  have h1 := h.drawn i u _ hi
  have h2 := h.next
  have h3 := draws_take_lt hi rfl (getElem?_lt hi)
  rw [List.take_length] at h3
  unfold counterSpace at *
  omega

/-- One action, done under the contract. -/
theorem act (h : Numbered s l) (hpre : births.pre (births.ghost (Birth.init o) t l) a)
    (hfew : isDraw (.acted t a r) = true → draws l < counterSpace)
    (hstep : fsMachine.Step a s r s') : Numbered s' (l ++ [.acted t a r]) := by
  have hghost : ∀ (o' : Op) (u : Nat),
      births.ghost (Birth.init o') u (l ++ [.acted t a r]) =
        if t = u then births.next (births.ghost (Birth.init o') u l) a r
        else births.ghost (Birth.init o') u l := by
    intro o' u
    split
    · next hu => subst hu; exact Contract.ghost_snoc_acted_self a r
    · next hu => exact Contract.ghost_snoc_acted_ne hu a r
  have hend : (l ++ [Event.acted t a r])[l.length]? = some (Event.acted t a r) :=
    getElem?_snoc_self ..
  constructor
  case next =>
    rw [draws_snoc]
    by_cases ha : a = .nextFh
    · subst ha
      rw [(draw_of_step hstep).2, h.next, isDraw, if_pos rfl]
      unfold counterSpace
      omega
    · rw [nextFh_of_step hstep ha, isDraw_eq_false ha, h.next]
      rfl
  case few =>
    rw [draws_snoc]
    split
    · next hd => exact hfew hd
    · exact h.few
  case drawn =>
    intro i u n hi
    rw [List.take_append_of_le_length (by have := getElem?_lt hi; simp at this; omega)]
    rcases getElem?_snoc_iff.1 hi with hi | ⟨rfl, heq⟩
    · exact h.drawn i u n hi
    · cases heq
      rw [List.take_length, ← h.next]
      exact (draw_of_step hstep).1
  case pending =>
    intro u o' fh hn
    rw [hghost] at hn
    split at hn
    · next hu =>
      subst hu
      rcases births_number (t := t) hn with heq | ⟨-, hn⟩
      · exact ⟨l.length, heq ▸ hend⟩
      · obtain ⟨i, hi⟩ := h.pending t o' fh hn
        exact ⟨i, getElem?_snoc _ hi⟩
    · obtain ⟨i, hi⟩ := h.pending u o' fh hn
      exact ⟨i, getElem?_snoc _ hi⟩
  case published =>
    rintro fh id ⟨i, u, h', hi, hid⟩
    rcases getElem?_snoc_iff.1 hi with hi | ⟨-, hi⟩
    · obtain ⟨j, v, hj⟩ := h.published fh id ⟨i, u, h', hi, hid⟩
      exact ⟨j, v, getElem?_snoc _ hj⟩
    · cases hi
      obtain ⟨j, hj⟩ := h.pending t o fh hpre.2
      exact ⟨j, t, getElem?_snoc _ hj⟩
  case unused =>
    rintro u o' fh id hn ⟨i, v, h', hi, hid⟩
    rw [hghost] at hn
    rcases getElem?_snoc_iff.1 hi with hi | ⟨-, hi⟩
    · have hp : Published l fh id := ⟨i, v, h', hi, hid⟩
      split at hn
      · rcases births_number (t := t) hn with heq | ⟨-, hn⟩
        · -- the number was drawn only now
          obtain ⟨j, w, hj⟩ := h.published fh id hp
          have ha : a = .nextFh := by cases heq; rfl
          subst ha
          cases heq
          rw [(draw_of_step hstep).1] at hj
          exact h.unused_of_draw (hfew rfl) hj
        · exact h.unused u o' fh id hn hp
      · exact h.unused u o' fh id hn hp
    · cases hi
      obtain ⟨j, hj⟩ := h.pending t o fh hpre.2
      split at hn
      · next hu => cases hn
      · next hu =>
        obtain ⟨j', hj'⟩ := h.pending u o' fh hn
        cases h.draw_unique hj hj'
        cases hj.symm.trans hj'
        exact hu rfl

end Numbered

end

/-- **No handle number is handed out twice**, in a run that does not draw too many. -/
theorem handedOutOnce_of_step {nfc : Str → Str} {cacheRoot : Option Str} {disk : Disk}
    {c c' : FsConfig} {e : FsEvent} {ok : FsConfig → FsEvent → Prop}
    (hok : ∀ c e, ok c e → DrawsFew c e)
    (hrun : (fsService nfc cacheRoot).Run ok (.initial (.new disk)) c)
    (hst : (fsService nfc cacheRoot).Step c e c') : HandedOutOnce c e := by
  have hnum : Numbered c.st c.log :=
    hrun.invariant_of_contract (I := fun c => Numbered c.st c.log)
      (births_honoured nfc cacheRoot) (fun _ _ _ _ _ _ _ _ => trivial) (.initial disk)
      (fun _ _ _ _ hI _ _ _ => hI.snoc nofun)
      (fun _ _ _ _ _ _ _ _ hI _ hpre hadm hstep => hI.act hpre (hok _ _ hadm) hstep)
      fun _ _ _ _ _ hI _ _ _ => hI.snoc nofun
  unfold HandedOutOnce
  split
  · next t fh h r =>
    cases hst with
    | act hlive hm =>
      have hpre := (hrun.obeys (births_honoured nfc cacheRoot)
        (fun _ _ _ _ _ _ _ _ => trivial) hlive).1
      exact fun id => hnum.unused t _ fh id hpre.2
  · trivial

end UnidriveMount
