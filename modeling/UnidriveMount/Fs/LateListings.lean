import UnidriveMount.Fs.Following
import UnidriveMount.Fs.Fresh

/-!
# Listings that come late

`populate_from_list` asks the daemon under one lock and takes its reply over under others. A removal, a
rename or a change event that falls in between is lost: the entry that was dropped from the view is put
back as the daemon listed it before, and `lookup` and `getattr` trust it from then on. The reply to a
listing, and to a change, stands for the moment at which the daemon came to it: a change whose reply is
later in the run is one that the listing does not have.

Which attributes were taken from which reply is read off the log (`listings`), and so is what a request
has changed and has still to drop from the view (`clearing`). In every run in which a reply is taken over
before any of its entries is dropped for a change made since (`TakenInTime`), nothing that was listed
before a change is left after it (`nothing_late`).
-/

namespace UnidriveMount

open Lib
open Lib.Prog (only_perform)

/-! ## Where attributes come from -/

/-- What the log says about listings: its length, where in it each request was last answered one, and
which cached attributes were taken from a listing, with the path they were listed under and the place of
the reply in the log. -/
structure Listings : Type where
  length : Nat
  replies : Nat → Option Nat
  taken : Ino → Option (Str × Nat)

namespace Listings

/-- Nothing was listed yet. -/
def init : Listings := ⟨0, fun _ => none, fun _ => none⟩

/-- The listed inodes have attributes from the reply at `reply`. -/
def takeOver (reply : Option Nat) (taken : Ino → Option (Str × Nat)) (out : List (Ino × ListEntry)) :
    Ino → Option (Str × Nat) :=
  out.foldl (fun taken x => Function.update taken x.1 (reply.map fun k => (x.2.path, k))) taken

/-- What an entry of the log changes. The attributes of an entry that a rename moves were not listed
under its new path. -/
def next (g : Listings) : FsEvent → Listings
  | .acted t (.reply (.list _)) (.ok _) =>
    { g with length := g.length + 1, replies := Function.update g.replies t (some g.length) }
  | .acted t (.insertListed _) out =>
    { g with length := g.length + 1, taken := takeOver (g.replies t) g.taken out }
  | .acted _ (.attrInsert ino _) _ =>
    { g with length := g.length + 1, taken := Function.update g.taken ino none }
  | .acted _ (.renamePaths old new) _ =>
    { g with
      length := g.length + 1
      taken := fun ino => (g.taken ino).filter fun x => moved old new x.1 = x.1 }
  | _ => { g with length := g.length + 1 }

end Listings

/-- What the log says about listings. -/
def listings (l : List FsEvent) : Listings := l.foldl Listings.next .init

theorem listings_snoc (l : List FsEvent) (e : FsEvent) : listings (l ++ [e]) = (listings l).next e := by
  simp [listings]

/-- The attributes of `ino` were listed under `p` by the reply at `k`. -/
def TakenFrom (l : List FsEvent) (ino : Ino) (p : Str) (k : Nat) : Prop :=
  (listings l).taken ino = some (p, k)

/-- The last listing of request `t` is the reply at `k`. -/
def RepliedAt (l : List FsEvent) (t k : Nat) : Prop := (listings l).replies t = some k

/-! ## Changes -/

/-- The change event names the path, or everything. -/
def Invalidation.Names : Invalidation → Str → Prop
  | .all, _ => True
  | .paths roots, p => isAtOrBelow p roots = true

/-- Request `t` changes `p`: the daemon has removed it or moved it away for the request, or the request
is a change event that names it. -/
def Changes (t : Nat) (p : Str) : FsEvent → Prop
  | .acted u (.reply (.unlink q)) (.ok _) | .acted u (.reply (.rmdir q)) (.ok _) => u = t ∧ q = p
  | .acted u (.reply (.rename old new)) (.ok _) => u = t ∧ moved old new p ≠ p
  | .started u (.apply change) => u = t ∧ change.Names p
  | _ => False

/-- Request `t` changed `p` at the entry `i` of the log. -/
def ChangedAt (l : List FsEvent) (t : Nat) (p : Str) (i : Nat) : Prop :=
  ∃ e, l[i]? = some e ∧ Changes t p e

/-- The change event that is request `t` found unsent writes at `p`. -/
def Spared (l : List FsEvent) (t : Nat) (p : Str) : Prop :=
  ∃ (i : Nat) (unsent : List Str), l[i]? = some (.acted t .unsentPaths unsent) ∧ p ∈ unsent

/-- The action drops `p` from the view. -/
def Act.Clears : Act → Str → Prop
  | .forget q, p => q = p
  | .renamePaths old new, p => moved old new p ≠ p
  | .applyInvalidation change unsent, p => change.Names p ∧ p ∉ unsent
  | _, _ => False

/-- A request changed `p` at the entry `i` of the log, and has dropped it from the view since. -/
def ClearedAt (l : List FsEvent) (t : Nat) (p : Str) (i : Nat) : Prop :=
  ChangedAt l t p i ∧ ∃ (d : Nat) (a : Act) (r : a.Ret), i < d ∧ l[d]? = some (.acted t a r) ∧ a.Clears p

/-- Nothing late is left: when a request that changed `p` has returned Ok, the attributes cached for `p`
were not listed under `p` before the change. A change event leaves the entries with unsent writes. -/
def NothingLate (c : FsConfig) : Prop :=
  ∀ (t i j : Nat) (p : Str) (o : Op) (x : Reply), ChangedAt c.log t p i →
    c.log[j]? = some (.returned t o (.ok x)) → i < j → ¬ Spared c.log t p →
    ∀ (ino : Ino) (a : CachedAttr) (k : Nat), c.st.paths.inodeFor p = some ino →
      c.st.attrs.get ino = some a → TakenFrom c.log ino p k → i < k

/-- A reply is taken over before any entry of it is dropped from the view for a change made since. The
inode counter does not wrap around. -/
structure TakenInTime (c : FsConfig) (e : FsEvent) : Prop where
  room : ∀ t a r, e = .acted t a r → c.st.paths.next + a.interned < inodeSpace
  timely : ∀ (t k : Nat) (entries : List ListEntry) (out : List (Ino × ListEntry)),
    e = .acted t (.insertListed entries) out → RepliedAt c.log t k →
      ∀ x ∈ entries, ∀ u i, ClearedAt c.log u x.path i → i < k

/-! ## The contract -/

/-- What a request has changed and not dropped from the view yet. A change event looks for unsent writes
before it drops anything. -/
inductive Uncleared : Type where
  | removed (p : Str)
  | moved (old new : Str)
  | named (change : Invalidation) (unsent : Option (List Str))

/-- The path is among what is still to be dropped. -/
def Uncleared.Covers : Uncleared → Str → Prop
  | .removed q, p => q = p
  | .moved old new, p => UnidriveMount.moved old new p ≠ p
  | .named change unsent, p => change.Names p ∧ ∀ l, unsent = some l → p ∉ l

/-- The contract of the requests with respect to the view: what was changed is dropped before anything
else is changed, and nothing else is dropped. -/
def clearing : Contract Act Act.Ret (Option Uncleared) where
  pre
    | g, .reply (.unlink _) | g, .reply (.rmdir _) | g, .reply (.rename ..) => g = none
    | g, .forget p => g = some (.removed p)
    | g, .renamePaths old new => g = some (.moved old new)
    | g, .applyInvalidation change unsent => g = some (.named change (some unsent))
    | _, _ => True
  allow _ _ _ := True
  next
    | _, .reply (.unlink p), .ok _ | _, .reply (.rmdir p), .ok _ => some (.removed p)
    | _, .reply (.rename old new), .ok _ => some (.moved old new)
    | some (.named change _), .unsentPaths, unsent => some (.named change (some unsent))
    | _, .forget _, _ | _, .renamePaths .., _ | _, .applyInvalidation .., _ => none
    | g, _, _ => g

/-- A change event starts with everything it names. -/
def Op.uncleared : Op → Option Uncleared
  | .apply change => some (.named change none)
  | _ => none

/-- A request ends with everything dropped that it has changed. -/
def Cleared {α : Type} (_ : Except Errno α) (g : Option Uncleared) : Prop := g = none

/-- The action neither changes anything nor drops anything from the view. -/
def Act.Neutral : Act → Prop
  | reply (.unlink _) | reply (.rmdir _) | reply (.rename ..) | forget _ | renamePaths ..
  | applyInvalidation .. | unsentPaths => False
  | _ => True

/-- The request removes, moves or invalidates. -/
def Op.Unsettles : Op → Prop
  | unlink .. | rmdir .. | rename .. | apply _ => True
  | _ => False

theorem Act.Looks.neutral {a : Act} (h : a.Looks) : a.Neutral := by
  cases a with
  | reply verb => cases verb <;> first | exact h.elim | trivial
  | forget | renamePaths | applyInvalidation | unsentPaths => exact h.elim
  | _ => trivial

theorem Act.Records.neutral {a : Act} (h : a.Records) : a.Neutral := by
  cases a <;> first | exact h.elim | trivial

/-- No other request does so. -/
theorem Op.May.neutral {o : Op} (ho : ¬ o.Unsettles) {a : Act} (h : o.May a) : a.Neutral := by
  cases a with
  | reply verb =>
    cases verb with
    | unlink | rmdir | rename =>
      rcases h with h | h
      · cases o with
        | unlink | rmdir | rename => exact ho trivial
        | _ => exact h
      · cases o <;> simp [Op.Shared, Act.Looks, Act.Lists, Act.Records, Act.Forgets, Act.Commits] at h
    | _ => trivial
  | forget | renamePaths | applyInvalidation | unsentPaths =>
    rcases h with h | h
    · cases o with
      | unlink | rmdir | rename | apply => exact ho trivial
      | _ => exact h
    · cases o with
      | unlink | rmdir => exact ho trivial
      | _ => simp [Op.Shared, Act.Looks, Act.Lists, Act.Records, Act.Commits] at h
  | _ => trivial

section
variable {nfc : Str → Str} {cacheRoot : Option Str} {α β : Type} {g : Option Uncleared} {a : Act}

theorem clearing_pre (ha : a.Neutral) : clearing.pre g a := by
  cases a with
  | reply verb => cases verb <;> first | exact ha.elim | trivial
  | forget | renamePaths | applyInvalidation => exact ha.elim
  | _ => trivial

theorem clearing_next (r : a.Ret) (ha : a.Neutral) : clearing.next g a r = g := by
  cases a with
  | reply verb => cases verb <;> first | exact ha.elim | (rcases g with _ | _ | _ | _ <;> rfl)
  | forget | renamePaths | applyInvalidation | unsentPaths => exact ha.elim
  | _ => rcases g with _ | _ | _ | _ <;> rfl

/-- What neither changes nor drops anything can be skipped. -/
theorem clearing_skip {p : FsProg α} {f : α → FsProg β} (hp : p.Only Act.Neutral)
    (hf : ∀ x, clearing.Obeys Cleared (f x) none) : clearing.Obeys Cleared (p >>= f) none :=
  Contract.obeys_bind_of_only hp (fun _ => clearing_pre) (fun _ r ha => clearing_next r ha)
    (fun _ => rfl) hf

theorem clearing_of_only {p : FsProg α} (hp : p.Only Act.Neutral) : clearing.Obeys Cleared p none :=
  Contract.obeys_of_only hp (fun _ => clearing_pre) (fun _ r ha => clearing_next r ha) fun _ => rfl

/-- What follows starts with everything dropped. -/
theorem clearing_bind {p : FsProg α} {f : α → FsProg β} (hp : clearing.Obeys Cleared p g)
    (hf : ∀ x, clearing.Obeys Cleared (f x) none) : clearing.Obeys Cleared (p >>= f) g := by
  refine Contract.obeys_bind.2 (hp.mono fun res g hg => ?_)
  cases hg
  cases res with
  | ok x => exact hf x
  | error e => exact rfl

/-- What was removed is forgotten. -/
theorem forgetEntry_clearing (cp : Str) :
    clearing.Obeys Cleared (forgetEntry cp) (some (.removed cp)) := by
  refine Contract.obeys_perform_bind.2 ⟨rfl, fun ino _ => clearing_of_only ?_⟩
  refine .bind (only_perform trivial) fun _ => ?_
  cases ino with
  | some inode => exact only_perform trivial
  | none => exact only_pure _

/-- A call that may change something, and what follows it. -/
theorem clearing_ipc {verb : Verb} {ch : Uncleared} {f : verb.Reply → FsProg β}
    (hcall : Act.Neutral (.call verb)) (hreply : clearing.pre none (.reply verb))
    (hok : ∀ r, clearing.next none (.reply verb) (.ok r) = some ch)
    (herr : ∀ e, clearing.next none (.reply verb) (.error e) = none)
    (hf : ∀ r, clearing.Obeys Cleared (f r) (some ch)) :
    clearing.Obeys Cleared (ipc verb >>= fun r => mapErr namespaceErrToErrno r >>= f) none := by
  refine ⟨clearing_pre hcall, fun _ _ => ?_⟩
  rw [clearing_next _ hcall]
  refine ⟨hreply, fun r _ => ?_⟩
  cases r with
  | ok r => exact hok r ▸ hf r
  | error e => exact herr e

theorem unlink_clearing {parent : Ino} {name : OsStr} :
    clearing.Obeys Cleared (unlink nfc cacheRoot parent name) none := by
  refine clearing_skip (only_okOr ..) fun name => clearing_skip (only_perform trivial) fun _ =>
    clearing_skip (only_okOr ..) fun parentPath => ?_
  refine clearing_ipc trivial rfl (fun _ => rfl) (fun _ => rfl) fun _ =>
    clearing_bind (forgetEntry_clearing _) fun _ => clearing_of_only ?_
  cases cacheRoot with
  | some root => exact only_perform trivial
  | none => exact only_pure _

theorem rmdir_clearing {parent : Ino} {name : OsStr} :
    clearing.Obeys Cleared (rmdir nfc cacheRoot parent name) none := by
  refine clearing_skip (only_okOr ..) fun name => clearing_skip (only_perform trivial) fun _ =>
    clearing_skip (only_okOr ..) fun parentPath => ?_
  refine clearing_ipc trivial rfl (fun _ => rfl) (fun _ => rfl) fun _ =>
    clearing_bind (forgetEntry_clearing _) fun _ => clearing_of_only ?_
  cases cacheRoot with
  | some root => exact only_perform trivial
  | none => exact only_pure _

theorem rename_clearing {oldParent newParent : Ino} {oldName newName : OsStr} :
    clearing.Obeys Cleared (rename nfc oldParent oldName newParent newName) none := by
  refine clearing_skip (only_okOr ..) fun oldName => clearing_skip (only_okOr ..) fun newName =>
    clearing_skip (only_perform trivial) fun parents => clearing_skip (only_okOr ..) fun _ =>
    clearing_skip (only_okOr ..) fun _ =>
    clearing_skip (refuseNfcCollision_only fun _ ha => ha.neutral) fun _ => ?_
  refine clearing_ipc trivial rfl (fun _ => rfl) (fun _ => rfl) fun _ =>
    Contract.obeys_perform_bind.2 ⟨rfl, fun _ _ => clearing_of_only ?_⟩
  exact .bind (only_perform trivial) fun _ => .bind (only_perform trivial) fun _ =>
    recordRawName_only fun _ ha => ha.neutral

/-- **Every request drops what it has changed.** -/
theorem clearing_honoured (nfc : Str → Str) (cacheRoot : Option Str) :
    (fsService nfc cacheRoot).Honours clearing Op.uncleared (fun _ => Cleared) := by
  intro o
  by_cases ho : o.Unsettles
  · cases o with
    | unlink => exact clearing_bind unlink_clearing fun _ => rfl
    | rmdir => exact clearing_bind rmdir_clearing fun _ => rfl
    | rename => exact clearing_bind rename_clearing fun _ => rfl
    | apply => exact ⟨trivial, fun _ _ => ⟨rfl, fun _ _ => rfl⟩⟩
    | _ => exact ho.elim
  · have hnone : o.uncleared = none := by
      cases o with
      | apply => exact absurd trivial ho
      | _ => rfl
    rw [hnone]
    exact clearing_of_only ((Op.prog_only o).mono fun _ ha => ha.neutral ho)

end

/-! ## The log -/

section
variable {l : List FsEvent} {e : FsEvent} {t i k : Nat} {p : Str} {ino : Ino} {a : Act} {r : a.Ret}

theorem ChangedAt.lt (h : ChangedAt l t p i) : i < l.length := by
  obtain ⟨e, hi, -⟩ := h
  exact getElem?_lt hi

theorem ChangedAt.snoc (h : ChangedAt l t p i) (e : FsEvent) : ChangedAt (l ++ [e]) t p i := by
  obtain ⟨e', hi, he⟩ := h
  exact ⟨e', getElem?_snoc e hi, he⟩

/-- A change is an old one, or what the last entry does. -/
theorem changedAt_snoc (h : ChangedAt (l ++ [e]) t p i) : ChangedAt l t p i ∨ Changes t p e := by
  obtain ⟨e', hi, he⟩ := h
  rcases getElem?_snoc_iff.1 hi with hi | ⟨-, rfl⟩
  · exact .inl ⟨e', hi, he⟩
  · exact .inr he

theorem Spared.snoc (h : Spared l t p) (e : FsEvent) : Spared (l ++ [e]) t p := by
  obtain ⟨i, unsent, hi, hp⟩ := h
  exact ⟨i, unsent, getElem?_snoc e hi, hp⟩

theorem ClearedAt.snoc (h : ClearedAt l t p i) (e : FsEvent) : ClearedAt (l ++ [e]) t p i := by
  obtain ⟨hch, d, a, r, hid, hd, ha⟩ := h
  exact ⟨hch.snoc e, d, a, r, hid, getElem?_snoc e hd, ha⟩

theorem Spared.of_take {n : Nat} (h : Spared (l.take n) t p) : Spared l t p := by
  obtain ⟨i, unsent, hi, hp⟩ := h
  exact ⟨i, unsent, getElem?_of_take hi, hp⟩

theorem ClearedAt.of_take {n : Nat} (h : ClearedAt (l.take n) t p i) : ClearedAt l t p i := by
  obtain ⟨⟨e, hi, he⟩, d, a, r, hid, hd, ha⟩ := h
  exact ⟨⟨e, getElem?_of_take hi, he⟩, d, a, r, hid, getElem?_of_take hd, ha⟩

/-- A change that is cleared was so before, or the last entry clears it. -/
theorem clearedAt_snoc (h : ClearedAt (l ++ [e]) t p i) :
    ClearedAt l t p i ∨ ∃ (a : Act) (r : a.Ret), e = .acted t a r ∧ a.Clears p := by
  obtain ⟨⟨e', hi, he⟩, d, a, r, hid, hd, ha⟩ := h
  rcases getElem?_snoc_iff.1 hd with hd | ⟨-, rfl⟩
  · have hlt : i < l.length := hid.trans (getElem?_lt hd)
    rw [List.getElem?_append_left hlt] at hi
    exact .inl ⟨⟨e', hi, he⟩, d, a, r, hid, hd, ha⟩
  · exact .inr ⟨a, r, rfl, ha⟩

/-- An attribute that comes from the reply is one of those just listed, or it did before. -/
theorem Listings.takeOver_eq_some {reply : Option Nat} {taken : Ino → Option (Str × Nat)}
    {out : List (Ino × ListEntry)} (h : takeOver reply taken out ino = some (p, k)) :
    (∃ x ∈ out, x.1 = ino ∧ x.2.path = p ∧ reply = some k) ∨
      taken ino = some (p, k) ∧ ∀ x ∈ out, x.1 ≠ ino := by
  induction out generalizing taken with
  | nil => exact .inr ⟨h, nofun⟩
  | cons x out ih =>
    rcases ih h with ⟨y, hy, heq⟩ | ⟨hold, hout⟩
    · exact .inl ⟨y, List.mem_cons_of_mem _ hy, heq⟩
    · dsimp only at hold
      by_cases hx : x.1 = ino
      · rw [hx, Function.update_self] at hold
        obtain ⟨k', hk, heq⟩ := Option.map_eq_some_iff.1 hold
        cases heq
        exact .inl ⟨x, List.mem_cons_self .., hx, rfl, hk⟩
      · rw [Function.update_of_ne (Ne.symm hx)] at hold
        exact .inr ⟨hold, List.forall_mem_cons.2 ⟨hx, hout⟩⟩

/-- The action leaves the attributes of `ino`, which were listed under `p`, as they are. -/
structure KeepsListed (ino : Ino) (p : Str) (t : Nat) (a : Act) (r : a.Ret) : Prop where
  inserted : ∀ attr, a ≠ .attrInsert ino attr
  renamed : ∀ old new, a = .renamePaths old new → moved old new p = p
  listed : ∀ (entries : List ListEntry) (out : List (Ino × ListEntry)),
    (.acted t a r : FsEvent) = .acted t (.insertListed entries) out → ∀ x ∈ out, x.1 ≠ ino

/-- How attributes come to be those of a reply. -/
theorem takenFrom_snoc_acted (h : TakenFrom (l ++ [.acted t a r]) ino p k) :
    (∃ (entries : List ListEntry) (out : List (Ino × ListEntry)), ∃ x ∈ out,
      (.acted t a r : FsEvent) = .acted t (.insertListed entries) out ∧ x.1 = ino ∧ x.2.path = p ∧
        RepliedAt l t k) ∨
    TakenFrom l ino p k ∧ KeepsListed ino p t a r := by
  unfold TakenFrom at h ⊢
  rw [listings_snoc] at h
  cases a with
  | insertListed entries =>
    rcases Listings.takeOver_eq_some h with ⟨x, hx, hino, hp, hk⟩ | ⟨hold, hout⟩
    · exact .inl ⟨entries, r, x, hx, rfl, hino, hp, hk⟩
    · refine .inr ⟨hold, nofun, nofun, fun entries' out heq => ?_⟩
      cases heq
      exact hout
  | attrInsert ino' attr =>
    have hold : Function.update (listings l).taken ino' none ino = some (p, k) := h
    by_cases hino : ino = ino'
    · subst hino
      rw [Function.update_self] at hold
      cases hold
    · rw [Function.update_of_ne hino] at hold
      refine .inr ⟨hold, fun attr' heq => ?_, nofun, nofun⟩
      cases heq
      exact hino rfl
  | renamePaths old new =>
    obtain ⟨hold, hp⟩ := Option.filter_eq_some_iff.1 h
    refine .inr ⟨hold, nofun, fun old' new' heq => ?_, nofun⟩
    cases heq
    exact of_decide_eq_true hp
  | reply verb =>
    refine .inr ⟨?_, nofun, nofun, nofun⟩
    cases verb <;> cases r <;> exact h
  | _ => exact .inr ⟨h, nofun, nofun, nofun⟩

end

/-! ## Changes are cleared -/

/-- Every change has been dropped from the view, or its request, which is in progress, has still to do
so; a change event spares the paths with unsent writes. -/
def ClearsAll (c : FsConfig) : Prop :=
  ∀ t p i, ChangedAt c.log t p i → Spared c.log t p ∨ ClearedAt c.log t p i ∨
    ∃ o q ch, c.live t = some (o, q) ∧ clearing.ghost o.uncleared t c.log = some ch ∧ ch.Covers p

section
variable {c : FsConfig} {l : List FsEvent} {t u i : Nat} {p : Str} {o : Op} {a : Act} {r : a.Ret}
  {ch : Uncleared} {q : FsProg Reply} {s : FsState} {k : a.Ret → FsProg Reply}

/-- A change is noted. -/
theorem uncleared_of_changes {g : Option Uncleared} (h : Changes u p (.acted t a r)) :
    t = u ∧ ∃ ch, clearing.next g a r = some ch ∧ ch.Covers p := by
  cases a with
  | reply verb =>
    cases verb with
    | unlink | rmdir | rename =>
      cases r with
      | ok r => exact ⟨h.1, _, rfl, h.2⟩
      | error e => exact h.elim
    | _ => exact h.elim
  | _ => exact h.elim

/-- A path that is still to be dropped stays so until it is dropped or spared. -/
theorem covers_next (hch : ch.Covers p) (hpre : clearing.pre (some ch) a) :
    a.Clears p ∨ Spared (l ++ [.acted t a r]) t p ∨
      ∃ ch', clearing.next (some ch) a r = some ch' ∧ ch'.Covers p := by
  by_cases ha : a.Neutral
  · rw [clearing_next r ha]
    exact .inr (.inr ⟨ch, rfl, hch⟩)
  · cases a with
    | forget | renamePaths =>
      cases hpre
      exact .inl hch
    | applyInvalidation change unsent =>
      cases hpre
      exact .inl ⟨hch.1, hch.2 _ rfl⟩
    | unsentPaths =>
      cases ch with
      | removed | moved => exact .inr (.inr ⟨_, rfl, hch⟩)
      | named change unsent =>
        by_cases hp : p ∈ r
        · exact .inr (.inl ⟨l.length, r, getElem?_snoc_self .., hp⟩)
        · refine .inr (.inr ⟨_, rfl, hch.1, ?_⟩)
          rintro _ ⟨⟩
          exact hp
    | reply verb =>
      cases verb with
      | unlink | rmdir | rename => cases hpre
      | _ => exact absurd trivial ha
    | _ => exact absurd trivial ha

namespace ClearsAll

theorem initial (s : FsState) : ClearsAll (.initial s) := by
  intro t p i h
  exact absurd h.lt (Nat.not_lt_zero i)

theorem start (hI : ClearsAll c) (hfresh : ∀ e ∈ c.log, e.tid ≠ t) (hnone : c.live t = none) :
    ClearsAll (c.start t o q) := by
  intro u p i h
  rcases changedAt_snoc h with hold | hnew
  · rcases hI u p i hold with hs | hc | ⟨o', q', ch, hlive, hg, hch⟩
    · exact .inl (hs.snoc _)
    · exact .inr (.inl (hc.snoc _))
    · refine .inr (.inr ⟨o', q', ch, ?_, ?_, hch⟩)
      · rw [Config.start_live, if_neg ?_]
        · exact hlive
        · rintro rfl
          cases hnone.symm.trans hlive
      · rw [Config.start_log, Contract.ghost_snoc_started]
        exact hg
  · cases o with
    | apply change =>
      obtain ⟨rfl, hnames⟩ := hnew
      refine .inr (.inr ⟨.apply change, q, .named change none, ?_, ?_, hnames, fun l hl => ?_⟩)
      · rw [Config.start_live, if_pos rfl]
      · rw [Config.start_log, Contract.ghost_snoc_started, Contract.ghost_eq_init hfresh]
        rfl
      · cases hl
    | _ => exact hnew.elim

theorem act (hI : ClearsAll c) (hlive : c.live t = some (o, .act a k))
    (hpre : clearing.pre (clearing.ghost o.uncleared t c.log) a) : ClearsAll (c.act t o a r q s) := by
  have hself : (c.act t o a r q s).live t = some (o, q) := by rw [Config.act_live, if_pos rfl]
  intro u p i h
  rcases changedAt_snoc h with hold | hnew
  · rcases hI u p i hold with hs | hc | ⟨o', q', ch, hlive', hg, hch⟩
    · exact .inl (hs.snoc _)
    · exact .inr (.inl (hc.snoc _))
    · by_cases hu : u = t
      · subst hu
        cases hlive.symm.trans hlive'
        rw [hg] at hpre
        rcases covers_next (l := c.log) (t := u) (r := r) hch hpre with ha | hs | ⟨ch', hg', hch'⟩
        · exact .inr (.inl ⟨hold.snoc _, c.log.length, a, r, hold.lt, getElem?_snoc_self .., ha⟩)
        · exact .inl hs
        · refine .inr (.inr ⟨o, q, ch', hself, ?_, hch'⟩)
          rw [Config.act_log, Contract.ghost_snoc_acted_self, hg]
          exact hg'
      · refine .inr (.inr ⟨o', q', ch, ?_, ?_, hch⟩)
        · rw [Config.act_live, if_neg hu]
          exact hlive'
        · rw [Config.act_log, Contract.ghost_snoc_acted_ne (Ne.symm hu)]
          exact hg
  · obtain ⟨rfl, ch, hg, hch⟩ := uncleared_of_changes hnew
    refine .inr (.inr ⟨o, q, ch, hself, ?_, hch⟩)
    rw [Config.act_log, Contract.ghost_snoc_acted_self]
    exact hg

theorem finish (hI : ClearsAll c) {res : Except Errno Reply} (hlive : c.live t = some (o, .ret res))
    (hpost : clearing.ghost o.uncleared t c.log = none) : ClearsAll (c.finish t o res) := by
  intro u p i h
  have hold := (changedAt_snoc h).resolve_right id
  rcases hI u p i hold with hs | hc | ⟨o', q', ch, hlive', hg, hch⟩
  · exact .inl (hs.snoc _)
  · exact .inr (.inl (hc.snoc _))
  · by_cases hu : u = t
    · subst hu
      cases hlive.symm.trans hlive'
      cases hpost.symm.trans hg
    · refine .inr (.inr ⟨o', q', ch, ?_, ?_, hch⟩)
      · rw [Config.finish_live, if_neg hu]
        exact hlive'
      · rw [Config.finish_log, Contract.ghost_snoc_returned]
        exact hg

end ClearsAll

end

section
variable {nfc : Str → Str} {cacheRoot : Option Str} {disk : Disk} {c : FsConfig}
  {ok : FsConfig → FsEvent → Prop}

theorem run_clearsAll (h : (fsService nfc cacheRoot).Run ok (.initial (.new disk)) c) : ClearsAll c :=
  h.invariant_of_contract (clearing_honoured nfc cacheRoot) (fun _ _ _ _ _ _ _ _ => trivial)
    (.initial _) (fun _ _ _ _ hI hfresh hnone _ => hI.start hfresh hnone)
    (fun _ _ _ _ _ _ _ _ hI hlive hpre _ _ => hI.act hlive hpre)
    fun _ _ _ _ _ hI hlive hpost _ => hI.finish hlive hpost

/-- **When a request returns, what it has changed is dropped**, but for what it spares. -/
theorem clearedAt_of_returned (h : (fsService nfc cacheRoot).Run ok (.initial (.new disk)) c)
    {t i j : Nat} {p : Str} {o : Op} {res : Except Errno Reply} (hch : ChangedAt c.log t p i)
    (hj : c.log[j]? = some (.returned t o res)) (hij : i < j) :
    Spared c.log t p ∨ ClearedAt c.log t p i := by
  obtain ⟨c₁, c₂, hrun, hst, -, hlog⟩ := h.step_of_getElem? hj
  have hch₁ : ChangedAt c₁.log t p i := by
    obtain ⟨e, hi, he⟩ := hch
    refine ⟨e, ?_, he⟩
    rw [hlog, List.getElem?_take_of_lt hij]
    exact hi
  rcases run_clearsAll hrun t p i hch₁ with hs | hc | ⟨o', q, ch, hlive, hg, -⟩
  · rw [hlog] at hs
    exact .inl hs.of_take
  · rw [hlog] at hc
    exact .inr hc.of_take
  · -- the request is about to return, with nothing left to drop
    cases hst with
    | finish hlive' =>
      cases hlive.symm.trans hlive'
      have hpost := hrun.obeys (clearing_honoured nfc cacheRoot) (fun _ _ _ _ _ _ _ _ => trivial) hlive
      cases (hg.symm.trans hpost)

end

/-! ## Nothing late is left -/

/-- What is known of attributes that were taken from a listing: their inode is at the path they were
listed under, or at none; and after a change that is cleared, those that are still cached for the path
come from a later reply. -/
structure InTime (c : FsConfig) : Prop where
  sound : c.st.paths.Sound
  known : ∀ ino p k, TakenFrom c.log ino p k → ino < c.st.paths.next ∧
    ∀ q, c.st.paths.pathFor ino = some q → q = p
  since : ∀ t p i, ClearedAt c.log t p i → ∀ ino a k, c.st.paths.inodeFor p = some ino →
    c.st.attrs.get ino = some a → TakenFrom c.log ino p k → i < k

section
variable {c : FsConfig} {t u i j : Nat} {p : Str} {o : Op} {a : Act} {r : a.Ret} {q : FsProg Reply}
  {s : FsState} {ino : Ino} {n : Nat}

/-- What is cleared is not cached any more. -/
theorem not_cached_of_clears {s s' : FsState} (hst : fsMachine.Step a s r s') (hs : s.paths.Sound)
    (ha : a.Clears p) (hkeeps : KeepsListed ino p t a r) (hino : s'.paths.inodeFor p = some ino) :
    s'.attrs.get ino = none := by
  obtain ⟨-, (w : World), (hrun : a.run w s = (r, s'))⟩ := hst
  cases a with
  | forget path =>
    cases hrun
    obtain rfl : path = p := ha
    have hnone : (s.paths.forget path).2.inodeFor path = some ino := hino
    rw [PathMap.forget_inodeFor, if_pos rfl] at hnone
    cases hnone
  | renamePaths old new => exact absurd (hkeeps.renamed old new rfl) ha
  | applyInvalidation change unsent =>
    cases hrun
    obtain ⟨hnames, hunsent⟩ := ha
    have hconcerns : s.Concerns ino change := by
      cases change with
      | all => trivial
      | paths roots => exact PathMap.mem_inodesAtOrBelow.2 ⟨p, hino, hnames⟩
    rcases s.get_invalidatedAttrs change unsent ino with ⟨-, -, hnone⟩ | ⟨hnot, -⟩
    · exact hnone
    · obtain ⟨v, hv, hvino⟩ := List.mem_filterMap.1 (hnot.resolve_left (not_not_intro hconcerns))
      exact absurd (hs.toWF.inode_inj hvino hino ▸ hv) hunsent
  | _ => exact ha.elim

/-- Attributes that an action keeps were cached before it. -/
theorem cached_of_keepsListed {s s' : FsState} {b : CachedAttr} (hst : fsMachine.Step a s r s')
    (hkeeps : KeepsListed ino p t a r) (hb : s'.attrs.get ino = some b) :
    ∃ b', s.attrs.get ino = some b' := by
  by_cases ha : a.Inserts
  · obtain ⟨-, (w : World), (hrun : a.run w s = (r, s'))⟩ := hst
    cases a with
    | attrInsert ino' attr =>
      cases hrun
      have hne : ino ≠ ino' := by
        rintro rfl
        exact hkeeps.inserted attr rfl
      exact ⟨b, (HashMap.get_insert_ne _ _ hne).symm.trans hb⟩
    | insertListed entries =>
      obtain ⟨rfl, rfl⟩ : r = (s.insertListed entries).1 ∧ s' = (s.insertListed entries).2 :=
        ⟨(congrArg Prod.fst hrun).symm, (congrArg Prod.snd hrun).symm⟩
      rcases FsState.get_insertListed hb with hold | ⟨x, hx, hxino, -⟩
      · exact ⟨b, hold⟩
      · exact absurd hxino (hkeeps.listed entries _ rfl x hx)
    | _ => exact ha.elim
  · exact attrs_of_step hst ha hb

namespace InTime

theorem initial (disk : Disk) : InTime (.initial (.new disk)) where
  sound := .new
  known ino p k h := by cases h
  since t p i h := absurd h.1.lt (Nat.not_lt_zero i)

/-- The start and the end of a request. -/
theorem snoc {c' : FsConfig} {e : FsEvent} (hI : InTime c) (hst : c'.st = c.st)
    (hlog : c'.log = c.log ++ [e]) (he : ∀ t a r, e ≠ .acted t a r) : InTime c' := by
  have htaken : ∀ {ino p k}, TakenFrom c'.log ino p k → TakenFrom c.log ino p k := by
    intro ino p k h
    unfold TakenFrom at h ⊢
    rw [hlog, listings_snoc] at h
    cases e with
    | acted t a r => exact absurd rfl (he t a r)
    | _ => exact h
  refine ⟨hst ▸ hI.sound, fun ino p k h => ?_, fun t p i h ino a k => ?_⟩
  · rw [hst]
    exact hI.known ino p k (htaken h)
  · rw [hlog] at h
    rcases clearedAt_snoc h with h | ⟨a', r', heq, -⟩
    · rw [hst]
      exact fun hino ha hk => hI.since t p i h ino a k hino ha (htaken hk)
    · exact absurd heq (he t a' r')

/-- The inode of attributes that an action keeps has the path it had before, or none. -/
theorem pathFor_of_keepsListed (hI : InTime c) (hstep : fsMachine.Step a c.st r s)
    (hroom : c.st.paths.next + a.interned < inodeSpace) {m : Nat} (htaken : TakenFrom c.log ino p m)
    (hkeeps : KeepsListed ino p t a r) {p' : Str} (hp' : s.paths.pathFor ino = some p') :
    p' = p ∧ c.st.paths.pathFor ino = some p := by
  obtain ⟨hlt, hpath⟩ := hI.known ino p m htaken
  by_cases ha : ∃ old new, a = .renamePaths old new
  · obtain ⟨old, new, rfl⟩ := ha
    rw [paths_of_renamePaths hstep] at hp'
    obtain ⟨p₀, hp₀, rfl⟩ := hI.sound.pathFor_of_rename hp'
    obtain rfl := hpath p₀ hp₀
    exact ⟨hkeeps.renamed old new rfl, hp₀⟩
  · have hp₀ := pathFor_of_step hstep hI.sound hroom ha hlt hp'
    obtain rfl := hpath p' hp₀
    exact ⟨rfl, hp₀⟩

theorem known_act (hI : InTime c) (hs : s.paths.Sound) (hlater : c.st.paths.Later s.paths)
    (hstep : fsMachine.Step a c.st r s) (hroom : c.st.paths.next + a.interned < inodeSpace) {m : Nat}
    (h : TakenFrom (c.log ++ [.acted t a r]) ino p m) :
    ino < s.paths.next ∧ ∀ p', s.paths.pathFor ino = some p' → p' = p := by
  rcases takenFrom_snoc_acted h with ⟨entries, out, x, hx, heq, rfl, rfl, -⟩ | ⟨hold, hkeeps⟩
  · -- the listed entry has the inode it is listed with
    cases heq
    obtain ⟨-, (w : World), hrun⟩ := hstep
    obtain ⟨rfl, rfl⟩ : out = (c.st.insertListed entries).1 ∧ s = (c.st.insertListed entries).2 :=
      ⟨(congrArg Prod.fst hrun).symm, (congrArg Prod.snd hrun).symm⟩
    have hpath := (hs.inverse ..).1 (c.st.inodeFor_of_mem_insertListed hx)
    exact ⟨hs.below _ _ hpath, fun p' hp' => Option.some.inj (hp'.symm.trans hpath)⟩
  · exact ⟨(hI.known ino p m hold).1.trans_le hlater.next_le, fun p' hp' =>
      (hI.pathFor_of_keepsListed hstep hroom hold hkeeps hp').1⟩

theorem since_act (hI : InTime c) (hs : s.paths.Sound) (hok : TakenInTime c (.acted t a r))
    (hstep : fsMachine.Step a c.st r s) (h : ClearedAt (c.log ++ [.acted t a r]) u p i) {b : CachedAttr}
    {m : Nat} (hino : s.paths.inodeFor p = some ino) (hb : s.attrs.get ino = some b)
    (htaken : TakenFrom (c.log ++ [.acted t a r]) ino p m) : i < m := by
  rcases takenFrom_snoc_acted htaken with ⟨entries, out, x, hx, heq, rfl, rfl, hm⟩ | ⟨hold, hkeeps⟩
  · rcases clearedAt_snoc h with hcleared | ⟨a', r', heq', ha'⟩
    · cases heq
      obtain ⟨-, (w : World), hrun⟩ := hstep
      obtain rfl : out = (c.st.insertListed entries).1 := (congrArg Prod.fst hrun).symm
      have hmem : x.2 ∈ entries := c.st.insertListed_entries entries ▸ List.mem_map_of_mem hx
      exact hok.timely t m entries _ rfl hm x.2 hmem u i hcleared
    · cases heq
      cases heq'
      exact ha'.elim
  · rcases clearedAt_snoc h with hcleared | ⟨a', r', heq', ha'⟩
    · obtain ⟨b', hb'⟩ := cached_of_keepsListed hstep hkeeps hb
      have hp := (hI.pathFor_of_keepsListed hstep (hok.room t a r rfl) hold hkeeps
        ((hs.inverse ..).1 hino)).2
      exact hI.since u p i hcleared ino b' m ((hI.sound.inverse ..).2 hp) hb' hold
    · cases heq'
      cases (not_cached_of_clears hstep hI.sound ha' hkeeps hino).symm.trans hb

/-- **An action that is in time.** -/
theorem act (hI : InTime c) (hspares : a.SparesRoot) (hok : TakenInTime c (.acted t a r))
    (hstep : fsMachine.Step a c.st r s) : InTime (c.act t o a r q s) := by
  have hroom := hok.room t a r rfl
  obtain ⟨hs, hlater, -⟩ := sound_of_step hstep hI.sound hspares hroom
  exact ⟨hs, fun _ _ _ => hI.known_act hs hlater hstep hroom,
    fun _ _ _ h _ _ _ => hI.since_act hs hok hstep h⟩

end InTime

end

/-! ## Whole runs -/

section
variable {nfc : Str → Str} {cacheRoot : Option Str} {disk : Disk} {c : FsConfig}

theorem run_inTime (h : (fsService nfc cacheRoot).Run TakenInTime (.initial (.new disk)) c) :
    InTime c := by
  refine h.invariant (.initial disk) fun c e c' hrun hI hst hok => ?_
  cases hst with
  | start => exact hI.snoc rfl rfl nofun
  | act hlive hstep =>
    exact hI.act (hrun.only (Op.prog_sparesRoot nfc cacheRoot) hlive).1 hok hstep
  | finish => exact hI.snoc rfl rfl nofun

/-- **Nothing late is left**, in every run that takes replies over in time. -/
theorem nothing_late (h : (fsService nfc cacheRoot).Run TakenInTime (.initial (.new disk)) c) :
    NothingLate c := by
  intro t i j p o x hch hj hij hspared ino a k hino ha htaken
  have hcleared := (clearedAt_of_returned h hch hj hij).resolve_left hspared
  exact (run_inTime h).since t p i hcleared ino a k hino ha htaken

end

/-! ## Runs -/

/-- Look `/b` up, which lists `/a` as well, and drop `/b` for a change event: its inode stays known. -/
def listAndDropB : List (Move World Op) :=
  .start 0 (.lookup rootInode (some ['b'])) :: List.replicate 7 (.act 0 (.lists fun _ => entriesAB)) ++
  [.finish 0, .start 1 (.apply (.paths [['/', 'b']])), .act 1 .calm, .act 1 .calm, .finish 1]

/-- A `getattr` lists the root after the daemon has unlinked `/a`, and a `readdir` once `/a` is there
again. -/
def relistAfterUnlink : List (Move World Op) :=
  listAndDropB ++ .start 2 (.unlink rootInode (some ['a'])) :: List.replicate 3 (.act 2 .calm) ++
  .start 3 (.getattr 3) :: List.replicate 7 (.act 3 (.lists fun _ => entriesAB.drop 1)) ++
  .finish 3 :: List.replicate 3 (.act 2 .calm) ++
  .finish 2 :: .start 4 (.readdir rootInode 0) :: List.replicate 6 (.act 4 (.lists fun _ => entriesAB)) ++
  [.finish 4]

/-- A `getattr` lists the root, and takes the reply over after `/a` was unlinked. -/
def relistAcrossUnlink : List (Move World Op) :=
  listAndDropB ++ .start 2 (.getattr 3) :: List.replicate 4 (.act 2 (.lists fun _ => entriesAB)) ++
  .start 3 (.unlink rootInode (some ['a'])) :: List.replicate 6 (.act 3 .calm) ++
  .finish 3 :: List.replicate 3 (.act 2 .calm) ++ [.finish 2]

/-- Whether a request changes `p`. -/
def changesPath (p : Str) : FsEvent → Bool
  | .acted _ (.reply (.unlink q)) (.ok _) | .acted _ (.reply (.rmdir q)) (.ok _) => q = p
  | .acted _ (.reply (.rename old new)) (.ok _) => moved old new p ≠ p
  | .started _ (.apply (.paths roots)) => isAtOrBelow p roots
  | .started _ (.apply .all) => true
  | _ => false

theorem changesPath_of_changes {t : Nat} {p : Str} {e : FsEvent} (h : Changes t p e) :
    changesPath p e = true := by
  unfold Changes at h
  split at h
  · exact decide_eq_true h.2
  · exact decide_eq_true h.2
  · exact decide_eq_true h.2
  · next change =>
    cases change with
    | all => rfl
    | paths roots => exact h.2
  · exact h.elim

/-- Whether nothing in the reply was changed since. -/
def takesInTime (c : FsConfig) : FsEvent → Bool
  | .acted t a _ => decide (c.st.paths.next + a.interned < inodeSpace) && match a with
    | .insertListed entries => ((listings c.log).replies t).all fun k =>
      (c.log.drop k).all fun e => entries.all fun x => !changesPath x.path e
    | _ => true
  | _ => true

theorem takenInTime_of_bool {c : FsConfig} {e : FsEvent} (he : takesInTime c e = true) :
    TakenInTime c e := by
  refine ⟨?_, ?_⟩
  · rintro t a r rfl
    exact of_decide_eq_true (Bool.and_eq_true_iff.1 he).1
  · rintro t k entries out rfl hk x hx u i ⟨⟨e, hi, he'⟩, -⟩
    have hall : ((c.log.drop k).all fun e => entries.all fun x => !changesPath x.path e) = true :=
      (Option.all_eq_true ..).1 (Bool.and_eq_true_iff.1 he).2 k hk
    by_contra hki
    have hmem : e ∈ c.log.drop k := by
      refine List.mem_of_getElem? (i := i - k) ?_
      rw [List.getElem?_drop, Nat.add_sub_cancel' (not_lt.1 hki)]
      exact hi
    have hnot := List.all_eq_true.1 (List.all_eq_true.1 hall e hmem) x hx
    rw [changesPath_of_changes he'] at hnot
    cases hnot

/-- Request `t` changed `p` at the entry `i` and returned Ok at the entry `j`, and what the reply at `k`
listed is cached for `p`. -/
structure Outlived (c : FsConfig) (t i j : Nat) (p : Str) (k : Nat) : Prop where
  changed : ChangedAt c.log t p i
  returned : ∃ o x, c.log[j]? = some (.returned t o (.ok x))
  notSpared : ¬ Spared c.log t p
  cached : ∃ ino a, c.st.paths.inodeFor p = some ino ∧ c.st.attrs.get ino = some a ∧
    TakenFrom c.log ino p k

/-- Whether it is so, for an `unlink`. -/
def outlivesUnlink (c : FsConfig) (t i j : Nat) (p : Str) (k : Nat) : Bool :=
  (match c.log[i]? with
    | some (.acted u (.reply (.unlink q)) (.ok _)) => decide (u = t ∧ q = p)
    | _ => false) &&
  ((match c.log[j]? with
    | some (.returned u _ (.ok _)) => decide (u = t)
    | _ => false) &&
  ((c.log.all fun
    | .acted u .unsentPaths _ => decide (u ≠ t)
    | _ => true) &&
  (c.st.paths.inodeFor p).any fun ino =>
    (c.st.attrs.get ino).isSome && decide ((listings c.log).taken ino = some (p, k))))

theorem outlived_of_bool {c : FsConfig} {t i j k : Nat} {p : Str}
    (h : outlivesUnlink c t i j p k = true) : Outlived c t i j p k := by
  obtain ⟨hi, h⟩ := Bool.and_eq_true_iff.1 h
  obtain ⟨hj, h⟩ := Bool.and_eq_true_iff.1 h
  obtain ⟨hunsent, h⟩ := Bool.and_eq_true_iff.1 h
  obtain ⟨ino, hino, h⟩ := (Option.any_eq_true ..).1 h
  obtain ⟨ha, htaken⟩ := Bool.and_eq_true_iff.1 h
  obtain ⟨a, ha⟩ := Option.isSome_iff_exists.1 ha
  have htaken : (listings c.log).taken ino = some (p, k) := of_decide_eq_true htaken
  refine ⟨?_, ?_, ?_, ino, a, hino, ha, htaken⟩
  · split at hi
    · next heq =>
      obtain ⟨rfl, rfl⟩ := of_decide_eq_true hi
      exact ⟨_, heq, rfl, rfl⟩
    · cases hi
  · split at hj
    · next heq =>
      obtain rfl := of_decide_eq_true hj
      exact ⟨_, _, heq⟩
    · cases hj
  · rintro ⟨d, unsent, hd, -⟩
    exact of_decide_eq_true (List.all_eq_true.1 hunsent _ (List.mem_of_getElem? hd)) rfl

/-- `/a` is cached again after the `unlink`, as it was listed once the `unlink` had returned. -/
theorem nothing_late_relistAfterUnlink :
    ∃ c, plainFs.Run TakenInTime (.initial (.new .empty)) c ∧ Outlived c 2 16 29 ['/', 'a'] 33 ∧
      NothingLate c := by
  have hplay : (plainFs.play takesInTime relistAfterUnlink (.initial (.new .empty))).any
      (fun c => outlivesUnlink c 2 16 29 ['/', 'a'] 33) = true := by
    decide +kernel
  obtain ⟨c, hc, hb⟩ := (Option.any_eq_true ..).1 hplay
  have hrun : plainFs.Run TakenInTime (.initial (.new .empty)) c :=
    plainFs.run_of_play .refl hc fun _ _ _ => takenInTime_of_bool
  exact ⟨c, hrun, outlived_of_bool hb, nothing_late hrun⟩

/-- The property fails in some run: the `getattr` puts `/a` back after the `unlink`. -/
theorem getattr_brings_unlinked_back :
    ¬ ∀ (nfc : Str → Str) (cacheRoot : Option Str) (disk : Disk) (c : FsConfig),
      (fsService nfc cacheRoot).Run (fun _ _ => True) (.initial (.new disk)) c → NothingLate c := by
  intro h
  have hplay : (plainFs.play (fun _ _ => true) relistAcrossUnlink (.initial (.new .empty))).any
      (fun c => outlivesUnlink c 3 21 25 ['/', 'a'] 17) = true := by
    decide +kernel
  obtain ⟨c, hc, hb⟩ := (Option.any_eq_true ..).1 hplay
  have hrun : plainFs.Run (fun _ _ => True) (.initial (.new .empty)) c :=
    plainFs.run_of_play .refl hc fun _ _ _ _ => trivial
  obtain ⟨hchanged, ⟨o, x, hreturned⟩, hspared, ino, a, hino, ha, htaken⟩ := outlived_of_bool hb
  have hlt : 21 < 17 :=
    h id none .empty c hrun 3 21 25 _ o x hchanged hreturned (by decide) hspared ino a 17 hino ha htaken
  exact absurd hlt (by decide)

end UnidriveMount
