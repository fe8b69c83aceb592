import UnidriveMount.Lib.Interp
import UnidriveMount.Lib.Pool

/-!
# Services in two layers

A service some of whose actions are answered from below: by a program over the actions of a second
machine, which the request performs step by step while other requests go on (`Layer.service`). The two
machines share nothing.

When only one request at a time is at such an action, the layers can be looked at one by one
(`Layer.refines`). Without the steps of the machine below, a run is a run of the service above, in which
these actions are answered at once. And the steps of the machine below, whatever happens in between, are
runs of the programs one after the other, with these answers (`Realizes`); the last program may still be
under way (`Reaches`).
-/

namespace Lib

/-! ## Programs under way -/

section
variable {A : Type} {Ret : A → Type} {σ ε α : Type} {M : Machine A Ret σ} {p q : Prog A Ret ε α}
  {s s₁ s' : σ} {es es' : List (Occ Ret)} {res : Except ε α}

/-- A program that stands at an action performs it. -/
theorem Reaches.snoc {a : A} {k : Ret a → Prog A Ret ε α} {r : Ret a}
    (h : Reaches M p s es (.act a k) s₁) (hst : M.Step a s₁ r s') :
    Reaches M p s (es ++ [⟨a, r⟩]) (k r) s' := by
  generalize hq : Prog.act a k = q at h
  induction h with
  | here =>
    subst hq
    exact .act hst .here
  | act hst' _ ih => exact .act hst' (ih hst hq)

/-- A program that stands at a rest runs to its end with the rest. -/
theorem Reaches.exec (h : Reaches M p s es q s₁) (hx : Exec M q s₁ es' res s') :
    Exec M p s (es ++ es') res s' := by
  induction h with
  | here => exact hx
  | act hst _ ih => exact .act hst (ih hx)

/-- What a program under way has performed is the beginning of a run, if every action can be executed. -/
theorem Reaches.complete (hready : ∀ a s, M.ready a s = true) (w : M.World)
    (h : Reaches M p s es q s₁) : ∃ es' res s', Exec M p s (es ++ es') res s' := by
  obtain ⟨es', res, s', hx⟩ := M.exists_exec_under hready (fun _ => w) q s₁
  exact ⟨es', res, s', h.exec (hx.of_step fun _ _ _ _ => Machine.step_of_under)⟩

end

section
variable {A B : Type} {Ret : A → Type} {Ret' : B → Type} {ε σ : Type} {M : Machine A Ret σ}
  {h : (b : B) → Prog A Ret ε (Ret' b)} {Q : σ → Occ Ret' → σ → Prop} {s s₁ s' : σ}
  {us : List (Occ Ret')} {es es' : List (Occ Ret)}

/-- One more action is implemented after the others. -/
theorem Realizes.snoc {b : B} {x : Ret' b} (hr : Realizes M h Q s us es s₁)
    (hx : Exec M (h b) s₁ es' (.ok x) s') (hq : Q s₁ ⟨b, x⟩ s') :
    Realizes M h Q s (us ++ [⟨b, x⟩]) (es ++ es') s' := by
  induction hr with
  | nil => simpa using Realizes.cons hx hq .nil
  | cons hx₁ hq₁ _ ih =>
    rw [List.append_assoc]
    exact .cons hx₁ hq₁ (ih hx hq)

end

/-! ## Layers -/

section
variable {A B : Type} {Ret : A → Type} {Ret' : B → Type} {σ τ ε δ O ρ α β : Type}

/-- Which actions of a machine are answered from below, and by which programs. The outside can be chosen
so that the action has the answer. -/
structure Layer (M : Machine A Ret σ) (Ret' : B → Type) (δ : Type) where
  remote : A → Bool
  impl : (a : A) → Prog B Ret' δ (Ret a)
  answer : (a : A) → Ret a → M.World → M.World
  run_answer : ∀ a x w s, remote a = true → (M.run a (answer a x w) s).1 = x

/-- The actions of both layers. An action that is answered from below is executed when its answer is
there; when the program below stops without one, the request waits for it. -/
inductive Layered (Ret : A → Type) (B : Type) : Type where
  | above (a : A)
  | below (b : B)
  | answered (a : A) (x : Ret a)
  | waits (a : A)

/-- What an action of the two layers answers. -/
abbrev Layered.Answer (Ret : A → Type) (Ret' : B → Type) : Layered Ret B → Type
  | above a => Ret a
  | below b => Ret' b
  | answered .. => Unit
  | waits a => Ret a

/-- A program over both layers. -/
abbrev LayeredProg (Ret : A → Type) (Ret' : B → Type) := Prog (Layered Ret B) (Layered.Answer Ret Ret')

/-- A program below, and what follows on its end. -/
def Prog.embed (f : Except δ α → LayeredProg Ret Ret' ε β) : Prog B Ret' δ α → LayeredProg Ret Ret' ε β
  | .ret r => f r
  | .act b k => .act (.below b) fun y => (k y).embed f

namespace Layer

variable {M : Machine A Ret σ}

/-- The program in which the actions answered from below are replaced by their implementations. -/
def lower (L : Layer M Ret' δ) : Prog A Ret ε α → LayeredProg Ret Ret' ε α
  | .ret r => .ret r
  | .act a k =>
    if L.remote a then
      (L.impl a).embed fun
        | .ok x => .act (.answered a x) fun _ => L.lower (k x)
        | .error _ => .act (.waits a) fun x => L.lower (k x)
    else .act (.above a) fun x => L.lower (k x)

/-- What follows on the end of the program that answers `a`. -/
def rest (L : Layer M Ret' δ) (a : A) (k : Ret a → Prog A Ret ε α) :
    Except δ (Ret a) → LayeredProg Ret Ret' ε α
  | .ok x => .act (.answered a x) fun _ => L.lower (k x)
  | .error _ => .act (.waits a) fun x => L.lower (k x)

/-- The machine of both layers, over a machine `N` below. -/
def machine (L : Layer M Ret' δ) (N : Machine B Ret' τ) :
    Machine (Layered Ret B) (Layered.Answer Ret Ret') (σ × τ) where
  World := M.World × N.World
  ready
    | .above a, s => M.ready a s.1
    | .below b, s => N.ready b s.2
    | .answered a _, s => M.ready a s.1
    | .waits _, _ => false
  run
    | .above a, w, s => ((M.run a w.1 s.1).1, (M.run a w.1 s.1).2, s.2)
    | .below b, w, s => ((N.run b w.2 s.2).1, s.1, (N.run b w.2 s.2).2)
    | .answered a x, w, s => ((), (M.run a (L.answer a x w.1) s.1).2, s.2)
    | .waits a, w, s => ((M.run a w.1 s.1).1, (M.run a w.1 s.1).2, s.2)

/-- The service in two layers. -/
def service {S : Service A Ret σ ε O ρ} (L : Layer S.machine Ret' δ) (N : Machine B Ret' τ) :
    Service (Layered Ret B) (Layered.Answer Ret Ret') (σ × τ) ε O ρ where
  machine := L.machine N
  prog o := L.lower (S.prog o)

end Layer

/-! ## Two views of a log -/

/-- The event of the service above, if it is one. -/
def Event.above : Event (Layered.Answer Ret Ret') ε O ρ → Option (Event Ret ε O ρ)
  | .started t o => some (.started t o)
  | .acted t (.above a) x => some (.acted t a x)
  | .acted t (.answered a x) _ => some (.acted t a x)
  | .acted _ (.below _) _ => none
  | .acted t (.waits a) x => some (.acted t a x)
  | .returned t o res => some (.returned t o res)

/-- The occurrence of the machine below, if it is one. -/
def Event.below : Event (Layered.Answer Ret Ret') ε O ρ → Option (Occ Ret')
  | .acted _ (.below b) y => some ⟨b, y⟩
  | _ => none

/-- The occurrence of an action that is answered from below, if it is one. -/
def Event.remote (remote : A → Bool) : Event Ret ε O ρ → Option (Occ Ret)
  | .acted _ a x => if remote a then some ⟨a, x⟩ else none
  | _ => none

/-! ## The layers one by one -/

/-- At most one request is about to perform an action that satisfies `P`. -/
def Config.AtMostOne (P : A → Bool) (c : Config Ret σ ε O ρ) : Prop :=
  ∀ t u o o' a a' k k', c.live t = some (o, .act a k) → c.live u = some (o', .act a' k') →
    P a = true → P a' = true → t = u

/-- No request is about to perform an action that satisfies `P`. -/
def Config.AtNone (P : A → Bool) (c : Config Ret σ ε O ρ) : Prop :=
  ∀ t o a k, c.live t = some (o, .act a k) → P a = false

/-- The program is about to perform an action that satisfies `P`. -/
def Prog.At (P : A → Bool) : Prog A Ret ε α → Prop
  | .ret _ => False
  | .act a _ => P a = true

variable {S : Service A Ret σ ε O ρ}

/-- The configuration `c` of both layers, seen as `d` from above. The machine below was in the state `s`
when the last program below came to its end: until then it ran, from `t₀`, the programs that answered
the actions in the log of `d`. Since then it has performed the occurrences `es`, all of them for the
request that waits for its answer. -/
structure Tracks (L : Layer S.machine Ret' δ) (N : Machine B Ret' τ) (t₀ : τ)
    (c : Config (Layered.Answer Ret Ret') (σ × τ) ε O ρ) (d : Config Ret σ ε O ρ) (s : τ)
    (es : List (Occ Ret')) : Prop where
  st : c.st.1 = d.st
  log : c.log.filterMap Event.above = d.log
  done : ∃ es₀, c.log.filterMap Event.below = es₀ ++ es ∧
    Realizes N L.impl (fun _ _ _ => True) t₀ (d.log.filterMap (Event.remote L.remote)) es₀ s
  idle : ∀ t, d.live t = none → c.live t = none
  here : ∀ t o p, d.live t = some (o, p) → ¬ p.At L.remote → c.live t = some (o, L.lower p)
  there : ∀ t o a k, d.live t = some (o, .act a k) → L.remote a = true →
    ∃ q, c.live t = some (o, q.embed (L.rest a k)) ∧ Reaches N (L.impl a) s es q c.st.2
  quiet : d.AtNone L.remote → es = [] ∧ c.st.2 = s
  mine : ∀ t o a k, d.live t = some (o, .act a k) → L.remote a = true →
    ∃ l₁ l₂, c.log = l₁ ++ l₂ ∧ l₂.filterMap Event.below = es ∧ ∀ e ∈ l₂, e.below ≠ none → e.tid = t

theorem Layer.lower_remote {M : Machine A Ret σ} (L : Layer M Ret' δ) {a : A}
    {k : Ret a → Prog A Ret ε α} (ha : L.remote a = true) :
    L.lower (.act a k) = (L.impl a).embed (L.rest a k) := by
  rw [lower, if_pos ha]
  congr 1

theorem Layer.lower_here {M : Machine A Ret σ} (L : Layer M Ret' δ) {a : A}
    {k : Ret a → Prog A Ret ε α} (ha : ¬ L.remote a = true) :
    L.lower (.act a k) = .act (.above a) fun x => L.lower (k x) := by
  rw [lower, if_neg ha]

theorem Event.tid_above {e : Event (Layered.Answer Ret Ret') ε O ρ} {e' : Event Ret ε O ρ}
    (h : e.above = some e') : e'.tid = e.tid := by
  cases e with
  | started | returned =>
    cases h
    rfl
  | acted t a x =>
    cases a with
    | below => cases h
    | above | answered | waits =>
      cases h
      rfl

namespace Tracks

variable {L : Layer S.machine Ret' δ} {N : Machine B Ret' τ} {t₀ s : τ}
  {c : Config (Layered.Answer Ret Ret') (σ × τ) ε O ρ} {d : Config Ret σ ε O ρ}
  {es : List (Occ Ret')} {t : Nat} {o : O}

/-- Where a request in progress is. -/
theorem live_cases (h : Tracks L N t₀ c d s es) {P : LayeredProg Ret Ret' ε ρ}
    (hlive : c.live t = some (o, P)) :
    (∃ p, d.live t = some (o, p) ∧ ¬ p.At L.remote ∧ P = L.lower p) ∨
      ∃ a k q, d.live t = some (o, .act a k) ∧ L.remote a = true ∧ P = q.embed (L.rest a k) ∧
        Reaches N (L.impl a) s es q c.st.2 := by
  cases hd : d.live t with
  | none => simp [h.idle t hd] at hlive
  | some x =>
    obtain ⟨o', p⟩ := x
    by_cases hp : p.At L.remote
    · cases p with
      | ret r => exact hp.elim
      | act a k =>
        obtain ⟨q, hq, hpart⟩ := h.there t o' a k hd hp
        cases hlive.symm.trans hq
        exact .inr ⟨a, k, q, rfl, hp, rfl, hpart⟩
    · cases hlive.symm.trans (h.here t o' p hd hp)
      exact .inl ⟨p, rfl, hp, rfl⟩

/-- The program of a request that is at an action of the machine below. -/
theorem of_below {b : B} {K : Ret' b → LayeredProg Ret Ret' ε ρ} (h : Tracks L N t₀ c d s es)
    (hlive : c.live t = some (o, .act (.below b) K)) :
    ∃ a k k', d.live t = some (o, .act a k) ∧ L.remote a = true ∧
      (K = fun y => (k' y).embed (L.rest a k)) ∧ Reaches N (L.impl a) s es (.act b k') c.st.2 := by
  rcases h.live_cases hlive with ⟨p, hd, hp, heq⟩ | ⟨a, k, q, hd, ha, heq, hpart⟩
  · cases p with
    | ret r => cases heq
    | act a k =>
      rw [L.lower_here hp] at heq
      cases heq
  · cases q with
    | ret r => cases r <;> cases heq
    | act b' k' =>
      cases heq
      exact ⟨a, k, k', hd, ha, rfl, hpart⟩

/-- The program of a request whose answer from below is there. -/
theorem of_answered {a : A} {x : Ret a} {K : Unit → LayeredProg Ret Ret' ε ρ}
    (h : Tracks L N t₀ c d s es) (hlive : c.live t = some (o, .act (.answered a x) K)) :
    ∃ k, d.live t = some (o, .act a k) ∧ L.remote a = true ∧ (K = fun _ => L.lower (k x)) ∧
      Reaches N (L.impl a) s es (.ret (.ok x)) c.st.2 := by
  rcases h.live_cases hlive with ⟨p, hd, hp, heq⟩ | ⟨a', k, q, hd, ha, heq, hpart⟩
  · cases p with
    | ret r => cases heq
    | act a k =>
      rw [L.lower_here hp] at heq
      cases heq
  · cases q with
    | ret r =>
      cases r <;> cases heq
      exact ⟨k, hd, ha, rfl, hpart⟩
    | act b' k' => cases heq

/-- The program of a request at another action. -/
theorem of_above {a : A} {K : Ret a → LayeredProg Ret Ret' ε ρ} (h : Tracks L N t₀ c d s es)
    (hlive : c.live t = some (o, .act (.above a) K)) :
    ∃ k, d.live t = some (o, .act a k) ∧ ¬ L.remote a = true ∧ K = fun x => L.lower (k x) := by
  rcases h.live_cases hlive with ⟨p, hd, hp, heq⟩ | ⟨a', k, q, hd, ha, heq, -⟩
  · cases p with
    | ret r => cases heq
    | act a k =>
      rw [L.lower_here hp] at heq
      cases heq
      exact ⟨k, hd, hp, rfl⟩
  · cases q with
    | ret r => cases r <;> cases heq
    | act b' k' => cases heq

/-- The program of a request that returns. -/
theorem of_ret {r : Except ε ρ} (h : Tracks L N t₀ c d s es) (hlive : c.live t = some (o, .ret r)) :
    d.live t = some (o, .ret r) := by
  rcases h.live_cases hlive with ⟨p, hd, hp, heq⟩ | ⟨a', k, q, hd, ha, heq, -⟩
  · cases p with
    | ret r' =>
      cases heq
      exact hd
    | act a k =>
      rw [L.lower_here hp] at heq
      cases heq
  · cases q with
    | ret r => cases r <;> cases heq
    | act b' k' => cases heq

/-! ### One step -/

/-- A request that is not answered from below goes on, or returns, or starts. -/
theorem move {x : Option (O × Prog A Ret ε ρ)}
    {c' : Config (Layered.Answer Ret Ret') (σ × τ) ε O ρ} {d' : Config Ret σ ε O ρ}
    {e : Event (Layered.Answer Ret Ret') ε O ρ} {e' : Event Ret ε O ρ}
    (h : Tracks L N t₀ c d s es) (hone : d'.AtMostOne L.remote)
    (hat : ∀ o a k, d.live t = some (o, .act a k) → L.remote a = false)
    (hc : c'.live = Function.update c.live t (x.map fun y => (y.1, L.lower y.2)))
    (hd : d'.live = Function.update d.live t x) (hst : c'.st = (d'.st, c.st.2))
    (hclog : c'.log = c.log ++ [e]) (hdlog : d'.log = d.log ++ [e']) (habove : e.above = some e')
    (hbelow : e.below = none) (hremote : e'.remote L.remote = none) : Tracks L N t₀ c' d' s es := by
  have hquiet : d'.AtNone L.remote → d.AtNone L.remote := by
    intro hnone u o a k hu
    by_cases hut : u = t
    · subst hut
      exact hat o a k hu
    · exact hnone u o a k (by simpa [hd, hut] using hu)
  have hst₂ : c'.st.2 = c.st.2 := by rw [hst]
  -- when the request comes to such an action, nobody else is at one: the machine below is at rest
  have hother : ∀ u o a k, d'.live u = some (o, .act a k) → L.remote a = true → u = t →
      d.AtNone L.remote := by
    rintro u o a k hu ha rfl v o' a' k' hv
    by_cases hvu : v = u
    · subst hvu
      exact hat o' a' k' hv
    · refine Bool.eq_false_iff.2 fun ha' => hvu ?_
      exact hone v u o' o a' a k' k (by simpa [hd, hvu] using hv) hu ha' ha
  constructor
  · rw [hst]
  · simp [hclog, hdlog, habove, h.log]
  · obtain ⟨es₀, hes₀, hreal⟩ := h.done
    refine ⟨es₀, ?_, ?_⟩
    · simpa [hclog, hbelow] using hes₀
    · simpa [hdlog, hremote] using hreal
  · intro u hu
    by_cases hut : u = t
    · subst hut
      rw [hd, Function.update_self] at hu
      simp [hc, hu]
    · simpa [hc, hut] using h.idle u (by simpa [hd, hut] using hu)
  · intro u o p hu hp
    by_cases hut : u = t
    · subst hut
      rw [hd, Function.update_self] at hu
      simp [hc, hu]
    · simpa [hc, hut] using h.here u o p (by simpa [hd, hut] using hu) hp
  · intro u o a k hu ha
    by_cases hut : u = t
    · subst hut
      obtain ⟨rfl, hs⟩ := h.quiet (hother u o a k hu ha rfl)
      rw [hd, Function.update_self] at hu
      refine ⟨L.impl a, ?_, ?_⟩
      · simp [hc, hu, L.lower_remote ha]
      · rw [hst₂, hs]
        exact .here
    · obtain ⟨q, hq, hpart⟩ := h.there u o a k (by simpa [hd, hut] using hu) ha
      refine ⟨q, ?_, by rwa [hst₂]⟩
      simpa [hc, hut] using hq
  · intro hnone
    rw [hst₂]
    exact h.quiet (hquiet hnone)
  · intro u o a k hu ha
    by_cases hut : u = t
    · subst hut
      obtain ⟨rfl, -⟩ := h.quiet (hother u o a k hu ha rfl)
      exact ⟨c'.log, [], (List.append_nil _).symm, rfl, nofun⟩
    · obtain ⟨l₁, l₂, hl, hes, hmine⟩ := h.mine u o a k (by simpa [hd, hut] using hu) ha
      refine ⟨l₁, l₂ ++ [e], ?_, ?_, ?_⟩
      · rw [hclog, hl, List.append_assoc]
      · simp [List.filterMap_append, hes, hbelow]
      · intro e' he' hbelow'
        rcases List.mem_append.1 he' with he' | he'
        · exact hmine e' he' hbelow'
        · rw [List.mem_singleton.1 he'] at hbelow'
          exact absurd hbelow hbelow'

/-- The machine below performs an action. -/
theorem below {a : A} {k : Ret a → Prog A Ret ε ρ} {b : B} {k' : Ret' b → Prog B Ret' δ (Ret a)}
    {y : Ret' b} {s' : τ} (h : Tracks L N t₀ c d s es) (hone : d.AtMostOne L.remote)
    (hd : d.live t = some (o, .act a k)) (ha : L.remote a = true)
    (hpart : Reaches N (L.impl a) s es (.act b k') c.st.2) (hst : N.Step b c.st.2 y s') :
    Tracks L N t₀ (c.act t o (.below b) y ((k' y).embed (L.rest a k)) (c.st.1, s')) d s
      (es ++ [⟨b, y⟩]) := by
  constructor
  · exact h.st
  · rw [Config.act_log, List.filterMap_append, h.log]
    exact List.append_nil _
  · obtain ⟨es₀, hes₀, hreal⟩ := h.done
    exact ⟨es₀, by simp [hes₀, Event.below], hreal⟩
  · intro u hu
    have hut : u ≠ t := by
      rintro rfl
      simp [hd] at hu
    simpa [hut] using h.idle u hu
  · intro u o' p hu hp
    have hut : u ≠ t := by
      rintro rfl
      cases hd.symm.trans hu
      exact hp ha
    simpa [hut] using h.here u o' p hu hp
  · intro u o' a' k₁ hu ha'
    obtain rfl := hone u t o' o a' a k₁ k hu hd ha' ha
    cases hd.symm.trans hu
    exact ⟨k' y, by simp, hpart.snoc hst⟩
  · intro hnone
    rw [hnone t o a k hd] at ha
    cases ha
  · intro u o' a' k₁ hu ha'
    obtain rfl := hone u t o' o a' a k₁ k hu hd ha' ha
    obtain ⟨l₁, l₂, hl, hes, hmine⟩ := h.mine u o a k hd ha
    refine ⟨l₁, l₂ ++ [.acted u (.below b) y], ?_, ?_, ?_⟩
    · rw [Config.act_log, hl, List.append_assoc]
    · simp [List.filterMap_append, hes, Event.below]
    · intro e he hbelow
      rcases List.mem_append.1 he with he | he
      · exact hmine e he hbelow
      · rw [List.mem_singleton.1 he]
        rfl

/-- An answer from below is taken over. -/
theorem answered {a : A} {k : Ret a → Prog A Ret ε ρ} {x : Ret a} {s' : σ}
    (h : Tracks L N t₀ c d s es) (hone : d.AtMostOne L.remote) (hd : d.live t = some (o, .act a k))
    (ha : L.remote a = true) (hpart : Reaches N (L.impl a) s es (.ret (.ok x)) c.st.2) :
    Tracks L N t₀ (c.act t o (.answered a x) () (L.lower (k x)) (s', c.st.2))
      (d.act t o a x (k x) s') c.st.2 [] := by
  have hother : ∀ {u o' a' k'}, u ≠ t → d.live u = some (o', .act a' k') → ¬ L.remote a' = true :=
    fun hut hu ha' => hut (hone _ _ _ _ _ _ _ _ hu hd ha' ha)
  constructor
  · rfl
  · simp [Event.above, h.log]
  · obtain ⟨es₀, hes₀, hreal⟩ := h.done
    have hx : Exec N (L.impl a) s es (.ok x) c.st.2 := by
      simpa using hpart.exec .ret
    refine ⟨es₀ ++ es, by simp [hes₀, Event.below], ?_⟩
    simpa [Event.remote, ha] using hreal.snoc hx trivial
  · intro u hu
    have hut : u ≠ t := by
      rintro rfl
      simp at hu
    simp only [Config.act_live, hut, if_false] at hu
    simpa [hut] using h.idle u hu
  · intro u o' p hu hp
    by_cases hut : u = t
    · subst hut
      simp only [Config.act_live, if_true] at hu
      cases hu
      simp
    · simp only [Config.act_live, hut, if_false] at hu
      simpa [hut] using h.here u o' p hu hp
  · intro u o' a' k' hu ha'
    by_cases hut : u = t
    · subst hut
      simp only [Config.act_live, if_true, Option.some.injEq, Prod.mk.injEq] at hu
      obtain ⟨rfl, hk⟩ := hu
      refine ⟨L.impl a', ?_, .here⟩
      simp [hk, L.lower_remote ha']
    · simp only [Config.act_live, hut, if_false] at hu
      exact absurd ha' (hother hut hu)
  · exact fun _ => ⟨rfl, rfl⟩
  · exact fun u o' a' k' _ _ => ⟨_, [], (List.append_nil _).symm, rfl, nofun⟩

end Tracks

/-- **A run in two layers is a run of the service above**, in which the actions answered from below get
these answers at once, and a run of the machine below, which computes the answers one after the other. -/
theorem Layer.refines {L : Layer S.machine Ret' δ} {N : Machine B Ret' τ} {s₀ : σ} {t₀ : τ}
    {ok : Config (Layered.Answer Ret Ret') (σ × τ) ε O ρ →
      Event (Layered.Answer Ret Ret') ε O ρ → Prop}
    {c : Config (Layered.Answer Ret Ret') (σ × τ) ε O ρ}
    (hone : ∀ d, S.Run (fun _ _ => True) (.initial s₀) d → d.AtMostOne L.remote)
    (h : (L.service N).Run ok (.initial (s₀, t₀)) c) :
    ∃ d s es, S.Run (fun _ _ => True) (.initial s₀) d ∧ Tracks L N t₀ c d s es := by
  induction h with
  | refl =>
    refine ⟨.initial s₀, t₀, [], .refl, rfl, rfl, ⟨[], rfl, .nil⟩, fun _ _ => rfl, nofun, nofun,
      fun _ => ⟨rfl, rfl⟩, nofun⟩
  | @step c c' e _ hst _ ih =>
    obtain ⟨d, s, es, hrun, htracks⟩ := ih
    cases hst with
    | @start t o hfresh hnone =>
      have hd : d.live t = none := by
        cases hd : d.live t with
        | none => rfl
        | some x =>
          obtain ⟨o', p⟩ := x
          by_cases hp : p.At L.remote
          · cases p with
            | ret r => exact hp.elim
            | act a k =>
              obtain ⟨q, hq, -⟩ := htracks.there t o' a k hd hp
              cases hnone.symm.trans hq
          · cases hnone.symm.trans (htracks.here t o' p hd hp)
      have hfresh' : ∀ e ∈ d.log, e.tid ≠ t := by
        intro e' he'
        rw [← htracks.log, List.mem_filterMap] at he'
        obtain ⟨e, he, habove⟩ := he'
        rw [Event.tid_above habove]
        exact hfresh e he
      have hrun' := hrun.step (.start (o := o) hfresh' hd) trivial
      refine ⟨_, s, es, hrun', htracks.move (x := some (o, S.prog o)) (hone _ hrun') ?_ rfl rfl ?_ rfl
        rfl rfl rfl rfl⟩
      · intro o' a k hlive
        cases hd.symm.trans hlive
      · exact Prod.ext htracks.st rfl
    | @act t o b K r st hlive hst =>
      obtain ⟨hready, ⟨w, w'⟩, hmrun⟩ := hst
      cases b with
      | above a =>
        obtain ⟨k, hd, ha, rfl⟩ := htracks.of_above hlive
        cases hmrun
        have hstep : S.machine.Step a d.st (S.machine.run a w d.st).1 (S.machine.run a w d.st).2 := by
          rw [← htracks.st]
          exact ⟨hready, w, rfl⟩
        have hrun' := hrun.step (.act hd hstep) trivial
        refine ⟨_, s, es, hrun', htracks.move (x := some (o, k _)) (hone _ hrun') ?_ ?_ rfl ?_ rfl rfl ?_
          rfl ?_⟩
        · intro o' a' k' hlive'
          cases hd.symm.trans hlive'
          exact Bool.eq_false_iff.2 ha
        · simp [Config.act, htracks.st]
        · simp [Config.act, htracks.st]
        · simp [Event.above, htracks.st]
        · simp [Event.remote, ha]
      | below b =>
        obtain ⟨a, k, k', hd, ha, rfl, hpart⟩ := htracks.of_below hlive
        cases hmrun
        exact ⟨d, s, _, hrun, htracks.below (hone d hrun) hd ha hpart ⟨hready, w', rfl⟩⟩
      | answered a x =>
        obtain ⟨k, hd, ha, rfl, hpart⟩ := htracks.of_answered hlive
        cases hmrun
        have hstep : S.machine.Step a d.st x (S.machine.run a (L.answer a x w) c.st.1).2 := by
          rw [← htracks.st]
          exact ⟨hready, L.answer a x w, Prod.ext (L.run_answer a x w c.st.1 ha) rfl⟩
        exact ⟨_, c.st.2, [], hrun.step (.act hd hstep) trivial,
          htracks.answered (hone d hrun) hd ha hpart⟩
      | waits a => cases hready
    | @finish t o res hlive =>
      have hd := htracks.of_ret hlive
      have hrun' := hrun.step (.finish hd) trivial
      refine ⟨_, s, es, hrun', htracks.move (x := none) (hone _ hrun') ?_ rfl rfl ?_ rfl rfl rfl rfl rfl⟩
      · intro o' a k hlive'
        cases hd.symm.trans hlive'
      · exact Prod.ext htracks.st rfl

end

end Lib
