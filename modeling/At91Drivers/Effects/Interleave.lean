import At91Drivers.Effects.Contract

/-!
# Two programs on one state

`Prog.race` runs two programs operation by operation in the order a list of
turns gives.  Operations that commute may change places; so a race in which no
operation of the right program comes before a conflicting one of the left
program ends like the left program followed by the right one.

`Handler.within` lets a handler act on a part of a larger state: two handlers
with private parts of their own and a common part are two such handlers.
-/

namespace At91Drivers.Effects

variable {E : Type} {R : E → Type} {α β σ τ : Type}

/-! ## Handlers on a part of the state -/

/-- The handler `h` on the part of the state that `get` reads and `put`
replaces. -/
def Handler.within (h : Handler E R τ) (get : σ → τ) (put : τ → σ → σ) : Handler E R σ :=
  fun e s => ((h e (get s)).1, put (h e (get s)).2 s)

namespace Prog

/-- A program runs on the part as it runs alone. -/
theorem run_within (h : Handler E R τ) (get : σ → τ) (put : τ → σ → σ)
    (hget : ∀ t s, get (put t s) = t) (hput : ∀ t t' s, put t (put t' s) = put t s)
    (hself : ∀ s, put (get s) s = s) (p : Prog E R α) (s : σ) :
    p.run (h.within get put) s = ((p.run h (get s)).1, put (p.run h (get s)).2 s) := by
  induction p generalizing s with
  | pure a => exact Prod.ext rfl (hself s).symm
  | op e k ih =>
      change (k (h e (get s)).1).run (h.within get put) (put (h e (get s)).2 s) = _
      rw [ih, hget, hput]
      rfl

theorem Obeys.within {h : Handler E R τ} {allow : (e : E) → R e → Prop} (hh : Obeys h allow)
    (get : σ → τ) (put : τ → σ → σ) : Obeys (h.within get put) allow :=
  fun e s => hh e (get s)

/-! ## Races -/

/-- How a race ended: both results, the state, and the operations in order,
those of the left program on the left. -/
structure Race (E α β σ : Type) where
  left : α
  right : β
  state : σ
  log : List (E ⊕ E)

def Race.cons (e : E ⊕ E) (o : Race E α β σ) : Race E α β σ := { o with log := e :: o.log }

variable (h₁ h₂ : Handler E R σ)

/-- The two programs in the order of the turns, `true` for the left one; `none`
when the turns do not fit the programs. -/
def race : List Bool → Prog E R α → Prog E R β → σ → Option (Race E α β σ)
  | [], p, q, s =>
      match p, q with
      | .pure a, .pure b => some ⟨a, b, s, []⟩
      | _, _ => none
  | true :: turns, p, q, s =>
      match p with
      | .op e k => (race turns (k (h₁ e s).1) q (h₁ e s).2).map (·.cons (.inl e))
      | .pure _ => none
  | false :: turns, p, q, s =>
      match q with
      | .op e k => (race turns p (k (h₂ e s).1) (h₂ e s).2).map (·.cons (.inr e))
      | .pure _ => none

/-! ### The two sides -/

def Race.swap (o : Race E α β σ) : Race E β α σ := ⟨o.right, o.left, o.state, o.log.map Sum.swap⟩

def Race.mapState (φ : σ → τ) (o : Race E α β σ) : Race E α β τ :=
  ⟨o.left, o.right, φ o.state, o.log⟩

variable {h₁ h₂}

/-- A race looks the same through a map of the states that the handlers respect. -/
theorem race_mapState {h₁' h₂' : Handler E R τ} (φ : σ → τ)
    (hφ₁ : ∀ e s, h₁' e (φ s) = ((h₁ e s).1, φ (h₁ e s).2))
    (hφ₂ : ∀ e s, h₂' e (φ s) = ((h₂ e s).1, φ (h₂ e s).2)) (turns : List Bool)
    (p : Prog E R α) (q : Prog E R β) (s : σ) :
    race h₁' h₂' turns p q (φ s) = (race h₁ h₂ turns p q s).map (Race.mapState φ) := by
  induction turns generalizing p q s with
  | nil => cases p <;> cases q <;> rfl
  | cons turn turns ih =>
      cases turn with
      | true =>
          cases p with
          | pure a => rfl
          | op e k =>
              unfold race
              dsimp only
              rw [hφ₁]
              dsimp only
              rw [ih, Option.map_map, Option.map_map]
              rfl
      | false =>
          cases q with
          | pure a => rfl
          | op e k =>
              unfold race
              dsimp only
              rw [hφ₂]
              dsimp only
              rw [ih, Option.map_map, Option.map_map]
              rfl

theorem race_swap {turns : List Bool} {p : Prog E R α} {q : Prog E R β} {s : σ}
    {o : Race E α β σ} (h : race h₁ h₂ turns p q s = some o) :
    race h₂ h₁ (turns.map not) q p s = some o.swap := by
  induction turns generalizing p q s o with
  | nil =>
      cases p with
      | op e k => cases h
      | pure a =>
          cases q with
          | op e k => cases h
          | pure b => exact congrArg (fun o => some o.swap) (Option.some.inj h)
  | cons turn turns ih =>
      cases turn with
      | true =>
          cases p with
          | pure a => cases h
          | op e k =>
              obtain ⟨o', ho', rfl⟩ := Option.map_eq_some_iff.mp h
              exact Option.map_eq_some_iff.mpr ⟨o'.swap, ih ho', rfl⟩
      | false =>
          cases q with
          | pure a => cases h
          | op e k =>
              obtain ⟨o', ho', rfl⟩ := Option.map_eq_some_iff.mp h
              exact Option.map_eq_some_iff.mpr ⟨o'.swap, ih ho', rfl⟩

/-- In a race the left program keeps to what it may ask for, whatever the right
one does. -/
theorem race_asks {allow : (e : E) → R e → Prop} {ask : E → Prop} (hh : Obeys h₁ allow)
    {post : List (Event E R) → α → Prop} {past : List (Event E R)} {turns : List Bool}
    {p : Prog E R α} {q : Prog E R β} {s : σ} {o : Race E α β σ}
    (hp : p.Meets allow (fun _ => ask) post past) (h : race h₁ h₂ turns p q s = some o) :
    ∀ e, .inl e ∈ o.log → ask e := by
  induction turns generalizing p q s o past with
  | nil =>
      cases p with
      | op e k => cases h
      | pure a =>
          cases q with
          | op e k => cases h
          | pure b =>
              obtain rfl := Option.some.inj h
              intro e he
              cases he
  | cons turn turns ih =>
      cases turn with
      | true =>
          cases p with
          | pure a => cases h
          | op e k =>
              obtain ⟨o', ho', rfl⟩ := Option.map_eq_some_iff.mp h
              intro e' he'
              rcases List.mem_cons.mp he' with heq | hmem
              · obtain rfl := Sum.inl.inj heq
                exact hp.1
              · exact ih (hp.2 _ (hh e s)) ho' e' hmem
      | false =>
          cases q with
          | pure a => cases h
          | op e k =>
              obtain ⟨o', ho', rfl⟩ := Option.map_eq_some_iff.mp h
              intro e' he'
              rcases List.mem_cons.mp he' with heq | hmem
              · cases heq
              · exact ih hp ho' e' hmem

/-! ### Changing places -/

/-- An operation of the left handler and one of the right handler have the same
answers and the same effect in both orders. -/
def Commutes (h₁ h₂ : Handler E R σ) (e e' : E) : Prop :=
  ∀ s, (h₁ e (h₂ e' s).2).1 = (h₁ e s).1 ∧ (h₂ e' (h₁ e s).2).1 = (h₂ e' s).1 ∧
    (h₁ e (h₂ e' s).2).2 = (h₂ e' (h₁ e s).2).2

/-- An operation that commutes with all of a program's may come after it. -/
theorem run_past {p : Prog E R α} (e' : E) {s : σ}
    (hcomm : ∀ event ∈ p.trace h₁ (h₂ e' s).2, Commutes h₁ h₂ event.1 e') :
    p.run h₁ (h₂ e' s).2 = ((p.run h₁ s).1, (h₂ e' (p.run h₁ s).2).2) ∧
      (h₂ e' (p.run h₁ s).2).1 = (h₂ e' s).1 ∧
      (p.trace h₁ (h₂ e' s).2).map (·.1) = (p.trace h₁ s).map (·.1) := by
  induction p generalizing s with
  | pure a => exact ⟨rfl, rfl, rfl⟩
  | op e k ih =>
      obtain ⟨hreply, hreply', hstate⟩ := hcomm _ List.mem_cons_self s
      have hrest : ∀ event ∈ (k (h₁ e s).1).trace h₁ (h₂ e' (h₁ e s).2).2,
          Commutes h₁ h₂ event.1 e' := by
        intro event hevent
        refine hcomm event (List.mem_cons_of_mem _ ?_)
        rwa [hreply, hstate]
      obtain ⟨hrun, hlast, htrace⟩ := ih _ hrest
      refine ⟨?_, hlast.trans hreply', ?_⟩
      · change (k (h₁ e (h₂ e' s).2).1).run h₁ (h₁ e (h₂ e' s).2).2 = _
        rw [hreply, hstate]
        exact hrun
      · change e :: ((k (h₁ e (h₂ e' s).2).1).trace h₁ (h₁ e (h₂ e' s).2).2).map (·.1) = _
        rw [hreply, hstate, htrace]
        rfl

/-- No operation of the right program comes before a conflicting one of the
left program. -/
def LeftFirst (Conflict : E → E → Prop) (log : List (E ⊕ E)) : Prop :=
  log.Pairwise fun x y => ∀ e' e, x = .inr e' → y = .inl e → ¬ Conflict e e'

/-- The log is in the order of the turns. -/
theorem race_log {turns : List Bool} {p : Prog E R α} {q : Prog E R β} {s : σ} {o : Race E α β σ}
    (h : race h₁ h₂ turns p q s = some o) : o.log.map Sum.isLeft = turns := by
  induction turns generalizing p q s o with
  | nil =>
      cases p with
      | op e k => cases h
      | pure a =>
          cases q with
          | op e k => cases h
          | pure b =>
              obtain rfl := Option.some.inj h
              rfl
  | cons turn turns ih =>
      cases turn with
      | true =>
          cases p with
          | pure a => cases h
          | op e k =>
              obtain ⟨o', ho', rfl⟩ := Option.map_eq_some_iff.mp h
              exact congrArg (true :: ·) (ih ho')
      | false =>
          cases q with
          | pure a => cases h
          | op e k =>
              obtain ⟨o', ho', rfl⟩ := Option.map_eq_some_iff.mp h
              exact congrArg (false :: ·) (ih ho')

/-- One program after the other is such a race. -/
theorem leftFirst_of_serial {Conflict : E → E → Prop} {n m : Nat} {p : Prog E R α}
    {q : Prog E R β} {s : σ} {o : Race E α β σ}
    (h : race h₁ h₂ (List.replicate n true ++ List.replicate m false) p q s = some o) :
    LeftFirst Conflict o.log := by
  have hturns : (o.log.map Sum.isLeft).Pairwise fun x y => x = true ∨ y = false := by
    rw [race_log h, List.pairwise_append]
    refine ⟨List.pairwise_replicate.mpr (.inr (.inl rfl)),
      List.pairwise_replicate.mpr (.inr (.inr rfl)), fun x hx y hy => ?_⟩
    exact .inl (List.eq_of_mem_replicate hx)
  refine (List.pairwise_map.mp hturns).imp ?_
  rintro x y hxy e' e rfl rfl
  rcases hxy with hx | hy
  · cases hx
  · cases hy

/-- Such a race ends as the left program followed by the right one. -/
theorem race_serial {Conflict : E → E → Prop}
    (hcomm : ∀ e e', ¬ Conflict e e' → Commutes h₁ h₂ e e') {turns : List Bool}
    {p : Prog E R α} {q : Prog E R β} {s : σ} {o : Race E α β σ}
    (h : race h₁ h₂ turns p q s = some o) (hfirst : LeftFirst Conflict o.log) :
    o.left = (p.run h₁ s).1 ∧ q.run h₂ (p.run h₁ s).2 = (o.right, o.state) ∧
      ∀ event ∈ p.trace h₁ s, .inl event.1 ∈ o.log := by
  induction turns generalizing p q s o with
  | nil =>
      cases p with
      | op e k => cases h
      | pure a =>
          cases q with
          | op e k => cases h
          | pure b =>
              obtain rfl := Option.some.inj h
              exact ⟨rfl, rfl, fun event hevent => absurd hevent List.not_mem_nil⟩
  | cons turn turns ih =>
      cases turn with
      | true =>
          cases p with
          | pure a => cases h
          | op e k =>
              obtain ⟨o', ho', rfl⟩ := Option.map_eq_some_iff.mp h
              obtain ⟨hleft, hright, htrace⟩ := ih ho' (List.pairwise_cons.mp hfirst).2
              refine ⟨hleft, hright, fun event hevent => ?_⟩
              rcases List.mem_cons.mp hevent with rfl | hmem
              · exact List.mem_cons_self
              · exact List.mem_cons_of_mem _ (htrace event hmem)
      | false =>
          cases q with
          | pure a => cases h
          | op e' k =>
              obtain ⟨o', ho', rfl⟩ := Option.map_eq_some_iff.mp h
              obtain ⟨hhead, hrest⟩ := List.pairwise_cons.mp hfirst
              obtain ⟨hleft, hright, htrace⟩ := ih ho' hrest
              -- every operation of the left program comes after `e'` in the log
              obtain ⟨hrun, hreply, hops⟩ := run_past (p := p) e' (s := s)
                fun event hevent => hcomm _ _ (hhead _ (htrace event hevent) e' event.1 rfl rfl)
              rw [hrun] at hleft hright
              refine ⟨hleft, ?_, fun event hevent => ?_⟩
              · change (k (h₂ e' (p.run h₁ s).2).1).run h₂ (h₂ e' (p.run h₁ s).2).2 = _
                rw [hreply]
                exact hright
              · have hmem : event.1 ∈ (p.trace h₁ (h₂ e' s).2).map (·.1) :=
                  hops ▸ List.mem_map_of_mem hevent
                obtain ⟨event', hevent', heq⟩ := List.mem_map.mp hmem
                exact List.mem_cons_of_mem _ (heq ▸ htrace event' hevent')

end Prog

end At91Drivers.Effects
