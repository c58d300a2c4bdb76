import At91Drivers.Effects.Interleave

/-!
# Two callers on a common memory

Each caller has a part of the state to itself, and the memory is common.  An
operation reads and changes the memory at its footprint only, so operations of
the two callers commute unless one changes what the other reads or changes; and
a race in which one caller comes first wherever they conflict is the two
programs one after the other.
-/

namespace At91Drivers.Effects

variable {E : Type} {R : E → Type} {α β γ ι υ : Type}

@[ext] structure Shared (γ ι υ : Type) where
  left : γ
  right : γ
  common : ι → υ

namespace Shared

def swap (s : Shared γ ι υ) : Shared γ ι υ := ⟨s.right, s.left, s.common⟩

def asLeft (s : Shared γ ι υ) : γ × (ι → υ) := (s.left, s.common)

def asRight (s : Shared γ ι υ) : γ × (ι → υ) := (s.right, s.common)

def putLeft (w : γ × (ι → υ)) (s : Shared γ ι υ) : Shared γ ι υ := ⟨w.1, s.right, w.2⟩

def putRight (w : γ × (ι → υ)) (s : Shared γ ι υ) : Shared γ ι υ := ⟨s.left, w.1, w.2⟩

end Shared

/-- One of the operations changes what the other reads or changes. -/
def Conflict (Reads Changes : E → ι → Prop) (e e' : E) : Prop :=
  ∃ a, Changes e a ∧ (Reads e' a ∨ Changes e' a) ∨ Reads e a ∧ Changes e' a

/-- An operation reads and changes the memory at its footprint only. -/
structure Footprint (h : Handler E R (γ × (ι → υ))) (Reads Changes : E → ι → Prop) : Prop where
  answer : ∀ e c f f', (∀ a, Reads e a → f a = f' a) →
    (h e (c, f)).1 = (h e (c, f')).1 ∧ (h e (c, f)).2.1 = (h e (c, f')).2.1
  agree : ∀ e c f f' a, (∀ a, Reads e a → f a = f' a) → f a = f' a →
    (h e (c, f)).2.2 a = (h e (c, f')).2.2 a
  frame : ∀ e c f a, ¬ Changes e a → (h e (c, f)).2.2 a = f a

namespace Handler

variable (h : Handler E R (γ × (ι → υ)))

def leftOf : Handler E R (Shared γ ι υ) := h.within Shared.asLeft Shared.putLeft

def rightOf : Handler E R (Shared γ ι υ) := h.within Shared.asRight Shared.putRight

end Handler

namespace Prog

variable {h : Handler E R (γ × (ι → υ))} {Reads Changes : E → ι → Prop}

theorem run_leftOf (p : Prog E R α) (c d : γ) (f : ι → υ) :
    p.run h.leftOf ⟨c, d, f⟩ =
      ((p.run h (c, f)).1, ⟨(p.run h (c, f)).2.1, d, (p.run h (c, f)).2.2⟩) :=
  run_within h Shared.asLeft Shared.putLeft (fun _ _ => rfl) (fun _ _ _ => rfl) (fun _ => rfl) p
    ⟨c, d, f⟩

theorem run_rightOf (p : Prog E R α) (c d : γ) (f : ι → υ) :
    p.run h.rightOf ⟨c, d, f⟩ =
      ((p.run h (d, f)).1, ⟨c, (p.run h (d, f)).2.1, (p.run h (d, f)).2.2⟩) :=
  run_within h Shared.asRight Shared.putRight (fun _ _ => rfl) (fun _ _ _ => rfl) (fun _ => rfl) p
    ⟨c, d, f⟩

/-- Operations that do not conflict commute. -/
theorem commutes_of_footprint (hfoot : Footprint h Reads Changes) {e e' : E}
    (hnot : ¬ Conflict Reads Changes e e') : Commutes h.leftOf h.rightOf e e' := by
  rintro ⟨c, d, f⟩
  -- neither changes what the other reads
  have hread : ∀ a, Reads e a → (h e' (d, f)).2.2 a = f a := fun a ha =>
    hfoot.frame e' d f a fun hc => hnot ⟨a, .inr ⟨ha, hc⟩⟩
  have hread' : ∀ a, Reads e' a → (h e (c, f)).2.2 a = f a := fun a ha =>
    hfoot.frame e c f a fun hc => hnot ⟨a, .inl ⟨hc, .inl ha⟩⟩
  obtain ⟨hreply, hown⟩ := hfoot.answer e c _ f hread
  obtain ⟨hreply', hown'⟩ := hfoot.answer e' d _ f hread'
  refine ⟨hreply, hreply', Shared.ext hown hown'.symm ?_⟩
  funext a
  change (h e (c, (h e' (d, f)).2.2)).2.2 a = (h e' (d, (h e (c, f)).2.2)).2.2 a
  by_cases hc : Changes e a
  · have hc' : ¬ Changes e' a := fun hc' => hnot ⟨a, .inl ⟨hc, .inr hc'⟩⟩
    calc (h e (c, (h e' (d, f)).2.2)).2.2 a = (h e (c, f)).2.2 a :=
          hfoot.agree e c _ f a hread (hfoot.frame e' d f a hc')
      _ = (h e' (d, (h e (c, f)).2.2)).2.2 a := (hfoot.frame e' d _ a hc').symm
  · calc (h e (c, (h e' (d, f)).2.2)).2.2 a = (h e' (d, f)).2.2 a := hfoot.frame e c _ a hc
      _ = (h e' (d, (h e (c, f)).2.2)).2.2 a :=
          (hfoot.agree e' d _ f a hread' (hfoot.frame e c f a hc)).symm

/-- With the left caller first wherever they conflict, a race is the left program
and then the right one. -/
theorem race_leftFirst (hfoot : Footprint h Reads Changes) {turns : List Bool} {p : Prog E R α}
    {q : Prog E R β} {c d : γ} {f : ι → υ} {o : Race E α β (Shared γ ι υ)}
    (hrace : race h.leftOf h.rightOf turns p q ⟨c, d, f⟩ = some o)
    (hfirst : LeftFirst (Conflict Reads Changes) o.log) :
    p.run h (c, f) = (o.left, (o.state.left, (p.run h (c, f)).2.2)) ∧
      q.run h (d, (p.run h (c, f)).2.2) = (o.right, (o.state.right, o.state.common)) := by
  obtain ⟨hleft, hright, -⟩ :=
    race_serial (fun _ _ hnot => commutes_of_footprint hfoot hnot) hrace hfirst
  rw [run_leftOf] at hleft hright
  rw [run_rightOf] at hright
  obtain ⟨hvalue, hstate⟩ := Prod.mk.inj hright
  rw [← hvalue, ← hstate, hleft]
  exact ⟨rfl, rfl⟩

/-- The same race with the callers named the other way round. -/
theorem race_symm {turns : List Bool} {p : Prog E R α} {q : Prog E R β} {c d : γ} {f : ι → υ}
    {o : Race E α β (Shared γ ι υ)}
    (hrace : race h.leftOf h.rightOf turns p q ⟨c, d, f⟩ = some o) :
    race h.leftOf h.rightOf (turns.map not) q p ⟨d, c, f⟩ =
      some (o.swap.mapState Shared.swap) := by
  have hleft (e : E) (s : Shared γ ι υ) :
      h.leftOf e s.swap = ((h.rightOf e s).1, (h.rightOf e s).2.swap) := rfl
  have hright (e : E) (s : Shared γ ι υ) :
      h.rightOf e s.swap = ((h.leftOf e s).1, (h.leftOf e s).2.swap) := rfl
  have hmap := race_mapState Shared.swap hleft hright (turns.map not) q p ⟨c, d, f⟩
  rw [race_swap hrace] at hmap
  exact hmap

end Prog

end At91Drivers.Effects
