import At91Drivers.Effects.Crowd
import At91Drivers.Effects.Sharing

/-!
# What a party sees of a crowd

The state of the crowd is a part of each party's own and a common memory
(`View`).  A party that uses a region of the memory which nobody else changes
cannot tell the crowd from being alone: seen from it, the crowd is a crowd of one
(`Reaches.alike`), and what a crowd of one does is its jobs one after the other
(`Reaches.replays`).
-/

namespace At91Drivers.Effects

variable {E : Type} {R : E → Type} {α κ ι σ γ X υ : Type}

namespace Crowd

/-- The parts of a state: an operation acts on the own part of its party and on
the memory as `alone` does. -/
structure View (h : ι → Handler E R σ) (alone : Handler E R (γ × (X → υ))) where
  own : σ → ι → γ
  common : σ → X → υ
  reply : ∀ i e s, (h i e s).1 = (alone e (own s i, common s)).1
  mine : ∀ i e s, own (h i e s).2 i = (alone e (own s i, common s)).2.1
  memory : ∀ i e s, common (h i e s).2 = (alone e (own s i, common s)).2.2
  others : ∀ {i j}, j ≠ i → ∀ e s, own (h i e s).2 j = own s j

/-- The rules for party `i` when it is alone; `turns` is how its own part may
change by itself. -/
def Rules.alone (rules : Rules E R α κ ι σ) (i : ι) (turns : γ → γ → Prop) :
    Rules E R α κ Unit (γ × (X → υ)) where
  offers _ := rules.offers i
  keeps := rules.keeps
  drifts s s' := turns s.1 s'.1 ∧ s'.2 = s.2

variable {h : ι → Handler E R σ} {alone : Handler E R (γ × (X → υ))}

/-- A drift leaves the memory, and changes the own part of party `i` by turns
only. -/
def View.Drifts (view : View h alone) (rules : Rules E R α κ ι σ) (i : ι)
    (turns : γ → γ → Prop) : Prop :=
  ∀ s s', rules.drifts s s' → view.common s' = view.common s ∧
    (view.own s' i = view.own s i ∨ turns (view.own s i) (view.own s' i))

/-- Party `i` stays in the region `A`, and nobody else changes it. -/
structure Confined (Reads Changes : E → X → Prop) (A : X → Prop) (i : ι) (deed : Deed E R ι) :
    Prop where
  mine : deed.party = i → ∀ a, Reads deed.event.1 a ∨ Changes deed.event.1 a → A a
  others : deed.party ≠ i → ∀ a, A a → ¬ Changes deed.event.1 a

/-- The crowd `c` looks to party `i` like `c₁`, where it is alone. -/
structure Alike (view : View h alone) (A : X → Prop) (i : ι) (c : Crowd E R α κ ι σ)
    (c₁ : Crowd E R α κ Unit (γ × (X → υ))) : Prop where
  party : c₁.party () = c.party i
  returned : c₁.returned () = c.returned i
  own : c₁.state.1 = view.own c.state i
  common : ∀ a, A a → c₁.state.2 a = view.common c.state a

variable [DecidableEq ι] {Reads Changes : E → X → Prop} {A : X → Prop} {i : ι}
  {rules : Rules E R α κ ι σ} {turns : γ → γ → Prop} {view : View h alone}
  {c c' : Crowd E R α κ ι σ} {c₁ : Crowd E R α κ Unit (γ × (X → υ))}

omit [DecidableEq ι] in
/-- A step of another party outside the region. -/
theorem Alike.of_other (halike : Alike view A i c c₁) (hparty : c'.party i = c.party i)
    (hreturned : c'.returned i = c.returned i) (hown : view.own c'.state i = view.own c.state i)
    (hcommon : ∀ a, A a → view.common c'.state a = view.common c.state a) :
    Alike view A i c' c₁ :=
  ⟨halike.party.trans hparty.symm, halike.returned.trans hreturned.symm,
    halike.own.trans hown.symm, fun a ha => (halike.common a ha).trans (hcommon a ha).symm⟩

theorem Alike.step (hfoot : Footprint alone Reads Changes) (hdrift : view.Drifts rules i turns)
    (halike : Alike view A i c c₁) (hstep : Step h rules c c')
    (hconfined : ∀ deed ∈ c'.log, Confined Reads Changes A i deed) :
    ∃ c₁', Relation.ReflTransGen (Step (fun _ => alone) (rules.alone i turns)) c₁ c₁' ∧
      Alike view A i c' c₁' := by
  cases hstep with
  | @start j kept job hidle hoffer =>
      rcases eq_or_ne j i with rfl | hj
      · have hidle₁ : c₁.party () = .idle kept := halike.party.trans hidle
        refine ⟨c₁.put () (.busy job job []), .single (.start hidle₁ hoffer), ?_⟩
        refine ⟨?_, halike.returned, halike.own, halike.common⟩
        simp [put]
      · refine ⟨c₁, .refl, halike.of_other ?_ rfl rfl fun _ _ => rfl⟩
        exact Function.update_of_ne hj.symm _ _
  | @perform j job e k past hbusy =>
      have hlast := hconfined _ (List.mem_append_right _ (List.mem_singleton_self _))
      rcases eq_or_ne j i with rfl | hj
      · -- the own operation is the same alone, for it reads in the region
        have hbusy₁ : c₁.party () = .busy job (.op e k) past := halike.party.trans hbusy
        have hregion := hlast.mine rfl
        have hagree : ∀ a, Reads e a → c₁.state.2 a = view.common c.state a :=
          fun a ha => halike.common a (hregion a (.inl ha))
        obtain ⟨hreply, hown⟩ := hfoot.answer e c₁.state.1 c₁.state.2 (view.common c.state) hagree
        have hanswer : (h j e c.state).1 = (alone e c₁.state).1 := by
          rw [view.reply, ← halike.own, ← hreply]
        refine ⟨_, .single (.perform hbusy₁), ?_⟩
        refine ⟨?_, halike.returned, ?_, fun a ha => ?_⟩
        · simp only [act, Function.update_self]
          rw [hanswer]
        · simp only [act]
          rw [view.mine, ← halike.own, ← hown]
        · simp only [act]
          rw [view.memory, ← halike.own]
          exact hfoot.agree e c₁.state.1 _ _ a hagree (halike.common a ha)
      · refine ⟨c₁, .refl, halike.of_other ?_ rfl ?_ fun a ha => ?_⟩
        · exact Function.update_of_ne hj.symm _ _
        · exact view.others hj.symm e c.state
        · simp only [act]
          rw [view.memory]
          exact hfoot.frame e _ _ a (hlast.others hj a ha)
  | @finish j job a past kept hbusy hkeep =>
      rcases eq_or_ne j i with rfl | hj
      · have hbusy₁ : c₁.party () = .busy job (.pure a) past := halike.party.trans hbusy
        refine ⟨c₁.close () kept job a, .single (.finish hbusy₁ hkeep), ?_⟩
        refine ⟨?_, ?_, halike.own, halike.common⟩
        · simp [close]
        · simp [close, halike.returned]
      · refine ⟨c₁, .refl, halike.of_other ?_ ?_ rfl fun _ _ => rfl⟩
        · exact Function.update_of_ne hj.symm _ _
        · exact Function.update_of_ne hj.symm _ _
  | @drift s hd =>
      obtain ⟨hcommon, hown⟩ := hdrift c.state s hd
      rcases hown with hsame | hturn
      · exact ⟨c₁, .refl, halike.of_other rfl rfl hsame fun a _ => congrFun hcommon a⟩
      · rw [← halike.own] at hturn
        refine ⟨{ c₁ with state := (view.own s i, c₁.state.2) }, .single (.drift ⟨hturn, rfl⟩), ?_⟩
        refine ⟨halike.party, halike.returned, rfl, fun a ha => ?_⟩
        rw [hcommon]
        exact halike.common a ha

/-- A party whose region nobody else changes cannot tell the crowd from being
alone. -/
theorem Reaches.alike (hfoot : Footprint alone Reads Changes) (hdrift : view.Drifts rules i turns)
    {kept : ι → κ} {s : σ} (hc : Reaches h rules kept s c)
    (hconfined : ∀ deed ∈ c.log, Confined Reads Changes A i deed) :
    ∃ c₁, Reaches (fun _ => alone) (rules.alone i turns) (fun _ => kept i)
      (view.own s i, view.common s) c₁ ∧ Alike view A i c c₁ := by
  induction hc with
  | refl => exact ⟨_, .refl, rfl, rfl, rfl, fun _ _ => rfl⟩
  | @tail c c' hbefore hlast ih =>
      obtain ⟨later, hlog⟩ := log_grows hlast
      have hbeforeConfined : ∀ deed ∈ c.log, Confined Reads Changes A i deed := by
        intro deed hdeed
        exact hconfined deed (hlog ▸ List.mem_append_left _ hdeed)
      obtain ⟨c₁, hc₁, halike⟩ := ih hbeforeConfined
      obtain ⟨c₁', hsteps, halike'⟩ := halike.step hfoot hdrift hlast hconfined
      exact ⟨c₁', hc₁.trans hsteps, halike'⟩

/-! ## A crowd of one -/

/-- The jobs one after the other, each one offered after the last, with their
results: from what is kept and the state at the start to those at the end. -/
def Session {τ : Type} (alone : Handler E R τ) (rules : Rules E R α κ Unit τ) :
    List (Prog E R α × α) → κ → τ → κ → τ → Prop
  | [], kept, s, kept', s' => kept' = kept ∧ s' = s
  | (job, a) :: rest, kept, s, kept', s' =>
      rules.offers () kept job ∧ (job.run alone s).1 = a ∧
        ∃ next, rules.keeps a next ∧ Session alone rules rest next (job.run alone s).2 kept' s'

variable {τ : Type} {only : Handler E R τ} {rules₁ : Rules E R α κ Unit τ}

theorem Session.concat {done : List (Prog E R α × α)} {kept kept' next : κ} {s s' : τ}
    {job : Prog E R α} (hdone : Session only rules₁ done kept s kept' s')
    (hoffer : rules₁.offers () kept' job) (hkeep : rules₁.keeps (job.run only s').1 next) :
    Session only rules₁ (done ++ [(job, (job.run only s').1)]) kept s next (job.run only s').2 := by
  induction done generalizing kept s with
  | nil =>
      obtain ⟨rfl, rfl⟩ := hdone
      exact ⟨hoffer, rfl, next, hkeep, rfl, rfl⟩
  | cons first rest ih =>
      obtain ⟨hfirst, hresult, between, hbetween, hrest⟩ := hdone
      exact ⟨hfirst, hresult, between, hbetween, ih hrest⟩

/-- Where a party that is alone is in its session. -/
def InSession (only : Handler E R τ) (rules₁ : Rules E R α κ Unit τ) (kept : κ) (s : τ)
    (c : Crowd E R α κ Unit τ) : Prop :=
  match c.party () with
  | .idle kept' => Session only rules₁ (c.returned ()) kept s kept' c.state
  | .busy job rest _ => ∃ kept' s', Session only rules₁ (c.returned ()) kept s kept' s' ∧
      rules₁.offers () kept' job ∧ rest.run only c.state = job.run only s'

/-- What a party does alone, on a state that does not drift, is a session. -/
theorem Reaches.inSession (hstill : ∀ s s', ¬ rules₁.drifts s s') {kept : κ} {s : τ}
    {c : Crowd E R α κ Unit τ} (hc : Reaches (fun _ => only) rules₁ (fun _ => kept) s c) :
    InSession only rules₁ kept s c := by
  induction hc with
  | refl => exact ⟨rfl, rfl⟩
  | @tail c c' _ hlast ih =>
      unfold InSession at ih ⊢
      cases hlast with
      | @start i kept' job hidle hoffer =>
          rw [hidle] at ih
          simp only [put, Function.update_self]
          exact ⟨kept', c.state, ih, hoffer, rfl⟩
      | @perform i job e k past hbusy =>
          rw [hbusy] at ih
          simp only [act, Function.update_self]
          exact ih
      | @finish i job a past next hbusy hkeep =>
          rw [hbusy] at ih
          obtain ⟨kept', s', hsession, hoffer, hrun⟩ := ih
          have hresult : a = (job.run only s').1 := congrArg Prod.fst hrun
          have hstate : c.state = (job.run only s').2 := congrArg Prod.snd hrun
          simp only [close, Function.update_self]
          rw [hresult, hstate]
          exact hsession.concat hoffer (hresult ▸ hkeep)
      | drift hd => exact absurd hd (hstill _ _)

end Crowd

end At91Drivers.Effects
