import At91Drivers.Effects.Contract
import Mathlib.Logic.Relation

/-!
# A module and what interrupts it

The init and the exit function of a module run operation by operation.  Interrupts
come between their operations, and while the module is loaded, whenever the state
enables them.  `Invariants` says what has to be kept by each operation and by an
interrupt in each phase; `Reaches.invariant` is the rule for the whole life.
-/

namespace At91Drivers.Effects

/-- A module over the outcomes `ο` of what a load asks for, with the interrupts
`ι`. -/
structure Lifecycle (E : Type) (R : E → Type) (ο ι σ : Type) where
  machine : Handler E R σ
  /-- the state at the begin of a load -/
  fresh : ο → σ → σ
  /-- it is loaded when this returns 0 -/
  init : Prog E R Int
  exit : Prog E R Unit
  enabled : σ → Prop
  interrupt : ι → σ → σ

variable {E : Type} {R : E → Type} {ο ι σ : Type}

/-- What is left of the init or the exit function, and what it has done. -/
inductive Phase (E : Type) (R : E → Type) where
  | unloaded
  | loading (left : Prog E R Int) (past : List (Event E R))
  | loaded
  | unloading (left : Prog E R Unit) (past : List (Event E R))

/-- The phase, the state, and the interrupts since the begin of the latest load. -/
structure Life (E : Type) (R : E → Type) (ι σ : Type) where
  phase : Phase E R
  state : σ
  came : List ι

namespace Life

inductive Step (M : Lifecycle E R ο ι σ) : Life E R ι σ → Life E R ι σ → Prop
  | load (o : ο) {s : σ} {came : List ι} :
      Step M ⟨.unloaded, s, came⟩ ⟨.loading M.init [], M.fresh o s, []⟩
  | initOp {e : E} {k : R e → Prog E R Int} {past : List (Event E R)} {s : σ} {came : List ι} :
      Step M ⟨.loading (.op e k) past, s, came⟩
        ⟨.loading (k (M.machine e s).1) (past ++ [⟨e, (M.machine e s).1⟩]), (M.machine e s).2,
          came⟩
  | initEnd {ret : Int} {past : List (Event E R)} {s : σ} {came : List ι} :
      Step M ⟨.loading (.pure ret) past, s, came⟩
        ⟨if ret = 0 then .loaded else .unloaded, s, came⟩
  | unload {s : σ} {came : List ι} : Step M ⟨.loaded, s, came⟩ ⟨.unloading M.exit [], s, came⟩
  | exitOp {e : E} {k : R e → Prog E R Unit} {past : List (Event E R)} {s : σ} {came : List ι} :
      Step M ⟨.unloading (.op e k) past, s, came⟩
        ⟨.unloading (k (M.machine e s).1) (past ++ [⟨e, (M.machine e s).1⟩]), (M.machine e s).2,
          came⟩
  | exitEnd {past : List (Event E R)} {s : σ} {came : List ι} :
      Step M ⟨.unloading (.pure ()) past, s, came⟩ ⟨.unloaded, s, came⟩
  | interrupt (i : ι) {phase : Phase E R} {s : σ} {came : List ι} (henabled : M.enabled s) :
      Step M ⟨phase, s, came⟩ ⟨phase, M.interrupt i s, came ++ [i]⟩

/-- A life from a module that is not loaded. -/
def Reaches (M : Lifecycle E R ο ι σ) (s : σ) : Life E R ι σ → Prop :=
  Relation.ReflTransGen (Step M) ⟨.unloaded, s, []⟩

/-! ## The rule -/

/-- What holds in each phase, and what the init and exit functions ask for. -/
structure Invariants (M : Lifecycle E R ο ι σ) where
  unloaded : σ → Prop
  loading : List (Event E R) → List ι → σ → Prop
  loaded : List ι → σ → Prop
  unloading : List (Event E R) → List ι → σ → Prop
  initAsks : List (Event E R) → E → Prop
  returns : List (Event E R) → Int → Prop
  exitAsks : List (Event E R) → E → Prop
  ends : List (Event E R) → Prop
  init_meets : M.init.Meets (fun _ _ => True) initAsks returns []
  exit_meets : M.exit.Meets (fun _ _ => True) exitAsks (fun past _ => ends past) []
  load : ∀ o s, unloaded s → loading [] [] (M.fresh o s)
  init_op : ∀ past came s e, loading past came s → initAsks past e →
    loading (past ++ [⟨e, (M.machine e s).1⟩]) came (M.machine e s).2
  init_end : ∀ past came s ret, loading past came s → returns past ret →
    if ret = 0 then loaded came s else unloaded s
  unload : ∀ came s, loaded came s → unloading [] came s
  exit_op : ∀ past came s e, unloading past came s → exitAsks past e →
    unloading (past ++ [⟨e, (M.machine e s).1⟩]) came (M.machine e s).2
  exit_end : ∀ past came s, unloading past came s → ends past → unloaded s
  interrupt_unloaded : ∀ s i, M.enabled s → unloaded s → unloaded (M.interrupt i s)
  interrupt_loading : ∀ past came s i, M.enabled s → loading past came s →
    loading past (came ++ [i]) (M.interrupt i s)
  interrupt_loaded : ∀ came s i, M.enabled s → loaded came s →
    loaded (came ++ [i]) (M.interrupt i s)
  interrupt_unloading : ∀ past came s i, M.enabled s → unloading past came s →
    unloading past (came ++ [i]) (M.interrupt i s)

namespace Invariants

variable {M : Lifecycle E R ο ι σ} (I : Invariants M)

/-- They hold, and the function that is running keeps to what it asks for. -/
def Holds (l : Life E R ι σ) : Prop :=
  match l.phase with
  | .unloaded => I.unloaded l.state
  | .loading left past =>
      left.Meets (fun _ _ => True) I.initAsks I.returns past ∧ I.loading past l.came l.state
  | .loaded => I.loaded l.came l.state
  | .unloading left past =>
      left.Meets (fun _ _ => True) I.exitAsks (fun past _ => I.ends past) past ∧
        I.unloading past l.came l.state

theorem holds_step {l l' : Life E R ι σ} (hstep : Step M l l') (h : I.Holds l) : I.Holds l' := by
  cases hstep with
  | load o => exact ⟨I.init_meets, I.load o _ h⟩
  | initOp => exact ⟨h.1.2 _ trivial, I.init_op _ _ _ _ h.2 h.1.1⟩
  | @initEnd ret past s came =>
      have hend := I.init_end past came s ret h.2 h.1
      by_cases hret : ret = 0
      · rw [if_pos hret] at hend ⊢
        exact hend
      · rw [if_neg hret] at hend ⊢
        exact hend
  | unload => exact ⟨I.exit_meets, I.unload _ _ h⟩
  | exitOp => exact ⟨h.1.2 _ trivial, I.exit_op _ _ _ _ h.2 h.1.1⟩
  | exitEnd => exact I.exit_end _ _ _ h.2 h.1
  | @interrupt i phase s came henabled =>
      cases phase with
      | unloaded => exact I.interrupt_unloaded s i henabled h
      | loading left past => exact ⟨h.1, I.interrupt_loading past came s i henabled h.2⟩
      | loaded => exact I.interrupt_loaded came s i henabled h
      | unloading left past => exact ⟨h.1, I.interrupt_unloading past came s i henabled h.2⟩

end Invariants

/-- What holds before the first load and is kept in each phase holds at every moment
of a life. -/
theorem Reaches.invariant {M : Lifecycle E R ο ι σ} (I : Invariants M) {s : σ}
    {l : Life E R ι σ} (hl : Reaches M s l) (hstart : I.unloaded s) : I.Holds l := by
  induction hl with
  | refl => exact hstart
  | tail _ hstep ih => exact I.holds_step hstep ih

/-! ## Undisturbed loads -/

/-- The init function may run to its end without an interrupt. -/
theorem reaches_run (M : Lifecycle E R ο ι σ) (p : Prog E R Int) (past : List (Event E R)) (s : σ)
    (came : List ι) :
    ∃ past', Relation.ReflTransGen (Step M) ⟨.loading p past, s, came⟩
      ⟨.loading (.pure (p.run M.machine s).1) past', (p.run M.machine s).2, came⟩ := by
  induction p generalizing past s with
  | pure ret => exact ⟨past, .refl⟩
  | op e k ih =>
      obtain ⟨past', hrest⟩ := ih (M.machine e s).1 (past ++ [⟨e, (M.machine e s).1⟩])
        (M.machine e s).2
      exact ⟨past', .head .initOp hrest⟩

/-- A load that returns 0. -/
theorem reaches_loaded (M : Lifecycle E R ο ι σ) (s : σ) (o : ο)
    (hret : (M.init.run M.machine (M.fresh o s)).1 = 0) :
    Reaches M s ⟨.loaded, (M.init.run M.machine (M.fresh o s)).2, []⟩ := by
  obtain ⟨past', hrun⟩ := reaches_run M M.init [] (M.fresh o s) []
  have hload : Reaches M s ⟨.loading M.init [], M.fresh o s, []⟩ := .single (.load o)
  have hend := (hload.trans hrun).tail .initEnd
  rw [if_pos hret] at hend
  exact hend

end Life

end At91Drivers.Effects
