import Mathlib.Data.List.Induction
import Mathlib.Tactic.Common

/-!
# Loading and unloading

The kernel runs the exit function of a module only after an init function that
returned 0.  It refuses to load a module that is loaded, and to unload one that
is not.
-/

namespace At91Drivers.Kernel

/-- The init and exit functions, over the outcomes `ο` of what a load asks of
the kernel. -/
structure Module (ο σ : Type) where
  init : ο → σ → Int × σ
  exit : σ → σ

inductive Request (ο : Type) where
  | load (outcomes : ο)
  | unload

namespace Module

variable {ο σ : Type}

structure State (σ : Type) where
  world : σ
  loaded : Bool

variable (M : Module ο σ)

def step (s : State σ) : Request ο → State σ
  | .load o => if s.loaded then s else ⟨(M.init o s.world).2, (M.init o s.world).1 = 0⟩
  | .unload => if s.loaded then ⟨M.exit s.world, false⟩ else s

/-- The state after some requests, from a module that is not loaded. -/
def run (w : σ) (requests : List (Request ο)) : State σ := requests.foldl M.step ⟨w, false⟩

@[simp] theorem run_nil (w : σ) : M.run w [] = ⟨w, false⟩ := rfl

theorem run_concat (w : σ) (done : List (Request ο)) (r : Request ο) :
    M.run w (done ++ [r]) = M.step (M.run w done) r := by
  simp [run]

theorem step_load {s : State σ} (o : ο) (h : s.loaded = false) :
    M.step s (.load o) = ⟨(M.init o s.world).2, (M.init o s.world).1 = 0⟩ :=
  if_neg (h ▸ Bool.false_ne_true)

theorem step_unload {s : State σ} (h : s.loaded = true) :
    M.step s .unload = ⟨M.exit s.world, false⟩ :=
  if_pos h

theorem step_refused {s : State σ} {r : Request ο}
    (h : match r with | .load _ => s.loaded = true | .unload => s.loaded = false) :
    M.step s r = s := by
  cases r with
  | load o => exact if_pos h
  | unload => exact if_neg (show ¬ s.loaded = true from h ▸ Bool.false_ne_true)

/-- The loads that the kernel runs, not the ones it refuses, all satisfy `P`. -/
def Loads (w : σ) (P : ο → Prop) (requests : List (Request ο)) : Prop :=
  ∀ done o, done ++ [.load o] <+: requests → (M.run w done).loaded = false → P o

variable {M}

theorem Loads.of_prefix {w : σ} {P : ο → Prop} {requests done : List (Request ο)}
    (h : M.Loads w P requests) (hdone : done <+: requests) : M.Loads w P done :=
  fun before o hbefore => h before o (hbefore.trans hdone)

/-- What a run starts with and every load and unload that the kernel runs
keeps, holds after the run. -/
theorem Loads.run {w : σ} {P : ο → Prop} {requests : List (Request ο)} {I : State σ → Prop}
    (h : M.Loads w P requests) (hstart : I ⟨w, false⟩)
    (hload : ∀ s o, I s → s.loaded = false → P o → I (M.step s (.load o)))
    (hunload : ∀ s, I s → s.loaded = true → I (M.step s .unload)) : I (M.run w requests) := by
  induction requests using List.reverseRecOn with
  | nil => exact hstart
  | append_singleton done r ih =>
      have hdone := ih (h.of_prefix (List.prefix_append done [r]))
      rw [M.run_concat]
      cases r with
      | load o =>
          cases hst : (M.run w done).loaded with
          | true => rwa [M.step_refused hst]
          | false => exact hload _ o hdone hst (h done o (List.prefix_refl _) hst)
      | unload =>
          cases hst : (M.run w done).loaded with
          | true => exact hunload _ hdone hst
          | false => rwa [M.step_refused hst]

end Module

end At91Drivers.Kernel
