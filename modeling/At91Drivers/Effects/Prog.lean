import Mathlib.Tactic.Common

/-!
# Programs over an interface of operations

A `Prog E R α` is a sequential program that computes an `α` and reaches the
outside world only through operations `e : E`, each answered by an `R e`.  It
is a well-founded tree, so every branch ends; a program with a loop is written
with a bound on its rounds.

A `Handler` answers the operations from a state.  It gives a program its run
(result and final state) and its trace (the operations with their answers, in
order).  Different handlers give the same program its behaviour on a concrete
machine, on a failing one, or next to another program.
-/

namespace At91Drivers.Effects

/-- Programs over operations `E` answered in `R`. -/
inductive Prog (E : Type) (R : E → Type) (α : Type) where
  | pure (a : α)
  | op (e : E) (k : R e → Prog E R α)

/-- An operation together with the answer it got. -/
abbrev Event (E : Type) (R : E → Type) := (e : E) × R e

/-- A deterministic environment with states `σ`. -/
abbrev Handler (E : Type) (R : E → Type) (σ : Type) := (e : E) → σ → R e × σ

variable {E : Type} {R : E → Type} {α β σ : Type}

namespace Prog

def bind : Prog E R α → (α → Prog E R β) → Prog E R β
  | .pure a, f => f a
  | .op e k, f => .op e fun r => (k r).bind f

instance : Monad (Prog E R) where
  pure := .pure
  bind := .bind

/-- The program that performs one operation and returns its answer. -/
def perform (e : E) : Prog E R (R e) := .op e .pure

/-! ## Runs and traces -/

/-- The result and the final state of a program. -/
def run (h : Handler E R σ) : Prog E R α → σ → α × σ
  | .pure a, s => (a, s)
  | .op e k, s => (k (h e s).1).run h (h e s).2

/-- The operations a program performs, with the answers it gets. -/
def trace (h : Handler E R σ) : Prog E R α → σ → List (Event E R)
  | .pure _, _ => []
  | .op e k, s => ⟨e, (h e s).1⟩ :: (k (h e s).1).trace h (h e s).2

variable (h : Handler E R σ)

@[simp] theorem run_pure (a : α) (s : σ) : (Pure.pure a : Prog E R α).run h s = (a, s) := rfl

@[simp] theorem run_perform (e : E) (s : σ) : (perform e : Prog E R _).run h s = h e s := rfl

@[simp] theorem trace_pure (a : α) (s : σ) : (Pure.pure a : Prog E R α).trace h s = [] := rfl

@[simp] theorem trace_perform (e : E) (s : σ) :
    (perform e : Prog E R _).trace h s = [⟨e, (h e s).1⟩] := rfl

@[simp] theorem run_bind (p : Prog E R α) (f : α → Prog E R β) (s : σ) :
    (p >>= f).run h s = (f (p.run h s).1).run h (p.run h s).2 := by
  induction p generalizing s with
  | pure a => rfl
  | op e k ih => exact ih (h e s).1 (h e s).2

@[simp] theorem trace_bind (p : Prog E R α) (f : α → Prog E R β) (s : σ) :
    (p >>= f).trace h s = p.trace h s ++ (f (p.run h s).1).trace h (p.run h s).2 := by
  induction p generalizing s with
  | pure a => rfl
  | op e k ih => exact congrArg (_ :: ·) (ih (h e s).1 (h e s).2)

theorem trace_perform_bind (e : E) (f : R e → Prog E R α) (s : σ) :
    (perform e >>= f).trace h s = ⟨e, (h e s).1⟩ :: (f (h e s).1).trace h (h e s).2 := rfl

/-- What every operation keeps, a run keeps. -/
theorem run_preserves {I : σ → Prop} (hI : ∀ e s, I s → I (h e s).2) (p : Prog E R α) {s : σ}
    (hs : I s) : I (p.run h s).2 := by
  induction p generalizing s with
  | pure a => exact hs
  | op e k ih => exact ih (h e s).1 (hI e s hs)

@[simp] theorem run_ite (c : Prop) [Decidable c] (p q : Prog E R α) (s : σ) :
    (if c then p else q).run h s = if c then p.run h s else q.run h s := by
  split <;> rfl

@[simp] theorem trace_ite (c : Prop) [Decidable c] (p q : Prog E R α) (s : σ) :
    (if c then p else q).trace h s = if c then p.trace h s else q.trace h s := by
  split <;> rfl

/-! ## What a program may ask for -/

/-- Every operation that the program may perform satisfies `P`, whatever the
answers are. -/
def Asks (P : E → Prop) : Prog E R α → Prop
  | .pure _ => True
  | .op e k => P e ∧ ∀ r, (k r).Asks P

variable {P : E → Prop}

theorem Asks.mono {Q : E → Prop} (hPQ : ∀ e, P e → Q e) {p : Prog E R α} (hp : p.Asks P) :
    p.Asks Q := by
  induction p with
  | pure a => trivial
  | op e k ih => exact ⟨hPQ e hp.1, fun r => ih r (hp.2 r)⟩

theorem Asks.bind {p : Prog E R α} {f : α → Prog E R β} (hp : p.Asks P)
    (hf : ∀ a, (f a).Asks P) : (p >>= f).Asks P := by
  induction p with
  | pure a => exact hf a
  | op e k ih => exact ⟨hp.1, fun r => ih r (hp.2 r)⟩

/-- What those operations keep, a run keeps. -/
theorem Asks.run {I : σ → Prop} {h : Handler E R σ} {p : Prog E R α} (hp : p.Asks P)
    (hI : ∀ e s, P e → I s → I (h e s).2) {s : σ} (hs : I s) : I (p.run h s).2 := by
  induction p generalizing s with
  | pure a => exact hs
  | op e k ih => exact ih (h e s).1 (hp.2 _) (hI e s hp.1 hs)

end Prog

end At91Drivers.Effects
