import Mathlib.Algebra.Order.Group.Multiset
import Mathlib.Tactic.Abel

/-!
# What is held, and what was released without being held

A ledger counts the resources that a program holds.  A release of one that is
not held, the second release of one that was held once among them, goes to the
strays.  `l.add s` is the ledger `l` with `s` held besides: what a program takes
and gives back again cancels, whatever was held before.
-/

namespace At91Drivers.Effects

@[ext] structure Ledger (ρ : Type) where
  held : Multiset ρ
  stray : Multiset ρ

namespace Ledger

variable {ρ : Type}

def empty : Ledger ρ := ⟨0, 0⟩

def acquire (l : Ledger ρ) (r : ρ) : Ledger ρ := { l with held := r ::ₘ l.held }

def release [DecidableEq ρ] (l : Ledger ρ) (r : ρ) : Ledger ρ :=
  if r ∈ l.held then { l with held := l.held.erase r } else { l with stray := r ::ₘ l.stray }

def add (l : Ledger ρ) (s : Multiset ρ) : Ledger ρ := { l with held := s + l.held }

@[simp] theorem add_zero (l : Ledger ρ) : l.add 0 = l := by
  simp [add]

@[simp] theorem held_add (l : Ledger ρ) (s : Multiset ρ) : (l.add s).held = s + l.held := rfl

@[simp] theorem stray_add (l : Ledger ρ) (s : Multiset ρ) : (l.add s).stray = l.stray := rfl

theorem add_add (l : Ledger ρ) (s t : Multiset ρ) : (l.add t).add s = l.add (s + t) := by
  simp [add, add_assoc]

theorem acquire_eq (l : Ledger ρ) (r : ρ) : l.acquire r = l.add {r} := by
  simp [acquire, add]

theorem acquire_of_eq {l l₀ : Ledger ρ} {s : Multiset ρ} (r : ρ) (h : l = l₀.add s) :
    l.acquire r = l₀.add ({r} + s) := by
  rw [h, acquire_eq, add_add]

variable [DecidableEq ρ]

/-- A resource taken besides and released leaves no trace. -/
@[simp] theorem release_add (l : Ledger ρ) (r : ρ) (s : Multiset ρ) :
    (l.add ({r} + s)).release r = l.add s := by
  have hmem : r ∈ (l.add ({r} + s)).held := by simp
  rw [release, if_pos hmem]
  simp [add]

theorem release_of_eq {l l₀ : Ledger ρ} {r : ρ} {s : Multiset ρ} (h : l = l₀.add ({r} + s)) :
    l.release r = l₀.add s := by
  rw [h, release_add]

theorem count_acquire (l : Ledger ρ) (r r' : ρ) :
    (l.acquire r).held.count r' = l.held.count r' + if r' = r then 1 else 0 :=
  Multiset.count_cons r' r l.held

theorem count_release_self (l : Ledger ρ) (r : ρ) :
    (l.release r).held.count r = l.held.count r - 1 := by
  unfold release
  split
  · exact Multiset.count_erase_self r l.held
  · rename_i hnot
    rw [Multiset.count_eq_zero_of_notMem hnot]

theorem count_release_of_ne (l : Ledger ρ) {r r' : ρ} (h : r' ≠ r) :
    (l.release r).held.count r' = l.held.count r' := by
  unfold release
  split
  · exact Multiset.count_erase_of_ne h l.held
  · rfl

/-! ## Memory -/

/-- The memory at an address is held at most once, and not at all from `next`
on, the address that is given out next. -/
structure Orderly (l : Ledger ρ) (memory : Nat → ρ) (next : Nat) : Prop where
  once : ∀ a, l.held.count (memory a) ≤ 1
  unused : ∀ a, next ≤ a → l.held.count (memory a) = 0

variable {l l' : Ledger ρ} {memory : Nat → ρ} {next next' : Nat}

theorem orderly_empty : (empty : Ledger ρ).Orderly memory next :=
  ⟨fun _ => Nat.zero_le 1, fun _ _ => rfl⟩

namespace Orderly

theorem of_count (h : l.Orderly memory next) (hnext : next ≤ next')
    (hcount : ∀ a, l'.held.count (memory a) = l.held.count (memory a)) :
    l'.Orderly memory next' := by
  refine ⟨fun a => ?_, fun a ha => ?_⟩
  · rw [hcount]
    exact h.once a
  · rw [hcount]
    exact h.unused a (hnext.trans ha)

theorem acquire_of_ne (h : l.Orderly memory next) {r : ρ} (hr : ∀ a, memory a ≠ r) :
    (l.acquire r).Orderly memory next := by
  apply h.of_count le_rfl
  intro a
  rw [count_acquire, if_neg (hr a), Nat.add_zero]

/-- The next address is given out. -/
theorem take (h : l.Orderly memory next) (hinj : Function.Injective memory) :
    (l.acquire (memory next)).Orderly memory (next + 1) := by
  refine ⟨fun a => ?_, fun a ha => ?_⟩
  · rw [count_acquire]
    by_cases haddr : a = next
    · rw [haddr, h.unused _ le_rfl]
      simp
    · rw [if_neg fun heq => haddr (hinj heq)]
      exact h.once a
  · have hlt : next < a := ha
    rw [count_acquire, h.unused a hlt.le, if_neg fun heq => hlt.ne' (hinj heq)]

theorem release (h : l.Orderly memory next) (r : ρ) : (l.release r).Orderly memory next := by
  have hle (a : Nat) : (l.release r).held.count (memory a) ≤ l.held.count (memory a) := by
    by_cases hr : memory a = r
    · rw [hr, count_release_self]
      exact Nat.sub_le _ _
    · rw [count_release_of_ne l hr]
  exact ⟨fun a => (hle a).trans (h.once a), fun a ha => Nat.le_zero.mp (h.unused a ha ▸ hle a)⟩

/-- Memory that is released is not held any more. -/
theorem notMem_release (h : l.Orderly memory next) (a : Nat) :
    memory a ∉ (l.release (memory a)).held := by
  have honce := h.once a
  rw [← Multiset.count_pos, count_release_self]
  omega

end Orderly

theorem mem_release_of_ne (l : Ledger ρ) {r r' : ρ} (h : r' ≠ r) :
    r' ∈ (l.release r).held ↔ r' ∈ l.held := by
  rw [← Multiset.count_pos, ← Multiset.count_pos, count_release_of_ne l h]

end Ledger

end At91Drivers.Effects
