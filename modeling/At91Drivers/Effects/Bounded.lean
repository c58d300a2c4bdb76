import At91Drivers.Effects.Prog

/-!
# Programs that end within a number of operations

A program is a finite tree along each of its branches, but the branches may be of
any length.  `Prog.Ends post n` bounds them all: whatever the answers are, the
program ends after at most `n` operations, with a result that satisfies `post`.
-/

namespace At91Drivers.Effects

namespace Prog

variable {E : Type} {R : E → Type} {α β σ : Type}

def Ends (post : α → Prop) : Prog E R α → Nat → Prop
  | .pure a, _ => post a
  | .op _ _, 0 => False
  | .op _ k, n + 1 => ∀ r, (k r).Ends post n

variable {post : α → Prop} {post' : β → Prop} {n n' : Nat}

theorem Ends.mono {p : Prog E R α} {weaker : α → Prop} (hp : p.Ends post n) (hle : n ≤ n')
    (hpost : ∀ a, post a → weaker a) : p.Ends weaker n' := by
  induction p generalizing n n' with
  | pure a => exact hpost a hp
  | op e k ih =>
      cases n with
      | zero => exact hp.elim
      | succ n =>
          cases n' with
          | zero => exact absurd hle (Nat.not_succ_le_zero n)
          | succ n' =>
              intro r
              exact ih r (hp r) (Nat.succ_le_succ_iff.mp hle)

/-- It may also take longer. -/
theorem Ends.le {p : Prog E R α} (hp : p.Ends post n) (hle : n ≤ n') : p.Ends post n' :=
  hp.mono hle fun _ h => h

/-- The bounds of the parts add up. -/
theorem Ends.bind {p : Prog E R α} {f : α → Prog E R β} {total : Nat} (hp : p.Ends post n)
    (htotal : n + n' ≤ total) (hf : ∀ a, post a → (f a).Ends post' n') :
    (p >>= f).Ends post' total := by
  induction p generalizing n total with
  | pure a => exact (hf a hp).le (Nat.le_of_add_left_le htotal)
  | op e k ih =>
      cases n with
      | zero => exact hp.elim
      | succ n =>
          rw [Nat.succ_add] at htotal
          obtain ⟨total, rfl⟩ := Nat.exists_eq_add_of_le' (Nat.one_le_of_lt htotal)
          intro r
          exact ih r (hp r) (Nat.succ_le_succ_iff.mp htotal)

/-- So it does with every handler. -/
theorem Ends.sound {p : Prog E R α} (hp : p.Ends post n) (h : Handler E R σ) (s : σ) :
    post (p.run h s).1 ∧ (p.trace h s).length ≤ n := by
  induction p generalizing n s with
  | pure a => exact ⟨hp, Nat.zero_le n⟩
  | op e k ih =>
      cases n with
      | zero => exact hp.elim
      | succ n =>
          obtain ⟨hpost, hlength⟩ := ih (h e s).1 (hp _) (h e s).2
          exact ⟨hpost, Nat.succ_le_succ hlength⟩

end Prog

end At91Drivers.Effects
