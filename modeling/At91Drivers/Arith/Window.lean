import Mathlib.Algebra.Order.BigOperators.Group.List
import Mathlib.Algebra.Order.Group.Nat
import Mathlib.Data.List.Rotate
import Mathlib.Order.CompletePartialOrder
import Mathlib.Tactic.Linarith

/-!
# Sliding windows and means

`lastOf n z xs` is the window of the last `n` elements of `xs`, filled up with
`z` at the front.  A ring buffer of `n` cells with its next cell at `k` holds a
window when its cells, rotated by `k`, are the window:

```text
cells   x₅ x₆ x₂ x₃ x₄        next cell k = 2
window  x₂ x₃ x₄ x₅ x₆
```

Storing at the next cell and moving on slides the window by one.
-/

namespace At91Drivers.Arith

variable {α : Type*} {n k : Nat} {z x : α} {xs cells : List α}

/-! ## Windows -/

/-- The last `n` elements of `xs`, after as many `z` as are missing. -/
def lastOf (n : Nat) (z : α) (xs : List α) : List α :=
  (List.replicate n z ++ xs).drop xs.length

@[simp] theorem length_lastOf : (lastOf n z xs).length = n := by
  simp [lastOf]

@[simp] theorem lastOf_nil : lastOf n z [] = List.replicate n z := by
  simp [lastOf]

theorem map_lastOf {β : Type*} (f : α → β) :
    (lastOf n z xs).map f = lastOf n (f z) (xs.map f) := by
  simp [lastOf]

theorem lastOf_concat (hn : 0 < n) :
    lastOf n z (xs ++ [x]) = (lastOf n z xs).tail ++ [x] := by
  have hshort : xs.length + 1 ≤ (List.replicate n z ++ xs).length := by
    simp
    omega
  unfold lastOf
  rw [List.tail_drop, ← List.append_assoc, List.length_append, List.length_singleton,
    List.drop_append_of_le_length hshort]

/-- A run of at least `n` elements fills the window. -/
theorem lastOf_of_le (h : n ≤ xs.length) : lastOf n z xs = xs.drop (xs.length - n) := by
  unfold lastOf
  rw [List.drop_append, List.length_replicate, List.drop_replicate, Nat.sub_eq_zero_of_le h,
    List.replicate_zero, List.nil_append]

/-- A shorter one is in it as a whole. -/
theorem lastOf_of_ge (h : xs.length ≤ n) :
    lastOf n z xs = List.replicate (n - xs.length) z ++ xs := by
  unfold lastOf
  rw [List.drop_append_of_le_length (by simpa using h), List.drop_replicate]

/-- Zeros at the front add nothing. -/
theorem sum_lastOf (xs : List Nat) :
    (lastOf n 0 xs).sum = (xs.drop (xs.length - n)).sum := by
  by_cases h : n ≤ xs.length
  · rw [lastOf_of_le h]
  · rw [lastOf_of_ge (by omega), List.sum_append, List.sum_replicate, nsmul_zero, Nat.zero_add,
      Nat.sub_eq_zero_of_le (by omega), List.drop_zero]

/-! ## Rings -/

/-- Storing at the next cell and moving on slides the window. -/
theorem rotate_set_succ (hk : k < cells.length) :
    (cells.set k x).rotate (k + 1) = (cells.rotate k).tail ++ [x] := by
  have hset : cells.set k x = (cells.take k ++ [x]) ++ cells.drop (k + 1) := by
    rw [List.set_eq_take_append_cons_drop, if_pos hk, List.append_assoc, List.singleton_append]
  have hlen : (cells.take k ++ [x]).length = k + 1 := by
    simp
    omega
  rw [hset, ← hlen, List.rotate_append_length_eq, hlen,
    List.rotate_eq_drop_append_take hk.le, List.drop_eq_getElem_cons hk, List.cons_append,
    List.tail_cons, List.append_assoc]

/-! ## Means -/

variable {l : List Nat}

/-- Some element of a list is at most its mean. -/
theorem exists_le_mean (hl : l ≠ []) : ∃ a ∈ l, a ≤ l.sum / l.length := by
  by_contra hall
  push Not at hall
  have hpos := List.length_pos_of_ne_nil hl
  have hsum : l.length * (l.sum / l.length + 1) ≤ l.sum :=
    List.card_nsmul_le_sum l _ fun a ha => hall a ha
  have hlt : l.sum < l.length * (l.sum / l.length + 1) := Nat.lt_mul_div_succ l.sum hpos
  omega

/-- And some element is at least its mean. -/
theorem exists_mean_le (hl : l ≠ []) : ∃ b ∈ l, l.sum / l.length ≤ b := by
  by_contra hall
  push Not at hall
  have hpos := List.length_pos_of_ne_nil hl
  obtain ⟨first, hfirst⟩ := List.exists_mem_of_ne_nil l hl
  have hmean : 0 < l.sum / l.length := Nat.zero_lt_of_lt (hall first hfirst)
  have hsum : l.sum ≤ l.length * (l.sum / l.length - 1) :=
    List.sum_le_card_nsmul l _ fun a ha => Nat.le_sub_one_of_lt (hall a ha)
  have hle : l.length * (l.sum / l.length) ≤ l.sum := Nat.mul_div_le l.sum l.length
  rw [Nat.mul_sub, Nat.mul_one] at hsum
  have hpos' : l.length ≤ l.length * (l.sum / l.length) := Nat.le_mul_of_pos_right _ hmean
  omega

end At91Drivers.Arith
