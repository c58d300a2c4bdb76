import Mathlib.Data.List.Range
import Mathlib.Data.List.Nodup
import Mathlib.Tactic.Common

/-!
# Memories as functions and the selected addresses of a range

A memory is a function from addresses to values, and `splice` overwrites one
range of it.  `addrs P lo hi` lists the addresses of `[lo, hi)` that satisfy
`P`, in increasing order; cutting the range cuts the list, and where `P` is
constant on a part of the range the list is known.
-/

namespace At91Drivers.Arith

/-! ## Overwriting a range -/

section Splice

variable {V : Type}

/-- The memory `f` with the `len` values of `src` stored from `at_` on. -/
def splice (f : Nat → V) (at_ len : Nat) (src : Nat → V) : Nat → V := fun i =>
  if at_ ≤ i ∧ i < at_ + len then src (i - at_) else f i

theorem splice_of_mem {f src : Nat → V} {a len i : Nat} (h₁ : a ≤ i) (h₂ : i < a + len) :
    splice f a len src i = src (i - a) := if_pos ⟨h₁, h₂⟩

theorem splice_of_lt {f src : Nat → V} {a len i : Nat} (h : i < a) :
    splice f a len src i = f i := if_neg fun hi => absurd hi.1 (Nat.not_le.mpr h)

theorem splice_of_ge {f src : Nat → V} {a len i : Nat} (h : a + len ≤ i) :
    splice f a len src i = f i := if_neg fun hi => absurd hi.2 (Nat.not_lt.mpr h)

theorem splice_of_not_mem {f src : Nat → V} {a len i : Nat} (h : ¬ (a ≤ i ∧ i < a + len)) :
    splice f a len src i = f i := if_neg h

@[simp] theorem splice_add {f src : Nat → V} {a len i : Nat} (h : i < len) :
    splice f a len src (a + i) = src i := by
  rw [splice_of_mem (Nat.le_add_right a i) (by omega), Nat.add_sub_cancel_left]

/-- Storing a copy of a range over a range already overwritten leaves the copy:
the two stores of an erase and a program are the second one alone. -/
theorem splice_splice_self (f src src' : Nat → V) (a len : Nat) :
    splice (splice f a len src) a len src' = splice f a len src' := by
  funext i
  unfold splice
  split <;> rfl

/-- Only the first `len` values of the source are stored. -/
theorem splice_congr (f : Nat → V) {src src' : Nat → V} (a : Nat) {len : Nat}
    (h : ∀ i < len, src i = src' i) : splice f a len src = splice f a len src' := by
  funext i
  unfold splice
  by_cases hi : a ≤ i ∧ i < a + len
  · rw [if_pos hi, if_pos hi, h _ (by omega)]
  · rw [if_neg hi, if_neg hi]

/-- Storing a range's own values changes nothing. -/
theorem splice_own {f src : Nat → V} {a len : Nat} (h : ∀ i < len, src i = f (a + i)) :
    splice f a len src = f := by
  funext i
  unfold splice
  by_cases hi : a ≤ i ∧ i < a + len
  · rw [if_pos hi, h _ (by omega), Nat.add_sub_cancel' hi.1]
  · rw [if_neg hi]

/-- Rewriting a block with its own values, changed on a part, changes that part
of the memory and nothing else. -/
theorem splice_block {f block : Nat → V} (src : Nat → V) {a len o n : Nat} (h : o + n ≤ len)
    (hblock : ∀ i < len, block i = f (a + i)) :
    splice f a len (splice block o n src) = splice f (a + o) n src := by
  funext i
  unfold splice
  by_cases hi : a ≤ i ∧ i < a + len
  · rw [if_pos hi]
    by_cases ho : a + o ≤ i ∧ i < a + o + n
    · rw [if_pos (by omega), if_pos ho, Nat.sub_sub]
    · rw [if_neg (by omega), if_neg ho, hblock _ (by omega), Nat.add_sub_cancel' hi.1]
  · rw [if_neg hi, if_neg (by omega)]

/-- Two stores one after the other are one store. -/
theorem splice_append (f src : Nat → V) (a k l : Nat) :
    splice (splice f a k src) (a + k) l (fun i => src (k + i)) = splice f a (k + l) src := by
  funext i
  by_cases hin : a ≤ i ∧ i < a + (k + l)
  · by_cases hlow : i < a + k
    · rw [splice_of_lt hlow, splice_of_mem hin.1 hlow, splice_of_mem hin.1 hin.2]
    · have hsame : k + (i - (a + k)) = i - a := by omega
      rw [splice_of_mem (by omega) (by omega), splice_of_mem hin.1 hin.2, hsame]
  · rw [splice_of_not_mem hin, splice_of_not_mem (by omega), splice_of_not_mem (by omega)]

/-! ### A range as a list of values -/

theorem map_splice (f src : Nat → V) (a len : Nat) :
    (List.range' a len).map (splice f a len src) = (List.range len).map src := by
  rw [List.range'_eq_map_range, List.map_map]
  refine List.map_congr_left fun i hi => ?_
  exact splice_add (List.mem_range.mp hi)

/-- A store outside the listed addresses is not seen in their values. -/
theorem map_splice_of_disjoint (f src : Nat → V) {a len : Nat} {l : List Nat}
    (h : ∀ i ∈ l, ¬ (a ≤ i ∧ i < a + len)) : l.map (splice f a len src) = l.map f :=
  List.map_congr_left fun i hi => splice_of_not_mem (h i hi)

theorem take_range' (a : Nat) {k n : Nat} (h : n ≤ k) :
    (List.range' a k).take n = List.range' a n := by
  obtain ⟨rest, rfl⟩ := Nat.exists_eq_add_of_le h
  rw [← List.range'_append_1, List.take_left' List.length_range']

theorem map_range_add (src : Nat → V) (k n : Nat) :
    (List.range (k + n)).map src =
      (List.range k).map src ++ (List.range n).map fun i => src (k + i) := by
  rw [List.range_add, List.map_append, List.map_map]
  rfl

end Splice

/-! ## The selected addresses of a range -/

/-- The addresses of `[lo, hi)` that satisfy `P`, in increasing order. -/
def addrs (P : Nat → Bool) (lo hi : Nat) : List Nat :=
  (List.range' lo (hi - lo)).filter P

variable {P : Nat → Bool}

@[simp] theorem mem_addrs {lo hi a : Nat} : a ∈ addrs P lo hi ↔ lo ≤ a ∧ a < hi ∧ P a = true := by
  simp only [addrs, List.mem_filter, List.mem_range'_1]
  constructor
  · rintro ⟨h, hp⟩
    exact ⟨h.1, by omega, hp⟩
  · rintro ⟨h₁, h₂, hp⟩
    exact ⟨⟨h₁, by omega⟩, hp⟩

/-- Cutting the range cuts the list. -/
theorem addrs_split {lo mid hi : Nat} (h₁ : lo ≤ mid) (h₂ : mid ≤ hi) :
    addrs P lo hi = addrs P lo mid ++ addrs P mid hi := by
  unfold addrs
  have hmid : List.range' mid (hi - mid) = List.range' (lo + (mid - lo)) (hi - mid) := by
    rw [Nat.add_sub_cancel' h₁]
  rw [← List.filter_append, hmid, List.range'_append_1]
  congr 2
  omega

theorem addrs_of_le {lo hi : Nat} (h : hi ≤ lo) : addrs P lo hi = [] := by
  simp [addrs, Nat.sub_eq_zero_of_le h]

/-- A range without a selected address lists nothing. -/
theorem addrs_none {lo hi : Nat} (h : ∀ a, lo ≤ a → a < hi → P a = false) :
    addrs P lo hi = [] := by
  unfold addrs
  rw [List.filter_eq_nil_iff]
  intro a ha
  rw [List.mem_range'_1] at ha
  rw [h a ha.1 (by omega)]
  exact Bool.false_ne_true

/-- A range of selected addresses is listed whole. -/
theorem addrs_all {lo hi : Nat} (h : ∀ a, lo ≤ a → a < hi → P a = true) :
    addrs P lo hi = List.range' lo (hi - lo) := by
  unfold addrs
  rw [List.filter_eq_self]
  intro a ha
  rw [List.mem_range'_1] at ha
  exact h a ha.1 (by omega)

/-- The list starts with a whole range exactly when that range is selected. -/
theorem take_addrs_iff {lo hi k : Nat} :
    (addrs P lo hi).take k = List.range' lo k ↔
      ∀ a, lo ≤ a → a < lo + k → a ∈ addrs P lo hi := by
  constructor
  · intro htake a hlo hhi
    have hmem : a ∈ (addrs P lo hi).take k := by
      rw [htake, List.mem_range'_1]
      exact ⟨hlo, hhi⟩
    exact List.mem_of_mem_take hmem
  · intro hall
    by_cases hk : k = 0
    · rw [hk, List.take_zero, List.range'_zero]
    · have hlast := mem_addrs.mp (hall (lo + k - 1) (by omega) (by omega))
      rw [addrs_split (Nat.le_add_right lo k) (by omega), addrs_all, Nat.add_sub_cancel_left]
      · exact List.take_left' List.length_range'
      · intro a hlo hhi
        exact (mem_addrs.mp (hall a hlo hhi)).2.2

theorem length_addrs_le (lo hi : Nat) : (addrs P lo hi).length ≤ hi - lo := by
  simpa [addrs] using List.length_filter_le P (List.range' lo (hi - lo))

/-- The first `n` selected addresses from `lo` and the first `k` from a later
`mid` have none in common exactly when the `n` lie before `mid`. -/
theorem disjoint_take_addrs_iff {lo mid hi n k : Nat} (h : lo ≤ mid) (hk : 0 < k)
    (hne : addrs P mid hi ≠ []) :
    List.Disjoint ((addrs P lo hi).take n) ((addrs P mid hi).take k) ↔
      n ≤ (addrs P lo mid).length := by
  have hmid : mid ≤ hi := by
    by_contra hlt
    exact hne (addrs_of_le (by omega))
  rw [addrs_split h hmid, List.disjoint_left]
  constructor
  · intro hdisj
    by_contra hlt
    obtain ⟨a, rest, hrest⟩ := List.exists_cons_of_ne_nil hne
    obtain ⟨i, hi⟩ : ∃ i, n = (addrs P lo mid).length + (i + 1) :=
      ⟨n - (addrs P lo mid).length - 1, by omega⟩
    obtain ⟨j, rfl⟩ : ∃ j, k = j + 1 := ⟨k - 1, by omega⟩
    refine hdisj (a := a) ?_ ?_
    · rw [hi, List.take_length_add_append, hrest, List.take_succ_cons]
      simp
    · simp [hrest]
  · intro hle a ha ha'
    rw [List.take_append_of_le_length hle] at ha
    have hlt := (mem_addrs.mp (List.mem_of_mem_take ha)).2.1
    have hge := (mem_addrs.mp (List.mem_of_mem_take ha')).1
    omega

end At91Drivers.Arith
