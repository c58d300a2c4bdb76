import At91Drivers.Flash.Device

/-!
# Blocks, and the good-block stream

The address arithmetic of erase blocks on natural numbers, and what the driver
is for: `Mtd.stream bad p` lists the flash addresses a transfer at position `p`
is about, the bytes of the good blocks at or after `p` in order.
-/

namespace At91Drivers.Flash

open Arith

namespace Mtd

variable (m : Mtd) (bad : Nat → Bool)

/-- The end of the block of an address. -/
def blockEnd (a : Nat) : Nat := (a / m.erasesize + 1) * m.erasesize

/-- The end of the last whole block. -/
def extent : Nat := m.blocks * m.erasesize

theorem extent_le_size : m.extent ≤ m.size := Nat.div_mul_le_self _ _

/-- Positions in whole blocks, with a `size_t` added, are far from the end of
`loff_t`: the block number is an `int` and the erase size 32 bits wide. -/
theorem extent_add_lt : m.extent + 4294967296 < 9223372036854775808 := by
  have hblocks : m.blocks ≤ 2147483647 := Nat.le_of_lt_succ m.blocks_lt
  have hes : m.erasesize ≤ 4294967295 := Nat.le_of_lt_succ m.erasesize_lt
  have := Nat.mul_le_mul hblocks hes
  rw [extent]
  omega

theorem size_lt_i64 : m.size < 9223372036854775808 := by
  have hes := m.erasesize_lt
  have hext := m.extent_add_lt
  have hdiv : m.erasesize * (m.size / m.erasesize) + m.size % m.erasesize = m.size :=
    Nat.div_add_mod _ _
  have hmod := Nat.mod_lt m.size m.erasesize_pos
  rw [extent, blocks, Nat.mul_comm] at hext
  omega

/-! ## Block arithmetic -/

theorem blockEnd_eq (a : Nat) : m.blockEnd a = a + (m.erasesize - a % m.erasesize) := by
  have hmod : a % m.erasesize < m.erasesize := Nat.mod_lt a m.erasesize_pos
  have hdiv : m.erasesize * (a / m.erasesize) + a % m.erasesize = a := Nat.div_add_mod _ _
  rw [blockEnd, Nat.add_mul, Nat.mul_comm]
  omega

theorem div_mul_eq (a : Nat) : a / m.erasesize * m.erasesize = a - a % m.erasesize := by
  have hdiv : m.erasesize * (a / m.erasesize) + a % m.erasesize = a := Nat.div_add_mod _ _
  rw [Nat.mul_comm]
  omega

theorem lt_blockEnd (a : Nat) : a < m.blockEnd a := by
  have := Nat.mod_lt a m.erasesize_pos
  rw [blockEnd_eq]
  omega

theorem div_of_mem_block {a i : Nat} (h₁ : a ≤ i) (h₂ : i < m.blockEnd a) :
    i / m.erasesize = a / m.erasesize := by
  refine Nat.le_antisymm (Nat.lt_succ_iff.mp ?_) (Nat.div_le_div_right h₁)
  exact (Nat.div_lt_iff_lt_mul m.erasesize_pos).mpr h₂

@[simp] theorem blockEnd_div (a : Nat) :
    m.blockEnd a / m.erasesize = a / m.erasesize + 1 :=
  Nat.mul_div_cancel _ m.erasesize_pos

@[simp] theorem blockEnd_mod (a : Nat) : m.blockEnd a % m.erasesize = 0 :=
  Nat.mul_mod_left _ _

theorem not_mem_block_of_le {a i : Nat} (h : m.blockEnd a ≤ i) :
    ¬ (a / m.erasesize * m.erasesize ≤ i ∧ i < a / m.erasesize * m.erasesize + m.erasesize) := by
  rw [blockEnd, Nat.add_mul, Nat.one_mul] at h
  exact fun hmem => absurd hmem.2 (Nat.not_lt.mpr h)

theorem blockEnd_le_extent {a : Nat} (h : a / m.erasesize < m.blocks) :
    m.blockEnd a ≤ m.extent := Nat.mul_le_mul_right _ h

/-- Inside the device, or in the block after its last one. -/
theorem lt_of_div_le {p : Nat} (hp : p / m.erasesize ≤ m.blocks) :
    p < m.extent + m.erasesize := by
  have := Nat.lt_succ_of_le hp
  rwa [Nat.div_lt_iff_lt_mul m.erasesize_pos, Nat.succ_mul] at this

theorem lt_extent_iff {a : Nat} : a < m.extent ↔ a / m.erasesize < m.blocks :=
  (Nat.div_lt_iff_lt_mul m.erasesize_pos).symm

/-! ## The good-block stream -/

/-- The addresses of the good-block stream from position `p` on. -/
def stream (p : Nat) : List Nat :=
  addrs (fun a => !bad (a / m.erasesize)) p m.extent

variable {m bad}

@[simp] theorem mem_stream {p a : Nat} :
    a ∈ m.stream bad p ↔ p ≤ a ∧ a / m.erasesize < m.blocks ∧ bad (a / m.erasesize) = false := by
  simp [stream, lt_extent_iff]

theorem length_stream_le (m : Mtd) (bad : Nat → Bool) (p : Nat) :
    (m.stream bad p).length ≤ m.extent - p :=
  length_addrs_le _ _

theorem stream_of_ge {p : Nat} (h : m.blocks ≤ p / m.erasesize) : m.stream bad p = [] := by
  refine addrs_of_le (Nat.not_lt.mp fun hlt => ?_)
  exact absurd (m.lt_extent_iff.mp hlt) (Nat.not_lt.mpr h)

theorem lt_extent_of_stream_ne_nil {p : Nat} (h : m.stream bad p ≠ []) : p < m.extent := by
  by_contra hge
  exact h (addrs_of_le (not_lt.mp hge))

/-- In a bad block the stream starts with the next block. -/
theorem stream_of_bad {p : Nat} (hp : p / m.erasesize < m.blocks)
    (hbad : bad (p / m.erasesize) = true) : m.stream bad p = m.stream bad (m.blockEnd p) := by
  rw [stream, addrs_split (m.lt_blockEnd p).le (m.blockEnd_le_extent hp), addrs_none]
  · rfl
  · intro a h₁ h₂
    simp [m.div_of_mem_block h₁ h₂, hbad]

/-- In a good block the stream starts with the rest of the block. -/
theorem stream_of_good {p : Nat} (hp : p / m.erasesize < m.blocks)
    (hgood : bad (p / m.erasesize) = false) :
    m.stream bad p =
      List.range' p (m.erasesize - p % m.erasesize) ++ m.stream bad (m.blockEnd p) := by
  rw [stream, addrs_split (m.lt_blockEnd p).le (m.blockEnd_le_extent hp), addrs_all]
  · rw [m.blockEnd_eq, Nat.add_sub_cancel_left]
    rfl
  · intro a h₁ h₂
    simp [m.div_of_mem_block h₁ h₂, hgood]

end Mtd

end At91Drivers.Flash
