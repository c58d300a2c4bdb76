import At91Drivers.Flash.WriteRun

/-!
# The frame of a write

A write is exact when it stores its data in the good-block stream and leaves
every other byte of the device alone.  Every path rebuilds its block from what
it read, except the one at byte 0: there the buffer comes from `kmalloc` and is
programmed as it is.
-/

namespace At91Drivers.Flash

open Effects Arith

/-- The write ends, its data is in the stream, and nothing else has changed. -/
def WriteExact (m : Mtd) (bad : Nat → Bool) (w : World) (fuel buf n p : Nat) : Prop :=
  ∃ r w', (at91flashWrite m fuel buf n p).run (device m bad) w = (some r, w') ∧
    ((m.stream bad p).take n).map w'.flash = (List.range n).map (fun i => w.user (buf + i)) ∧
    ∀ a < m.size, a ∉ (m.stream bad p).take n → w'.flash a = w.flash a

variable {m : Mtd} {bad : Nat → Bool} {w : World} {fuel buf n p : Nat}

/-- A write with enough good bytes before it stores its data. -/
theorem writeDone_of_enough (buf : Nat) (hsize : m.size < 4294967296) (hw : w.FaultFree)
    (huser : w.UserOk) (hn : 0 < n) (hes : n ≤ m.erasesize) (hlen : n ≤ (m.stream bad p).length)
    (hfuel : m.blocks < fuel) :
    ∃ r w', (at91flashWrite m fuel buf n p).run (device m bad) w = (some r, w') ∧
      WriteDone m bad w buf n p r w'.flash := by
  have hstream := m.length_stream_le bad p
  have hext := m.extent_le_size
  obtain ⟨r, w', hrun, ⟨-, hnot⟩ | ⟨-, hdone⟩⟩ :=
    write_cases bad buf hsize hw hn hes (p := p) (by omega) hfuel
  · exact absurd (completes_of_enough hsize huser hn hlen) hnot
  · exact ⟨r, w', hrun, hdone⟩

/-- At byte 0 the rest of block 0 survives only when the buffer happens to hold
it already. -/
theorem WriteDone.frame_atZero_iff {r : Ret} {flash : Nat → Byte}
    (h : WriteDone m bad w buf n p r flash) (hn : n ≤ m.erasesize) (hzero : AtZero bad p) :
    (∀ a < m.size, a ∉ (m.stream bad p).take n → flash a = w.flash a) ↔
      ∀ kbuf, w.heap 0 = some kbuf → ∀ i, n ≤ i → i < m.erasesize → kbuf i = w.flash i := by
  cases h with
  | within hx hpos _ => exact absurd hzero (pos_of_not_atZero hx hpos)
  | jump hx hpos _ _ _ _ => exact absurd hzero (pos_of_not_atZero hx hpos)
  | @first kbuf hx hheap =>
      have hblock : m.erasesize ≤ m.size := by
        have hend := m.blockEnd_le_extent hx.block_lt
        have hext := m.extent_le_size
        rw [m.blockEnd_eq, Nat.zero_mod] at hend
        omega
      rw [hx.take_within (by rw [Nat.zero_mod]; omega)]
      simp only [List.mem_range'_1, Nat.zero_le, true_and, Nat.zero_add, not_lt]
      constructor
      · intro hframe kbuf' hheap' i hni hi
        obtain rfl := Option.some.inj (hheap.symm.trans hheap')
        have hkept := hframe i (by omega) hni
        rw [splice_of_mem (Nat.zero_le i) (by omega), Nat.sub_zero,
          splice_of_ge (by omega)] at hkept
        exact hkept
      · intro hheld a ha hna
        by_cases hin : a < m.erasesize
        · rw [splice_of_mem (Nat.zero_le a) (by omega), Nat.sub_zero, splice_of_ge (by omega)]
          exact hheld kbuf hheap a hna hin
        · exact splice_of_ge (by omega)

/-- A write of at most one block is exact, except that at byte 0 in a good
block 0 the bytes of the block after the data must already be in the
`kmalloc`ed buffer. -/
theorem write_exact_iff (hsize : m.size < 4294967296) (hw : w.FaultFree) (huser : w.UserOk)
    (hn : 0 < n) (hes : n ≤ m.erasesize) (hlen : n ≤ (m.stream bad p).length)
    (hfuel : m.blocks < fuel) :
    WriteExact m bad w fuel buf n p ↔
      (p = 0 → bad 0 = false → ∀ kbuf, w.heap 0 = some kbuf →
        ∀ i, n ≤ i → i < m.erasesize → kbuf i = w.flash i) := by
  obtain ⟨r, w', hrun, hdone⟩ :=
    writeDone_of_enough buf hsize hw huser hn hes hlen hfuel
  have hexact : WriteExact m bad w fuel buf n p ↔
      ∀ a < m.size, a ∉ (m.stream bad p).take n → w'.flash a = w.flash a := by
    constructor
    · rintro ⟨r₁, w₁, hrun₁, -, hframe⟩
      rw [hrun] at hrun₁
      obtain rfl := congrArg Prod.snd hrun₁
      exact hframe
    · exact fun hframe => ⟨r, w', hrun, hdone.stored hes, hframe⟩
  rw [hexact]
  by_cases hzero : WriteDone.AtZero bad p
  · rw [hdone.frame_atZero_iff hes hzero]
    exact ⟨fun h _ _ => h, fun h => h hzero.1 hzero.2⟩
  · refine iff_of_true (fun a _ ha => hdone.frame hes hzero ha) ?_
    exact fun h₁ h₂ => absurd ⟨h₁, h₂⟩ hzero

/-- One byte written at 5 leaves the other fifteen alone. -/
theorem write_exact_iff_at_five :
    WriteExact fourBlocks (fun _ => false)
        (quiet (fun _ => 1) (fun _ => 7) (fun _ => 9)) 5 0 1 5 ↔
      ((5 : Nat) = 0 → false = false → ∀ kbuf, some (fun _ => (9 : Byte)) = some kbuf →
        ∀ i, 1 ≤ i → i < 4 → kbuf i = 7) :=
  write_exact_iff (by decide) (quiet_faultFree _ _ _) (quiet_userOk _ _ _) (by decide) (by decide)
    (by decide +kernel) (by decide)

/-- One byte written at 0 replaces the three bytes after it by what the buffer
held. -/
theorem write_not_exact_at_zero :
    ¬ ∀ (m : Mtd) (bad : Nat → Bool) (w : World) (fuel buf n p : Nat),
      m.erasesize < 2147483648 → m.size < 4294967296 → m.erasesize ∣ m.size → w.FaultFree →
      w.UserOk → p < m.size → 1 ≤ n → n ≤ m.erasesize → n ≤ (m.stream bad p).length →
      m.blocks < fuel → WriteExact m bad w fuel buf n p := by
  intro h
  obtain ⟨r, w', hrun, -, hframe⟩ := h fourBlocks (fun _ => false)
    (quiet (fun _ => 1) (fun _ => 7) (fun _ => 9)) 5 0 1 0 (by decide) (by decide) (by decide)
    (quiet_faultFree _ _ _) (quiet_userOk _ _ _) (by decide) (by decide) (by decide)
    (by decide +kernel) (by decide)
  have hkept : w'.flash 1 = 7 := hframe 1 (by decide) (by decide +kernel)
  have hlost : ((at91flashWrite fourBlocks 5 0 1 (0 : Nat)).run (device fourBlocks fun _ => false)
      (quiet (fun _ => 1) (fun _ => 7) (fun _ => 9))).2.flash 1 = 9 := by decide +kernel
  rw [hrun, hkept] at hlost
  exact absurd hlost (by decide)

end At91Drivers.Flash
