import At91Drivers.Flash.FaultFree

/-!
# What a completed write does

On a fault-free device below 4 GiB, a write of at most one block ends in one of
three ways that store data (`WriteDone`): at position 0, inside the block where
it starts, or across two blocks.  `Completes` is what it takes: a good block to
start in, a second one for data that crosses a block end, the allocation and
the user copies.  Without it the write returns an error.

```text
first     x = 0           block 0 becomes  data ++ old contents of the buffer
within    o + n ≤ size    the bytes [x, x + n) become the data
jump      size < o + n    the rest of the block of x, then the start of the
                          next good block
```
-/

namespace At91Drivers.Flash

open Effects Arith

/-- A write of `n` bytes at `p` that stored its data: the value it returns and
the flash it leaves. -/
inductive WriteDone (m : Mtd) (bad : Nat → Bool) (w : World) (buf n p : Nat) :
    Ret → (Nat → Byte) → Prop
  | first {kbuf : Nat → Byte} (hx : Landing m bad p 0) (hheap : w.heap 0 = some kbuf) :
      WriteDone m bad w buf n p ⟨i32 m.erasesize, m.erasesize⟩
        (splice w.flash 0 m.erasesize (splice kbuf 0 n fun i => w.user (buf + i)))
  | within {x : Nat} (hx : Landing m bad p x) (hpos : 0 < x)
      (hfit : x % m.erasesize + n ≤ m.erasesize) :
      WriteDone m bad w buf n p ⟨i32 m.erasesize, x + m.erasesize⟩
        (splice w.flash x n fun i => w.user (buf + i))
  | jump {x y first rest : Nat} (hx : Landing m bad p x) (hpos : 0 < x)
      (hfirst : first = m.erasesize - x % m.erasesize) (hrest : n = first + rest)
      (hrestPos : 0 < rest) (hy : Landing m bad (m.blockEnd x) y) :
      WriteDone m bad w buf n p ⟨i32 n, y + rest⟩
        (splice (splice w.flash x first fun i => w.user (buf + i)) y rest
          fun i => w.user (buf + first + i))

/-- What a write of `n` bytes at `p` needs in order to store its data. -/
def Completes (m : Mtd) (bad : Nat → Bool) (w : World) (n p : Nat) : Prop :=
  ∃ x, Landing m bad p x ∧ (w.heap 0).isSome = true ∧
    (x % m.erasesize + n ≤ m.erasesize ∧ w.CopyOk n ∨
      m.erasesize < x % m.erasesize + n ∧ w.CopyOk (m.erasesize - x % m.erasesize) ∧
        (∃ y, Landing m bad (m.blockEnd x) y) ∧
          w.afterCopy.CopyOk (x % m.erasesize + n - m.erasesize))

variable {m : Mtd} {bad : Nat → Bool} {w : World} {fuel buf n p x y : Nat}

/-! ## The paths on a fault-free device -/

section Paths

variable (hsize : m.size < 4294967296) (hw : w.FaultFree)

include hsize

omit hsize in
/-- The clip and the size check let a write inside the device through. -/
theorem at91flashWrite_eq (hp : p + n ≤ m.size) (hn : n ≤ m.erasesize) :
    at91flashWrite m fuel buf n p = writeCount m fuel buf n p := by
  have := m.size_lt
  unfold at91flashWrite
  rw [← Nat.cast_add, u64_natCast (by omega), if_neg (by omega), if_neg (by omega)]

omit hsize in
/-- A write of no bytes at a position on the device. -/
theorem at91flashWrite_zero (m : Mtd) (fuel buf : Nat) (hp : p ≤ m.size) :
    at91flashWrite m fuel buf 0 p = pure (some ⟨0, p⟩) := by
  have hlt := m.size_lt_i64
  unfold at91flashWrite writeCount
  rw [← Nat.cast_add, u64_natCast (by omega), if_neg (by omega), if_neg (by omega), if_pos rfl]

variable (hx : Landing m bad p x)

include hx

/-- The driver's test that the data fits the block of `x`. -/
theorem fits_iff (hn : n ≤ m.erasesize) :
    i64 (x + n) ≤ m.ebAddr ((x / m.erasesize : Nat) + 1) ↔
      x % m.erasesize + n ≤ m.erasesize := by
  have hlt := hx.lt_extent
  have hext := m.extent_le_size
  have hmod := Nat.mod_lt x m.erasesize_pos
  have hes := m.erasesize_lt
  rw [ebAddr_next hsize hx.block_lt, ← Nat.cast_add, i64_natCast (by omega), m.blockEnd_eq]
  omega

/-- The driver's test that the data ends in the next block. -/
theorem jump_fits (hn : n ≤ m.erasesize) (hy : Landing m bad (m.blockEnd x) y) :
    i64 (x + n) ≤ m.ebAddr ((x / m.erasesize : Nat) + 2) := by
  have hlt := hx.lt_extent
  have hext := m.extent_le_size
  have hes := m.erasesize_lt
  have hnext : m.blockEnd x / m.erasesize < m.blocks :=
    (Nat.div_le_div_right hy.le).trans_lt hy.block_lt
  have hend := ebAddr_next hsize hnext
  rw [m.blockEnd_div] at hend
  rw [show ((x / m.erasesize : Nat) : Int) + 2 = (x / m.erasesize + 1 : Nat) + 1 by push_cast; ring,
    hend, ← Nat.cast_add, i64_natCast (by omega), m.blockEnd_eq (m.blockEnd x),
    m.blockEnd_mod, m.blockEnd_eq x]
  omega

theorem ebAddr_add_mod :
    m.ebAddr (x / m.erasesize : Nat) + x % m.erasesize = x := by
  rw [ebAddr_of_lt hsize hx.block_lt]
  exact Nat.div_add_mod' x m.erasesize

/-- The erase action on the block of the landing, for any buffer. -/
theorem run_eraseAction_landing {w : World} (hw : w.FaultFree) (kbuf : Nat → Byte) :
    ∃ w', (eraseAction m x (x / m.erasesize : Nat) kbuf).run (device m bad) w =
        (some ⟨i32 m.erasesize, x + m.erasesize⟩, w') ∧
      w'.flash = splice w.flash (m.ebAddr (x / m.erasesize : Nat)) m.erasesize kbuf := by
  have hin := inDevice_of_lt hsize hx.block_lt
  have herased : (w.afterErase m (x / m.erasesize : Nat)).FaultFree :=
    ⟨hw.reads, fun _ => hw.erases _, hw.writes⟩
  have hlt := hx.lt_extent
  have hext := m.extent_le_size
  have hes := m.erasesize_lt
  refine ⟨_, ?_, flash_commit hw hin kbuf⟩
  rw [run_eraseAction_ok m bad _ kbuf (blockErase_ok hw hin), blockProgram_eq herased hin]
  dsimp only
  rw [← Nat.cast_add, i64_natCast (by omega)]

include hw

theorem write_first (hzero : x = 0) (kbuf : Nat → Byte)
    (hheap : w.heap 0 = some kbuf) :
    ∃ r w', (writeBlocks m fuel buf n x (x / m.erasesize : Nat) (m.blockoffset x) kbuf).run
        (device m bad) w.afterKmalloc = (some r, w') ∧
      (r.ret < 0 ∧ ¬ w.CopyOk n ∨ w.CopyOk n ∧ WriteDone m bad w buf n p r w'.flash) := by
  subst hzero
  rw [run_writeBlocks_first m bad fuel buf kbuf w.afterKmalloc (by rfl)]
  by_cases hcopy : w.afterKmalloc.CopyOk n
  · obtain ⟨w', hrun, hflash⟩ := run_eraseAction_landing hsize hx
      (w := w.afterKmalloc.afterCopy) ⟨hw.reads, hw.erases, hw.writes⟩
      (splice kbuf 0 n fun i => w.user (buf + i))
    rw [if_pos hcopy]
    refine ⟨_, w', hrun, .inr ⟨hcopy, ?_⟩⟩
    rw [ebAddr_of_lt hsize hx.block_lt, Nat.zero_div, Nat.zero_mul] at hflash
    change w'.flash = splice w.flash _ _ _ at hflash
    rw [hflash]
    simpa using WriteDone.first hx hheap
  · rw [if_neg hcopy]
    exact ⟨_, _, rfl, .inl ⟨neg_EFAULT, hcopy⟩⟩

theorem write_within (hpos : x ≠ 0) (hfit : x % m.erasesize + n ≤ m.erasesize)
    (kbuf : Nat → Byte) :
    ∃ r w', (writeBlocks m fuel buf n x (x / m.erasesize : Nat) (m.blockoffset x) kbuf).run
        (device m bad) w.afterKmalloc = (some r, w') ∧
      (r.ret < 0 ∧ ¬ w.CopyOk n ∨ w.CopyOk n ∧ WriteDone m bad w buf n p r w'.flash) := by
  have hin := inDevice_of_lt hsize hx.block_lt
  have hmalloc : w.afterKmalloc.FaultFree := ⟨hw.reads, hw.erases, hw.writes⟩
  have hlt := hx.lt_extent
  have hext := m.extent_le_size
  rw [run_writeBlocks_within m bad fuel buf kbuf w.afterKmalloc (by exact_mod_cast hpos)
    (blockRead_ok hmalloc hin) ((fits_iff hsize hx (by omega)).mpr hfit)]
  by_cases hcopy : w.afterKmalloc.CopyOk n
  · obtain ⟨w', hrun, hflash⟩ := run_eraseAction_landing hsize hx
      (w := w.afterKmalloc.afterRead.afterCopy) ⟨fun _ => hw.reads _, hw.erases, hw.writes⟩ _
    rw [if_pos hcopy]
    refine ⟨_, w', hrun, .inr ⟨hcopy, ?_⟩⟩
    change w'.flash = splice w.afterKmalloc.flash _ _ _ at hflash
    rw [Mtd.u32_blockoffset (by omega), flash_rewrite hmalloc hin _ _ hfit,
      ebAddr_add_mod hsize hx] at hflash
    rw [hflash]
    exact .within hx (Nat.pos_of_ne_zero hpos) hfit
  · rw [if_neg hcopy]
    exact ⟨_, _, rfl, .inl ⟨neg_EFAULT, hcopy⟩⟩

omit hw hx in
/-- The second part of a write that jumps a block, from any world. -/
theorem run_writeSecond_landing (buf : Nat) {w : World} (hw : w.FaultFree) {first rest : Nat}
    (hy : Landing m bad (m.blockEnd x) y)
    (hwalk : walk m bad fuel (m.blockEnd x) =
      .good y (y / m.erasesize : Nat) (m.blockoffset y))
    (hn : n = first + rest) (hrest : rest ≤ m.erasesize) (kbuf : Nat → Byte) :
    ∃ r w', (writeSecond m fuel buf n first (m.blockEnd x) kbuf).run (device m bad) w =
        (some r, w') ∧
      (r.ret < 0 ∧ ¬ w.CopyOk rest ∨
        w.CopyOk rest ∧ r = ⟨i32 n, y + rest⟩ ∧
          w'.flash = splice w.flash y rest fun i => w.user (buf + first + i)) := by
  have hin := inDevice_of_lt hsize hy.block_lt
  have hlt := hy.lt_extent
  have hext := m.extent_le_size
  have hes := m.erasesize_lt
  have hcount : u32 ((n : Int) - first) = rest := by
    rw [hn, Nat.cast_add, add_sub_cancel_left, u32_natCast (by omega)]
  have haligned : y % m.erasesize = 0 := hy.aligned_next
  rw [run_writeSecond_good m bad fuel buf kbuf w hwalk, if_pos (blockRead_ok hw hin), hcount]
  by_cases hcopy : w.CopyOk rest
  · have hlater : w.afterRead.afterCopy.FaultFree := ⟨fun _ => hw.reads _, hw.erases, hw.writes⟩
    rw [if_pos hcopy, if_pos (blockErase_ok hlater hin)]
    refine ⟨_, _, rfl, .inr ⟨hcopy, ?_, ?_⟩⟩
    · rw [← Nat.cast_add, i64_natCast (by omega)]
    · have haddr : m.ebAddr (y / m.erasesize : Nat) + 0 = y := by
        rw [ebAddr_of_lt hsize hy.block_lt, m.div_mul_eq, haligned]
        omega
      rw [flash_commit hlater hin]
      change splice w.flash _ _ _ = _
      rw [flash_rewrite hw hin _ _ (by omega), haddr]
  · rw [if_neg hcopy]
    exact ⟨_, _, rfl, .inl ⟨neg_EFAULT, hcopy⟩⟩

/-- The first part of a write that jumps a block fills the block of the landing. -/
theorem write_jump_first (fuel buf : Nat) (hpos : x ≠ 0) (hn : n ≤ m.erasesize)
    (hfit : m.erasesize < x % m.erasesize + n)
    (hguard : i64 (x + n) ≤ m.ebAddr ((x / m.erasesize : Nat) + 2)) (kbuf : Nat → Byte) :
    ∃ kbuf' w', (writeBlocks m fuel buf n x (x / m.erasesize : Nat) (m.blockoffset x) kbuf).run
        (device m bad) w =
      (if w.CopyOk (m.erasesize - x % m.erasesize) then
        (writeSecond m fuel buf n (m.erasesize - x % m.erasesize) (m.blockEnd x) kbuf').run
          (device m bad) w'
      else (some ⟨-EFAULT, x⟩, w.afterRead.afterCopy)) ∧
      w'.FaultFree ∧ w'.copies 0 = w.copies 1 ∧ w'.user = w.user ∧
      w'.flash = splice w.flash x (m.erasesize - x % m.erasesize) fun i => w.user (buf + i) := by
  have hin := inDevice_of_lt hsize hx.block_lt
  have hext := m.extent_le_size
  have hend := m.blockEnd_le_extent hx.block_lt
  have hendEq := m.blockEnd_eq x
  have hmod := Nat.mod_lt x m.erasesize_pos
  have hnot : ¬ i64 (x + n) ≤ m.ebAddr ((x / m.erasesize : Nat) + 1) := by
    rw [fits_iff hsize hx hn]
    omega
  have hlater : w.afterRead.afterCopy.FaultFree := ⟨fun _ => hw.reads _, hw.erases, hw.writes⟩
  rw [run_writeBlocks_jump m bad fuel buf kbuf _ (by exact_mod_cast hpos) (blockRead_ok hw hin)
      hnot hguard, run_writeJump m bad fuel buf _ _ (Mtd.u32_sub_blockoffset (by omega)),
    Mtd.u32_blockoffset (by omega), ← Nat.cast_add, i64_natCast (by omega), ← hendEq,
    if_pos (blockErase_ok hlater hin)]
  refine ⟨_, _, rfl, ⟨fun _ => hw.reads _, fun _ => hw.erases _, fun _ => hw.writes _⟩, rfl, rfl,
    ?_⟩
  rw [flash_commit hlater hin]
  change splice w.flash _ _ _ = _
  rw [flash_rewrite hw hin _ _ (by omega), ebAddr_add_mod hsize hx]
  rfl

theorem write_jump (hpos : x ≠ 0) (hn : n ≤ m.erasesize)
    (hfit : m.erasesize < x % m.erasesize + n) (hfuel : m.blocks < fuel) (kbuf : Nat → Byte) :
    ∃ r w', (writeBlocks m fuel buf n x (x / m.erasesize : Nat) (m.blockoffset x) kbuf).run
        (device m bad) w.afterKmalloc = (some r, w') ∧
      (r.ret < 0 ∧ ¬ (w.CopyOk (m.erasesize - x % m.erasesize) ∧
          (∃ y, Landing m bad (m.blockEnd x) y) ∧
            w.afterCopy.CopyOk (x % m.erasesize + n - m.erasesize)) ∨
        (w.CopyOk (m.erasesize - x % m.erasesize) ∧ (∃ y, Landing m bad (m.blockEnd x) y) ∧
            w.afterCopy.CopyOk (x % m.erasesize + n - m.erasesize)) ∧
          WriteDone m bad w buf n p r w'.flash) := by
  have hin := inDevice_of_lt hsize hx.block_lt
  have hmalloc : w.afterKmalloc.FaultFree := ⟨hw.reads, hw.erases, hw.writes⟩
  have hext := m.extent_le_size
  have hend := m.blockEnd_le_extent hx.block_lt
  have hmod := Nat.mod_lt x m.erasesize_pos
  have hsecond := walk_of_le_size hsize bad hfuel (hend.trans hext)
  by_cases hguard : i64 (x + n) ≤ m.ebAddr ((x / m.erasesize : Nat) + 2)
  · obtain ⟨kbuf', w₁, hrun₁, hw₁, hcopies, huser, hflash₁⟩ :=
      write_jump_first hsize hmalloc hx fuel buf hpos hn hfit hguard kbuf
    rw [hrun₁]
    by_cases hcopy : w.afterKmalloc.CopyOk (m.erasesize - x % m.erasesize)
    · rw [if_pos hcopy]
      rcases hsecond with ⟨y, hwalk, hy⟩ | ⟨⟨q, hwalk⟩, hnone⟩
      · obtain ⟨rest, hrest⟩ : ∃ rest, n = m.erasesize - x % m.erasesize + rest :=
          Nat.exists_eq_add_of_le (by omega)
        have hrest' : rest = x % m.erasesize + n - m.erasesize := by omega
        have hcopies' : w₁.CopyOk rest ↔ w.afterCopy.CopyOk rest := by
          unfold World.CopyOk
          rw [hcopies]
          rfl
        obtain ⟨r, w', hrun, hcase⟩ :=
          run_writeSecond_landing hsize buf hw₁ hy hwalk hrest (by omega) kbuf'
        refine ⟨r, w', hrun, ?_⟩
        rw [← hrest', ← hcopies']
        rcases hcase with ⟨hneg, hfault⟩ | ⟨hcopy', rfl, hflash⟩
        · exact .inl ⟨hneg, fun h => hfault h.2.2⟩
        · refine .inr ⟨⟨hcopy, ⟨y, hy⟩, hcopy'⟩, ?_⟩
          rw [hflash, hflash₁, huser]
          exact .jump hx (Nat.pos_of_ne_zero hpos) rfl hrest (by omega) hy
      · rw [run_writeSecond_none m bad fuel buf _ _ hwalk]
        refine ⟨_, _, rfl, .inl ⟨neg_EFAULT, ?_⟩⟩
        rintro ⟨-, ⟨y, hy⟩, -⟩
        exact hy.stream_ne_nil hnone
    · rw [if_neg hcopy]
      exact ⟨_, _, rfl, .inl ⟨neg_EFAULT, fun h => hcopy h.1⟩⟩
  · have hnot : ¬ i64 (x + n) ≤ m.ebAddr ((x / m.erasesize : Nat) + 1) := by
      rw [fits_iff hsize hx hn]
      omega
    rw [run_writeBlocks_tooMuch m bad fuel buf kbuf _ (by exact_mod_cast hpos)
      (blockRead_ok hmalloc hin) hnot hguard]
    refine ⟨_, _, rfl, .inl ⟨neg_EFAULT, ?_⟩⟩
    rintro ⟨-, ⟨y, hy⟩, -⟩
    exact hguard (jump_fits hsize hx hn hy)

end Paths

/-! ## All of it -/

/-- A write of at most one block inside a fault-free device below 4 GiB stores
its data when it has what it takes, and returns an error when it has not. -/
theorem write_cases (bad : Nat → Bool) (buf : Nat) (hsize : m.size < 4294967296)
    (hw : w.FaultFree) (hn : 0 < n) (hes : n ≤ m.erasesize) (hp : p + n ≤ m.size)
    (hfuel : m.blocks < fuel) :
    ∃ r w', (at91flashWrite m fuel buf n p).run (device m bad) w = (some r, w') ∧
      (r.ret < 0 ∧ ¬ Completes m bad w n p ∨
        Completes m bad w n p ∧ WriteDone m bad w buf n p r w'.flash) := by
  rw [at91flashWrite_eq hp hes]
  rcases walk_of_le_size hsize bad hfuel (p := p) (by omega) with
    ⟨x, hwalk, hx⟩ | ⟨⟨q, hwalk⟩, hnone⟩
  · have hcompletes : Completes m bad w n p ↔ (w.heap 0).isSome = true ∧ _ :=
      ⟨fun ⟨x', hx', h⟩ => hx'.unique hx ▸ h, fun h => ⟨x, hx, h⟩⟩
    rw [run_writeCount_good m bad fuel buf w (by omega) hwalk, hcompletes]
    cases hheap : w.heap 0 with
    | none => exact ⟨_, _, rfl, .inl ⟨neg_ENOMEM, fun h => absurd h.1 (by simp)⟩⟩
    | some kbuf =>
        simp only [Option.isSome_some, true_and]
        by_cases hfit : x % m.erasesize + n ≤ m.erasesize
        · simp only [hfit, not_lt.mpr hfit, true_and, false_and, or_false]
          by_cases hzero : x = 0
          · exact write_first hsize hw hx hzero kbuf hheap
          · exact write_within hsize hw hx hzero hfit kbuf
        · have hzero : x ≠ 0 := by
            rintro rfl
            rw [Nat.zero_mod] at hfit
            omega
          simp only [hfit, not_le.mp hfit, true_and, false_and, false_or]
          exact write_jump hsize hw hx hzero hes (not_le.mp hfit) hfuel kbuf
  · rw [run_writeCount_none m bad fuel buf w (by omega) hwalk]
    exact ⟨_, _, rfl, .inl ⟨neg_EFAULT, fun ⟨x, hx, _⟩ => hx.stream_ne_nil hnone⟩⟩

/-- Enough good bytes are what it takes when no allocation and no copy fails. -/
theorem completes_of_enough (hsize : m.size < 4294967296) (huser : w.UserOk) (hn : 0 < n)
    (hlen : n ≤ (m.stream bad p).length) : Completes m bad w n p := by
  have hstart {q : Nat} (hq : m.stream bad q ≠ []) : ∃ x, Landing m bad q x := by
    have hlt := Mtd.lt_extent_of_stream_ne_nil hq
    have hext := m.extent_le_size
    have hblock := m.lt_extent_iff.mp hlt
    rw [Mtd.blocks] at hblock
    rcases walk_of_le_size hsize bad (Nat.lt_succ_self _) (hlt.le.trans hext) with
      ⟨x, -, hx⟩ | ⟨-, hnone⟩
    · exact ⟨x, hx⟩
    · exact absurd hnone hq
  obtain ⟨x, hx⟩ := hstart (List.ne_nil_of_length_pos (hn.trans_le hlen))
  refine ⟨x, hx, huser.heap 0, ?_⟩
  by_cases hfit : x % m.erasesize + n ≤ m.erasesize
  · exact .inl ⟨hfit, huser.copyOk n⟩
  · refine .inr ⟨not_le.mp hfit, huser.copyOk _, hstart fun hnone => ?_, ?_⟩
    · rw [hx.stream_split, hnone, List.append_nil, List.length_range'] at hlen
      omega
    · exact Caller.UserOk.copyOk (w := w.afterCopy)
        ⟨fun _ => huser.heap _, fun _ => huser.copies _⟩ _

/-! ## What is stored, and where -/

namespace WriteDone

variable {r : Ret} {flash : Nat → Byte}

/-- A write that stored its data found as many good bytes. -/
theorem enough (h : WriteDone m bad w buf n p r flash) (hn : n ≤ m.erasesize) :
    n ≤ (m.stream bad p).length := by
  have hlen {k : Nat} {l : List Nat} (htake : (m.stream bad p).take k = l)
      (hl : l.length = k) : k ≤ (m.stream bad p).length := by
    rw [← htake, List.length_take] at hl
    omega
  cases h with
  | first hx _ =>
      exact hlen (hx.take_within (by rw [Nat.zero_mod]; omega)) List.length_range'
  | within hx _ hfit => exact hlen (hx.take_within hfit) List.length_range'
  | jump hx _ hfirst hrest _ hy =>
      subst hrest
      refine hlen (hx.take_jump hfirst hy (by rw [hy.aligned_next]; omega)) ?_
      simp

/-- The stream bytes hold the data, in order. -/
theorem stored (h : WriteDone m bad w buf n p r flash) (hn : n ≤ m.erasesize) :
    ((m.stream bad p).take n).map flash = (List.range n).map fun i => w.user (buf + i) := by
  cases h with
  | @first kbuf hx _ =>
      rw [hx.take_within (by rw [Nat.zero_mod]; omega), List.range'_eq_map_range,
        List.map_map]
      refine List.map_congr_left fun i hi => ?_
      have hi' := List.mem_range.mp hi
      rw [Function.comp, splice_add (by omega), splice_of_mem (Nat.zero_le i) (by omega),
        Nat.sub_zero]
  | within hx _ hfit => rw [hx.take_within hfit, map_splice]
  | @jump x y first rest hx _ hfirst hrest _ hy =>
      have hle : x + first ≤ y := by
        have := hy.le
        rw [m.blockEnd_eq] at this
        omega
      subst hrest
      rw [hx.take_jump hfirst hy (by rw [hy.aligned_next]; omega), List.map_append,
        map_splice, map_splice_of_disjoint, map_splice, map_range_add]
      · simp only [Nat.add_assoc]
      · intro i hi
        rw [List.mem_range'_1] at hi
        omega

/-- A write that starts at byte 0 of the device, in a good block 0, does not
read the block first. -/
def AtZero (bad : Nat → Bool) (p : Nat) : Prop := p = 0 ∧ bad 0 = false

theorem atZero_of_landing (hx : Landing m bad p 0) : AtZero bad p :=
  ⟨Nat.le_zero.mp hx.le, by simpa using hx.good⟩

theorem pos_of_not_atZero (hx : Landing m bad p x) (hpos : 0 < x) : ¬ AtZero bad p := by
  rintro ⟨rfl, hgood⟩
  have := hx.eq_self (by rw [Nat.zero_div]; exact hgood)
  omega

/-- Away from byte 0 a write changes its stream bytes and nothing else. -/
theorem frame (h : WriteDone m bad w buf n p r flash) (hn : n ≤ m.erasesize)
    (hzero : ¬ AtZero bad p) {a : Nat} (ha : a ∉ (m.stream bad p).take n) :
    flash a = w.flash a := by
  cases h with
  | first hx _ => exact absurd (atZero_of_landing hx) hzero
  | within hx _ hfit =>
      rw [hx.take_within hfit, List.mem_range'_1] at ha
      exact splice_of_not_mem ha
  | jump hx _ hfirst hrest _ hy =>
      subst hrest
      rw [hx.take_jump hfirst hy (by rw [hy.aligned_next]; omega), List.mem_append,
        List.mem_range'_1, List.mem_range'_1, not_or] at ha
      rw [splice_of_not_mem ha.2, splice_of_not_mem ha.1]

/-- At byte 0 the rest of block 0 becomes what the buffer held. -/
theorem flash_atZero (h : WriteDone m bad w buf n p r flash) (hzero : AtZero bad p) :
    ∃ kbuf, w.heap 0 = some kbuf ∧ Landing m bad p 0 ∧
      flash = splice w.flash 0 m.erasesize (splice kbuf 0 n fun i => w.user (buf + i)) := by
  cases h with
  | first hx hheap => exact ⟨_, hheap, hx, rfl⟩
  | within hx hpos _ => exact absurd hzero (pos_of_not_atZero hx hpos)
  | jump hx hpos _ _ _ _ => exact absurd hzero (pos_of_not_atZero hx hpos)

/-- Outside the stream bytes a write leaves what does not depend on the data. -/
theorem outside_eq {w₁ w₂ : World} {buf₁ buf₂ : Nat} {r₁ r₂ : Ret} {flash₁ flash₂ : Nat → Byte}
    (h₁ : WriteDone m bad w₁ buf₁ n p r₁ flash₁) (h₂ : WriteDone m bad w₂ buf₂ n p r₂ flash₂)
    (hn : n ≤ m.erasesize) (hheap : w₁.heap 0 = w₂.heap 0) (hflash : w₁.flash = w₂.flash)
    {a : Nat} (ha : a ∉ (m.stream bad p).take n) : flash₁ a = flash₂ a := by
  by_cases hzero : AtZero bad p
  · obtain ⟨kbuf₁, hkbuf₁, hx, rfl⟩ := h₁.flash_atZero hzero
    obtain ⟨kbuf₂, hkbuf₂, -, rfl⟩ := h₂.flash_atZero hzero
    obtain rfl : kbuf₁ = kbuf₂ := Option.some.inj (hkbuf₁.symm.trans (hheap.trans hkbuf₂))
    rw [hx.take_within (by rw [Nat.zero_mod]; omega), List.mem_range'_1] at ha
    rw [hflash]
    unfold splice
    rw [if_neg (c := 0 ≤ a - 0 ∧ _) (by omega), if_neg (c := 0 ≤ a - 0 ∧ _) (by omega)]
  · rw [h₁.frame hn hzero ha, h₂.frame hn hzero ha, hflash]

end WriteDone

end At91Drivers.Flash
