import At91Drivers.Flash.FaultFree
import At91Drivers.Flash.ReadStages

/-!
# What a read does

A read of `n` bytes (what the two clips leave of `count`) is one `mtd->read` or
two.  The first part is the rest of the block of the landing; the second starts
at the next landing, however many blocks it spans.

```text
within    o + n ≤ size    [x, x + n)
jump      size < o + n    the rest of the block of x, then [y, y + rest)
```

The equations of the parts hold for any geometry and any faults: a part gets to
some length, the position moves on by it, and that much is copied to the user,
or as much of it as the copy gets to.  On a fault-free device below 4 GiB a
read of at most one block delivers the good-block stream.
-/

namespace At91Drivers.Flash

open Effects Arith

/-- What the two clips leave of `count` for a read that starts at `x`. -/
def Mtd.readCount (m : Mtd) (x count : Nat) : Nat := min (min count (m.size - x)) maxKmallocSize

variable {m : Mtd} {bad : Nat → Bool} {w : World} {fuel buf n p x y : Nat}

/-! ## The clips -/

theorem readCount_of_le (hn : x + n ≤ m.size) (hk : n ≤ maxKmallocSize) :
    m.readCount x n = n := by
  unfold Mtd.readCount
  omega

theorem readCount_le (hx : x ≤ m.size) : x + m.readCount x n ≤ m.size := by
  unfold Mtd.readCount
  omega

theorem readCount_le_count : m.readCount x n ≤ n :=
  calc m.readCount x n ≤ min n (m.size - x) := Nat.min_le_left _ _
    _ ≤ n := Nat.min_le_left _ _

theorem readCount_le_max : m.readCount x n ≤ maxKmallocSize := Nat.min_le_right _ _

theorem readCount_pos {count : Nat} (hx : x < m.size) (hcount : 0 < count) :
    0 < m.readCount x count := by
  unfold Mtd.readCount maxKmallocSize
  omega

theorem clip_eq {count : Nat} (hcount : count < 4294967296) (hx : x < m.size) :
    m.clip x count = min count (m.size - x) := by
  have hwide := m.size_lt_i64
  unfold Mtd.clip
  rw [← Nat.cast_add, u64_natCast (by omega), ← Nat.cast_sub hx.le]
  split
  · rw [u32_natCast (by omega)]
    omega
  · omega

theorem clipKmalloc_clip {count : Nat} (hcount : count < 4294967296) (hx : x < m.size) :
    clipKmalloc (m.clip x count) = m.readCount x count := by
  rw [clip_eq hcount hx, clipKmalloc, Mtd.readCount]
  split <;> omega

/-- A read that finds a good block gets to the allocation. -/
theorem run_read_landing {count : Nat} (hcount : 0 < count) (hcount' : count < 4294967296)
    (hlt : x < m.size)
    (hwalk : walk m bad fuel p = .good x (x / m.erasesize : Nat) (m.blockoffset x)) :
    (at91flashRead m fuel buf count p).run (device m bad) w =
      match w.heap 0 with
      | none => (some ⟨-ENOMEM, x⟩, w.afterKmalloc)
      | some _ =>
          (readBlocks m fuel buf (m.readCount x count) x (x / m.erasesize : Nat)).run
            (device m bad) w.afterKmalloc := by
  have hpos := readCount_pos hlt hcount
  have hclip : m.clip x count ≠ 0 := by
    rw [clip_eq hcount' hlt]
    unfold Mtd.readCount at hpos
    omega
  have hrun := run_at91flashRead_good m bad fuel buf w count hwalk
  rw [clipKmalloc_clip hcount' hlt, if_neg hclip] at hrun
  refine hrun.trans ?_
  cases w.heap 0 <;> rfl

/-! ## The length of a part -/

/-- The length an `mtd->read` gets to. -/
def readLen (m : Mtd) (addr len : Nat) : Option Fault → Nat
  | none => if m.InDevice addr len then len else 0
  | some f => min f.len (min len (m.size - addr))

section ReadLen

variable {flash : Nat → Byte} {addr len : Nat} {fault : Option Fault}

theorem retlen_readReply :
    (readReply m flash addr len fault).retlen = readLen m addr len fault := by
  cases fault with
  | none =>
      by_cases hin : m.InDevice addr len
      · simp [readReply, readLen, hin]
      · simp [readReply, readLen, hin]
  | some f => rfl

theorem readLen_le : readLen m addr len fault ≤ len := by
  cases fault with
  | none =>
      by_cases hin : m.InDevice addr len
      · simp [readLen, hin]
      · simp [readLen, hin]
  | some f => exact (Nat.min_le_right _ _).trans (Nat.min_le_left _ _)

/-- What is read is what the flash holds. -/
theorem data_readReply {i : Nat} (hi : i < readLen m addr len fault) :
    (readReply m flash addr len fault).data i = flash (addr + i) := by
  cases fault with
  | none =>
      have hlen : i < len := hi.trans_le readLen_le
      by_cases hin : m.InDevice addr len
      · rw [readReply, if_pos hin]
        dsimp only
        exact slice_of_lt hlen
      · simp [readLen, hin] at hi
  | some f => exact slice_of_lt hi

/-- A read ends inside the device. -/
theorem add_readLen_le (len : Nat) (fault : Option Fault) (haddr : addr ≤ m.size) :
    addr + readLen m addr len fault ≤ m.size := by
  cases fault with
  | none =>
      by_cases hin : m.InDevice addr len
      · have hend : addr + len ≤ m.size := hin
        simpa [readLen, hin] using hend
      · simpa [readLen, hin] using haddr
  | some f =>
      show addr + min f.len (min len (m.size - addr)) ≤ m.size
      omega

end ReadLen

/-! ## The parts of a read, for any geometry -/

/-- The buffer at `buf` holds the bytes of these addresses, in order. -/
def Holds (user : Nat → Byte) (buf : Nat) (flash : Nat → Byte) (addrs : List Nat) : Prop :=
  (List.range addrs.length).map (fun i => user (buf + i)) = addrs.map flash

/-- Nothing is copied for a part of length 0. -/
def World.afterPart (w : World) (len : Nat) : World :=
  { w with copies := fun k => if len ≠ 0 then w.copies (k + 1) else w.copies k }

theorem flash_afterDeliver (w : World) (readlen : Nat) (src : Nat → Byte) :
    (w.afterDeliver buf readlen src).flash = w.flash := by
  unfold World.afterDeliver
  split <;> rfl

theorem reads_afterDeliver (w : World) (readlen : Nat) (src : Nat → Byte) :
    (w.afterDeliver buf readlen src).reads = w.reads := by
  unfold World.afterDeliver
  split <;> rfl

theorem copies_afterDeliver (w : World) (readlen : Nat) (src : Nat → Byte) (k : Nat) :
    (w.afterDeliver buf readlen src).copies k = (w.afterPart readlen).copies k := by
  unfold World.afterDeliver World.afterPart
  by_cases hlen : readlen ≠ 0
  · simp [hlen, World.afterCopyToUser]
  · simp [hlen]

/-- What a part leaves in the user memory. -/
theorem user_afterDeliver (w : World) (readlen : Nat) (src : Nat → Byte) :
    (w.afterDeliver buf readlen src).user =
      splice w.user buf (copied readlen (w.copies 0)) src := by
  unfold World.afterDeliver
  by_cases hlen : readlen = 0
  · subst hlen
    have hnone : copied 0 (w.copies 0) = 0 := w.copyOk_zero
    rw [if_neg (by simp), hnone]
    exact (splice_own fun i hi => absurd hi (Nat.not_lt_zero i)).symm
  · rw [if_pos hlen]
    rfl

theorem user_delivered {len : Nat} {fault : Option Fault} (w : World)
    {readlen : Nat} (hlen : readlen = readLen m x len fault) :
    (w.afterDeliver buf readlen (readReply m w.flash x len fault).data).user =
      splice w.user buf (copied readlen (w.copies 0)) fun i => w.flash (x + i) := by
  rw [user_afterDeliver]
  exact splice_congr _ _ fun i hi => data_readReply (hlen ▸ hi.trans_le (copied_le _ _))

theorem delivered_natCast {len : Nat} (h : x + len < 9223372036854775808) :
    delivered x len = (x + len : Nat) := by
  unfold delivered
  by_cases hlen : len = 0
  · rw [if_neg (by simpa using hlen), hlen, Nat.add_zero]
  · rw [if_pos hlen, ← Nat.cast_add, i64_natCast h]

theorem holds_splice (user flash : Nat → Byte) (buf x len : Nat) :
    Holds (splice user buf len fun i => flash (x + i)) buf flash (List.range' x len) := by
  unfold Holds
  rw [List.length_range', List.range'_eq_map_range, List.map_map]
  refine List.map_congr_left fun i hi => ?_
  exact splice_add (List.mem_range.mp hi)

/-- A second part follows the first in the buffer. -/
theorem Holds.append {user flash : Nat → Byte} {buf : Nat} {addrs : List Nat}
    (h : Holds user buf flash addrs) (y len : Nat) :
    Holds (splice user (buf + addrs.length) len fun i => flash (y + i)) buf flash
      (addrs ++ List.range' y len) := by
  unfold Holds at *
  rw [List.length_append, List.length_range', map_range_add, List.map_append, ← h]
  congr 1
  · refine List.map_congr_left fun i hi => ?_
    have := List.mem_range.mp hi
    exact splice_of_lt (by omega)
  · rw [List.range'_eq_map_range, List.map_map]
    refine List.map_congr_left fun i hi => ?_
    rw [← Nat.add_assoc]
    exact splice_add (List.mem_range.mp hi)

/-- The read does not stay in the block of `x`. -/
def Mtd.Jumps (m : Mtd) (x n : Nat) : Prop :=
  (m.ebAddr ((x / m.erasesize : Nat) + 1) : Int) < i64 (x + n)

/-- The length of the first part of a read that jumps. -/
def Mtd.toBlockEnd (m : Mtd) (x : Nat) : Nat :=
  u32 ((m.ebAddr ((x / m.erasesize : Nat) + 1) : Int) - (x : Nat))

section Parts

variable (fuel buf : Nat) (w : World) (hx : x ≤ m.size) {len : Nat}

include hx

theorem run_read_within (bad : Nat → Bool) (hstay : ¬ m.Jumps x n)
    (hlen : len = readLen m x n (w.reads 0)) :
    ∃ w', (readBlocks m fuel buf n x (x / m.erasesize : Nat)).run (device m bad) w =
        (some ⟨if w.CopyOk len then i32 len else -EFAULT, (x + len : Nat)⟩, w') ∧
      w'.flash = w.flash ∧
      w'.user = splice w.user buf (copied len (w.copies 0)) fun i => w.flash (x + i) := by
  have hsize := m.size_lt_i64
  have hend := add_readLen_le n (w.reads 0) hx
  have hread : w.rangeRead m (u64 (x : Nat)) n = readReply m w.flash x n (w.reads 0) := by
    rw [u64_natCast (by omega)]
    rfl
  have hrun := run_readBlocks_within m bad fuel buf w hstay hread
  rw [retlen_readReply, ← hlen, delivered_natCast (by omega)] at hrun
  exact ⟨_, hrun, flash_afterDeliver _ _ _, user_delivered w.afterRead hlen⟩

/-- The first part of a read that jumps, and what it leaves for the second. -/
theorem run_read_first (bad : Nat → Bool) (hjumps : m.Jumps x n)
    (hlen : len = readLen m x (m.toBlockEnd x) (w.reads 0)) :
    ∃ w', (readBlocks m fuel buf n x (x / m.erasesize : Nat)).run (device m bad) w =
        (if w.CopyOk len then
          (readSecond m fuel buf n ((x + len : Nat) : Int) len len).run (device m bad) w'
        else (some ⟨-EFAULT, (x + len : Nat)⟩, w')) ∧
      w'.flash = w.flash ∧ w'.reads 0 = w.reads 1 ∧
      (∀ k, w'.copies k = (w.afterPart len).copies k) ∧
      w'.user = splice w.user buf (copied len (w.copies 0)) fun i => w.flash (x + i) := by
  have hsize := m.size_lt_i64
  have hend := add_readLen_le (m.toBlockEnd x) (w.reads 0) hx
  have hread : w.rangeRead m (u64 (x : Nat))
      (u32 ((m.ebAddr ((x / m.erasesize : Nat) + 1) : Int) - (x : Nat))) =
        readReply m w.flash x (m.toBlockEnd x) (w.reads 0) := by
    rw [u64_natCast (by omega)]
    rfl
  have hrun := run_readBlocks_jump m bad fuel buf w hjumps hread
  rw [retlen_readReply, ← hlen, delivered_natCast (by omega)] at hrun
  refine ⟨_, hrun, flash_afterDeliver _ _ _, ?_, copies_afterDeliver _ _ _,
    user_delivered w.afterRead hlen⟩
  exact congrFun (reads_afterDeliver w.afterRead _ _) 0

omit hx in
/-- The second part, from `y`. -/
theorem run_read_second {first : Nat} (hy : y ≤ m.size)
    (hwalk : walk m bad fuel x = .good y (y / m.erasesize : Nat) (m.blockoffset y))
    (hlen : len = readLen m y (u32 (n - first)) (w.reads 0)) :
    ∃ w', (readSecond m fuel buf n x first first).run (device m bad) w =
        (some ⟨if w.CopyOk len then i32 len else -EFAULT, (y + len : Nat)⟩, w') ∧
      w'.flash = w.flash ∧
      w'.user = splice w.user (buf + first) (copied len (w.copies 0))
        fun i => w.flash (y + i) := by
  have hsize := m.size_lt_i64
  have hend := add_readLen_le (u32 (n - first)) (w.reads 0) hy
  have hread : w.rangeRead m (u64 (y : Nat)) (u32 (n - first)) =
      readReply m w.flash y (u32 (n - first)) (w.reads 0) := by
    rw [u64_natCast (by omega)]
    rfl
  have hrun := run_readSecond_good m bad fuel buf w first hwalk hread
  rw [retlen_readReply, ← hlen, delivered_natCast (by omega)] at hrun
  exact ⟨_, hrun, flash_afterDeliver _ _ _, user_delivered w.afterRead hlen⟩

end Parts

/-! ## Devices below 4 GiB -/

/-- Below 4 GiB the driver's test is whether the data fits the block of `x`. -/
theorem jumps_iff (hsize : m.size < 4294967296) (hx : Landing m bad p x) (hn : x + n ≤ m.size) :
    m.Jumps x n ↔ m.erasesize < x % m.erasesize + n := by
  have hmod := Nat.mod_lt x m.erasesize_pos
  rw [Mtd.Jumps, ebAddr_next hsize hx.block_lt, ← Nat.cast_add, i64_natCast (by omega),
    m.blockEnd_eq]
  omega

theorem toBlockEnd_eq (hsize : m.size < 4294967296) (hx : x / m.erasesize < m.blocks) :
    m.toBlockEnd x = m.erasesize - x % m.erasesize := by
  have hes := m.erasesize_lt
  rw [Mtd.toBlockEnd, ebAddr_next hsize hx, m.blockEnd_eq, Nat.cast_add, add_sub_cancel_left,
    u32_natCast (by omega)]

/-- A read inside a device without faults gets to its whole length. -/
theorem readLen_inside {addr len : Nat} (h : addr + len ≤ m.size) :
    readLen m addr len none = len := if_pos h

/-- A read of `n` bytes at `p` that delivered them. -/
structure ReadDone (m : Mtd) (bad : Nat → Bool) (w : World) (buf n p : Nat) (r : Ret)
    (w' : World) : Prop where
  flash_eq : w'.flash = w.flash
  stored : (List.range n).map (fun i => w'.user (buf + i)) = ((m.stream bad p).take n).map w.flash
  frame : ∀ a, ¬ (buf ≤ a ∧ a < buf + n) → w'.user a = w.user a
  position : ∃ q : Nat, r.ppos = q ∧ q ≤ m.size ∧ m.stream bad q = (m.stream bad p).drop n

/-- The rest of the stream after a part of the block of the landing. -/
theorem Landing.drop_within (hx : Landing m bad p x) (hfit : x % m.erasesize + n ≤ m.erasesize) :
    m.stream bad (x + n) = (m.stream bad p).drop n := by
  have hend := m.blockEnd_eq x
  obtain ⟨rest, hrest⟩ := Nat.exists_eq_add_of_le hfit
  have hsplit : m.erasesize - x % m.erasesize = n + rest := by omega
  have hlater : m.stream bad (x + n) =
      List.range' (x + n) rest ++ m.stream bad (m.blockEnd x) := by
    by_cases hzero : rest = 0
    · rw [hzero, List.range'_zero, List.nil_append]
      congr 1
      omega
    · have hlt : x + n < m.blockEnd x := by omega
      have hdiv := m.div_of_mem_block (Nat.le_add_right x n) hlt
      rw [Mtd.stream_of_good (hdiv ▸ hx.block_lt) (hdiv ▸ hx.good)]
      have hmod' : (x + n) % m.erasesize = x % m.erasesize + n := by
        have h₁ := Nat.div_add_mod x m.erasesize
        have h₂ := Nat.div_add_mod (x + n) m.erasesize
        rw [hdiv] at h₂
        omega
      rw [Mtd.blockEnd, hdiv]
      congr 2
      omega
  rw [hx.stream_split, hsplit, ← List.range'_append_1, List.append_assoc,
    List.drop_left' List.length_range', hlater]

theorem Landing.drop_jump {first rest : Nat} (hx : Landing m bad p x)
    (hfirst : first = m.erasesize - x % m.erasesize) (hy : Landing m bad (m.blockEnd x) y)
    (hrest : y % m.erasesize + rest ≤ m.erasesize) :
    m.stream bad (y + rest) = (m.stream bad p).drop (first + rest) := by
  rw [hx.stream_split, ← hfirst, ← List.drop_drop, List.drop_left' List.length_range',
    hy.drop_within hrest]

section Enough

variable (hsize : m.size < 4294967296) (hw : w.FaultFree) (huser : w.UserOk)
  (hx : Landing m bad p x) (hin : x + n ≤ m.size)

include hsize hw huser hx hin

theorem readDone_within (hfit : x % m.erasesize + n ≤ m.erasesize) :
    ∃ r w', (readBlocks m fuel buf n x (x / m.erasesize : Nat)).run (device m bad)
        w.afterKmalloc = (some r, w') ∧ ReadDone m bad w buf n p r w' := by
  have hstay : ¬ m.Jumps x n := by
    rw [jumps_iff hsize hx hin]
    omega
  have hlen : n = readLen m x n (w.reads 0) := by rw [hw.reads, readLen_inside hin]
  have hcopied : copied n (w.afterKmalloc.copies 0) = n := huser.copyOk n
  obtain ⟨w', hrun, hflash, huser'⟩ :=
    run_read_within fuel buf w.afterKmalloc (by omega) bad hstay hlen
  rw [hcopied] at huser'
  refine ⟨_, w', hrun, hflash, ?_, ?_, x + n, rfl, hin, hx.drop_within hfit⟩
  · rw [hx.take_within hfit, huser']
    have hholds := holds_splice w.user w.flash buf x n
    rwa [Holds, List.length_range'] at hholds
  · intro a ha
    rw [huser']
    exact splice_of_not_mem ha

theorem readDone_jump (hes : n ≤ m.erasesize) (hlen : n ≤ (m.stream bad p).length)
    (hfuel : m.blocks < fuel) (hfit : m.erasesize < x % m.erasesize + n) :
    ∃ r w', (readBlocks m fuel buf n x (x / m.erasesize : Nat)).run (device m bad)
        w.afterKmalloc = (some r, w') ∧ ReadDone m bad w buf n p r w' := by
  have hext := m.extent_le_size
  have hblock := hx.block_lt
  have hend := m.blockEnd_le_extent hblock
  have hmod := Nat.mod_lt x m.erasesize_pos
  obtain ⟨first, hfirst⟩ : ∃ first, first = m.erasesize - x % m.erasesize := ⟨_, rfl⟩
  obtain ⟨rest, hrest⟩ : ∃ rest, n = first + rest := Nat.exists_eq_add_of_le (by omega)
  have hblockEnd : m.blockEnd x = x + first := by rw [m.blockEnd_eq, hfirst]
  have hfirstLen : first = readLen m x (m.toBlockEnd x) (w.reads 0) := by
    rw [hw.reads, toBlockEnd_eq hsize hblock, ← hfirst, readLen_inside (by omega)]
  have hcopyFirst : w.afterKmalloc.CopyOk first := huser.copyOk first
  have hcopied : copied first (w.afterKmalloc.copies 0) = first := hcopyFirst
  obtain ⟨w₁, hrun₁, hflash₁, hreads₁, hcopies₁, huser₁⟩ := run_read_first fuel buf
    w.afterKmalloc (by omega) bad ((jumps_iff hsize hx hin).mpr hfit) hfirstLen
  rw [if_pos hcopyFirst, ← hblockEnd] at hrun₁
  rw [hcopied] at huser₁
  rcases walk_of_le_size hsize bad hfuel (hend.trans hext) with ⟨y, hwalk₂, hy⟩ | ⟨-, hnone⟩
  · have haligned := hy.aligned_next
    have hyEnd := m.blockEnd_le_extent hy.block_lt
    rw [m.blockEnd_eq] at hyEnd
    have hrestLen : rest = readLen m y (u32 (n - first)) (w₁.reads 0) := by
      have hreads : w₁.reads 0 = none := hreads₁.trans (hw.reads 1)
      rw [hreads, hrest, Nat.cast_add, add_sub_cancel_left, u32_natCast (by omega),
        readLen_inside (by omega)]
    have hcopyRest : copied rest (w₁.copies 0) = rest := by
      have hnone : (w.afterKmalloc.afterPart first).copies 0 = none := by
        unfold World.afterPart
        dsimp only
        split <;> exact huser.copies _
      rw [hcopies₁, hnone]
      rfl
    obtain ⟨w', hrun, hflash, huser'⟩ := run_read_second fuel buf w₁ (by omega) hwalk₂ hrestLen
    rw [hcopyRest, huser₁, hflash₁] at huser'
    refine ⟨_, w', hrun₁.trans hrun, hflash.trans hflash₁, ?_, ?_, y + rest, rfl, by omega, ?_⟩
    · have hholds := (holds_splice w.user w.flash buf x first).append y rest
      rw [List.length_range'] at hholds
      rw [hrest, hx.take_jump hfirst hy (by omega), huser']
      rwa [Holds, List.length_append, List.length_range', List.length_range'] at hholds
    · intro a ha
      rw [huser', splice_of_not_mem (by omega)]
      exact splice_of_not_mem (by omega)
    · rw [hrest]
      exact hx.drop_jump hfirst hy (by omega)
  · rw [hx.stream_split, hnone, List.append_nil, List.length_range'] at hlen
    omega

end Enough

/-- A read of at most one block with enough good bytes before it delivers them. -/
theorem read_enough (bad : Nat → Bool) (buf : Nat) (hsize : m.size < 4294967296)
    (hw : w.FaultFree) (huser : w.UserOk) (hn : 0 < n) (hes : n ≤ m.erasesize)
    (hk : n ≤ maxKmallocSize) (hlen : n ≤ (m.stream bad p).length) (hfuel : m.blocks < fuel) :
    ∃ r w', (at91flashRead m fuel buf n p).run (device m bad) w = (some r, w') ∧
      ReadDone m bad w buf n p r w' := by
  have hstream := m.length_stream_le bad p
  have hext := m.extent_le_size
  obtain ⟨kbuf, hheap⟩ := huser.heap_eq
  rcases walk_of_le_size hsize bad hfuel (p := p) (by omega) with ⟨x, hwalk, hx⟩ | ⟨-, hnone⟩
  · have hin : x + n ≤ m.size := by
      have hstream' := m.length_stream_le bad x
      rw [← hx.stream_eq] at hstream'
      omega
    rw [run_read_landing hn (by omega) (by omega) hwalk, hheap, readCount_of_le hin hk]
    by_cases hfit : x % m.erasesize + n ≤ m.erasesize
    · exact readDone_within hsize hw huser hx hin hfit
    · exact readDone_jump hsize hw huser hx hin hes hlen hfuel (not_le.mp hfit)
  · rw [hnone, List.length_nil] at hlen
    omega

end At91Drivers.Flash
