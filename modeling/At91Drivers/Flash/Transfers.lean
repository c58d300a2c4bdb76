import At91Drivers.Flash.FailedWrite
import At91Drivers.Flash.ReadFaults
import At91Drivers.Flash.WriteRun

/-!
# When a call transfers all its bytes

On a fault-free device below 4 GiB, with user copies and allocations that may
fail, a read or a write of `n` bytes at `p` transfers all of them, to or from
the first `n` bytes of the good-block stream, under a condition on the blocks
and on the outcomes of the copies alone: `Receives` for a read, `Completes`
with a count that fits for a write.  Where the condition fails some contents of
the flash and the user memory show it, whatever the call returns.
-/

namespace At91Drivers.Flash

open Effects Arith

variable {m : Mtd} {bad : Nat → Bool} {w : World} {fuel buf n p x y : Nat}

/-! ## read -/

/-- What a read of `n` bytes at `p` needs in order to fill its buffer from the
stream.  A second part is one `mtd->read`, so it must lie in good blocks. -/
def Receives (m : Mtd) (bad : Nat → Bool) (w : World) (n p : Nat) : Prop :=
  ∃ x, Landing m bad p x ∧ (w.heap 0).isSome = true ∧ x + n ≤ m.size ∧ n ≤ maxKmallocSize ∧
    (x % m.erasesize + n ≤ m.erasesize ∧ w.CopyOk n ∨
      m.erasesize < x % m.erasesize + n ∧ w.CopyOk (m.erasesize - x % m.erasesize) ∧
        ∃ y, Landing m bad (m.blockEnd x) y ∧
          w.afterCopy.CopyOk (x % m.erasesize + n - m.erasesize) ∧
            ∀ a, y ≤ a → a < y + (x % m.erasesize + n - m.erasesize) → a ∈ m.stream bad y)

/-- A run from `w` to `w'` stored the bytes of these addresses in the buffer,
and nothing after them. -/
structure Stores (w w' : World) (buf : Nat) (addrs : List Nat) : Prop where
  holds : Holds w'.user buf w.flash addrs
  frame : ∀ a, buf + addrs.length ≤ a → w'.user a = w.user a

theorem stores_nil (h : w'.user = w.user) : Stores w w' buf [] :=
  ⟨rfl, fun a _ => congrFun h a⟩

theorem stores_part {w' : World} {k : Nat}
    (h : w'.user = splice w.user buf k fun i => w.flash (x + i)) :
    Stores w w' buf (List.range' x k) := by
  refine ⟨h ▸ holds_splice _ _ _ _ _, fun a ha => ?_⟩
  rw [List.length_range'] at ha
  rw [h]
  exact splice_of_ge ha

theorem stores_parts {w₁ w' : World} {first k : Nat}
    (h₁ : w₁.user = splice w.user buf first fun i => w.flash (x + i))
    (h : w'.user = splice w₁.user (buf + first) k fun i => w.flash (y + i)) :
    Stores w w' buf (List.range' x first ++ List.range' y k) := by
  have happend := (holds_splice w.user w.flash buf x first).append y k
  rw [List.length_range', ← h₁, ← h] at happend
  refine ⟨happend, fun a ha => ?_⟩
  rw [List.length_append, List.length_range', List.length_range'] at ha
  rw [h, splice_of_ge (by omega), h₁, splice_of_ge (by omega)]

/-- The outcomes of a run from `v` are those of `w`; the contents may differ. -/
structure SameOutcomes (w v : World) : Prop where
  heap : v.heap = w.heap
  copies : v.copies = w.copies
  reads : v.reads = w.reads

/-- Whatever the contents, a read of `n` bytes at `p` stores the bytes of these
addresses, and they are the first `n` of the stream just when `Receives` says. -/
structure ReadPlan (m : Mtd) (bad : Nat → Bool) (w : World) (fuel buf n p : Nat)
    (addrs : List Nat) : Prop where
  length_le : addrs.length ≤ n
  stores : ∀ v, SameOutcomes w v → ∃ r w',
    (at91flashRead m fuel buf n p).run (device m bad) v = (some r, w') ∧ Stores v w' buf addrs
  receives : addrs = (m.stream bad p).take n ∧ addrs.length = n ↔ Receives m bad w n p

section Read

variable (hsize : m.size < 4294967296) (hw : w.FaultFree) (hx : Landing m bad p x)

include hx

/-- The landing is the only choice of `x` in `Receives`. -/
theorem receives_iff (hheap : (w.heap 0).isSome = true) :
    Receives m bad w n p ↔ m.readCount x n = n ∧
      (x % m.erasesize + n ≤ m.erasesize ∧ w.CopyOk n ∨
        m.erasesize < x % m.erasesize + n ∧ w.CopyOk (m.erasesize - x % m.erasesize) ∧
          ∃ y, Landing m bad (m.blockEnd x) y ∧
            w.afterCopy.CopyOk (x % m.erasesize + n - m.erasesize) ∧
              ∀ a, y ≤ a → a < y + (x % m.erasesize + n - m.erasesize) → a ∈ m.stream bad y) := by
  have hlt := hx.lt_extent.trans_le m.extent_le_size
  constructor
  · rintro ⟨x', hx', -, hin, hmax, h⟩
    obtain rfl := hx'.unique hx
    exact ⟨readCount_of_le hin hmax, h⟩
  · rintro ⟨hcount, h⟩
    unfold Mtd.readCount at hcount
    exact ⟨x, hx, hheap, by omega, by omega, h⟩

include hsize hw

theorem read_within_stores (hn : 0 < n) (hn' : n < 4294967296) (buf : Nat)
    (hheap : (w.heap 0).isSome = true)
    (hwalk : walk m bad fuel p = .good x (x / m.erasesize : Nat) (m.blockoffset x))
    (hfit : x % m.erasesize + m.readCount x n ≤ m.erasesize) :
    ∃ addrs, ReadPlan m bad w fuel buf n p addrs := by
  have hlt := hx.lt_extent.trans_le m.extent_le_size
  have hin := readCount_le (n := n) hlt.le
  have hle : m.readCount x n ≤ n := readCount_le_count
  have hcopied := copied_le (m.readCount x n) (w.copies 0)
  refine ⟨List.range' x (copied (m.readCount x n) (w.copies 0)), ?_, fun v hv => ?_, ?_⟩
  · rw [List.length_range']
    omega
  · obtain ⟨kbuf, hkbuf⟩ := Option.isSome_iff_exists.mp hheap
    have hstay : ¬ m.Jumps x (m.readCount x n) := by
      rw [jumps_iff hsize hx hin]
      omega
    have hlen : m.readCount x n = readLen m x (m.readCount x n) (v.reads 0) := by
      rw [hv.reads, hw.reads, readLen_inside hin]
    obtain ⟨w', hrun, -, huser⟩ :=
      run_read_within fuel buf v.afterKmalloc hlt.le bad hstay hlen
    rw [run_read_landing hn hn' hlt hwalk, hv.heap, hkbuf, ← hv.copies]
    exact ⟨_, w', hrun, stores_part huser⟩
  · rw [receives_iff hx hheap, List.length_range']
    constructor
    · rintro ⟨-, hlen⟩
      have hcount : m.readCount x n = n := by omega
      rw [hcount] at hlen hfit
      exact ⟨hcount, .inl ⟨hfit, hlen⟩⟩
    · rintro ⟨hcount, ⟨-, hcopy⟩ | ⟨hcross, -⟩⟩
      · have hlen : copied n (w.copies 0) = n := hcopy
        rw [hcount] at hfit ⊢
        rw [hlen, hx.take_within hfit]
        exact ⟨rfl, rfl⟩
      · omega

omit hsize hw in
/-- A first part that is all the read stores falls short. -/
theorem plan_first {k : Nat} (hheap : (w.heap 0).isSome = true)
    (hfit : m.erasesize < x % m.erasesize + m.readCount x n)
    (hk : k ≤ m.erasesize - x % m.erasesize)
    (hstores : ∀ v, SameOutcomes w v → ∃ r w',
      (at91flashRead m fuel buf n p).run (device m bad) v = (some r, w') ∧
        Stores v w' buf (List.range' x k))
    (hshort : ¬ (w.CopyOk (m.erasesize - x % m.erasesize) ∧ ∃ y, Landing m bad (m.blockEnd x) y ∧
      ∀ a, y ≤ a → a < y + (x % m.erasesize + n - m.erasesize) → a ∈ m.stream bad y)) :
    ReadPlan m bad w fuel buf n p (List.range' x k) := by
  have hmod := Nat.mod_lt x m.erasesize_pos
  have hle : m.readCount x n ≤ n := readCount_le_count
  refine ⟨by rw [List.length_range']; omega, hstores, iff_of_false ?_ ?_⟩
  · rw [List.length_range']
    omega
  · rw [receives_iff hx hheap]
    rintro ⟨hcount, ⟨hin, -⟩ | ⟨-, hcopy, y, hy, -, hgood⟩⟩
    · omega
    · exact hshort ⟨hcopy, y, hy, hgood⟩

/-- The part of the block where the read starts, from a world with the same
outcomes; a failed copy ends the read. -/
theorem run_first_stores {v : World} (hv : SameOutcomes w v) (hn : 0 < n) (hn' : n < 4294967296)
    (buf : Nat) (hheap : (w.heap 0).isSome = true)
    (hwalk : walk m bad fuel p = .good x (x / m.erasesize : Nat) (m.blockoffset x))
    (hfit : m.erasesize < x % m.erasesize + m.readCount x n) {first : Nat}
    (hfirst : first = m.erasesize - x % m.erasesize) :
    ∃ w', (at91flashRead m fuel buf n p).run (device m bad) v =
        (if w.CopyOk first then
          (readSecond m fuel buf (m.readCount x n) (m.blockEnd x) first first).run (device m bad) w'
        else (some ⟨-EFAULT, m.blockEnd x⟩, w')) ∧
      w'.flash = v.flash ∧ w'.reads 0 = none ∧ w'.copies 0 = w.copies 1 ∧
      w'.user = splice v.user buf (copied first (w.copies 0)) fun i => v.flash (x + i) := by
  have hblock := hx.block_lt
  have hext := m.extent_le_size
  have hlt := hx.lt_extent.trans_le hext
  have hmod := Nat.mod_lt x m.erasesize_pos
  have hin := readCount_le (n := n) hlt.le
  have hblockEnd : m.blockEnd x = x + first := by rw [m.blockEnd_eq, hfirst]
  have hjumps := (jumps_iff hsize hx hin).mpr hfit
  have hlen : first = readLen m x (m.toBlockEnd x) (v.reads 0) := by
    rw [hv.reads, hw.reads, toBlockEnd_eq hsize hblock, ← hfirst, readLen_inside (by omega)]
  have hcopyOk : v.afterKmalloc.CopyOk first ↔ w.CopyOk first := by
    show copied first (v.copies 0) = first ↔ copied first (w.copies 0) = first
    rw [hv.copies]
  obtain ⟨kbuf, hkbuf⟩ := Option.isSome_iff_exists.mp hheap
  obtain ⟨w', hrun, hflash, hreads, hcopies, huser⟩ :=
    run_read_first fuel buf v.afterKmalloc hlt.le bad hjumps hlen
  rw [run_read_landing hn hn' hlt hwalk, hv.heap, hkbuf, hblockEnd, ← hv.copies]
  simp only [hcopyOk] at hrun
  refine ⟨w', hrun, hflash, hreads.trans ?_, ?_, huser⟩
  · show v.reads 1 = none
    rw [hv.reads, hw.reads]
  · rw [hcopies]
    show (if first ≠ 0 then v.copies 1 else v.copies 0) = v.copies 1
    rw [if_pos (by omega)]

omit hsize hw in
/-- The two parts are the first bytes of the stream just when the second one
gets to its end and lies in good blocks. -/
theorem receives_parts_iff (hheap : (w.heap 0).isSome = true) {first rest len : Nat}
    (hfirst : first = m.erasesize - x % m.erasesize) (hpos : 0 < rest)
    (hrest : m.readCount x n = first + rest) (hcopy : w.CopyOk first)
    (hy : Landing m bad (m.blockEnd x) y) (hlen : len = readLen m y rest none) :
    (List.range' x first ++ List.range' y (copied len (w.copies 1)) = (m.stream bad p).take n ∧
      (List.range' x first ++ List.range' y (copied len (w.copies 1))).length = n) ↔
      Receives m bad w n p := by
  have hext := m.extent_le_size
  have hmod := Nat.mod_lt x m.erasesize_pos
  have hle : m.readCount x n ≤ n := readCount_le_count
  have hlenLe : len ≤ rest := hlen ▸ readLen_le
  have hcopiedLe := copied_le len (w.copies 1)
  have hstream : (m.stream bad p).take (first + rest) =
      List.range' x first ++ (m.stream bad y).take rest := by
    rw [hx.stream_split, ← hfirst, hy.stream_eq, List.take_append, List.length_range',
      Nat.add_sub_cancel_left, List.take_of_length_le (by rw [List.length_range']; omega)]
  rw [receives_iff hx hheap, List.length_append, List.length_range', List.length_range']
  constructor
  · rintro ⟨htake, hlength⟩
    have hcount : m.readCount x n = n := by omega
    have hall : copied len (w.copies 1) = rest := by omega
    have hlenEq : len = rest := by omega
    rw [hcount] at hrest
    rw [hall, hrest, hstream, List.append_cancel_left_eq] at htake
    have hsum : x % m.erasesize + n - m.erasesize = rest := by omega
    refine ⟨hcount, .inr ⟨by omega, hfirst ▸ hcopy, y, hy, ?_, ?_⟩⟩
    · rw [hsum]
      show copied rest (w.copies 1) = rest
      rwa [hlenEq] at hall
    · rw [hsum]
      exact take_addrs_iff.mp htake.symm
  · rintro ⟨hcount, ⟨hin, -⟩ | ⟨-, -, y', hy', hcopyNext, hgood⟩⟩
    · omega
    · obtain rfl := hy'.unique hy
      rw [hcount] at hrest
      have hsum : x % m.erasesize + n - m.erasesize = rest := by omega
      rw [hsum] at hcopyNext hgood
      -- the last byte of the second part is inside the device
      have hlast := Mtd.mem_stream.mp (hgood (y' + rest - 1) (by omega) (by omega))
      have hlastLt := m.lt_extent_iff.mpr hlast.2.1
      have hlenEq : len = rest := by rw [hlen, readLen_inside (by omega)]
      have hall : copied len (w.copies 1) = rest := by
        rw [hlenEq]
        exact hcopyNext
      rw [hall, hrest, hstream, ← take_addrs_iff.mpr hgood]
      exact ⟨rfl, rfl⟩

theorem read_jump_stores (hn : 0 < n) (hn' : n < 4294967296) (buf : Nat)
    (hheap : (w.heap 0).isSome = true) (hfuel : m.blocks < fuel)
    (hwalk : walk m bad fuel p = .good x (x / m.erasesize : Nat) (m.blockoffset x))
    (hfit : m.erasesize < x % m.erasesize + m.readCount x n) :
    ∃ addrs, ReadPlan m bad w fuel buf n p addrs := by
  have hext := m.extent_le_size
  have hend := m.blockEnd_le_extent hx.block_lt
  have hle : m.readCount x n ≤ n := readCount_le_count
  obtain ⟨first, hfirst⟩ : ∃ first, first = m.erasesize - x % m.erasesize := ⟨_, rfl⟩
  obtain ⟨rest, hrest⟩ : ∃ rest, m.readCount x n = first + rest :=
    Nat.exists_eq_add_of_le (by omega)
  have hmod := Nat.mod_lt x m.erasesize_pos
  have hpart (v : World) (hv : SameOutcomes w v) :=
    run_first_stores hsize hw hx hv hn hn' buf hheap hwalk hfit hfirst
  by_cases hcopy : w.CopyOk first
  · have hcopied : copied first (w.copies 0) = first := hcopy
    rcases walk_of_le_size hsize bad hfuel (hend.trans hext) with
      ⟨y, hwalk', hy⟩ | ⟨⟨q, hwalk'⟩, hnone⟩
    · obtain ⟨len, hlen⟩ : ∃ len, len = readLen m y rest none := ⟨_, rfl⟩
      have hlenLe : len ≤ rest := hlen ▸ readLen_le
      have hcopiedLe := copied_le len (w.copies 1)
      refine ⟨List.range' x first ++ List.range' y (copied len (w.copies 1)), ?_, fun v hv => ?_,
        receives_parts_iff hx hheap hfirst (by omega) hrest hcopy hy hlen⟩
      · rw [List.length_append, List.length_range', List.length_range']
        omega
      · have hyEnd := hy.lt_extent
        obtain ⟨w₁, hrun, hflash, hreads, hcopies, huser⟩ := hpart v hv
        have hlen' : len = readLen m y (u32 (m.readCount x n - first)) (w₁.reads 0) := by
          rw [hreads, hrest, Nat.cast_add, add_sub_cancel_left, u32_natCast (by omega), hlen]
        obtain ⟨w₂, hrun₂, -, huser₂⟩ :=
          run_read_second fuel buf w₁ (by omega) hwalk' hlen'
        rw [if_pos hcopy, hrun₂] at hrun
        rw [hcopied] at huser
        rw [hflash, hcopies] at huser₂
        exact ⟨_, w₂, hrun, stores_parts huser huser₂⟩
    · -- no second block
      refine ⟨_, plan_first hx hheap hfit hfirst.le (fun v hv => ?_) ?_⟩
      · obtain ⟨w', hrun, -, -, -, huser⟩ := hpart v hv
        rw [if_pos hcopy] at hrun
        rw [hcopied] at huser
        rcases hwalk' with hwalk' | hwalk'
        · rw [run_readSecond_noBlock m bad fuel buf w' hwalk'] at hrun
          exact ⟨_, w', hrun, stores_part huser⟩
        · rw [run_readSecond_endOfFile m bad fuel buf w' hwalk'] at hrun
          exact ⟨_, w', hrun, stores_part huser⟩
      · rintro ⟨-, y, hy, -⟩
        exact hy.stream_ne_nil hnone
  · -- the first copy fails
    have hle' := copied_le first (w.copies 0)
    refine ⟨_, plan_first hx hheap hfit (hle'.trans hfirst.le) (fun v hv => ?_) ?_⟩
    · obtain ⟨w', hrun, -, -, -, huser⟩ := hpart v hv
      rw [if_neg hcopy] at hrun
      exact ⟨_, w', hrun, stores_part huser⟩
    · rintro ⟨hok, -⟩
      exact hcopy (hfirst ▸ hok)

end Read

theorem read_plan (bad : Nat → Bool) (buf : Nat) (hsize : m.size < 4294967296) (hw : w.FaultFree)
    (hn : 0 < n) (hn' : n < 4294967296) (hp : p ≤ m.size) (hfuel : m.blocks < fuel) :
    ∃ addrs, ReadPlan m bad w fuel buf n p addrs := by
  have hnothing (hstores : ∀ v, SameOutcomes w v → ∃ r,
        (at91flashRead m fuel buf n p).run (device m bad) v = (some r, v.afterKmalloc) ∨
          (at91flashRead m fuel buf n p).run (device m bad) v = (some r, v))
      (hnot : ¬ Receives m bad w n p) : ReadPlan m bad w fuel buf n p [] := by
    refine ⟨Nat.zero_le _, fun v hv => ?_, iff_of_false (fun h => ?_) hnot⟩
    · obtain ⟨r, hrun | hrun⟩ := hstores v hv
      · exact ⟨r, _, hrun, stores_nil rfl⟩
      · exact ⟨r, _, hrun, stores_nil rfl⟩
    · exact hn.ne h.2
  rcases walk_of_le_size hsize bad hfuel hp with ⟨x, hwalk, hx⟩ | ⟨⟨q, hwalk⟩, hnone⟩
  · cases hheap : w.heap 0 with
    | none =>
        refine ⟨[], hnothing (fun v hv => ⟨⟨-ENOMEM, x⟩, .inl ?_⟩) ?_⟩
        · rw [run_read_landing hn hn' (hx.lt_extent.trans_le m.extent_le_size) hwalk, hv.heap,
            hheap]
        · rintro ⟨x', -, hsome, -⟩
          rw [hheap] at hsome
          exact Bool.false_ne_true hsome
    | some kbuf =>
        have hsome : (w.heap 0).isSome = true := by rw [hheap]; rfl
        by_cases hfit : x % m.erasesize + m.readCount x n ≤ m.erasesize
        · exact read_within_stores hsize hw hx hn hn' buf hsome hwalk hfit
        · exact read_jump_stores hsize hw hx hn hn' buf hsome hfuel hwalk (not_le.mp hfit)
  · refine ⟨[], hnothing (fun v _ => ⟨⟨-EFAULT, q⟩, .inr ?_⟩) ?_⟩
    · exact run_at91flashRead_none m bad fuel buf v hwalk
    · rintro ⟨x, hx, -⟩
      exact hx.stream_ne_nil hnone

/-- The same call with other contents of the flash and of the user memory. -/
def World.holding (w : World) (flash user : Nat → Byte) : World :=
  { w with flash := flash, user := user }

/-- A read fills its buffer from the stream for all contents just when it
receives all of it. -/
theorem read_transfers_iff (hsize : m.size < 4294967296) (hw : w.FaultFree) (hn : 0 < n)
    (hn' : n < 4294967296) (hp : p ≤ m.size) (hfuel : m.blocks < fuel) :
    (∀ flash user, ∃ r w', (at91flashRead m fuel buf n p).run (device m bad)
        (w.holding flash user) = (some r, w') ∧
      (List.range n).map (fun i => w'.user (buf + i)) = ((m.stream bad p).take n).map flash) ↔
      Receives m bad w n p := by
  obtain ⟨addrs, hplan⟩ := read_plan bad buf hsize hw hn hn' hp hfuel
  rw [← hplan.receives]
  constructor
  · intro h
    have hboth (flash user : Nat → Byte) : ∃ w', Stores (w.holding flash user) w' buf addrs ∧
        (List.range n).map (fun i => w'.user (buf + i)) =
          ((m.stream bad p).take n).map flash := by
      obtain ⟨r, w', hrun, hstores⟩ := hplan.stores (w.holding flash user) ⟨rfl, rfl, rfl⟩
      obtain ⟨r₁, w₁, hrun₁, hbytes⟩ := h flash user
      obtain rfl := congrArg Prod.snd (hrun.symm.trans hrun₁)
      exact ⟨w', hstores, hbytes⟩
    have hlength : addrs.length = n := by
      by_contra hne
      have hlt := lt_of_le_of_ne hplan.length_le hne
      -- the last byte of the buffer still holds what the user had there
      obtain ⟨w', hstores, hbytes⟩ := hboth (fun _ => 1) fun _ => 0
      have hlast := congrArg (·[n - 1]?) hbytes
      have hkept : w'.user (buf + (n - 1)) = 0 := hstores.frame _ (by omega)
      have hin : n - 1 < n := by omega
      simp only [List.getElem?_map, List.getElem?_range hin, Option.map_some, hkept] at hlast
      cases hat : ((m.stream bad p).take n)[n - 1]? with
      | none =>
          rw [hat] at hlast
          cases hlast
      | some a =>
          rw [hat] at hlast
          have hbyte : (0 : Byte) = 1 := Option.some.inj hlast
          exact absurd hbyte (by decide)
    refine ⟨eq_of_map_eq fun flash => ?_, hlength⟩
    obtain ⟨w', hstores, hbytes⟩ := hboth flash fun _ => 0
    have hholds := hstores.holds
    rw [Holds, hlength] at hholds
    exact hholds.symm.trans hbytes
  · rintro ⟨htake, hlength⟩ flash user
    obtain ⟨r, w', hrun, hstores⟩ := hplan.stores (w.holding flash user) ⟨rfl, rfl, rfl⟩
    have hholds := hstores.holds
    rw [Holds, hlength] at hholds
    exact ⟨r, w', hrun, htake ▸ hholds⟩

/-! ## write -/

section Write

variable (hsize : m.size < 4294967296) (hw : w.FaultFree)

include hsize hw

/-- The second block of a write that gets no data leaves its stream bytes as
they were. -/
theorem second_kept {first rest : Nat} (buf : Nat) (hx : Landing m bad p x)
    (hfirst : first = m.erasesize - x % m.erasesize) (hrest : n = first + rest)
    (hpos : 0 < rest) (hes : n ≤ m.erasesize) (hfuel : m.blocks < fuel)
    (hlen : n ≤ (m.stream bad p).length) (kbuf : Nat → Byte)
    (hnot : ∀ y, Landing m bad (m.blockEnd x) y → ¬ w.CopyOk rest) :
    ∃ r w', (writeSecond m fuel buf n first (m.blockEnd x) kbuf).run (device m bad) w =
        (some r, w') ∧ w'.flash = w.flash ∧
      ∃ a ∈ (m.stream bad p).take n, m.blockEnd x ≤ a := by
  have hext := m.extent_le_size
  have hblocks := m.blocks_lt
  have hend := m.blockEnd_le_extent hx.block_lt
  have hes' := m.erasesize_lt
  rcases walk_of_le_size hsize bad hfuel (hend.trans hext) with ⟨y, hwalk, hy⟩ | ⟨-, hnone⟩
  · have hyBlock := hy.block_lt
    have hyEnd := hy.lt_extent
    rw [Mtd.blocks] at hyBlock
    have hebnum : m.ebnum y = (y / m.erasesize : Nat) := Mtd.ebnum_natCast (by omega) (by omega)
    rw [← hebnum] at hwalk
    have hcount : u32 ((n : Int) - first) = rest := by
      rw [hrest, Nat.cast_add, add_sub_cancel_left, u32_natCast (by omega)]
    obtain ⟨r, w', hrun, ⟨-, -, hflash⟩ | ⟨⟨-, hcopy⟩, -⟩⟩ :=
      write_second hw buf n first kbuf hwalk
    · refine ⟨r, w', hrun, hflash, y, ?_, hy.le⟩
      rw [hrest, hx.take_jump hfirst hy (by rw [hy.aligned_next]; omega)]
      exact List.mem_append_right _ (List.mem_range'_1.mpr ⟨le_rfl, by omega⟩)
    · rw [hcount] at hcopy
      exact absurd hcopy (hnot y hy)
  · rw [hx.stream_split, hnone, List.append_nil, List.length_range'] at hlen
    omega

/-- A write that crosses into a second block and does not complete keeps a byte. -/
theorem crossing_kept (buf : Nat) (hx : Landing m bad p x) (hsingle : ¬ m.Single x n)
    (hcross : m.erasesize < x % m.erasesize + n) (hes : n ≤ m.erasesize) (hn : 0 < n)
    (hfuel : m.blocks < fuel) (hlen : n ≤ (m.stream bad p).length) (kbuf : Nat → Byte)
    (hnot : ¬ (w.CopyOk (m.erasesize - x % m.erasesize) ∧ (∃ y, Landing m bad (m.blockEnd x) y) ∧
      w.afterCopy.CopyOk (x % m.erasesize + n - m.erasesize))) :
    ∃ r w', (writeBlocks m fuel buf n x (x / m.erasesize : Nat) (m.blockoffset x) kbuf).run
        (device m bad) w = (some r, w') ∧
      ∃ a ∈ (m.stream bad p).take n, w'.flash a = w.flash a := by
  have hlt := hx.lt_extent
  have hext := m.extent_le_size
  have hblock := hx.block_lt
  have hblocks := m.blocks_lt
  rw [Mtd.blocks] at hblock
  have hebnum : m.ebnum x = (x / m.erasesize : Nat) := Mtd.ebnum_natCast (by omega) (by omega)
  have hmod : u64 x % m.erasesize = x % m.erasesize := by rw [u64_natCast (by omega)]
  have hend := m.blockEnd_eq x
  rw [← hebnum]
  rcases write_crossing hw bad fuel buf kbuf hsingle with
    ⟨-, r, w', hrun, -, hflash⟩ | ⟨⟨-, -, hcopy⟩, kbuf', w₁, hrun₁, hw₁, -, hcopies, -, hframe⟩
  · -- it stops before the first erase
    obtain ⟨a, ha⟩ := List.exists_mem_of_length_pos
      (l := (m.stream bad p).take n) (by rw [List.length_take]; omega)
    exact ⟨r, w', hrun, a, ha, congrFun hflash a⟩
  · have hfirst : m.firstLen x = m.erasesize - x % m.erasesize := by
      rw [Mtd.firstLen, hmod]
    have hmodLt := Nat.mod_lt x m.erasesize_pos
    obtain ⟨rest, hrest⟩ : ∃ rest, n = m.firstLen x + rest :=
      Nat.exists_eq_add_of_le (by omega)
    have hnext : i64 (x + m.firstLen x) = m.blockEnd x := by
      have hblockEnd := m.blockEnd_le_extent hx.block_lt
      rw [← Nat.cast_add, i64_natCast (by omega), hend, hfirst]
    have hnoRest (y : Nat) (hy : Landing m bad (m.blockEnd x) y) : ¬ w₁.CopyOk rest := by
      intro hrestCopy
      refine hnot ⟨hfirst ▸ hcopy, ⟨y, hy⟩, ?_⟩
      rw [show x % m.erasesize + n - m.erasesize = rest by omega]
      show copied rest (w.copies 1) = rest
      rw [← show w₁.copies 0 = w.copies 1 from hcopies 0]
      exact hrestCopy
    obtain ⟨r, w', hrun, hflash, a, ha, hpast⟩ :=
      second_kept hsize hw₁ buf hx hfirst hrest (by omega) hes hfuel hlen kbuf' hnoRest
    rw [hrun₁, hnext]
    refine ⟨r, w', hrun, a, ha, ?_⟩
    rw [hflash]
    refine hframe a ?_
    rw [hebnum, ebAddr_of_lt hsize hx.block_lt]
    exact m.not_mem_block_of_le hpast

/-- A write of one block or of two that does not complete leaves one of its
stream bytes as it was. -/
theorem last_kept (buf : Nat) (hn : 0 < n) (hes : n ≤ m.erasesize) (hin : p + n ≤ m.size)
    (hfuel : m.blocks < fuel) (hlen : n ≤ (m.stream bad p).length)
    (hnot : ¬ Completes m bad w n p) :
    ∃ r w', (at91flashWrite m fuel buf n p).run (device m bad) w = (some r, w') ∧
      ∃ a ∈ (m.stream bad p).take n, w'.flash a = w.flash a := by
  have hext := m.extent_le_size
  have hblocks := m.blocks_lt
  have hmalloc : w.afterKmalloc.FaultFree := ⟨hw.reads, hw.erases, hw.writes⟩
  have hsome {w' : World} (h : w'.flash = w.flash) :
      ∃ a ∈ (m.stream bad p).take n, w'.flash a = w.flash a := by
    obtain ⟨a, ha⟩ := List.exists_mem_of_length_pos
      (l := (m.stream bad p).take n) (by rw [List.length_take]; omega)
    exact ⟨a, ha, congrFun h a⟩
  rw [at91flashWrite_eq hin hes]
  rcases walk_of_le_size hsize bad hfuel (p := p) (by omega) with ⟨x, hwalk, hx⟩ | ⟨-, hnone⟩
  · have hlt := hx.lt_extent
    have hblock := hx.block_lt
    rw [Mtd.blocks] at hblock
    have hebnum : m.ebnum x = (x / m.erasesize : Nat) :=
      Mtd.ebnum_natCast (by omega) (by omega)
    rw [run_writeCount_good m bad fuel buf w (by omega) hwalk]
    cases hheap : w.heap 0 with
    | none => exact ⟨_, _, rfl, hsome rfl⟩
    | some kbuf =>
        have hheap' : (w.heap 0).isSome = true := by rw [hheap]; rfl
        dsimp only
        have hfits := fits_iff hsize hx hes
        rw [← hebnum] at hfits
        by_cases hsingle : m.Single x n
        · have hfit : x % m.erasesize + n ≤ m.erasesize := by
            rcases hsingle with hzero | hfit
            · obtain rfl : x = 0 := by exact_mod_cast hzero
              rw [Nat.zero_mod]
              omega
            · exact hfits.mp hfit
          rw [← hebnum]
          obtain ⟨r, w', hrun, ⟨-, -, hflash⟩ | ⟨⟨-, hcopy⟩, -, -⟩⟩ := write_single hmalloc bad
            fuel buf kbuf (by omega) hsingle
          · exact ⟨r, w', hrun, hsome hflash⟩
          · exact absurd ⟨x, hx, hheap', .inl ⟨hfit, hcopy⟩⟩ hnot
        · have hcross : m.erasesize < x % m.erasesize + n := by
            by_contra hle
            exact hsingle (.inr (hfits.mpr (by omega)))
          exact crossing_kept hsize hmalloc buf hx hsingle hcross hes hn hfuel hlen kbuf
            fun h => hnot ⟨x, hx, hheap', .inr ⟨hcross, h⟩⟩
  · rw [hnone, List.length_nil] at hlen
    omega

end Write

/-- A write stores the data in the stream for all contents just when its count
passes the checks and it completes. -/
theorem write_transfers_iff (hsize : m.size < 4294967296) (hw : w.FaultFree) (hn : 0 < n)
    (hn' : n < 4294967296) (hfuel : m.blocks < fuel) :
    (∀ flash user, ∃ r w', (at91flashWrite m fuel buf n p).run (device m bad)
        (w.holding flash user) = (some r, w') ∧
      ((m.stream bad p).take n).map w'.flash = (List.range n).map fun i => user (buf + i)) ↔
      n ≤ m.erasesize ∧ p + n ≤ m.size ∧ Completes m bad w n p := by
  have hext := m.extent_le_size
  constructor
  · intro h
    obtain ⟨r, w', hrun, hbytes⟩ := h (fun _ => 0) fun _ => 1
    have hlength : ((m.stream bad p).take n).length = n := by
      simpa using congrArg List.length hbytes
    have hlen : n ≤ (m.stream bad p).length := by
      rw [List.length_take] at hlength
      omega
    have hstored : ∀ a ∈ (m.stream bad p).take n, w'.flash a = 1 := by
      intro a ha
      have hmem := List.mem_map_of_mem (f := w'.flash) ha
      rw [hbytes] at hmem
      obtain ⟨i, -, hi⟩ := List.mem_map.mp hmem
      exact hi.symm
    have hstream := m.length_stream_le bad p
    have hin : p + n ≤ m.size := by omega
    have hholding : (w.holding (fun _ => 0) fun _ => 1).FaultFree :=
      ⟨hw.reads, hw.erases, hw.writes⟩
    have hes : n ≤ m.erasesize := by
      by_contra hlong
      have hfail : (at91flashWrite m fuel buf n p).run (device m bad)
          (w.holding (fun _ => 0) fun _ => 1) =
            (some ⟨-EFAULT, p⟩, w.holding (fun _ => 0) fun _ => 1) := by
        rw [at91flashWrite_eq_clip, Mtd.writeClip, ← Nat.cast_add, u64_natCast (by omega),
          if_neg (by omega), if_pos (by omega)]
        rfl
      obtain rfl := congrArg Prod.snd (hfail.symm.trans hrun)
      obtain ⟨a, ha⟩ := List.exists_mem_of_length_pos
        (l := (m.stream bad p).take n) (by omega)
      exact absurd (hstored a ha) (show (0 : Byte) ≠ 1 by decide)
    refine ⟨hes, hin, ?_⟩
    by_contra hnot
    obtain ⟨r₁, w₁, hrun₁, a, ha, hkept⟩ :=
      last_kept (w := w.holding (fun _ => 0) fun _ => 1) hsize hholding buf hn hes hin hfuel hlen
        hnot
    obtain rfl := congrArg Prod.snd (hrun₁.symm.trans hrun)
    exact absurd (hkept.symm.trans (hstored a ha)) (show (0 : Byte) ≠ 1 by decide)
  · rintro ⟨hes, hin, hcompletes⟩ flash user
    obtain ⟨r, w', hrun, ⟨-, hnot⟩ | ⟨-, hdone⟩⟩ :=
      write_cases (w := w.holding flash user) bad buf hsize ⟨hw.reads, hw.erases, hw.writes⟩ hn hes
        hin hfuel
    · exact absurd hcompletes hnot
    · exact ⟨r, w', hrun, hdone.stored hes⟩

end At91Drivers.Flash
