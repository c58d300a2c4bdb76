import At91Drivers.Flash.ReadRun
import At91Drivers.Flash.Search
import At91Drivers.Flash.WriteFaults

/-!
# What a read reports under faults

A read returns the length its last `mtd->read` got to and never looks at what
that call returned.  The first part of a read that jumps may fall short as
well; the second part then starts where the first one stopped and asks for all
the rest in one piece.  `Delivers` lists, for any geometry and any faults, the
flash addresses whose bytes a read stores and the length its last part got to.

```text
within    x               [x, x + len)
alone     x               [x, x + len)                        no block is left
second    x, then y       [x, x + len) ++ [y, y + len')
```
-/

namespace At91Drivers.Flash

open Effects Arith

variable {m : Mtd} {bad : Nat → Bool} {w : World} {fuel buf n x y : Nat}

/-! ## What a read delivers -/

/-- A read of `n` bytes at `p` gets to a second part: `first` bytes from `x`,
then `len` bytes from `y`. -/
structure Continues (m : Mtd) (bad : Nat → Bool) (w : World) (n p x y first len : Nat) :
    Prop where
  skip : SkipsTo m bad p x
  heap : (w.heap 0).isSome = true
  jumps : m.Jumps x (m.readCount x n)
  first_eq : first = readLen m x (m.toBlockEnd x) (w.reads 0)
  copy : w.CopyOk first
  next : SkipsTo m bad (x + first : Nat) y
  len_eq : len = readLen m y (u32 (m.readCount x n - first)) (w.reads 1)
  copyNext : (w.afterPart first).CopyOk len

/-- A read of `n` bytes at `p` that is no error: the flash addresses whose bytes
it stores in the buffer, in order, and the length its last part got to. -/
inductive Delivers (m : Mtd) (bad : Nat → Bool) (w : World) (n p : Nat) :
    List Nat → Nat → Prop
  | within {x len : Nat} (hx : SkipsTo m bad p x) (hheap : (w.heap 0).isSome = true)
      (hstay : ¬ m.Jumps x (m.readCount x n))
      (hlen : len = readLen m x (m.readCount x n) (w.reads 0)) (hcopy : w.CopyOk len) :
      Delivers m bad w n p (List.range' x len) len
  | alone {x len : Nat} (hx : SkipsTo m bad p x) (hheap : (w.heap 0).isSome = true)
      (hjumps : m.Jumps x (m.readCount x n))
      (hlen : len = readLen m x (m.toBlockEnd x) (w.reads 0)) (hcopy : w.CopyOk len)
      (hnone : RunsOut m bad (x + len : Nat)) :
      Delivers m bad w n p (List.range' x len) len
  | second {x y first len : Nat} (h : Continues m bad w n p x y first len) :
      Delivers m bad w n p (List.range' x first ++ List.range' y len) len

section Landing

variable {p : Nat}

/-- A search from a position of the device ends at a byte of it, in the terms
the driver goes on with. -/
theorem skipsTo_natCast {x : Int} (hp : p ≤ m.size) (h : SkipsTo m bad p x) :
    ∃ k : Nat, x = k ∧ k < m.extent ∧ m.ebnum x = (k / m.erasesize : Nat) := by
  have hsize := m.size_lt_i64
  have hext := m.extent_le_size
  have hblocks := m.blocks_lt
  obtain ⟨k, rfl, hblock⟩ := h.natCast rfl (Nat.div_le_div_right hp) (by omega)
  have hk := m.lt_extent_iff.mpr hblock
  rw [Mtd.blocks] at hblock
  exact ⟨k, rfl, hk, Mtd.ebnum_natCast (by omega) (by omega)⟩

theorem walk_landing (hp : p ≤ m.size) (h : SkipsTo m bad p x) :
    ∃ rounds, ∀ fuel, rounds ≤ fuel →
      walk m bad fuel p = .good x (x / m.erasesize : Nat) (m.blockoffset x) := by
  obtain ⟨rounds, hwalk⟩ := walk_of_skipsTo h
  obtain ⟨k, hk, -, hebnum⟩ := skipsTo_natCast hp h
  refine ⟨rounds, fun fuel hfuel => ?_⟩
  obtain rfl : x = k := by exact_mod_cast hk
  rw [hwalk fuel hfuel, hebnum]

end Landing

section Delivers

variable {p : Nat}

/-! ### From the result to the list -/

/-- A read that stays in its block. -/
theorem delivers_within_of_result {x : Nat} {r : Ret} {w' : World} (hx : SkipsTo m bad p x)
    (hx' : x ≤ m.size) (hheap : (w.heap 0).isSome = true)
    (hstay : ¬ m.Jumps x (m.readCount x n)) (hret : 0 ≤ r.ret)
    (hrun : (readBlocks m fuel buf (m.readCount x n) x (x / m.erasesize : Nat)).run
      (device m bad) w.afterKmalloc = (some r, w')) :
    ∃ addrs len, Delivers m bad w n p addrs len ∧ r.ret = i32 len ∧
      Holds w'.user buf w.flash addrs := by
  obtain ⟨len, hlen⟩ : ∃ len, len = readLen m x (m.readCount x n) (w.reads 0) := ⟨_, rfl⟩
  obtain ⟨w₁, hrun₁, -, huser₁⟩ := run_read_within fuel buf w.afterKmalloc hx' bad hstay hlen
  obtain ⟨hr, rfl⟩ := Prod.mk.inj (hrun₁.symm.trans hrun)
  obtain rfl := Option.some.inj hr
  by_cases hcopy : w.afterKmalloc.CopyOk len
  · have hcopied : copied len (w.afterKmalloc.copies 0) = len := hcopy
    rw [hcopied] at huser₁
    exact ⟨_, len, .within hx hheap hstay hlen hcopy, if_pos hcopy,
      huser₁ ▸ holds_splice _ _ _ _ _⟩
  · dsimp only at hret
    rw [if_neg hcopy] at hret
    exact absurd hret (not_le.mpr neg_EFAULT)

/-- A read that jumps, once its first part is copied: what it delivers depends on
where the search for the second part ends. -/
theorem delivers_second_of_result {x first : Nat} {r : Ret} {w₁ w' : World}
    (hx : SkipsTo m bad p x) (hend : x + first ≤ m.size) (hheap : (w.heap 0).isSome = true)
    (hjumps : m.Jumps x (m.readCount x n))
    (hfirst : first = readLen m x (m.toBlockEnd x) (w.reads 0)) (hcopy : w.CopyOk first)
    (hflash : w₁.flash = w.flash) (hreads : w₁.reads 0 = w.reads 1)
    (hcopies : ∀ k, w₁.copies k = (w.afterPart first).copies k)
    (hholds : Holds w₁.user buf w.flash (List.range' x first)) (hret : 0 ≤ r.ret)
    (hrun : (readSecond m fuel buf (m.readCount x n) (x + first : Nat) first first).run
      (device m bad) w₁ = (some r, w')) :
    ∃ addrs len, Delivers m bad w n p addrs len ∧ r.ret = i32 len ∧
      Holds w'.user buf w.flash addrs := by
  have hext := m.extent_le_size
  rcases walk_cases m bad fuel (x + first : Nat) with ⟨y, hy, hwalk⟩ | ⟨-, q, hwalk⟩ | hwalk
  · -- a second block is found
    obtain ⟨y, rfl, hlt, hebnum⟩ := skipsTo_natCast hend hy
    rw [hebnum] at hwalk
    obtain ⟨len, hlen⟩ : ∃ len,
        len = readLen m y (u32 (m.readCount x n - first)) (w₁.reads 0) := ⟨_, rfl⟩
    obtain ⟨w₂, hrun₂, -, huser₂⟩ := run_read_second fuel buf w₁ (hlt.le.trans hext) hwalk hlen
    obtain ⟨hr, rfl⟩ := Prod.mk.inj (hrun₂.symm.trans hrun)
    obtain rfl := Option.some.inj hr
    by_cases hcopy' : w₁.CopyOk len
    · have hcopied : copied len (w₁.copies 0) = len := hcopy'
      have hcopyNext : (w.afterPart first).CopyOk len := by
        rw [hcopies] at hcopied
        exact hcopied
      refine ⟨_, len, .second ⟨hx, hheap, hjumps, hfirst, hcopy, hy, hreads ▸ hlen, hcopyNext⟩,
        if_pos hcopy', ?_⟩
      have happend := hholds.append y len
      rw [List.length_range'] at happend
      rw [huser₂, hcopied, hflash]
      exact happend
    · dsimp only at hret
      rw [if_neg hcopy'] at hret
      exact absurd hret (not_le.mpr neg_EFAULT)
  · rcases hwalk with hwalk | hwalk
    · -- no block is left, and the read returns its first part
      rw [run_readSecond_noBlock m bad fuel buf w₁ hwalk] at hrun
      obtain ⟨hr, rfl⟩ := Prod.mk.inj hrun
      obtain rfl := Option.some.inj hr
      exact ⟨_, first, .alone hx hheap hjumps hfirst hcopy (runsOut_of_walk hwalk), rfl, hholds⟩
    · rw [run_readSecond_endOfFile m bad fuel buf w₁ hwalk] at hrun
      exact (not_error hret neg_EFAULT hrun).elim
  · -- the search did not end, and neither did the read
    unfold readSecond at hrun
    rw [Prog.run_bind, run_skipBadBlocks, hwalk] at hrun
    cases congrArg Prod.fst hrun

theorem delivers_jump_of_result {x : Nat} {r : Ret} {w' : World} (hx : SkipsTo m bad p x)
    (hx' : x ≤ m.size) (hheap : (w.heap 0).isSome = true)
    (hjumps : m.Jumps x (m.readCount x n)) (hret : 0 ≤ r.ret)
    (hrun : (readBlocks m fuel buf (m.readCount x n) x (x / m.erasesize : Nat)).run
      (device m bad) w.afterKmalloc = (some r, w')) :
    ∃ addrs len, Delivers m bad w n p addrs len ∧ r.ret = i32 len ∧
      Holds w'.user buf w.flash addrs := by
  obtain ⟨first, hfirst⟩ : ∃ first, first = readLen m x (m.toBlockEnd x) (w.reads 0) := ⟨_, rfl⟩
  obtain ⟨w₁, hrun₁, hflash₁, hreads₁, hcopies₁, huser₁⟩ :=
    run_read_first fuel buf w.afterKmalloc hx' bad hjumps hfirst
  have hend : x + first ≤ m.size := hfirst ▸ add_readLen_le _ _ hx'
  replace hrun := hrun₁.symm.trans hrun
  by_cases hcopy : w.afterKmalloc.CopyOk first
  · rw [if_pos hcopy] at hrun
    have hcopied : copied first (w.afterKmalloc.copies 0) = first := hcopy
    rw [hcopied] at huser₁
    have hholds : Holds w₁.user buf w.flash (List.range' x first) :=
      huser₁ ▸ holds_splice _ _ _ _ _
    exact delivers_second_of_result hx hend hheap hjumps hfirst hcopy hflash₁ hreads₁ hcopies₁
      hholds hret hrun
  · rw [if_neg hcopy] at hrun
    exact (not_error hret neg_EFAULT hrun).elim

section Run

variable (hn : 0 < n) (hn' : n < 4294967296) (hp : p < m.extent)

include hn hn' hp

/-- A read that ends without an error delivered as listed. -/
theorem delivers_of_result {r : Ret} {w' : World} (hret : 0 ≤ r.ret)
    (hrun : (at91flashRead m fuel buf n p).run (device m bad) w = (some r, w')) :
    ∃ addrs len, Delivers m bad w n p addrs len ∧ r.ret = i32 len ∧
      Holds w'.user buf w.flash addrs := by
  have hext := m.extent_le_size
  have hp' : p ≤ m.size := hp.le.trans hext
  rcases walk_cases m bad fuel p with ⟨x, hx, hwalk⟩ | ⟨-, q, hwalk⟩ | hwalk
  · obtain ⟨x, rfl, hlt, hebnum⟩ := skipsTo_natCast hp' hx
    have hx' : x ≤ m.size := hlt.le.trans hext
    rw [hebnum] at hwalk
    rw [run_read_landing hn hn' (hlt.trans_le hext) hwalk] at hrun
    cases hheap : w.heap 0 with
    | none =>
        rw [hheap] at hrun
        exact (not_error hret neg_ENOMEM hrun).elim
    | some kbuf =>
        rw [hheap] at hrun
        have hsome : (w.heap 0).isSome = true := by rw [hheap]; rfl
        by_cases hjumps : m.Jumps x (m.readCount x n)
        · exact delivers_jump_of_result hx hx' hsome hjumps hret hrun
        · exact delivers_within_of_result hx hx' hsome hjumps hret hrun
  · rw [run_at91flashRead_none m bad fuel buf w hwalk] at hrun
    exact (not_error hret neg_EFAULT hrun).elim
  · unfold at91flashRead at hrun
    rw [Prog.run_bind, run_skipBadBlocks, hwalk] at hrun
    cases congrArg Prod.fst hrun

/-! ### From the list to a run -/

/-- With rounds enough the read gets to its first block. -/
theorem run_read_skipped (buf : Nat) {x : Nat} (hx : SkipsTo m bad p x)
    (hheap : (w.heap 0).isSome = true) :
    x ≤ m.size ∧ ∃ rounds, ∀ fuel, rounds ≤ fuel →
      (at91flashRead m fuel buf n p).run (device m bad) w =
        (readBlocks m fuel buf (m.readCount x n) x (x / m.erasesize : Nat)).run (device m bad)
          w.afterKmalloc := by
  have hext := m.extent_le_size
  have hp' : p ≤ m.size := hp.le.trans hext
  obtain ⟨kbuf, hkbuf⟩ := Option.isSome_iff_exists.mp hheap
  obtain ⟨k, hk, hlt, -⟩ := skipsTo_natCast hp' hx
  obtain rfl : x = k := by exact_mod_cast hk
  obtain ⟨rounds, hwalk⟩ := walk_landing hp' hx
  refine ⟨hlt.le.trans hext, rounds, fun fuel hfuel => ?_⟩
  rw [run_read_landing hn hn' (hlt.trans_le hext) (hwalk fuel hfuel), hkbuf]

/-- Some run delivers both parts. -/
theorem Continues.result {x y first len : Nat} (h : Continues m bad w n p x y first len)
    (buf : Nat) :
    ∃ fuel r w', (at91flashRead m fuel buf n p).run (device m bad) w = (some r, w') ∧
      r.ret = i32 len ∧
        Holds w'.user buf w.flash (List.range' x first ++ List.range' y len) := by
  have hext := m.extent_le_size
  obtain ⟨hx, hheap, hjumps, hfirst, hcopy, hy, hlen, hcopy'⟩ := h
  obtain ⟨hx', rounds, hrun⟩ := run_read_skipped hn hn' hp buf hx hheap
  have hend : x + first ≤ m.size := hfirst ▸ add_readLen_le _ _ hx'
  obtain ⟨rounds', hwalk'⟩ := walk_landing hend hy
  obtain ⟨k, hk, hlt, -⟩ := skipsTo_natCast hend hy
  obtain rfl : y = k := by exact_mod_cast hk
  obtain ⟨w₁, hrun₁, hflash₁, hreads₁, hcopies₁, huser₁⟩ :=
    run_read_first (rounds + rounds') buf w.afterKmalloc hx' bad hjumps hfirst
  have hcopyFirst : w.afterKmalloc.CopyOk first := hcopy
  have hcopied : copied first (w.afterKmalloc.copies 0) = first := hcopy
  have hlen' : len = readLen m y (u32 (m.readCount x n - first)) (w₁.reads 0) :=
    hlen.trans (by rw [hreads₁]; rfl)
  obtain ⟨w₂, hrun₂, -, huser₂⟩ := run_read_second (rounds + rounds') buf w₁
    (hlt.le.trans hext) (hwalk' (rounds + rounds') (by omega)) hlen'
  have hcopySecond : w₁.CopyOk len := by
    unfold World.CopyOk
    rw [hcopies₁]
    exact hcopy'
  have hcopied' : copied len (w₁.copies 0) = len := hcopySecond
  rw [if_pos hcopyFirst, hrun₂] at hrun₁
  refine ⟨rounds + rounds', _, w₂, (hrun _ (by omega)).trans hrun₁, if_pos hcopySecond, ?_⟩
  have happend := (holds_splice w.user w.flash buf x first).append y len
  rw [List.length_range'] at happend
  rw [huser₂, hcopied', hflash₁, huser₁, hcopied]
  exact happend

/-- Every list of the relation is what some run delivers. -/
theorem result_of_delivers {addrs : List Nat} {len : Nat}
    (h : Delivers m bad w n p addrs len) (buf : Nat) :
    ∃ fuel r w', (at91flashRead m fuel buf n p).run (device m bad) w = (some r, w') ∧
      r.ret = i32 len ∧ Holds w'.user buf w.flash addrs := by
  cases h with
  | @within x len hx hheap hstay hlen hcopy =>
      obtain ⟨hx', rounds, hrun⟩ := run_read_skipped hn hn' hp buf hx hheap
      obtain ⟨w', hend, -, huser⟩ :=
        run_read_within rounds buf w.afterKmalloc hx' bad hstay hlen
      have hcopied : copied len (w.afterKmalloc.copies 0) = len := hcopy
      rw [hcopied] at huser
      exact ⟨rounds, _, w', (hrun rounds le_rfl).trans hend, if_pos hcopy,
        huser ▸ holds_splice _ _ _ _ _⟩
  | @alone x len hx hheap hjumps hlen hcopy hnone =>
      obtain ⟨hx', rounds, hrun⟩ := run_read_skipped hn hn' hp buf hx hheap
      obtain ⟨rounds', q', hwalk'⟩ := walk_of_runsOut hnone
      obtain ⟨w₁, hend, -, -, -, huser⟩ :=
        run_read_first (rounds + rounds') buf w.afterKmalloc hx' bad hjumps hlen
      have hcopy' : w.afterKmalloc.CopyOk len := hcopy
      have hcopied : copied len (w.afterKmalloc.copies 0) = len := hcopy
      rw [hcopied] at huser
      -- the blocks run out, and the length of the first part is returned
      rw [if_pos hcopy', run_readSecond_noBlock m bad _ buf w₁ (hwalk' _ (by omega))] at hend
      exact ⟨rounds + rounds', _, w₁, (hrun _ (by omega)).trans hend, rfl,
        huser ▸ holds_splice _ _ _ _ _⟩
  | second h => exact h.result hn hn' hp buf

end Run

end Delivers

/-! ## Exactly when the result is the stream's -/

/-- Whatever the flash holds, a read that ends without an error stored at least
one byte, and as many bytes of the good-block stream as it returns. -/
def ReadReports (m : Mtd) (bad : Nat → Bool) (w : World) (buf n p : Nat) : Prop :=
  ∀ fuel flash r w', (at91flashRead m fuel buf n p).run (device m bad) ⟨w.toCaller, flash⟩ =
    (some r, w') → 0 ≤ r.ret → 0 < r.ret ∧
      (List.range r.ret.toNat).map (fun i => w'.user (buf + i)) =
        ((m.stream bad p).take r.ret.toNat).map flash

section Exact

variable {p len : Nat} {addrs : List Nat}

/-- What the flash holds plays no part in what is delivered. -/
theorem Delivers.of_flash {flash : Nat → Byte} {caller : Caller}
    (h : Delivers m bad ⟨caller, flash⟩ n p addrs len) (flash' : Nat → Byte) :
    Delivers m bad ⟨caller, flash'⟩ n p addrs len := by
  cases h with
  | within hx hheap hstay hlen hcopy => exact .within hx hheap hstay hlen hcopy
  | alone hx hheap hjumps hlen hcopy hnone => exact .alone hx hheap hjumps hlen hcopy hnone
  | second h =>
      exact .second ⟨h.skip, h.heap, h.jumps, h.first_eq, h.copy, h.next, h.len_eq, h.copyNext⟩

theorem Delivers.len_le (h : Delivers m bad w n p addrs len) : len ≤ addrs.length := by
  cases h with
  | within => rw [List.length_range']
  | alone => rw [List.length_range']
  | second => simp

theorem Delivers.len_lt (h : Delivers m bad w n p addrs len) : len < 4294967296 := by
  cases h with
  | @within x len _ _ _ hlen _ =>
      calc len = readLen m x (m.readCount x n) (w.reads 0) := hlen
        _ ≤ m.readCount x n := readLen_le
        _ ≤ maxKmallocSize := readCount_le_max
        _ < 4294967296 := by decide
  | alone _ _ _ hlen _ _ => exact hlen ▸ readLen_le.trans_lt (u32_lt _)
  | second h => exact h.len_eq ▸ readLen_le.trans_lt (u32_lt _)

theorem Holds.take {user flash : Nat → Byte} (h : Holds user buf flash addrs)
    (hlen : len ≤ addrs.length) :
    (List.range len).map (fun i => user (buf + i)) = (addrs.take len).map flash := by
  have htake := congrArg (List.take len) h
  rwa [← List.map_take, ← List.map_take, List.take_range, Nat.min_eq_left hlen] at htake

/-- Addresses that hold the same bytes in every flash are the same. -/
theorem eq_of_map_eq {l l' : List Nat} (h : ∀ flash : Nat → Byte, l.map flash = l'.map flash) :
    l = l' := by
  have hlength : l.length = l'.length := by
    simpa using congrArg List.length (h fun _ => 0)
  refine List.ext_getElem hlength fun i hi hi' => ?_
  -- a flash that marks the one address
  have hmark := congrArg (·[i]?) (h fun a => if a = l[i] then 1 else 0)
  simpa [hi, hi', eq_comm] using hmark

theorem read_reports_iff (hn : 0 < n) (hn' : n < 4294967296) (hp : p < m.extent) :
    ReadReports m bad w buf n p ↔
      ∀ addrs len, Delivers m bad w n p addrs len → 0 ≤ i32 len →
        0 < len ∧ addrs.take len = (m.stream bad p).take len := by
  constructor
  · intro hreports addrs len h hlen
    have hret : i32 len = len := i32_of_nonneg h.len_lt hlen
    have hbytes (flash : Nat → Byte) : 0 < len ∧
        (addrs.take len).map flash = ((m.stream bad p).take len).map flash := by
      obtain ⟨fuel, r, w', hrun, hr, hholds⟩ :=
        result_of_delivers hn hn' hp (h.of_flash flash) buf
      obtain ⟨hpos, hstored⟩ := hreports fuel flash r w' hrun (hr ▸ hlen)
      rw [hr, hret] at hpos hstored
      rw [Int.toNat_natCast, hholds.take h.len_le] at hstored
      exact ⟨Int.natCast_pos.mp hpos, hstored⟩
    exact ⟨(hbytes w.flash).1, eq_of_map_eq fun flash => (hbytes flash).2⟩
  · intro hcond fuel flash r w' hrun hret
    obtain ⟨addrs, len, h, hr, hholds⟩ := delivers_of_result hn hn' hp hret hrun
    rw [hr] at hret ⊢
    obtain ⟨hpos, htake⟩ := hcond addrs len (h.of_flash w.flash) hret
    rw [i32_of_nonneg h.len_lt hret, Int.toNat_natCast, hholds.take h.len_le, htake]
    exact ⟨Int.natCast_pos.mpr hpos, rfl⟩

end Exact

/-! ## When it is -/

/-- The good-block stream from `p` on starts at `x`, in the first good block. -/
def AtStart (m : Mtd) (bad : Nat → Bool) (p x : Nat) : Prop :=
  ∃ g, FirstGood m bad (p / m.erasesize) g ∧ x = m.arrival p g

/-- An `mtd->read` stores nothing: it is asked for nothing or for bytes behind the
device, or it fails before the first byte. -/
def ReadsNothing (m : Mtd) (addr len : Nat) : Option Fault → Prop
  | none => len = 0 ∨ ¬ m.InDevice addr len
  | some f => f.len = 0 ∨ len = 0 ∨ m.size ≤ addr

/-- The `k` bytes from `y` on are in good blocks. -/
def GoodBlocks (m : Mtd) (bad : Nat → Bool) (y k : Nat) : Prop :=
  ∀ b, y / m.erasesize ≤ b → b * m.erasesize < y + k → b < m.blocks ∧ bad b = false

/-- How far the `mtd->read` of the first of two parts gets. -/
def firstPart (m : Mtd) (w : World) (x : Nat) : Nat := readLen m x (m.toBlockEnd x) (w.reads 0)

/-- What is asked for in the second part. -/
def secondCount (m : Mtd) (w : World) (n x : Nat) : Nat :=
  u32 (m.readCount x n - firstPart m w x)

/-- How far the `mtd->read` of the second part gets, from `y`. -/
def secondPart (m : Mtd) (w : World) (n x y : Nat) : Nat :=
  readLen m y (secondCount m w n x) (w.reads 1)

/-- A read of `n` bytes at `p` whose search ended at `x`, and which got its memory:
what has to hold when it is one part, when no block is left for a second one, and when
there is a second one from `y` on.  Nothing has to when a copy to the user fails, or
when the last `mtd->read` gets to 2 GiB, which is negative as an `int`. -/
structure PartsMet (m : Mtd) (bad : Nat → Bool) (w : World) (n p x : Nat) : Prop where
  within : ¬ m.Jumps x (m.readCount x n) →
    w.CopyOk (readLen m x (m.readCount x n) (w.reads 0)) →
    AtStart m bad p x ∧ ¬ ReadsNothing m x (m.readCount x n) (w.reads 0)
  alone : m.Jumps x (m.readCount x n) → w.CopyOk (firstPart m w x) →
    RunsOut m bad (x + firstPart m w x : Nat) → firstPart m w x < 2147483648 →
    AtStart m bad p x ∧ ¬ ReadsNothing m x (m.toBlockEnd x) (w.reads 0)
  second : m.Jumps x (m.readCount x n) → w.CopyOk (firstPart m w x) →
    ∀ y : Nat, SkipsTo m bad (x + firstPart m w x : Nat) y →
      (w.afterPart (firstPart m w x)).CopyOk (secondPart m w n x y) →
      secondPart m w n x y < 2147483648 →
      AtStart m bad p x ∧ ¬ ReadsNothing m y (secondCount m w n x) (w.reads 1) ∧
        (firstPart m w x < secondPart m w n x y →
          AtStart m bad (x + firstPart m w x) y ∧
            GoodBlocks m bad y (secondPart m w n x y - firstPart m w x))

/-- It is so wherever the search ends. -/
def ReadMet (m : Mtd) (bad : Nat → Bool) (w : World) (n p : Nat) : Prop :=
  ∀ x : Nat, SkipsTo m bad p x → (w.heap 0).isSome = true → PartsMet m bad w n p x

/-! ### The start of the stream -/

section Start

variable {p : Nat}

theorem AtStart.landing (h : AtStart m bad p x) : Landing m bad p x := by
  obtain ⟨g, hg, rfl⟩ := h
  have hpos := m.erasesize_pos
  unfold Mtd.arrival
  split
  · next heq => exact ⟨le_rfl, heq ▸ hg.lt, heq ▸ hg.good, rfl, .inl rfl⟩
  · next hne =>
      have hlt : p / m.erasesize < g := Nat.lt_of_le_of_ne hg.le (Ne.symm hne)
      have hle : p ≤ g * m.erasesize := ((Nat.div_lt_iff_lt_mul hpos).mp hlt).le
      have hdiv : g * m.erasesize / m.erasesize = g := Nat.mul_div_cancel _ hpos
      have hext : g * m.erasesize ≤ m.extent := Nat.mul_le_mul_right _ hg.lt.le
      refine ⟨hle, hdiv.symm ▸ hg.lt, hdiv.symm ▸ hg.good, ?_, .inr (Nat.mul_mod_left _ _)⟩
      -- the blocks before it are bad
      rw [Mtd.stream, addrs_split hle hext, addrs_none]
      · rfl
      · intro a hlo hhi
        have hblock : a / m.erasesize < g := (Nat.div_lt_iff_lt_mul hpos).mpr hhi
        simp [hg.skipped _ (Nat.div_le_div_right hlo) hblock]

theorem exists_atStart (h : m.stream bad p ≠ []) : ∃ x, AtStart m bad p x := by
  obtain ⟨a, ha⟩ := List.exists_mem_of_ne_nil _ h
  obtain ⟨hle, hlt, hgood⟩ := Mtd.mem_stream.mp ha
  obtain ⟨g, hg⟩ := exists_firstGood (Nat.div_le_div_right hle) hlt hgood
  exact ⟨_, g, hg, rfl⟩

/-- The stream starts where its first byte is. -/
theorem atStart_of_head (h : (m.stream bad p).head? = some x) : AtStart m bad p x := by
  have hne : m.stream bad p ≠ [] := by
    rintro hnil
    rw [hnil] at h
    cases h
  obtain ⟨x', hx'⟩ := exists_atStart hne
  have hmod := Nat.mod_lt x' m.erasesize_pos
  obtain ⟨k, hk⟩ := Nat.exists_eq_add_of_lt (Nat.sub_pos_of_lt hmod)
  rw [hx'.landing.stream_split, hk, Nat.zero_add, List.range'_succ, List.cons_append,
    List.head?_cons] at h
  exact Option.some.inj h ▸ hx'

theorem atStart_of_range' {len : Nat} (hpos : 0 < len)
    (h : List.range' x len = (m.stream bad p).take len) : AtStart m bad p x := by
  obtain ⟨k, rfl⟩ := Nat.exists_eq_add_of_lt hpos
  apply atStart_of_head
  have hhead := congrArg List.head? h
  rwa [List.range'_succ, List.head?_cons, List.head?_take, if_neg (Nat.succ_ne_zero _),
    eq_comm] at hhead

/-- Some bytes of one block are the first of the stream. -/
theorem range'_eq_take_iff {len : Nat} (hpos : 0 < len)
    (hfit : x % m.erasesize + len ≤ m.erasesize) :
    List.range' x len = (m.stream bad p).take len ↔ AtStart m bad p x :=
  ⟨atStart_of_range' hpos, fun h => (h.landing.take_within hfit).symm⟩

theorem goodBlocks_iff {k : Nat} (hk : 0 < k) : GoodBlocks m bad y k ↔
    ∀ a, y ≤ a → a < y + k → a ∈ m.stream bad y := by
  have hpos := m.erasesize_pos
  constructor
  · intro h a hlo hhi
    obtain ⟨hlt, hgood⟩ := h (a / m.erasesize) (Nat.div_le_div_right hlo)
      ((Nat.div_mul_le_self a _).trans_lt hhi)
    exact Mtd.mem_stream.mpr ⟨hlo, hlt, hgood⟩
  · intro h b hlo hhi
    -- the first byte of the block that is not before `y`
    have hmem : max y (b * m.erasesize) ∈ m.stream bad y :=
      h _ (le_max_left _ _) (max_lt (Nat.lt_add_of_pos_right hk) hhi)
    have hdiv : max y (b * m.erasesize) / m.erasesize = b := by
      rcases Nat.le_total y (b * m.erasesize) with hle | hle
      · rw [max_eq_right hle, Nat.mul_div_cancel _ hpos]
      · rw [max_eq_left hle]
        exact Nat.le_antisymm hlo ((Nat.le_div_iff_mul_le hpos).mpr hle)
    have hgood := Mtd.mem_stream.mp hmem
    rw [hdiv] at hgood
    exact hgood.2

end Start

/-! ### One part and two -/

section Parts

variable {p len : Nat}

theorem readLen_pos_iff {addr : Nat} {fault : Option Fault} :
    0 < readLen m addr len fault ↔ ¬ ReadsNothing m addr len fault := by
  cases fault with
  | none =>
      by_cases hin : m.InDevice addr len
      · simp [readLen, ReadsNothing, hin, Nat.pos_iff_ne_zero]
      · simp [readLen, ReadsNothing, hin]
  | some f =>
      show 0 < min f.len (min len (m.size - addr)) ↔ ¬ (f.len = 0 ∨ len = 0 ∨ m.size ≤ addr)
      omega

/-- Jumps or not, the first part lies in the block of `x`. -/
theorem within_fits (hstay : ¬ m.Jumps x n) (hx : x + n ≤ m.size) :
    x % m.erasesize + n ≤ m.erasesize := by
  have hsize := m.size_lt_i64
  have hmod := Nat.mod_lt x m.erasesize_pos
  have haddr := Mtd.ebAddr_le (m := m) (x / m.erasesize + 1)
  have hend := m.blockEnd_eq x
  rw [Mtd.blockEnd] at hend
  rw [Mtd.Jumps, ← Nat.cast_add, i64_natCast (by omega), not_lt] at hstay
  have hle : x + n ≤ m.ebAddr ((x / m.erasesize : Nat) + 1) := by exact_mod_cast hstay
  rw [Nat.cast_add_one] at haddr
  omega

theorem toBlockEnd_fits (x : Nat) : x % m.erasesize + m.toBlockEnd x ≤ m.erasesize := by
  have hmod := Nat.mod_lt x m.erasesize_pos
  have hes := m.erasesize_lt
  have hend := m.blockEnd_eq x
  rw [Mtd.blockEnd] at hend
  have hrest : ((x / m.erasesize : Nat) + 1 : Int) * m.erasesize - x =
      (m.erasesize - x % m.erasesize : Nat) := by
    rw [← Nat.cast_add_one, ← Nat.cast_mul, hend]
    omega
  rw [Mtd.toBlockEnd, Mtd.ebAddr, u32_u32_sub, hrest, u32_natCast (by omega)]
  omega

theorem firstPart_lt (w : World) (x : Nat) : firstPart m w x < 4294967296 :=
  readLen_le.trans_lt (u32_lt _)

theorem secondPart_lt (w : World) (n x y : Nat) : secondPart m w n x y < 4294967296 :=
  readLen_le.trans_lt (u32_lt _)

theorem firstPart_fits (w : World) (x : Nat) :
    x % m.erasesize + firstPart m w x ≤ m.erasesize :=
  calc x % m.erasesize + firstPart m w x ≤ x % m.erasesize + m.toBlockEnd x :=
        Nat.add_le_add_left readLen_le _
    _ ≤ m.erasesize := toBlockEnd_fits x

/-- What the second part adds to the first: nothing is behind the stream's start if
nothing of it is reported. -/
theorem two_parts_eq_take_iff {first : Nat} (hpos : 0 < len)
    (hfirst : x % m.erasesize + first ≤ m.erasesize) (hback : first = 0 → y = x) :
    (List.range' x first ++ List.range' y len).take len = (m.stream bad p).take len ↔
      AtStart m bad p x ∧ (first < len →
        AtStart m bad (x + first) y ∧ GoodBlocks m bad y (len - first)) := by
  by_cases hlt : first < len
  · obtain ⟨rest, hrest, rfl⟩ : ∃ rest, 0 < rest ∧ len = first + rest :=
      ⟨len - first, by omega, by omega⟩
    have htake : (List.range' x first ++ List.range' y (first + rest)).take (first + rest) =
        List.range' x first ++ List.range' y rest := by
      rw [List.take_append, List.length_range', Nat.add_sub_cancel_left,
        List.take_of_length_le (by rw [List.length_range']; omega), take_range' _ (by omega)]
    rw [htake, Nat.add_sub_cancel_left]
    constructor
    · intro h
      have hstart : AtStart m bad p x := by
        apply atStart_of_head
        have hhead := congrArg List.head? h
        rw [List.head?_take, if_neg (by omega)] at hhead
        rw [← hhead]
        cases first with
        | zero =>
            obtain ⟨k, rfl⟩ := Nat.exists_eq_add_of_lt hrest
            rw [List.range'_zero, List.nil_append, hback rfl, List.range'_succ, List.head?_cons]
        | succ k => rw [List.range'_succ, List.cons_append, List.head?_cons]
      refine ⟨hstart, fun _ => ?_⟩
      have hsecond : List.range' y rest = (m.stream bad (x + first)).take rest := by
        have hdrop := congrArg (List.drop first) h
        rw [List.drop_left' List.length_range', List.drop_take, Nat.add_sub_cancel_left] at hdrop
        calc List.range' y rest = ((m.stream bad p).drop first).take rest := hdrop
          _ = (m.stream bad (x + first)).take rest := by rw [hstart.landing.drop_within hfirst]
      have hnext := atStart_of_range' hrest hsecond
      refine ⟨hnext, (goodBlocks_iff hrest).mpr ?_⟩
      rw [hnext.landing.stream_eq] at hsecond
      exact take_addrs_iff.mp hsecond.symm
    · rintro ⟨hstart, hsecond⟩
      obtain ⟨hnext, hgood⟩ := hsecond hlt
      have hrestTake : (m.stream bad y).take rest = List.range' y rest :=
        take_addrs_iff.mpr ((goodBlocks_iff hrest).mp hgood)
      have hdrop : (m.stream bad p).drop first = m.stream bad y := by
        rw [← hstart.landing.drop_within hfirst, hnext.landing.stream_eq]
      calc List.range' x first ++ List.range' y rest
          = (m.stream bad p).take first ++ (m.stream bad y).take rest := by
            rw [hstart.landing.take_within hfirst, hrestTake]
        _ = (m.stream bad p).take first ++ ((m.stream bad p).drop first).take rest := by
            rw [hdrop]
        _ = (m.stream bad p).take (first + rest) := List.take_add.symm
  · have hle : len ≤ first := Nat.le_of_not_lt hlt
    rw [List.take_append_of_le_length (by simpa using hle), take_range' _ hle,
      range'_eq_take_iff hpos (by omega)]
    exact (and_iff_left fun h => absurd h hlt).symm

/-- A second part after an empty first one is where the first one was. -/
theorem second_of_empty {first : Nat} (hx : SkipsTo m bad p x)
    (hy : SkipsTo m bad (x + first : Nat) y) (hfirst : first = 0) : y = x := by
  subst hfirst
  have hself : SkipsTo m bad (x : Nat) x := .here hx.in_range hx.probe_end
  exact_mod_cast hy.unique hself

/-- What a read delivers is right when its parts are. -/
theorem delivers_met_iff (hp : p < m.extent) :
    (∀ addrs len, Delivers m bad w n p addrs len → 0 ≤ i32 len →
        0 < len ∧ addrs.take len = (m.stream bad p).take len) ↔
      ReadMet m bad w n p := by
  have hext := m.extent_le_size
  have hinside {x : Nat} (hx : SkipsTo m bad p x) : x + m.readCount x n ≤ m.size := by
    obtain ⟨k, hk, hlt, -⟩ := skipsTo_natCast (hp.le.trans hext) hx
    obtain rfl : x = k := by exact_mod_cast hk
    exact readCount_le (hlt.le.trans hext)
  constructor
  · intro h x hx hheap
    refine ⟨fun hstay hcopy => ?_, fun hjumps hcopy hnone hlen => ?_,
      fun hjumps hcopy y hy hcopy' hlen => ?_⟩
    · have hle : readLen m x (m.readCount x n) (w.reads 0) ≤ m.readCount x n := readLen_le
      have hmax : m.readCount x n ≤ maxKmallocSize := readCount_le_max
      have hfit := within_fits hstay (hinside hx)
      unfold maxKmallocSize at hmax
      obtain ⟨hpos, htake⟩ := h _ _ (.within hx hheap hstay rfl hcopy)
        (by rw [i32_natCast (by omega)]; exact Int.natCast_nonneg _)
      rw [take_range' _ le_rfl] at htake
      exact ⟨atStart_of_range' hpos htake, readLen_pos_iff.mp hpos⟩
    · obtain ⟨hpos, htake⟩ := h _ _ (.alone hx hheap hjumps rfl hcopy hnone)
        ((i32_nonneg_iff (firstPart_lt w x)).mpr hlen)
      rw [take_range' _ le_rfl] at htake
      exact ⟨atStart_of_range' hpos htake, readLen_pos_iff.mp hpos⟩
    · obtain ⟨hpos, htake⟩ :=
        h _ _ (.second ⟨hx, hheap, hjumps, rfl, hcopy, hy, rfl, hcopy'⟩)
          ((i32_nonneg_iff (secondPart_lt w n x y)).mpr hlen)
      have hfit := firstPart_fits (m := m) w x
      obtain ⟨hstart, hsecond⟩ :=
        (two_parts_eq_take_iff hpos hfit (second_of_empty hx hy)).mp htake
      exact ⟨hstart, readLen_pos_iff.mp hpos, hsecond⟩
  · intro hmet addrs len hd hlen
    cases hd with
    | @within x len hx hheap hstay hlenEq hcopy =>
        subst hlenEq
        obtain ⟨hstart, hsome⟩ := (hmet x hx hheap).within hstay hcopy
        have hle : readLen m x (m.readCount x n) (w.reads 0) ≤ m.readCount x n := readLen_le
        have hfit := within_fits hstay (hinside hx)
        have hpos := readLen_pos_iff.mpr hsome
        rw [take_range' _ le_rfl]
        exact ⟨hpos, (range'_eq_take_iff hpos (by omega)).mpr hstart⟩
    | @alone x len hx hheap hjumps hlenEq hcopy hnone =>
        subst hlenEq
        obtain ⟨hstart, hsome⟩ := (hmet x hx hheap).alone hjumps hcopy hnone
          ((i32_nonneg_iff (firstPart_lt w x)).mp hlen)
        have hpos := readLen_pos_iff.mpr hsome
        have hfit := firstPart_fits (m := m) w x
        rw [take_range' _ le_rfl]
        exact ⟨hpos, (range'_eq_take_iff hpos hfit).mpr hstart⟩
    | @second x y first len hc =>
        obtain ⟨hx, hheap, hjumps, hfirst, hcopy, hy, hlenEq, hcopy'⟩ := hc
        subst hfirst hlenEq
        obtain ⟨hstart, hsome, hsecond⟩ :=
          (hmet x hx hheap).second hjumps hcopy y hy hcopy'
            ((i32_nonneg_iff (secondPart_lt w n x y)).mp hlen)
        have hfit := firstPart_fits (m := m) w x
        have hpos := readLen_pos_iff.mpr hsome
        exact ⟨hpos, (two_parts_eq_take_iff hpos hfit (second_of_empty hx hy)).mpr
          ⟨hstart, hsecond⟩⟩

end Parts

/-! ## Both calls -/

/-- No fault of the flash stays unreported by a write or a read of `n` bytes at
`p`, unless a write hides a failed program; or a read starts its first part or a
second one that it reports anywhere but at the first good block, its last
`mtd->read` stores nothing, or bytes of its second part that it reports are not in
good blocks. -/
theorem faults_reported_iff {p : Nat} (hn : n < 4294967296) :
    (WriteReports m bad w buf n p ∧
        (0 < n → m.stream bad p ≠ [] → ReadReports m bad w buf n p)) ↔
      (∀ count, m.writeClip p n = some count → count ≠ 0 → ¬ HidesProgram m bad w count p) ∧
        (0 < n → m.stream bad p ≠ [] → ReadMet m bad w n p) := by
  refine and_congr write_reports_iff ?_
  refine forall_congr' fun hpos => forall_congr' fun havail => ?_
  have hp := Mtd.lt_extent_of_stream_ne_nil havail
  exact (read_reports_iff hpos hn hp).trans (delivers_met_iff hp)

/-- A world whose programs fail with nothing written. -/
def programFails : World :=
  { quiet (fun _ => 1) (fun _ => 7) (fun _ => 9) with
    writes := fun _ => some ⟨-5, 0, fun _ => 0⟩ }

/-- Three bytes at 6, the first two of them in the block before a bad one. -/
theorem faults_reported_iff_at_six :
    (WriteReports fourBlocks (· == 2) programFails 0 3 (6 : Nat) ∧
        (0 < 3 → fourBlocks.stream (· == 2) 6 ≠ [] →
          ReadReports fourBlocks (· == 2) programFails 0 3 6)) ↔
      (∀ count, fourBlocks.writeClip (6 : Nat) 3 = some count → count ≠ 0 →
          ¬ HidesProgram fourBlocks (· == 2) programFails count (6 : Nat)) ∧
        (0 < 3 → fourBlocks.stream (· == 2) 6 ≠ [] →
          ReadMet fourBlocks (· == 2) programFails 3 6) :=
  faults_reported_iff (by decide)

/-- One byte at 5: the block is erased, its program fails with nothing written,
and the write returns 0. -/
theorem program_fault_not_reported :
    ¬ ∀ (m : Mtd) (bad : Nat → Bool) (w : World) (buf n p : Nat), n < 4294967296 →
      WriteReports m bad w buf n p ∧
        (0 < n → m.stream bad p ≠ [] → ReadReports m bad w buf n p) := by
  intro h
  have hreports := (h fourBlocks (fun _ => false) programFails 0 1 5 (by decide)).1
  refine write_reports_iff.mp hreports 1 (by decide +kernel) (by decide) ?_
  have hskip : SkipsTo fourBlocks (fun _ => false) (5 : Nat) (5 : Nat) :=
    .here (by decide +kernel) rfl
  refine .single (x := (5 : Nat)) ⟨hskip, rfl, ?_, fun _ => ?_, rfl, ?_⟩ ?_ ?_
  · exact .inr (by decide +kernel)
  · decide +kernel
  · decide +kernel
  · decide +kernel
  · rintro ⟨-, hlen⟩
    exact absurd hlen (by decide)

end At91Drivers.Flash
