import At91Drivers.Flash.FaultFree

/-!
# What a failed write leaves behind

On a device without faults, of any geometry, a write that returns an error has
mostly changed nothing: every check up to the first erase comes before it.  The
exception is a write that jumps a block.  Its first block is erased and
programmed before the second block is looked for and before the rest of the
data is fetched, and neither failure is undone.

```text
single     one block      commit, then the number of bytes programmed
crossing   first block    commit
           second block   search, read, copy, commit, then the count
```

A value of 2 GiB or more is negative by the time it is returned, so a commit of
such a block, or of such a count, looks like an error as well.
-/

namespace At91Drivers.Flash

open Effects Arith

variable {m : Mtd} {bad : Nat → Bool} {w : World} {fuel buf n : Nat} {p x y : Int}

/-! ## Operations inside and outside the device -/

section Fault

variable (hw : w.FaultFree) {b : Int}

include hw

theorem blockRead_ok_iff :
    (w.blockRead m b).Ok m.erasesize ↔ m.InDevice (m.ebAddr b) m.erasesize := by
  refine ⟨fun hok => ?_, blockRead_ok hw⟩
  by_contra hout
  rw [World.blockRead, hw.reads, readReply, if_neg hout] at hok
  exact m.erasesize_pos.ne hok.2

theorem blockErase_ok_iff :
    (w.blockErase m b).Ok ↔ m.InDevice (m.ebAddr b) m.erasesize := by
  refine ⟨fun hok => ?_, blockErase_ok hw⟩
  by_contra hout
  rw [World.blockErase, hw.erases, eraseReply, if_neg hout] at hok
  exact absurd hok.1 (by decide)

theorem flash_afterErase_outside (hout : ¬ m.InDevice (m.ebAddr b) m.erasesize) :
    (w.afterErase m b).flash = w.flash := by
  show eraseFlash m w.flash _ _ (w.erases 0) = w.flash
  rw [hw.erases, eraseFlash, if_neg hout]

/-- The erase action stores the buffer in a block of the device; elsewhere it
fails and changes nothing. -/
theorem run_eraseAction_faultFree (bad : Nat → Bool) (x : Int) (kbuf : Nat → Byte) :
    ∃ q w', (eraseAction m x b kbuf).run (device m bad) w =
        (some ⟨if m.InDevice (m.ebAddr b) m.erasesize then i32 m.erasesize else -EFAULT, q⟩, w') ∧
      w'.flash = if m.InDevice (m.ebAddr b) m.erasesize then
        splice w.flash (m.ebAddr b) m.erasesize kbuf else w.flash := by
  have herased : (w.afterErase m b).FaultFree := ⟨hw.reads, fun _ => hw.erases _, hw.writes⟩
  by_cases hin : m.InDevice (m.ebAddr b) m.erasesize
  · refine ⟨i64 (x + m.erasesize), _, ?_, (flash_commit hw hin kbuf).trans (if_pos hin).symm⟩
    rw [run_eraseAction_ok m bad x kbuf (blockErase_ok hw hin), blockProgram_eq herased hin,
      if_pos hin]
  · refine ⟨x, _, ?_, (flash_afterErase_outside hw hin).trans (if_neg hin).symm⟩
    rw [run_eraseAction_failed m bad x kbuf (mt (blockErase_ok_iff hw).mp hin), if_neg hin]

end Fault

/-! ## The paths, for any geometry -/

namespace Mtd

/-- The bytes of a write that go to the block of `x` when it jumps a block. -/
def firstLen (m : Mtd) (x : Int) : Nat := m.erasesize - u64 x % m.erasesize

/-- A write of `count` bytes that starts at `x` has one block to commit. -/
def Single (m : Mtd) (x : Int) (count : Nat) : Prop :=
  x = 0 ∨ i64 (x + count) ≤ m.ebAddr (m.ebnum x + 1)

/-- It has two blocks to commit. -/
def Crosses (m : Mtd) (x : Int) (count : Nat) : Prop :=
  ¬ m.Single x count ∧ i64 (x + count) ≤ m.ebAddr (m.ebnum x + 2)

/-- The count a write goes on with: clipped to the end of the device, or
checked against the size of a block. -/
def writeClip (m : Mtd) (ppos : Int) (count : Nat) : Option Nat :=
  if m.size < u64 (ppos + count) then some (u32 (m.size - ppos))
  else if m.erasesize < count then none
  else some count

theorem u32_firstLen (m : Mtd) (x : Int) : u32 (m.erasesize - m.blockoffset x) = m.firstLen x := by
  have hmod := Nat.mod_lt (u64 x) m.erasesize_pos
  have hes := m.erasesize_lt
  rw [firstLen, blockoffset, u32_sub_i32, ← Nat.cast_sub hmod.le, u32_natCast (by omega)]

theorem u32_offset (m : Mtd) (x : Int) : u32 (m.blockoffset x) = u64 x % m.erasesize := by
  have hmod := Nat.mod_lt (u64 x) m.erasesize_pos
  have hes := m.erasesize_lt
  rw [blockoffset, u32_i32, u32_natCast (by omega)]

end Mtd

theorem at91flashWrite_eq_clip (m : Mtd) (fuel buf count : Nat) (p : Int) :
    at91flashWrite m fuel buf count p =
      match m.writeClip p count with
      | none => fail EFAULT p
      | some count => writeCount m fuel buf count p := by
  unfold at91flashWrite Mtd.writeClip
  split
  · rfl
  · split <;> rfl

section Paths

variable (hw : w.FaultFree)

include hw

/-- The flash address of the first byte of the data. -/
abbrev firstByte (m : Mtd) (x : Int) : Nat := m.ebAddr (m.ebnum x) + u64 x % m.erasesize

omit hw in
theorem splice_firstByte (flash kbuf : Nat → Byte) (user : Nat → Byte) {len : Nat}
    (hlen : 0 < len) :
    splice flash (m.ebAddr (m.ebnum x)) m.erasesize
      (splice kbuf (u64 x % m.erasesize) len fun i => user (buf + i)) (firstByte m x) =
        user buf := by
  have hmod := Nat.mod_lt (u64 x) m.erasesize_pos
  rw [splice_add hmod]
  exact splice_add (i := 0) hlen

/-- One block to commit: either nothing changes and the call fails, or the
block is programmed, with the data in it. -/
theorem write_single (bad : Nat → Bool) (fuel buf : Nat) (kbuf : Nat → Byte) (hn : n ≠ 0)
    (hsingle : m.Single x n) :
    ∃ r w', (writeBlocks m fuel buf n x (m.ebnum x) (m.blockoffset x) kbuf).run (device m bad) w =
        (some r, w') ∧
      (¬ (m.InDevice (m.ebAddr (m.ebnum x)) m.erasesize ∧ w.CopyOk n) ∧
          r.ret = -EFAULT ∧ w'.flash = w.flash ∨
        (m.InDevice (m.ebAddr (m.ebnum x)) m.erasesize ∧ w.CopyOk n) ∧
          r.ret = i32 m.erasesize ∧ w'.flash (firstByte m x) = w.user buf) := by
  have hpos : 0 < n := Nat.pos_of_ne_zero hn
  by_cases hx : x = 0
  · rw [run_writeBlocks_first m bad fuel buf kbuf w hx]
    by_cases hcopy : w.CopyOk n
    · rw [if_pos hcopy]
      obtain ⟨q, w', hrun, hflash⟩ := run_eraseAction_faultFree (m := m)
        (w := w.afterCopy) (b := m.ebnum x) ⟨hw.reads, hw.erases, hw.writes⟩ bad x
        (splice kbuf 0 n fun i => w.user (buf + i))
      refine ⟨_, w', hrun, ?_⟩
      by_cases hin : m.InDevice (m.ebAddr (m.ebnum x)) m.erasesize
      · rw [if_pos hin] at hflash ⊢
        refine .inr ⟨⟨hin, hcopy⟩, rfl, ?_⟩
        have hzero : u64 x % m.erasesize = 0 := by
          rw [hx, show (0 : Int) = (0 : Nat) from rfl, u64_natCast (by omega), Nat.zero_mod]
        rw [hflash, ← hzero]
        exact splice_firstByte _ _ _ hpos
      · rw [if_neg hin] at hflash ⊢
        exact .inl ⟨fun h => hin h.1, rfl, hflash⟩
    · rw [if_neg hcopy]
      exact ⟨_, _, rfl, .inl ⟨fun h => hcopy h.2, rfl, rfl⟩⟩
  · have hfit := hsingle.resolve_left hx
    by_cases hin : m.InDevice (m.ebAddr (m.ebnum x)) m.erasesize
    · rw [run_writeBlocks_within m bad fuel buf kbuf w hx (blockRead_ok hw hin) hfit]
      by_cases hcopy : w.CopyOk n
      · rw [if_pos hcopy]
        obtain ⟨q, w', hrun, hflash⟩ := run_eraseAction_faultFree (m := m)
          (w := w.afterRead.afterCopy) (b := m.ebnum x)
          ⟨fun _ => hw.reads _, hw.erases, hw.writes⟩ bad x
          (splice (splice kbuf 0 m.erasesize (w.blockRead m (m.ebnum x)).data)
            (u32 (m.blockoffset x)) n fun i => w.user (buf + i))
        refine ⟨_, w', hrun, ?_⟩
        rw [if_pos hin] at hflash ⊢
        refine .inr ⟨⟨hin, hcopy⟩, rfl, ?_⟩
        rw [hflash, m.u32_offset]
        exact splice_firstByte _ _ _ hpos
      · rw [if_neg hcopy]
        exact ⟨_, _, rfl, .inl ⟨fun h => hcopy h.2, rfl, rfl⟩⟩
    · rw [run_writeBlocks_readFailed m bad fuel buf kbuf w hx (mt (blockRead_ok_iff hw).mp hin)]
      exact ⟨_, _, rfl, .inl ⟨fun h => hin h.1, rfl, rfl⟩⟩

/-- A write that jumps stops before the first erase, or goes on to the second
block with the first one programmed. -/
theorem write_crossing (bad : Nat → Bool) (fuel buf : Nat) (kbuf : Nat → Byte)
    (hmany : ¬ m.Single x n) :
    (¬ (m.Crosses x n ∧ m.InDevice (m.ebAddr (m.ebnum x)) m.erasesize ∧
          w.CopyOk (m.firstLen x)) ∧
        ∃ r w', (writeBlocks m fuel buf n x (m.ebnum x) (m.blockoffset x) kbuf).run
            (device m bad) w = (some r, w') ∧ r.ret = -EFAULT ∧ w'.flash = w.flash) ∨
      (m.Crosses x n ∧ m.InDevice (m.ebAddr (m.ebnum x)) m.erasesize ∧
          w.CopyOk (m.firstLen x)) ∧
        ∃ kbuf' w', (writeBlocks m fuel buf n x (m.ebnum x) (m.blockoffset x) kbuf).run
            (device m bad) w =
              (writeSecond m fuel buf n (m.firstLen x) (i64 (x + m.firstLen x)) kbuf').run
                (device m bad) w' ∧
          w'.FaultFree ∧ w'.user = w.user ∧ (∀ k, w'.copies k = w.copies (k + 1)) ∧
          w'.flash (firstByte m x) = w.user buf ∧
          ∀ a, ¬ (m.ebAddr (m.ebnum x) ≤ a ∧ a < m.ebAddr (m.ebnum x) + m.erasesize) →
            w'.flash a = w.flash a := by
  have hmod := Nat.mod_lt (u64 x) m.erasesize_pos
  obtain ⟨hx, hfit⟩ := not_or.mp hmany
  by_cases hin : m.InDevice (m.ebAddr (m.ebnum x)) m.erasesize
  · have hread := blockRead_ok hw hin
    by_cases hguard : i64 (x + n) ≤ m.ebAddr (m.ebnum x + 2)
    · rw [run_writeBlocks_jump m bad fuel buf kbuf w hx hread hfit hguard,
        run_writeJump m bad fuel buf _ _ (m.u32_firstLen x)]
      by_cases hcopy : w.CopyOk (m.firstLen x)
      · have hlater : w.afterRead.afterCopy.FaultFree :=
          ⟨fun _ => hw.reads _, hw.erases, hw.writes⟩
        rw [if_pos (show w.afterRead.CopyOk _ from hcopy), if_pos (blockErase_ok hlater hin)]
        refine .inr ⟨⟨⟨hmany, hguard⟩, hin, hcopy⟩, _, _, rfl,
          ⟨fun _ => hw.reads _, fun _ => hw.erases _, fun _ => hw.writes _⟩, rfl,
          fun _ => rfl, ?_⟩
        rw [flash_commit hlater hin, m.u32_offset]
        exact ⟨splice_firstByte _ _ _ (by unfold Mtd.firstLen; omega),
          fun a ha => splice_of_not_mem ha⟩
      · rw [if_neg (show ¬ w.afterRead.CopyOk _ from hcopy)]
        exact .inl ⟨fun h => hcopy h.2.2, _, _, rfl, rfl, rfl⟩
    · rw [run_writeBlocks_tooMuch m bad fuel buf kbuf w hx hread hfit hguard]
      exact .inl ⟨fun h => hguard h.1.2, _, _, rfl, rfl, rfl⟩
  · rw [run_writeBlocks_readFailed m bad fuel buf kbuf w hx (mt (blockRead_ok_iff hw).mp hin)]
    exact .inl ⟨fun h => hin h.2.1, _, _, rfl, rfl, rfl⟩

/-- The second block: a failure changes nothing more, and a commit stores only
bytes of the user. -/
theorem write_second {o : Int} (buf n first : Nat) (kbuf : Nat → Byte)
    (hwalk : walk m bad fuel x = .good y (m.ebnum y) o) :
    ∃ r w', (writeSecond m fuel buf n first x kbuf).run (device m bad) w = (some r, w') ∧
      (¬ (m.InDevice (m.ebAddr (m.ebnum y)) m.erasesize ∧ w.CopyOk (u32 (n - first))) ∧
          r.ret = -EFAULT ∧ w'.flash = w.flash ∨
        (m.InDevice (m.ebAddr (m.ebnum y)) m.erasesize ∧ w.CopyOk (u32 (n - first))) ∧
          r.ret = i32 n ∧ ∀ a, w'.flash a = w.flash a ∨
            w'.flash a = w.user (buf + first + (a - m.ebAddr (m.ebnum y)))) := by
  rw [run_writeSecond_good m bad fuel buf kbuf w hwalk]
  by_cases hin : m.InDevice (m.ebAddr (m.ebnum y)) m.erasesize
  · rw [if_pos (blockRead_ok hw hin)]
    by_cases hcopy : w.CopyOk (u32 (n - first))
    · have hlater : w.afterRead.afterCopy.FaultFree := ⟨fun _ => hw.reads _, hw.erases, hw.writes⟩
      rw [if_pos hcopy, if_pos (blockErase_ok hlater hin)]
      refine ⟨_, _, rfl, .inr ⟨⟨hin, hcopy⟩, rfl, ?_⟩⟩
      intro a
      have hkept : w.afterRead.afterCopy.flash = w.flash := rfl
      rw [flash_commit hlater hin, hkept]
      by_cases hblock : m.ebAddr (m.ebnum y) ≤ a ∧ a < m.ebAddr (m.ebnum y) + m.erasesize
      · rw [splice_of_mem hblock.1 hblock.2]
        by_cases hlen : a - m.ebAddr (m.ebnum y) < u32 (n - first)
        · refine .inr ?_
          rw [splice_of_mem (Nat.zero_le _) (by omega), Nat.sub_zero]
        · -- the rest of the block is what was read from it
          refine .inl ?_
          rw [splice_of_ge (by omega), splice_of_mem (Nat.zero_le _) (by omega),
            blockRead_eq hw hin, Nat.sub_zero]
          dsimp only
          rw [slice_of_lt (by omega), Nat.add_sub_cancel' hblock.1]
      · exact .inl (splice_of_not_mem hblock)
    · rw [if_neg hcopy]
      exact ⟨_, _, rfl, .inl ⟨fun h => hcopy h.2, rfl, rfl⟩⟩
  · rw [if_neg (mt (blockRead_ok_iff hw).mp hin)]
    exact ⟨_, _, rfl, .inl ⟨fun h => hin h.1, rfl, rfl⟩⟩

end Paths

/-! ## Exactly when a failure loses data -/

/-- A write of `count` bytes at `p` starts at `x`, has its buffer, and copies
the `len` bytes that go to the block of `x`, which is in the device. -/
structure Reaches (m : Mtd) (bad : Nat → Bool) (w : World) (p x : Int) (len : Nat) : Prop where
  skip : SkipsTo m bad p x
  heap : (w.heap 0).isSome = true
  inDevice : m.InDevice (m.ebAddr (m.ebnum x)) m.erasesize
  copy : w.CopyOk len

/-- The writes that commit a block and then return an error. -/
inductive LosesBlock (m : Mtd) (bad : Nat → Bool) (w : World) (count : Nat) (p : Int) : Prop
  | single {x : Int} (h : Reaches m bad w p x count) (hsingle : m.Single x count)
      (hlarge : i32 m.erasesize < 0)
  | noSecond {x : Int} (h : Reaches m bad w p x (m.firstLen x)) (hcross : m.Crosses x count)
      (hnone : SkipFails m bad (i64 (x + m.firstLen x)))
  | second {x y : Int} (h : Reaches m bad w p x (m.firstLen x)) (hcross : m.Crosses x count)
      (hskip : SkipsTo m bad (i64 (x + m.firstLen x)) y)
      (hfail : m.InDevice (m.ebAddr (m.ebnum y)) m.erasesize →
        w.afterCopy.CopyOk (u32 (count - m.firstLen x)) → i32 count < 0)

/-- What the flash holds plays no part in it. -/
theorem LosesBlock.of_flash {flash : Nat → Byte} {count : Nat}
    (h : LosesBlock m bad ⟨w.toCaller, flash⟩ count p) : LosesBlock m bad w count p := by
  have hreach {x : Int} {len : Nat} (h : Reaches m bad ⟨w.toCaller, flash⟩ p x len) :
      Reaches m bad w p x len := ⟨h.skip, h.heap, h.inDevice, h.copy⟩
  cases h with
  | single h hsingle hlarge => exact .single (hreach h) hsingle hlarge
  | noSecond h hcross hnone => exact .noSecond (hreach h) hcross hnone
  | second h hcross hskip hfail => exact .second (hreach h) hcross hskip hfail

/-- Whatever the flash holds, a write that ends with an error leaves it so. -/
def FailureKeepsFlash (m : Mtd) (bad : Nat → Bool) (w : World) (buf n : Nat) (p : Int) : Prop :=
  ∀ fuel flash r w', (at91flashWrite m fuel buf n p).run (device m bad) ⟨w.toCaller, flash⟩ =
    (some r, w') → r.ret < 0 → w'.flash = flash

variable {count : Nat}

/-- With its first block committed, a write that loses no block only succeeds. -/
theorem second_nonneg {x : Int} {w₁ w' : World} {kbuf : Nat → Byte} {r : Ret}
    (hkeep : ¬ LosesBlock m bad w count p) (hreach : Reaches m bad w p x (m.firstLen x))
    (hcross : m.Crosses x count) (hw₁ : w₁.FaultFree)
    (hcopies : ∀ k, w₁.copies k = w.copies (k + 1))
    (hrun : (writeSecond m fuel buf count (m.firstLen x) (i64 (x + m.firstLen x)) kbuf).run
      (device m bad) w₁ = (some r, w')) : 0 ≤ r.ret := by
  by_contra hneg
  apply hkeep
  rcases walk_cases m bad fuel (i64 (x + m.firstLen x)) with ⟨y, hy, hwalk⟩ | ⟨hnone, -⟩ | hwalk
  · obtain ⟨r₂, w₂, hrun₂, hend⟩ := write_second hw₁ buf count (m.firstLen x) kbuf hwalk
    obtain ⟨hr, rfl⟩ := Prod.mk.inj (hrun₂.symm.trans hrun)
    obtain rfl := Option.some.inj hr
    have hcopy : w₁.CopyOk (u32 (count - m.firstLen x)) ↔
        w.afterCopy.CopyOk (u32 (count - m.firstLen x)) := by
      unfold World.CopyOk
      rw [hcopies]
      rfl
    refine .second hreach hcross hy fun hin₂ hcopy' => ?_
    rcases hend with ⟨hfail, -, -⟩ | ⟨-, hret, -⟩
    · exact absurd ⟨hin₂, hcopy.mpr hcopy'⟩ hfail
    · exact hret ▸ not_le.mp hneg
  · exact .noSecond hreach hcross hnone
  · unfold writeSecond at hrun
    rw [Prog.run_bind, run_skipBadBlocks, hwalk] at hrun
    cases congrArg Prod.fst hrun

theorem writeCount_keeps (hw : w.FaultFree) (h : ¬ (count ≠ 0 ∧ LosesBlock m bad w count p))
    {r : Ret} {w' : World}
    (hrun : (writeCount m fuel buf count p).run (device m bad) w = (some r, w'))
    (hneg : r.ret < 0) : w'.flash = w.flash := by
  have hmalloc : w.afterKmalloc.FaultFree := ⟨hw.reads, hw.erases, hw.writes⟩
  by_cases hcount : count = 0
  · unfold writeCount at hrun
    rw [if_pos hcount] at hrun
    obtain rfl : w = w' := congrArg Prod.snd hrun
    rfl
  · have hkeep : ¬ LosesBlock m bad w count p := fun hloses => h ⟨hcount, hloses⟩
    rcases walk_cases m bad fuel p with ⟨x, hx, hwalk⟩ | ⟨-, q, hwalk⟩ | hwalk
    · rw [run_writeCount_good m bad fuel buf w hcount hwalk] at hrun
      cases hheap : w.heap 0 with
      | none =>
          rw [hheap] at hrun
          obtain rfl := (Prod.mk.inj hrun).2
          rfl
      | some kbuf =>
          rw [hheap] at hrun
          have hsome : (w.heap 0).isSome = true := by rw [hheap]; rfl
          by_cases hsingle : m.Single x count
          · obtain ⟨r₁, w₁, hrun₁, hend⟩ := write_single hmalloc bad fuel buf
              kbuf hcount hsingle
            obtain ⟨hr, rfl⟩ := Prod.mk.inj (hrun₁.symm.trans hrun)
            obtain rfl := Option.some.inj hr
            rcases hend with ⟨-, -, hflash⟩ | ⟨⟨hin, hcopy⟩, hret, -⟩
            · exact hflash
            · rw [hret] at hneg
              exact absurd (.single ⟨hx, hsome, hin, hcopy⟩ hsingle hneg) hkeep
          · rcases write_crossing hmalloc bad fuel buf kbuf hsingle with
              ⟨-, r₁, w₁, hrun₁, -, hflash⟩ |
                ⟨⟨hcross, hin, hcopy⟩, kbuf', w₁, hrun₁, hw₁, -, hcopies, -, -⟩
            · obtain rfl := (Prod.mk.inj (hrun₁.symm.trans hrun)).2
              exact hflash
            · have hnonneg := second_nonneg hkeep ⟨hx, hsome, hin, hcopy⟩ hcross hw₁ hcopies
                (hrun₁.symm.trans hrun)
              exact absurd hneg (not_lt.mpr hnonneg)
    · rw [run_writeCount_none m bad fuel buf w hcount hwalk] at hrun
      obtain rfl := (Prod.mk.inj hrun).2
      rfl
    · unfold writeCount at hrun
      rw [if_neg hcount, Prog.run_bind, run_skipBadBlocks, hwalk] at hrun
      cases congrArg Prod.fst hrun

theorem byte_ne_both (u u' : Byte) : ∃ v : Byte, v ≠ u ∧ v ≠ u' := by
  by_cases h₀ : (0 : Byte) ≠ u ∧ (0 : Byte) ≠ u'
  · exact ⟨0, h₀⟩
  · by_cases h₁ : (1 : Byte) ≠ u ∧ (1 : Byte) ≠ u'
    · exact ⟨1, h₁⟩
    · refine ⟨2, ?_⟩
      grind

namespace Reaches

variable {x : Int} {len : Nat}

/-- With enough fuel the search finds the block, for any flash. -/
theorem run_start (h : Reaches m bad w p x len) (hcount : count ≠ 0) (buf : Nat)
    (flash : Nat → Byte) : ∃ kbuf rounds, ∀ fuel, rounds ≤ fuel →
      (writeCount m fuel buf count p).run (device m bad) ⟨w.toCaller, flash⟩ =
        (writeBlocks m fuel buf count x (m.ebnum x) (m.blockoffset x) kbuf).run (device m bad)
          (World.afterKmalloc ⟨w.toCaller, flash⟩) := by
  obtain ⟨kbuf, hkbuf⟩ := Option.isSome_iff_exists.mp h.heap
  obtain ⟨rounds, hwalk⟩ := walk_of_skipsTo h.skip
  refine ⟨kbuf, rounds, fun fuel hfuel => ?_⟩
  rw [run_writeCount_good m bad fuel buf _ hcount (hwalk fuel hfuel), hkbuf]

/-- And a write that goes on in a second block commits it. -/
theorem run_first (h : Reaches m bad w p x (m.firstLen x)) (hw : w.FaultFree) (hcount : count ≠ 0)
    (hcross : m.Crosses x count) (buf : Nat) (flash : Nat → Byte) :
    ∃ rounds, ∀ fuel, rounds ≤ fuel → ∃ kbuf w',
      (writeCount m fuel buf count p).run (device m bad) ⟨w.toCaller, flash⟩ =
        (writeSecond m fuel buf count (m.firstLen x) (i64 (x + m.firstLen x)) kbuf).run
          (device m bad) w' ∧
      w'.FaultFree ∧ w'.user = w.user ∧ (∀ k, w'.copies k = w.copies (k + 1)) ∧
      w'.flash (firstByte m x) = w.user buf := by
  have hmalloc : (World.afterKmalloc ⟨w.toCaller, flash⟩).FaultFree :=
    ⟨hw.reads, hw.erases, hw.writes⟩
  obtain ⟨kbuf, rounds, hrun⟩ := h.run_start hcount buf flash
  refine ⟨rounds, fun fuel hfuel => ?_⟩
  rw [hrun fuel hfuel]
  rcases write_crossing hmalloc bad fuel buf kbuf hcross.1 with
    ⟨hnot, -⟩ | ⟨-, kbuf', w', hsecond, hw', huser, hcopies, hbyte, -⟩
  · exact absurd ⟨hcross, h.inDevice, h.copy⟩ hnot
  · exact ⟨kbuf', w', hsecond, hw', huser, hcopies, hbyte⟩

end Reaches

/-- A write that commits a block and returns an error has replaced a byte by
one of two that do not depend on the flash. -/
theorem writeCount_loses (hw : w.FaultFree) (hcount : count ≠ 0)
    (h : LosesBlock m bad w count p) (buf : Nat) :
    ∃ a u u', ∀ flash, ∃ fuel r w',
      (writeCount m fuel buf count p).run (device m bad) ⟨w.toCaller, flash⟩ = (some r, w') ∧
        r.ret < 0 ∧ (w'.flash a = u ∨ w'.flash a = u') := by
  cases h with
  | @single x hreach hsingle hlarge =>
      refine ⟨firstByte m x, w.user buf, w.user buf, fun flash => ?_⟩
      have hmalloc : (World.afterKmalloc ⟨w.toCaller, flash⟩).FaultFree :=
        ⟨hw.reads, hw.erases, hw.writes⟩
      obtain ⟨kbuf, rounds, hrun⟩ := hreach.run_start hcount buf flash
      obtain ⟨r, w', hend, ⟨hnot, -, -⟩ | ⟨-, hret, hbyte⟩⟩ := write_single hmalloc bad
        rounds buf kbuf hcount hsingle
      · exact absurd ⟨hreach.inDevice, hreach.copy⟩ hnot
      · exact ⟨rounds, r, w', (hrun rounds le_rfl).trans hend, hret ▸ hlarge, .inl hbyte⟩
  | @noSecond x hreach hcross hnone =>
      refine ⟨firstByte m x, w.user buf, w.user buf, fun flash => ?_⟩
      obtain ⟨rounds, hrun⟩ := hreach.run_first hw hcount hcross buf flash
      obtain ⟨rounds', q, hwalk⟩ := walk_of_skipFails hnone
      obtain ⟨kbuf, w', hsecond, -, -, -, hbyte⟩ := hrun (rounds + rounds') (by omega)
      have hend : (writeSecond m (rounds + rounds') buf count (m.firstLen x) _ kbuf).run
          (device m bad) w' = _ :=
        run_writeSecond_none m bad _ buf kbuf w' (hwalk (rounds + rounds') (by omega))
      exact ⟨rounds + rounds', _, w', hsecond.trans hend, neg_EFAULT, .inl hbyte⟩
  | @second x y hreach hcross hskip hfail =>
      -- addresses wrap at 4 GiB, so the second block may be the first one again
      refine ⟨firstByte m x, w.user buf,
        w.user (buf + m.firstLen x + (firstByte m x - m.ebAddr (m.ebnum y))), fun flash => ?_⟩
      obtain ⟨rounds, hrun⟩ := hreach.run_first hw hcount hcross buf flash
      obtain ⟨rounds', hwalk⟩ := walk_of_skipsTo hskip
      obtain ⟨kbuf, w₁, hsecond, hw₁, huser, hcopies, hbyte⟩ := hrun (rounds + rounds') (by omega)
      obtain ⟨r, w', hend, hcase⟩ := write_second hw₁ buf count (m.firstLen x) kbuf
        (hwalk (rounds + rounds') (by omega))
      refine ⟨rounds + rounds', r, w', hsecond.trans hend, ?_⟩
      rcases hcase with ⟨-, hret, hflash⟩ | ⟨⟨hin, hcopy⟩, hret, hflash⟩
      · rw [hret, hflash]
        exact ⟨neg_EFAULT, .inl hbyte⟩
      · have hcopy' : w.afterCopy.CopyOk (u32 (count - m.firstLen x)) := by
          unfold World.CopyOk at hcopy
          rwa [hcopies] at hcopy
        rw [hret]
        refine ⟨hfail hin hcopy', ?_⟩
        rcases hflash (firstByte m x) with h | h
        · exact .inl (h.trans hbyte)
        · exact .inr (h.trans (by rw [huser]))

/-- A write on a device without faults leaves the flash alone when it fails,
unless its count survives the clip and it commits a block before it fails. -/
theorem failure_keeps_flash_iff (hw : w.FaultFree) :
    FailureKeepsFlash m bad w buf n p ↔
      ∀ count, m.writeClip p n = some count → count ≠ 0 → ¬ LosesBlock m bad w count p := by
  constructor
  · intro hkeeps count hclip hcount hloses
    obtain ⟨a, u, u', hends⟩ := writeCount_loses hw hcount hloses buf
    obtain ⟨v, hv, hv'⟩ := byte_ne_both u u'
    obtain ⟨fuel, r, w', hrun, hneg, hbyte⟩ := hends fun _ => v
    have hflash := hkeeps fuel (fun _ => v) r w'
      (by rw [at91flashWrite_eq_clip, hclip]; exact hrun) hneg
    rw [hflash] at hbyte
    exact hbyte.elim hv hv'
  · intro hcond fuel flash r w' hrun hneg
    rw [at91flashWrite_eq_clip] at hrun
    cases hclip : m.writeClip p n with
    | none =>
        rw [hclip] at hrun
        obtain rfl := congrArg Prod.snd hrun
        rfl
    | some count =>
        rw [hclip] at hrun
        refine writeCount_keeps (w := ⟨w.toCaller, flash⟩) ⟨hw.reads, hw.erases, hw.writes⟩ ?_
          hrun hneg
        rintro ⟨hcount, hloses⟩
        exact hcond count hclip hcount hloses.of_flash

/-- Three bytes at 6, with every later block bad. -/
theorem failure_keeps_flash_iff_at_six :
    FailureKeepsFlash fourBlocks (fun b => decide (1 < b))
        (quiet (fun _ => 1) (fun _ => 7) (fun _ => 9)) 0 3 6 ↔
      ∀ count, fourBlocks.writeClip 6 3 = some count → count ≠ 0 →
        ¬ LosesBlock fourBlocks (fun b => decide (1 < b))
          (quiet (fun _ => 1) (fun _ => 7) (fun _ => 9)) count 6 :=
  failure_keeps_flash_iff (quiet_faultFree _ _ _)

/-- Three bytes at 6, with every later block bad: the first two are in the
flash by the time the call fails. -/
theorem failure_changes_flash :
    ¬ ∀ (m : Mtd) (bad : Nat → Bool) (w : World) (buf n : Nat) (p : Int), w.FaultFree →
      FailureKeepsFlash m bad w buf n p := by
  intro h
  have hkept := h fourBlocks (fun b => decide (1 < b))
    (quiet (fun _ => 1) (fun _ => 7) (fun _ => 9)) 0 3 6 (quiet_faultFree _ _ _) 5 fun _ => 7
  have hrun : ((at91flashWrite fourBlocks 5 0 3 6).run (device fourBlocks fun b => decide (1 < b))
      (quiet (fun _ => 1) (fun _ => 7) (fun _ => 9))).1 = some ⟨-14, 16⟩ := by decide +kernel
  have hlost : ((at91flashWrite fourBlocks 5 0 3 6).run (device fourBlocks fun b => decide (1 < b))
      (quiet (fun _ => 1) (fun _ => 7) (fun _ => 9))).2.flash 6 = 1 := by decide +kernel
  have hflash := hkept ⟨-14, 16⟩ _ (Prod.ext hrun rfl) (by decide)
  exact absurd (hlost.symm.trans (congrFun hflash 6)) (by decide)

end At91Drivers.Flash
