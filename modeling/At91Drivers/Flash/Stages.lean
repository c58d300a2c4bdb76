import At91Drivers.Flash.Skip

/-!
# The stages of a write, run against the device

One equation for each stage of `at91flash_write` after the bad-block loop: what
it answers and what it does to the world, for any outcomes of the operations it
performs.  The driver's own tests of an answer are named (`ReadReply.Ok` and
the like), and so are the effects of the operations on the world.
-/

namespace At91Drivers.Flash

open Effects Arith

/-! ## Answers the driver accepts -/

/-- `mtd->read` gave the whole range; a corrected bit flip counts as success. -/
def ReadReply.Ok (r : ReadReply) (len : Nat) : Prop :=
  (r.ret = 0 ∨ r.ret = -EUCLEAN) ∧ r.retlen = len

def EraseReply.Ok (r : EraseReply) : Prop := r.ret = 0 ∧ r.failed = false

def WriteReply.Ok (r : WriteReply) (len : Nat) : Prop := r.ret = 0 ∧ r.retlen = len

instance (r : ReadReply) (len : Nat) : Decidable (r.Ok len) := inferInstanceAs (Decidable (_ ∧ _))
instance (r : EraseReply) : Decidable r.Ok := inferInstanceAs (Decidable (_ ∧ _))
instance (r : WriteReply) (len : Nat) : Decidable (r.Ok len) := inferInstanceAs (Decidable (_ ∧ _))

/-! ## The world after an operation -/

namespace World

def afterKmalloc (w : World) : World := { w with heap := fun k => w.heap (k + 1) }

def afterCopy (w : World) : World := { w with copies := fun k => w.copies (k + 1) }

def afterRead (w : World) : World := { w with reads := fun k => w.reads (k + 1) }

def afterErase (w : World) (m : Mtd) (ebnum : Int) : World :=
  { w with
    erases := fun k => w.erases (k + 1)
    flash := eraseFlash m w.flash (m.ebAddr ebnum) m.erasesize (w.erases 0) }

def afterProgram (w : World) (m : Mtd) (ebnum : Int) (kbuf : Nat → Byte) : World :=
  { w with
    writes := fun k => w.writes (k + 1)
    flash := writeFlash m w.flash (m.ebAddr ebnum) m.erasesize kbuf (w.writes 0) }

/-- The answers to the next read, erase and program of a whole block. -/
def blockRead (w : World) (m : Mtd) (ebnum : Int) : ReadReply :=
  readReply m w.flash (m.ebAddr ebnum) m.erasesize (w.reads 0)

def blockErase (w : World) (m : Mtd) (ebnum : Int) : EraseReply :=
  eraseReply m (m.ebAddr ebnum) m.erasesize (w.erases 0)

def blockProgram (w : World) (m : Mtd) (ebnum : Int) : WriteReply :=
  writeReply m (m.ebAddr ebnum) m.erasesize (w.writes 0)

/-- The next user copy, of `len` bytes, is complete. -/
def CopyOk (w : World) (len : Nat) : Prop := copied len (w.copies 0) = len

instance (w : World) (len : Nat) : Decidable (w.CopyOk len) :=
  inferInstanceAs (Decidable (_ = _))

end World

/-! ## The stages -/

variable (m : Mtd) (bad : Nat → Bool)

@[simp] theorem run_freeFail (code ppos : Int) (w : World) :
    (freeFail code ppos).run (device m bad) w = (some ⟨-code, ppos⟩, w) := rfl

@[simp] theorem run_fail (code ppos : Int) (w : World) :
    (fail code ppos).run (device m bad) w = (some ⟨-code, ppos⟩, w) := rfl

theorem run_copyFromUser (dst buf len : Nat) (w : World) :
    (ask (.copyFromUser dst buf len)).run (device m bad) w =
      (if w.CopyOk len then some fun i => w.user (buf + i) else none, w.afterCopy) := rfl

theorem run_readBlock (ebnum : Int) (kbuf : Nat → Byte) (w : World) :
    (readBlock m ebnum kbuf).run (device m bad) w =
      (if (w.blockRead m ebnum).Ok m.erasesize then
          some (splice kbuf 0 m.erasesize (w.blockRead m ebnum).data)
        else none, w.afterRead) := by
  have hrun : (ask (.mtdRead (m.ebAddr ebnum) m.erasesize)).run (device m bad) w =
      (w.blockRead m ebnum, w.afterRead) := rfl
  unfold readBlock
  rw [Prog.run_bind, hrun, Prog.run_ite]
  by_cases hok : (w.blockRead m ebnum).Ok m.erasesize
  · rw [if_neg (by rintro (h | h); exacts [hok.1.elim h.1 h.2, h hok.2]), if_pos hok, hok.2]
    rfl
  · rw [if_pos, if_neg hok]
    · rfl
    · by_contra h
      push Not at h
      exact hok ⟨or_iff_not_imp_left.mpr h.1, h.2⟩

theorem run_eraseEraseblock (ebnum : Int) (w : World) :
    ((eraseEraseblock m ebnum).run (device m bad) w).2 = w.afterErase m ebnum ∧
      (((eraseEraseblock m ebnum).run (device m bad) w).1 = 0 ↔ (w.blockErase m ebnum).Ok) := by
  have hrun : (ask (.mtdErase (m.ebAddr ebnum) m.erasesize)).run (device m bad) w =
      (w.blockErase m ebnum, w.afterErase m ebnum) := rfl
  unfold eraseEraseblock EraseReply.Ok
  rw [Prog.run_bind, hrun]
  by_cases hret : (w.blockErase m ebnum).ret = 0
  · cases (w.blockErase m ebnum).failed <;> simp [hret, EIO]
  · simp [hret]

/-- Erase and program: the answer of the program when the erase succeeds. -/
theorem run_commit_ok {ebnum : Int} {w : World} (kbuf : Nat → Byte)
    (hok : (w.blockErase m ebnum).Ok) :
    (commit m ebnum kbuf).run (device m bad) w =
      (.ok ((w.afterErase m ebnum).blockProgram m ebnum),
        (w.afterErase m ebnum).afterProgram m ebnum kbuf) := by
  obtain ⟨hworld, hret⟩ := run_eraseEraseblock m bad ebnum w
  unfold commit
  rw [Prog.run_bind, hworld, hret.mpr hok]
  rfl

theorem run_commit_failed {ebnum : Int} {w : World} (kbuf : Nat → Byte)
    (hfail : ¬ (w.blockErase m ebnum).Ok) :
    ∃ err, (commit m ebnum kbuf).run (device m bad) w = (.error err, w.afterErase m ebnum) := by
  obtain ⟨hworld, hret⟩ := run_eraseEraseblock m bad ebnum w
  unfold commit
  rw [Prog.run_bind, hworld, if_pos (mt hret.mp hfail)]
  exact ⟨_, rfl⟩

theorem run_eraseAction_ok (ppos : Int) {ebnum : Int} {w : World} (kbuf : Nat → Byte)
    (hok : (w.blockErase m ebnum).Ok) :
    (eraseAction m ppos ebnum kbuf).run (device m bad) w =
      (some ⟨i32 ((w.afterErase m ebnum).blockProgram m ebnum).retlen,
          i64 (ppos + ((w.afterErase m ebnum).blockProgram m ebnum).retlen)⟩,
        (w.afterErase m ebnum).afterProgram m ebnum kbuf) := by
  unfold eraseAction
  rw [Prog.run_bind, run_commit_ok m bad kbuf hok]
  rfl

theorem run_eraseAction_failed (ppos : Int) {ebnum : Int} {w : World} (kbuf : Nat → Byte)
    (hfail : ¬ (w.blockErase m ebnum).Ok) :
    (eraseAction m ppos ebnum kbuf).run (device m bad) w =
      (some ⟨-EFAULT, ppos⟩, w.afterErase m ebnum) := by
  obtain ⟨err, hrun⟩ := run_commit_failed m bad kbuf hfail
  unfold eraseAction
  rw [Prog.run_bind, hrun]
  rfl

/-! ## The paths of `at91flash_write` after the allocation -/

variable {x b o : Int} {count first : Nat} (fuel buf : Nat) (kbuf : Nat → Byte) (w : World)

theorem run_writeBlocks_first (hx : x = 0) :
    (writeBlocks m fuel buf count x b o kbuf).run (device m bad) w =
      if w.CopyOk count then
        (eraseAction m x b (splice kbuf 0 count fun i => w.user (buf + i))).run (device m bad)
          w.afterCopy
      else (some ⟨-EFAULT, x⟩, w.afterCopy) := by
  unfold writeBlocks
  rw [if_pos hx, Prog.run_bind, run_copyFromUser]
  by_cases hcopy : w.CopyOk count
  · rw [if_pos hcopy, if_pos hcopy]
  · rw [if_neg hcopy, if_neg hcopy]
    rfl

theorem run_writeBlocks_readFailed (hx : x ≠ 0) (hread : ¬ (w.blockRead m b).Ok m.erasesize) :
    (writeBlocks m fuel buf count x b o kbuf).run (device m bad) w =
      (some ⟨-EFAULT, x⟩, w.afterRead) := by
  unfold writeBlocks
  rw [if_neg hx, Prog.run_bind, run_readBlock, if_neg hread]
  rfl

variable (hx : x ≠ 0) (hread : (w.blockRead m b).Ok m.erasesize)

include hx hread

/-- The data fits the block of the position. -/
theorem run_writeBlocks_within (hfit : i64 (x + count) ≤ m.ebAddr (b + 1)) :
    (writeBlocks m fuel buf count x b o kbuf).run (device m bad) w =
      if w.CopyOk count then
        (eraseAction m x b (splice (splice kbuf 0 m.erasesize (w.blockRead m b).data) (u32 o) count
          fun i => w.user (buf + i))).run (device m bad) w.afterRead.afterCopy
      else (some ⟨-EFAULT, x⟩, w.afterRead.afterCopy) := by
  unfold writeBlocks
  rw [if_neg hx, Prog.run_bind, run_readBlock, if_pos hread]
  simp only [if_pos hfit]
  rw [Prog.run_bind, run_copyFromUser]
  change _ = if w.afterRead.CopyOk count then _ else _
  by_cases hcopy : w.afterRead.CopyOk count
  · rw [if_pos hcopy, if_pos hcopy]
    rfl
  · rw [if_neg hcopy, if_neg hcopy]
    rfl

theorem run_writeBlocks_tooMuch (hfit : ¬ i64 (x + count) ≤ m.ebAddr (b + 1))
    (hjump : ¬ i64 (x + count) ≤ m.ebAddr (b + 2)) :
    (writeBlocks m fuel buf count x b o kbuf).run (device m bad) w =
      (some ⟨-EFAULT, x⟩, w.afterRead) := by
  unfold writeBlocks
  rw [if_neg hx, Prog.run_bind, run_readBlock, if_pos hread]
  simp only [if_neg hfit, if_neg hjump]
  rfl

omit hx hread in
/-- The first part of a write that jumps a block is committed before the second
block is looked for. -/
theorem run_writeJump (hfirst : u32 (m.erasesize - o) = first) :
    (writeJump m fuel buf count x b o kbuf).run (device m bad) w =
      if w.CopyOk first then
        if (w.afterCopy.blockErase m b).Ok then
          (writeSecond m fuel buf count first (i64 (x + first))
              (splice kbuf (u32 o) first fun i => w.user (buf + i))).run (device m bad)
            ((w.afterCopy.afterErase m b).afterProgram m b
              (splice kbuf (u32 o) first fun i => w.user (buf + i)))
        else (some ⟨-EFAULT, x⟩, w.afterCopy.afterErase m b)
      else (some ⟨-EFAULT, x⟩, w.afterCopy) := by
  subst hfirst
  unfold writeJump
  rw [Prog.run_bind, run_copyFromUser]
  by_cases hcopy : w.CopyOk (u32 (m.erasesize - o))
  · rw [if_pos hcopy, if_pos hcopy]
    by_cases herase : (w.afterCopy.blockErase m b).Ok
    · simp only [if_pos herase, Prog.run_bind, run_commit_ok m bad _ herase]
    · obtain ⟨err, hrun⟩ := run_commit_failed m bad
        (splice kbuf (u32 o) (u32 (m.erasesize - o)) fun i => w.user (buf + i)) herase
      simp only [if_neg herase, Prog.run_bind, hrun, run_freeFail]
  · rw [if_neg hcopy, if_neg hcopy]
    rfl

theorem run_writeBlocks_jump (hfit : ¬ i64 (x + count) ≤ m.ebAddr (b + 1))
    (hjump : i64 (x + count) ≤ m.ebAddr (b + 2)) :
    (writeBlocks m fuel buf count x b o kbuf).run (device m bad) w =
      (writeJump m fuel buf count x b o
        (splice kbuf 0 m.erasesize (w.blockRead m b).data)).run (device m bad) w.afterRead := by
  unfold writeBlocks
  rw [if_neg hx, Prog.run_bind, run_readBlock, if_pos hread]
  simp only [if_neg hfit, if_pos hjump]

omit hx hread

/-! ## The second block -/

/-- The world once the second block is found: read, copy, erase and program. -/
theorem run_writeSecond_good {y : Int} (hwalk : walk m bad fuel x = .good y b o) :
    (writeSecond m fuel buf count first x kbuf).run (device m bad) w =
      if (w.blockRead m b).Ok m.erasesize then
        if w.CopyOk (u32 (count - first)) then
          if (w.afterRead.afterCopy.blockErase m b).Ok then
            (some ⟨i32 count, i64 (y + u32 (count - first))⟩,
              (w.afterRead.afterCopy.afterErase m b).afterProgram m b
                (splice (splice kbuf 0 m.erasesize (w.blockRead m b).data) 0 (u32 (count - first))
                  fun i => w.user (buf + first + i)))
          else (some ⟨-EFAULT, y⟩, w.afterRead.afterCopy.afterErase m b)
        else (some ⟨-EFAULT, y⟩, w.afterRead.afterCopy)
      else (some ⟨-EFAULT, y⟩, w.afterRead) := by
  unfold writeSecond
  rw [Prog.run_bind, run_skipBadBlocks, hwalk]
  simp only [Prog.run_bind, run_readBlock]
  by_cases hread : (w.blockRead m b).Ok m.erasesize
  · simp only [if_pos hread]
    rw [Prog.run_bind, run_copyFromUser]
    change _ = if w.afterRead.CopyOk (u32 (count - first)) then _ else _
    by_cases hcopy : w.afterRead.CopyOk (u32 (count - first))
    · rw [if_pos hcopy, if_pos hcopy]
      by_cases herase : (w.afterRead.afterCopy.blockErase m b).Ok
      · simp only [if_pos herase, Prog.run_bind, run_commit_ok m bad _ herase]
        rfl
      · obtain ⟨err, hrun⟩ := run_commit_failed m bad
          (splice (splice kbuf 0 m.erasesize (w.blockRead m b).data) 0 (u32 (count - first))
            fun i => w.afterRead.user (buf + first + i)) herase
        simp only [if_neg herase, Prog.run_bind, hrun, run_freeFail]
    · rw [if_neg hcopy, if_neg hcopy]
      rfl
  · rw [if_neg hread, if_neg hread]
    rfl

theorem run_writeSecond_none {q : Int}
    (hwalk : walk m bad fuel x = .noBlock q ∨ walk m bad fuel x = .endOfFile q) :
    (writeSecond m fuel buf count first x kbuf).run (device m bad) w =
      (some ⟨-EFAULT, q⟩, w) := by
  unfold writeSecond
  rw [Prog.run_bind, run_skipBadBlocks]
  rcases hwalk with hwalk | hwalk <;> rw [hwalk] <;> rfl

/-! ## Up to the allocation -/

theorem run_writeCount_good (hcount : count ≠ 0) {p : Int}
    (hwalk : walk m bad fuel p = .good x b o) :
    (writeCount m fuel buf count p).run (device m bad) w =
      match w.heap 0 with
      | none => (some ⟨-ENOMEM, x⟩, w.afterKmalloc)
      | some kbuf =>
          (writeBlocks m fuel buf count x b o kbuf).run (device m bad) w.afterKmalloc := by
  have hmalloc : (ask (.kmalloc m.erasesize)).run (device m bad) w =
      (w.heap 0, w.afterKmalloc) := rfl
  unfold writeCount
  rw [if_neg hcount, Prog.run_bind, run_skipBadBlocks, hwalk]
  simp only [Prog.run_bind, hmalloc]
  cases w.heap 0 <;> rfl

theorem run_writeCount_none (hcount : count ≠ 0) {p q : Int}
    (hwalk : walk m bad fuel p = .noBlock q ∨ walk m bad fuel p = .endOfFile q) :
    (writeCount m fuel buf count p).run (device m bad) w = (some ⟨-EFAULT, q⟩, w) := by
  unfold writeCount
  rw [if_neg hcount, Prog.run_bind, run_skipBadBlocks]
  rcases hwalk with hwalk | hwalk <;> rw [hwalk] <;> rfl

end At91Drivers.Flash
