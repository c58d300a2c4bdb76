import At91Drivers.Flash.FailedWrite

/-!
# Which faults a write reports

Two results of a write are not negative: the number of bytes programmed by a
write of one block, and the count of a write that jumps a block.  The answer of
`mtd->write` itself is only logged.  So an erase that fails is reported, and a
program that fails is not, unless the number it programmed is negative as the
value returned.

`SinglePath` and `CrossPath` say what has to go well up to the last program;
every other run of a write returns an error.
-/

namespace At91Drivers.Flash

open Effects Arith

variable {m : Mtd} {bad : Nat → Bool} {w : World} {fuel buf count : Nat} {p x y : Int}

/-! ## Operations that succeeded -/

/-- The block was erased.  A corrected bit flip is no failure. -/
def EraseReply.Done (r : EraseReply) : Prop :=
  (r.ret = 0 ∨ r.ret = -EUCLEAN) ∧ r.failed = false

/-- All `len` bytes were programmed. -/
def WriteReply.Done (r : WriteReply) (len : Nat) : Prop :=
  (r.ret = 0 ∨ r.ret = -EUCLEAN) ∧ r.retlen = len

/-- An erase or a program succeeded with its full length. -/
def Succeeded : Event Op Reply → Prop
  | ⟨.mtdErase _ _, r⟩ => EraseReply.Done r
  | ⟨.mtdWrite _ len _, r⟩ => WriteReply.Done r len
  | _ => True

/-- Every erase and program of the run succeeded. -/
def Clean (m : Mtd) (bad : Nat → Bool) {α : Type} (prog : Driver α) (w : World) : Prop :=
  ∀ event ∈ prog.trace (device m bad) w, Succeeded event

section Clean

variable {α β : Type}

theorem clean_pure (a : α) : Clean m bad (pure a) w := fun _ h => absurd h List.not_mem_nil

theorem clean_bind (prog : Driver α) (f : α → Driver β) :
    Clean m bad (prog >>= f) w ↔
      Clean m bad prog w ∧ Clean m bad (f (prog.run (device m bad) w).1)
        (prog.run (device m bad) w).2 := by
  unfold Clean
  rw [Prog.trace_bind]
  exact List.forall_mem_append

theorem clean_ask (e : Op) :
    Clean m bad (ask e) w ↔ Succeeded ⟨e, (device m bad e w).1⟩ := by
  unfold Clean
  rw [Prog.trace_perform, List.forall_mem_singleton]

theorem clean_search : Clean m bad (skipBadBlocks m fuel p) w := by
  rintro ⟨e, r⟩ h
  have hsearches : e.Searches := searches_of_mem_trace m bad h
  cases e <;> first | exact hsearches.elim | trivial

theorem clean_readBlock {b : Int} (kbuf : Nat → Byte) : Clean m bad (readBlock m b kbuf) w := by
  unfold readBlock
  rw [clean_bind, clean_ask]
  refine ⟨trivial, ?_⟩
  split <;> exact clean_pure _

theorem clean_commit {b : Int} (kbuf : Nat → Byte) (hok : (w.blockErase m b).Ok) :
    Clean m bad (commit m b kbuf) w ↔ (w.blockProgram m b).Done m.erasesize := by
  obtain ⟨hworld, hret⟩ := run_eraseEraseblock m bad b w
  have herase : Clean m bad (eraseEraseblock m b) w := by
    unfold eraseEraseblock
    rw [clean_bind, clean_ask]
    refine ⟨⟨.inl hok.1, hok.2⟩, ?_⟩
    split
    · exact clean_pure _
    · split <;> exact clean_pure _
  unfold commit
  rw [clean_bind, hworld, hret.mpr hok]
  refine (and_iff_right herase).trans ?_
  rw [if_neg (by decide), clean_bind, clean_ask]
  exact and_iff_left (clean_pure _)

theorem clean_eraseAction {b : Int} (kbuf : Nat → Byte) (hok : (w.blockErase m b).Ok) :
    Clean m bad (eraseAction m x b kbuf) w ↔ (w.blockProgram m b).Done m.erasesize := by
  unfold eraseAction
  rw [clean_bind, clean_commit kbuf hok, run_commit_ok m bad kbuf hok]
  refine and_iff_left ?_
  show Clean m bad (ask .kfree >>= fun _ => _) _
  rw [clean_bind, clean_ask]
  exact ⟨trivial, clean_pure _⟩

end Clean

/-! ## The paths to a result that is no error -/

/-- The outcomes left for the second block of a write that jumps. -/
def World.afterFirst (w : World) : World :=
  { w with
    copies := fun k => w.copies (k + 1)
    reads := fun k => w.reads (k + 1)
    erases := fun k => w.erases (k + 1)
    writes := fun k => w.writes (k + 1) }

/-- A write of `count` bytes at `p` gets to the program of its only block, the
one of `x`. -/
structure SinglePath (m : Mtd) (bad : Nat → Bool) (w : World) (count : Nat) (p x : Int) :
    Prop where
  skip : SkipsTo m bad p x
  heap : (w.heap 0).isSome = true
  single : m.Single x count
  read : x ≠ 0 → (w.blockRead m (m.ebnum x)).Ok m.erasesize
  copy : w.CopyOk count
  erase : (w.blockErase m (m.ebnum x)).Ok

/-- It gets to the program of its second block, the one of `y`. -/
structure CrossPath (m : Mtd) (bad : Nat → Bool) (w : World) (count : Nat) (p x y : Int) :
    Prop where
  skip : SkipsTo m bad p x
  heap : (w.heap 0).isSome = true
  crosses : m.Crosses x count
  read : (w.blockRead m (m.ebnum x)).Ok m.erasesize
  copy : w.CopyOk (m.firstLen x)
  erase : (w.blockErase m (m.ebnum x)).Ok
  next : SkipsTo m bad (i64 (x + m.firstLen x)) y
  readNext : (w.afterFirst.blockRead m (m.ebnum y)).Ok m.erasesize
  copyNext : w.afterFirst.CopyOk (u32 (count - m.firstLen x))
  eraseNext : (w.afterFirst.blockErase m (m.ebnum y)).Ok

/-- Whether a read is accepted does not depend on what the flash holds. -/
theorem readReply_ok_flash {flash flash' : Nat → Byte} {addr len : Nat} {fault : Option Fault} :
    (readReply m flash addr len fault).Ok len ↔ (readReply m flash' addr len fault).Ok len := by
  cases fault with
  | none =>
      unfold readReply
      by_cases hin : m.InDevice addr len
      · rw [if_pos hin, if_pos hin]
        exact Iff.rfl
      · rw [if_neg hin, if_neg hin]
  | some f => exact Iff.rfl

/-- The first block of a write that jumps adds its own program. -/
theorem clean_writeBlocks_jump (bad : Nat → Bool) (fuel buf : Nat) (kbuf : Nat → Byte) (w : World)
    (hcrosses : m.Crosses x count)
    (hread : (w.blockRead m (m.ebnum x)).Ok m.erasesize) (hcopy : w.CopyOk (m.firstLen x))
    (herase : (w.blockErase m (m.ebnum x)).Ok) :
    ∃ kbuf' flash,
      (writeBlocks m fuel buf count x (m.ebnum x) (m.blockoffset x) kbuf).run (device m bad) w =
        (writeSecond m fuel buf count (m.firstLen x) (i64 (x + m.firstLen x)) kbuf').run
          (device m bad) { w.afterFirst with flash := flash } ∧
      (Clean m bad (writeBlocks m fuel buf count x (m.ebnum x) (m.blockoffset x) kbuf) w ↔
        (w.blockProgram m (m.ebnum x)).Done m.erasesize ∧
          Clean m bad (writeSecond m fuel buf count (m.firstLen x) (i64 (x + m.firstLen x)) kbuf')
            { w.afterFirst with flash := flash }) := by
  obtain ⟨hx, hfit⟩ := not_or.mp hcrosses.1
  have hcopy' : w.afterRead.CopyOk (m.firstLen x) := hcopy
  have herase' : (w.afterRead.afterCopy.blockErase m (m.ebnum x)).Ok := herase
  rw [run_writeBlocks_jump m bad fuel buf kbuf _ hx hread hfit hcrosses.2,
    run_writeJump m bad fuel buf _ _ (m.u32_firstLen x), if_pos hcopy', if_pos herase']
  refine ⟨_, _, rfl, ?_⟩
  unfold writeBlocks
  rw [if_neg hx, clean_bind, run_readBlock, if_pos hread]
  refine (and_iff_right (clean_readBlock _)).trans ?_
  dsimp only
  rw [if_neg hfit, if_pos hcrosses.2]
  unfold writeJump
  rw [m.u32_firstLen, clean_bind, clean_ask, run_copyFromUser, if_pos hcopy']
  refine (and_iff_right trivial).trans ?_
  dsimp only
  rw [clean_bind, clean_commit _ herase', run_commit_ok m bad _ herase']
  exact Iff.rfl

section Paths

variable (hwalk : walk m bad fuel p = .good x (m.ebnum x) (m.blockoffset x))

include hwalk

theorem clean_writeCount {kbuf : Nat → Byte} (hcount : count ≠ 0) (hheap : w.heap 0 = some kbuf) :
    Clean m bad (writeCount m fuel buf count p) w ↔
      Clean m bad (writeBlocks m fuel buf count x (m.ebnum x) (m.blockoffset x) kbuf)
        w.afterKmalloc := by
  have hmalloc : (ask (.kmalloc m.erasesize)).run (device m bad) w =
      (some kbuf, w.afterKmalloc) := by rw [← hheap]; rfl
  unfold writeCount
  rw [if_neg hcount, clean_bind, run_skipBadBlocks, hwalk]
  refine (and_iff_right clean_search).trans ?_
  show Clean m bad (ask (.kmalloc m.erasesize) >>= fun _ => _) w ↔ _
  rw [clean_bind, clean_ask, hmalloc]
  exact and_iff_right trivial

/-- A write of one block returns the number of bytes programmed, whatever the
program itself says. -/
theorem writeCount_single (buf : Nat) (hcount : count ≠ 0) (h : SinglePath m bad w count p x) :
    ∃ q w', (writeCount m fuel buf count p).run (device m bad) w =
        (some ⟨i32 (w.blockProgram m (m.ebnum x)).retlen, q⟩, w') ∧
      (Clean m bad (writeCount m fuel buf count p) w ↔
        (w.blockProgram m (m.ebnum x)).Done m.erasesize) := by
  obtain ⟨kbuf, hheap⟩ := Option.isSome_iff_exists.mp h.heap
  have hcopy : w.afterKmalloc.CopyOk count := h.copy
  rw [clean_writeCount hwalk hcount hheap, run_writeCount_good m bad fuel buf w hcount hwalk, hheap]
  dsimp only
  by_cases hx : x = 0
  · have herase : (w.afterKmalloc.afterCopy.blockErase m (m.ebnum x)).Ok := h.erase
    rw [run_writeBlocks_first m bad fuel buf kbuf _ hx, if_pos hcopy,
      run_eraseAction_ok m bad x _ herase]
    refine ⟨_, _, rfl, ?_⟩
    unfold writeBlocks
    rw [if_pos hx, clean_bind, clean_ask, run_copyFromUser, if_pos hcopy]
    refine (and_iff_right trivial).trans ?_
    exact clean_eraseAction _ herase
  · have hread : (w.afterKmalloc.blockRead m (m.ebnum x)).Ok m.erasesize := h.read hx
    have hfit := h.single.resolve_left hx
    have hcopy' : w.afterKmalloc.afterRead.CopyOk count := h.copy
    have herase : (w.afterKmalloc.afterRead.afterCopy.blockErase m (m.ebnum x)).Ok := h.erase
    rw [run_writeBlocks_within m bad fuel buf kbuf _ hx hread hfit, if_pos hcopy,
      run_eraseAction_ok m bad x _ herase]
    refine ⟨_, _, rfl, ?_⟩
    unfold writeBlocks
    rw [if_neg hx, clean_bind, run_readBlock, if_pos hread]
    refine (and_iff_right (clean_readBlock _)).trans ?_
    dsimp only
    rw [if_pos hfit, clean_bind, clean_ask, run_copyFromUser, if_pos hcopy']
    refine (and_iff_right trivial).trans ?_
    exact clean_eraseAction _ herase

/-- A write that jumps returns its count, whatever its two programs say. -/
theorem writeCount_cross (buf : Nat) (hcount : count ≠ 0) (h : CrossPath m bad w count p x y)
    (hwalk' : walk m bad fuel (i64 (x + m.firstLen x)) = .good y (m.ebnum y) (m.blockoffset y)) :
    ∃ q w', (writeCount m fuel buf count p).run (device m bad) w = (some ⟨i32 count, q⟩, w') ∧
      (Clean m bad (writeCount m fuel buf count p) w ↔
        (w.blockProgram m (m.ebnum x)).Done m.erasesize ∧
          (w.afterFirst.blockProgram m (m.ebnum y)).Done m.erasesize) := by
  obtain ⟨kbuf, hheap⟩ := Option.isSome_iff_exists.mp h.heap
  rw [clean_writeCount hwalk hcount hheap, run_writeCount_good m bad fuel buf w hcount hwalk, hheap]
  obtain ⟨kbuf', flash, hrun, hclean⟩ := clean_writeBlocks_jump bad fuel buf kbuf
    w.afterKmalloc h.crosses h.read h.copy h.erase
  dsimp only
  rw [hrun, hclean]
  obtain ⟨w₁, hw₁⟩ : ∃ w₁, w₁ = { w.afterKmalloc.afterFirst with flash := flash } := ⟨_, rfl⟩
  have hread : (w₁.blockRead m (m.ebnum y)).Ok m.erasesize := by
    rw [hw₁]
    exact readReply_ok_flash.mp h.readNext
  have hcopy : w₁.CopyOk (u32 (count - m.firstLen x)) := hw₁ ▸ h.copyNext
  have herase : (w₁.afterRead.afterCopy.blockErase m (m.ebnum y)).Ok := hw₁ ▸ h.eraseNext
  have hprogram : w₁.blockProgram m (m.ebnum y) = w.afterFirst.blockProgram m (m.ebnum y) := by
    rw [hw₁]
    rfl
  rw [← hw₁, ← hprogram, run_writeSecond_good m bad fuel buf kbuf' w₁ hwalk', if_pos hread,
    if_pos hcopy, if_pos herase]
  refine ⟨_, _, rfl, and_congr_right fun _ => ?_⟩
  -- along the second part, the program of its block is the one thing left to ask
  unfold writeSecond
  rw [clean_bind, run_skipBadBlocks, hwalk']
  refine (and_iff_right clean_search).trans ?_
  dsimp only
  rw [clean_bind, run_readBlock, if_pos hread]
  refine (and_iff_right (clean_readBlock _)).trans ?_
  have hcopy' : w₁.afterRead.CopyOk (u32 (count - m.firstLen x)) := hcopy
  dsimp only
  rw [clean_bind, clean_ask, run_copyFromUser, if_pos hcopy']
  refine (and_iff_right trivial).trans ?_
  dsimp only
  rw [clean_bind, clean_commit _ herase, run_commit_ok m bad _ herase]
  refine and_iff_left ?_
  dsimp only
  rw [clean_bind, clean_ask]
  exact ⟨trivial, clean_pure _⟩

end Paths

/-- An error is negative. -/
theorem not_error {r : Ret} {w₁ w' : World} {code q : Int} (hret : 0 ≤ r.ret) (hcode : -code < 0)
    (h : (some ⟨-code, q⟩, w₁) = (some r, w')) : False := by
  obtain rfl := Option.some.inj (congrArg Prod.fst h)
  exact absurd hret (not_le.mpr hcode)

section Results

variable {r : Ret} {w' : World} (hret : 0 ≤ r.ret)

include hret

theorem single_of_result {kbuf : Nat → Byte} (hsingle : m.Single x count)
    (hrun : (writeBlocks m fuel buf count x (m.ebnum x) (m.blockoffset x) kbuf).run
      (device m bad) w = (some r, w')) :
    (x ≠ 0 → (w.blockRead m (m.ebnum x)).Ok m.erasesize) ∧ w.CopyOk count ∧
      (w.blockErase m (m.ebnum x)).Ok := by
  by_cases hx : x = 0
  · rw [run_writeBlocks_first m bad fuel buf kbuf w hx] at hrun
    by_cases hcopy : w.CopyOk count
    · rw [if_pos hcopy] at hrun
      refine ⟨fun hne => absurd hx hne, hcopy, ?_⟩
      by_contra herase
      rw [run_eraseAction_failed m bad x _ (w := w.afterCopy) herase] at hrun
      exact not_error hret neg_EFAULT hrun
    · rw [if_neg hcopy] at hrun
      exact (not_error hret neg_EFAULT hrun).elim
  · by_cases hread : (w.blockRead m (m.ebnum x)).Ok m.erasesize
    · rw [run_writeBlocks_within m bad fuel buf kbuf w hx hread (hsingle.resolve_left hx)] at hrun
      by_cases hcopy : w.CopyOk count
      · rw [if_pos hcopy] at hrun
        refine ⟨fun _ => hread, hcopy, ?_⟩
        by_contra herase
        rw [run_eraseAction_failed m bad x _ (w := w.afterRead.afterCopy) herase] at hrun
        exact not_error hret neg_EFAULT hrun
      · rw [if_neg hcopy] at hrun
        exact (not_error hret neg_EFAULT hrun).elim
    · rw [run_writeBlocks_readFailed m bad fuel buf kbuf w hx hread] at hrun
      exact (not_error hret neg_EFAULT hrun).elim

theorem first_of_result {kbuf : Nat → Byte} (hmany : ¬ m.Single x count)
    (hrun : (writeBlocks m fuel buf count x (m.ebnum x) (m.blockoffset x) kbuf).run
      (device m bad) w = (some r, w')) :
    m.Crosses x count ∧ (w.blockRead m (m.ebnum x)).Ok m.erasesize ∧
      w.CopyOk (m.firstLen x) ∧ (w.blockErase m (m.ebnum x)).Ok := by
  obtain ⟨hx, hfit⟩ := not_or.mp hmany
  by_cases hread : (w.blockRead m (m.ebnum x)).Ok m.erasesize
  · by_cases hguard : i64 (x + count) ≤ m.ebAddr (m.ebnum x + 2)
    · rw [run_writeBlocks_jump m bad fuel buf kbuf w hx hread hfit hguard,
        run_writeJump m bad fuel buf _ _ (m.u32_firstLen x)] at hrun
      refine ⟨⟨hmany, hguard⟩, hread, ?_⟩
      by_cases hcopy : w.afterRead.CopyOk (m.firstLen x)
      · refine ⟨hcopy, ?_⟩
        by_contra herase
        have herase' : ¬ (w.afterRead.afterCopy.blockErase m (m.ebnum x)).Ok := herase
        rw [if_pos hcopy, if_neg herase'] at hrun
        exact not_error hret neg_EFAULT hrun
      · rw [if_neg hcopy] at hrun
        exact (not_error hret neg_EFAULT hrun).elim
    · rw [run_writeBlocks_tooMuch m bad fuel buf kbuf w hx hread hfit hguard] at hrun
      exact (not_error hret neg_EFAULT hrun).elim
  · rw [run_writeBlocks_readFailed m bad fuel buf kbuf w hx hread] at hrun
    exact (not_error hret neg_EFAULT hrun).elim

theorem second_of_result {first : Nat} {kbuf : Nat → Byte}
    (hrun : (writeSecond m fuel buf count first x kbuf).run (device m bad) w = (some r, w')) :
    ∃ y, walk m bad fuel x = .good y (m.ebnum y) (m.blockoffset y) ∧ SkipsTo m bad x y ∧
      (w.blockRead m (m.ebnum y)).Ok m.erasesize ∧ w.CopyOk (u32 (count - first)) ∧
        (w.blockErase m (m.ebnum y)).Ok := by
  rcases walk_cases m bad fuel x with ⟨y, hy, hwalk⟩ | ⟨-, q, hwalk⟩ | hwalk
  · refine ⟨y, hwalk, hy, ?_⟩
    rw [run_writeSecond_good m bad fuel buf kbuf w hwalk] at hrun
    by_cases hread : (w.blockRead m (m.ebnum y)).Ok m.erasesize
    · refine ⟨hread, ?_⟩
      by_cases hcopy : w.CopyOk (u32 (count - first))
      · refine ⟨hcopy, ?_⟩
        by_contra herase
        have herase' : ¬ (w.afterRead.afterCopy.blockErase m (m.ebnum y)).Ok := herase
        rw [if_pos hread, if_pos hcopy, if_neg herase'] at hrun
        exact not_error hret neg_EFAULT hrun
      · rw [if_pos hread, if_neg hcopy] at hrun
        exact (not_error hret neg_EFAULT hrun).elim
    · rw [if_neg hread] at hrun
      exact (not_error hret neg_EFAULT hrun).elim
  · rw [run_writeSecond_none m bad fuel buf kbuf w hwalk] at hrun
    exact (not_error hret neg_EFAULT hrun).elim
  · unfold writeSecond at hrun
    rw [Prog.run_bind, run_skipBadBlocks, hwalk] at hrun
    cases congrArg Prod.fst hrun

/-- A write that does not return an error went along one of the two paths. -/
theorem writeCount_path (hcount : count ≠ 0)
    (hrun : (writeCount m fuel buf count p).run (device m bad) w = (some r, w')) :
    ∃ x, walk m bad fuel p = .good x (m.ebnum x) (m.blockoffset x) ∧
      (SinglePath m bad w count p x ∨ ∃ y, CrossPath m bad w count p x y ∧
        walk m bad fuel (i64 (x + m.firstLen x)) = .good y (m.ebnum y) (m.blockoffset y)) := by
  rcases walk_cases m bad fuel p with ⟨x, hx, hwalk⟩ | ⟨-, q, hwalk⟩ | hwalk
  · refine ⟨x, hwalk, ?_⟩
    rw [run_writeCount_good m bad fuel buf w hcount hwalk] at hrun
    cases hheap : w.heap 0 with
    | none =>
        rw [hheap] at hrun
        exact (not_error hret neg_ENOMEM hrun).elim
    | some kbuf =>
        rw [hheap] at hrun
        have hsome : (w.heap 0).isSome = true := by rw [hheap]; rfl
        by_cases hsingle : m.Single x count
        · obtain ⟨hread, hcopy, herase⟩ := single_of_result hret hsingle hrun
          exact .inl ⟨hx, hsome, hsingle, hread, hcopy, herase⟩
        · obtain ⟨hcrosses, hread, hcopy, herase⟩ := first_of_result hret hsingle hrun
          obtain ⟨kbuf', flash, hjump, -⟩ := clean_writeBlocks_jump bad fuel buf
            kbuf _ hcrosses hread hcopy herase
          obtain ⟨y, hwalk', hy, hread', hcopy', herase'⟩ :=
            second_of_result hret (hjump.symm.trans hrun)
          exact .inr ⟨y, ⟨hx, hsome, hcrosses, hread, hcopy, herase, hy,
            readReply_ok_flash.mp hread', hcopy', herase'⟩, hwalk'⟩
  · rw [run_writeCount_none m bad fuel buf w hcount hwalk] at hrun
    exact (not_error hret neg_EFAULT hrun).elim
  · unfold writeCount at hrun
    rw [if_neg hcount, Prog.run_bind, run_skipBadBlocks, hwalk] at hrun
    cases congrArg Prod.fst hrun

end Results

/-! ## Exactly when a fault is not reported -/

/-- The writes of `count` bytes at `p` that return a success over a program that
failed or fell short. -/
inductive HidesProgram (m : Mtd) (bad : Nat → Bool) (w : World) (count : Nat) (p : Int) : Prop
  | single {x : Int} (h : SinglePath m bad w count p x)
      (hret : 0 ≤ i32 (w.blockProgram m (m.ebnum x)).retlen)
      (hfault : ¬ (w.blockProgram m (m.ebnum x)).Done m.erasesize)
  | cross {x y : Int} (h : CrossPath m bad w count p x y) (hret : 0 ≤ i32 count)
      (hfault : ¬ ((w.blockProgram m (m.ebnum x)).Done m.erasesize ∧
        (w.afterFirst.blockProgram m (m.ebnum y)).Done m.erasesize))

/-- A write that ends without an error has erased and programmed without one. -/
def WriteReports (m : Mtd) (bad : Nat → Bool) (w : World) (buf n : Nat) (p : Int) : Prop :=
  ∀ fuel r w', (at91flashWrite m fuel buf n p).run (device m bad) w = (some r, w') →
    0 ≤ r.ret → Clean m bad (at91flashWrite m fuel buf n p) w

theorem write_reports_iff {n : Nat} :
    WriteReports m bad w buf n p ↔
      ∀ count, m.writeClip p n = some count → count ≠ 0 → ¬ HidesProgram m bad w count p := by
  have hclipped {fuel count : Nat} (hclip : m.writeClip p n = some count) :
      at91flashWrite m fuel buf n p = writeCount m fuel buf count p := by
    rw [at91flashWrite_eq_clip, hclip]
  constructor
  · intro hreports count hclip hcount hhides
    cases hhides with
    | @single x h hret hfault =>
        obtain ⟨rounds, hwalk⟩ := walk_of_skipsTo h.skip
        obtain ⟨q, w', hrun, hclean⟩ := writeCount_single (hwalk rounds le_rfl) buf
          hcount h
        rw [← hclipped hclip] at hrun hclean
        exact hfault (hclean.mp (hreports _ _ _ hrun hret))
    | @cross x y h hret hfault =>
        obtain ⟨rounds, hwalk⟩ := walk_of_skipsTo h.skip
        obtain ⟨rounds', hwalk'⟩ := walk_of_skipsTo h.next
        obtain ⟨q, w', hrun, hclean⟩ := writeCount_cross
          (hwalk (rounds + rounds') (by omega)) buf hcount h (hwalk' (rounds + rounds') (by omega))
        rw [← hclipped hclip] at hrun hclean
        exact hfault (hclean.mp (hreports _ _ _ hrun hret))
  · intro hcond fuel r w' hrun hret
    cases hclip : m.writeClip p n with
    | none =>
        rw [at91flashWrite_eq_clip, hclip] at hrun
        exact (not_error hret neg_EFAULT hrun).elim
    | some count =>
        rw [hclipped hclip] at hrun ⊢
        by_cases hcount : count = 0
        · unfold writeCount
          rw [if_pos hcount]
          exact clean_pure _
        · obtain ⟨x, hwalk, h | ⟨y, h, hwalk'⟩⟩ := writeCount_path hret hcount hrun
          · obtain ⟨q, w₁, hrun₁, hclean⟩ := writeCount_single hwalk buf hcount h
            obtain rfl := Option.some.inj (congrArg Prod.fst (hrun₁.symm.trans hrun))
            refine hclean.mpr ?_
            by_contra hfault
            exact hcond count hclip hcount (.single h hret hfault)
          · obtain ⟨q, w₁, hrun₁, hclean⟩ := writeCount_cross hwalk buf hcount h hwalk'
            obtain rfl := Option.some.inj (congrArg Prod.fst (hrun₁.symm.trans hrun))
            refine hclean.mpr ?_
            by_contra hfault
            exact hcond count hclip hcount (.cross h hret hfault)

end At91Drivers.Flash
