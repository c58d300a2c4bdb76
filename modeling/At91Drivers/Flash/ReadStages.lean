import At91Drivers.Flash.Stages

/-!
# The stages of a read, run against the device

The counterpart of the stages of a write: one equation for each stage of
`at91flash_read`, for any outcomes of the reads and copies it performs.
-/

namespace At91Drivers.Flash

open Effects Arith

namespace World

/-- The answer to the next `mtd->read`, of any range. -/
def rangeRead (w : World) (m : Mtd) (addr len : Nat) : ReadReply :=
  readReply m w.flash addr len (w.reads 0)

def afterCopyToUser (w : World) (buf len : Nat) (src : Nat → Byte) : World :=
  { w with
    copies := fun k => w.copies (k + 1)
    user := splice w.user buf (copied len (w.copies 0)) src }

/-- Nothing is copied after a read of length 0. -/
def afterDeliver (w : World) (buf readlen : Nat) (src : Nat → Byte) : World :=
  if readlen ≠ 0 then w.afterCopyToUser buf readlen src else w

theorem copyOk_zero (w : World) : w.CopyOk 0 := by
  cases h : w.copies 0 <;> simp [CopyOk, copied, h]

end World

/-- The position after `readlen` bytes were read at it. -/
def delivered (ppos : Int) (readlen : Nat) : Int :=
  if readlen ≠ 0 then i64 (ppos + readlen) else ppos

/-! ## One part of a read -/

variable (m : Mtd) (bad : Nat → Bool) (fuel buf : Nat) (w : World)

theorem run_deliver (ppos : Int) (readlen : Nat) (readbuf : Nat → Byte) :
    (deliver buf ppos readlen readbuf).run (device m bad) w =
      ((decide (w.CopyOk readlen), delivered ppos readlen),
        w.afterDeliver buf readlen readbuf) := by
  unfold deliver delivered World.afterDeliver
  by_cases hlen : readlen = 0
  · subst hlen
    simp [w.copyOk_zero]
  · rw [if_pos hlen, if_pos hlen, if_pos hlen]
    rfl

variable {x b o : Int} {count : Nat}

/-- The read of the second part, from the good block at `y`. -/
theorem run_readSecond_good {y : Int} (readlen : Nat) {readtmplen : Nat} {r : ReadReply}
    (hwalk : walk m bad fuel x = .good y b o)
    (hr : w.rangeRead m (u64 y) (u32 (count - readtmplen)) = r) :
    (readSecond m fuel buf count x readlen readtmplen).run (device m bad) w =
      (some ⟨if w.CopyOk r.retlen then i32 r.retlen else -EFAULT, delivered y r.retlen⟩,
        w.afterRead.afterDeliver (buf + readtmplen) r.retlen r.data) := by
  subst hr
  have hread : (ask (.mtdRead (u64 y) (u32 (count - readtmplen)))).run (device m bad) w =
      (w.rangeRead m (u64 y) (u32 (count - readtmplen)), w.afterRead) := rfl
  unfold readSecond
  rw [Prog.run_bind, run_skipBadBlocks, hwalk]
  simp only
  rw [Prog.run_bind, hread]
  dsimp only
  rw [Prog.run_bind, run_deliver]
  change Prog.run _ (if decide (w.CopyOk _) = true then _ else _) _ = _
  by_cases hok : w.CopyOk (w.rangeRead m (u64 y) (u32 (count - readtmplen))).retlen
  · rw [if_pos (decide_eq_true hok), if_pos hok]
    rfl
  · rw [if_neg (by simpa using hok), if_neg hok]
    rfl

/-- Without a second good block inside the device the first part is returned as
a success. -/
theorem run_readSecond_noBlock {q : Int} {readlen readtmplen : Nat}
    (hwalk : walk m bad fuel x = .noBlock q) :
    (readSecond m fuel buf count x readlen readtmplen).run (device m bad) w =
      (some ⟨i32 readlen, q⟩, w) := by
  unfold readSecond
  rw [Prog.run_bind, run_skipBadBlocks, hwalk]
  rfl

theorem run_readSecond_endOfFile {q : Int} {readlen readtmplen : Nat}
    (hwalk : walk m bad fuel x = .endOfFile q) :
    (readSecond m fuel buf count x readlen readtmplen).run (device m bad) w =
      (some ⟨-EFAULT, q⟩, w) := by
  unfold readSecond
  rw [Prog.run_bind, run_skipBadBlocks, hwalk]
  rfl

/-! ## The two paths after the allocation -/

theorem run_readBlocks_within {r : ReadReply}
    (hfit : ¬ (m.ebAddr (b + 1) : Int) < i64 (x + count))
    (hr : w.rangeRead m (u64 x) count = r) :
    (readBlocks m fuel buf count x b).run (device m bad) w =
      (some ⟨if w.CopyOk r.retlen then i32 r.retlen else -EFAULT, delivered x r.retlen⟩,
        w.afterRead.afterDeliver buf r.retlen r.data) := by
  subst hr
  have hread : (ask (.mtdRead (u64 x) count)).run (device m bad) w =
      (w.rangeRead m (u64 x) count, w.afterRead) := rfl
  unfold readBlocks
  rw [if_neg hfit, if_pos (not_lt.mp hfit), Prog.run_bind, hread]
  dsimp only
  rw [Prog.run_bind, run_deliver]
  change Prog.run _ (if decide (w.CopyOk _) = true then _ else _) _ = _
  by_cases hok : w.CopyOk (w.rangeRead m (u64 x) count).retlen
  · rw [if_pos (decide_eq_true hok), if_pos hok]
    rfl
  · rw [if_neg (by simpa using hok), if_neg hok]
    rfl

/-- The first part of a read that jumps a block.  What it delivers is not
compared with what was asked for. -/
theorem run_readBlocks_jump {r : ReadReply}
    (hjump : (m.ebAddr (b + 1) : Int) < i64 (x + count))
    (hr : w.rangeRead m (u64 x) (u32 (m.ebAddr (b + 1) - x)) = r) :
    (readBlocks m fuel buf count x b).run (device m bad) w =
      if w.CopyOk r.retlen then
        (readSecond m fuel buf count (delivered x r.retlen) r.retlen r.retlen).run (device m bad)
          (w.afterRead.afterDeliver buf r.retlen r.data)
      else
        (some ⟨-EFAULT, delivered x r.retlen⟩,
          w.afterRead.afterDeliver buf r.retlen r.data) := by
  subst hr
  have hread : (ask (.mtdRead (u64 x) (u32 (m.ebAddr (b + 1) - x)))).run (device m bad) w =
      (w.rangeRead m (u64 x) (u32 (m.ebAddr (b + 1) - x)), w.afterRead) := rfl
  unfold readBlocks
  rw [if_pos hjump, Prog.run_bind, hread]
  dsimp only
  rw [Prog.run_bind, run_deliver]
  change Prog.run _ (if decide (w.CopyOk _) = true then _ else _) _ = _
  by_cases hok : w.CopyOk (w.rangeRead m (u64 x) (u32 (m.ebAddr (b + 1) - x))).retlen
  · rw [if_pos (decide_eq_true hok), if_pos hok]
  · rw [if_neg (by simpa using hok), if_neg hok]
    rfl

/-! ## Up to the allocation -/

theorem run_at91flashRead_good {p : Int} (count : Nat) (hwalk : walk m bad fuel p = .good x b o) :
    (at91flashRead m fuel buf count p).run (device m bad) w =
      if m.clip x count = 0 then (some ⟨0, x⟩, w)
      else
        match w.heap 0 with
        | none => (some ⟨-ENOMEM, x⟩, w.afterKmalloc)
        | some _ =>
            (readBlocks m fuel buf (clipKmalloc (m.clip x count)) x b).run (device m bad)
              w.afterKmalloc := by
  have hmalloc : (ask (.kmalloc (clipKmalloc (m.clip x count)))).run (device m bad) w =
      (w.heap 0, w.afterKmalloc) := rfl
  unfold at91flashRead
  rw [Prog.run_bind, run_skipBadBlocks, hwalk]
  by_cases hclip : m.clip x count = 0
  · simp only [if_pos hclip, Prog.run_pure]
  · simp only [if_neg hclip, Prog.run_bind, hmalloc]
    cases w.heap 0 <;> rfl

theorem run_at91flashRead_none {p q : Int}
    (hwalk : walk m bad fuel p = .noBlock q ∨ walk m bad fuel p = .endOfFile q) :
    (at91flashRead m fuel buf count p).run (device m bad) w = (some ⟨-EFAULT, q⟩, w) := by
  unfold at91flashRead
  rw [Prog.run_bind, run_skipBadBlocks]
  rcases hwalk with hwalk | hwalk <;> rw [hwalk] <;> rfl

end At91Drivers.Flash
