import At91Drivers.Flash.ReadRun
import At91Drivers.Flash.Rules

/-!
# What a read returns

A read returns the length of its last `mtd->read`.  On a device without faults
that is the number of bytes it stored when they all come from one block; a read
that goes on in a second block returns the length of its second part alone, and
where no good block is left the read, or what is left of it, is an error.

```text
                                stored          returned
within one block                n               n
second block found              first + rest    rest
no second block                 first           -EFAULT
no block                        0               -EFAULT
```
-/

namespace At91Drivers.Flash

open Effects Arith

variable {m : Mtd} {bad : Nat → Bool} {w : World} {fuel buf n p x y : Nat}

/-! ## The bytes stored -/

/-- How many bytes an operation stored in user memory. -/
def storedBy : Event Op Reply → Nat
  | ⟨.copyToUser _ len _, true⟩ => len
  | _ => 0

/-- How many bytes a call stored in user memory. -/
def stored (trace : History) : Nat := (trace.map storedBy).sum

@[simp] theorem stored_nil : stored [] = 0 := rfl

@[simp] theorem stored_append (a b : History) : stored (a ++ b) = stored a + stored b := by
  simp [stored]

/-- The search for a block stores nothing. -/
@[simp] theorem stored_skipBadBlocks (fuel : Nat) (z : Int) (w : World) :
    stored ((skipBadBlocks m fuel z).trace (device m bad) w) = 0 := by
  unfold stored
  rw [List.sum_eq_zero_iff_forall_eq_nat]
  intro k hk
  obtain ⟨⟨e, r⟩, hevent, rfl⟩ := List.mem_map.mp hk
  have hsearch := searches_of_mem_trace m bad hevent
  cases e with
  | blockIsbad addr => rfl
  | bbtStore ebnum b => rfl
  | _ => exact absurd hsearch id

theorem stored_deliver (z : Int) {len : Nat} (src : Nat → Byte) (hcopy : w.CopyOk len) :
    stored ((deliver buf z len src).trace (device m bad) w) = len := by
  unfold deliver
  by_cases hlen : len ≠ 0
  · have hok : decide (copied len (w.copies 0) = len) = true := decide_eq_true hcopy
    rw [if_pos hlen]
    change storedBy ⟨.copyToUser buf len src, decide (copied len (w.copies 0) = len)⟩ + 0 = len
    rw [hok]
    rfl
  · rw [if_neg hlen]
    exact (not_not.mp hlen).symm

/-- A part of a read stores what its `mtd->read` got to; `next` is what follows. -/
theorem stored_part (next : ReadReply → Int → Driver (Option Ret)) (buf addr len : Nat) (z : Int)
    (w : World) (huser : w.UserOk) {r : ReadReply} (hr : w.rangeRead m addr len = r) :
    stored ((do
        let r ← ask (.mtdRead addr len)
        let (ok, z) ← deliver buf z r.retlen r.data
        if ok then next r z else freeFail EFAULT z).trace (device m bad) w) =
      r.retlen + stored ((next r (delivered z r.retlen)).trace (device m bad)
        (w.afterRead.afterDeliver buf r.retlen r.data)) := by
  subst hr
  have hread : (ask (.mtdRead addr len)).run (device m bad) w =
      (w.rangeRead m addr len, w.afterRead) := rfl
  have hcopy := Caller.UserOk.copyOk (w := w.afterRead) ⟨huser.heap, huser.copies⟩
    (w.rangeRead m addr len).retlen
  rw [Prog.trace_bind, stored_append, hread]
  dsimp only
  rw [Prog.trace_bind, run_deliver, stored_append, stored_deliver _ _ hcopy]
  dsimp only
  rw [if_pos (decide_eq_true hcopy)]
  exact Nat.zero_add _

section Stages

variable {x b o : Int} {count : Nat} (fuel buf : Nat) (w : World) (huser : w.UserOk)

include huser

theorem stored_readSecond_good {y : Int} (readlen : Nat) {readtmplen : Nat} {r : ReadReply}
    (hwalk : walk m bad fuel x = .good y b o)
    (hr : w.rangeRead m (u64 y) (u32 (count - readtmplen)) = r) :
    stored ((readSecond m fuel buf count x readlen readtmplen).trace (device m bad) w) =
      r.retlen := by
  unfold readSecond
  rw [Prog.trace_bind, stored_append, stored_skipBadBlocks, run_skipBadBlocks, hwalk, Nat.zero_add]
  exact stored_part (fun r z => do ask .kfree; pure (some ⟨i32 r.retlen, z⟩)) _ _ _ _ w huser hr

theorem stored_readBlocks_within {r : ReadReply}
    (hfit : ¬ (m.ebAddr (b + 1) : Int) < i64 (x + count)) (hr : w.rangeRead m (u64 x) count = r) :
    stored ((readBlocks m fuel buf count x b).trace (device m bad) w) = r.retlen := by
  unfold readBlocks
  rw [if_neg hfit, if_pos (not_lt.mp hfit)]
  exact stored_part (fun r z => do ask .kfree; pure (some ⟨i32 r.retlen, z⟩)) _ _ _ _ w huser hr

theorem stored_readBlocks_jump {r : ReadReply}
    (hjump : (m.ebAddr (b + 1) : Int) < i64 (x + count))
    (hr : w.rangeRead m (u64 x) (u32 (m.ebAddr (b + 1) - x)) = r) :
    stored ((readBlocks m fuel buf count x b).trace (device m bad) w) =
      r.retlen + stored ((readSecond m fuel buf count (delivered x r.retlen) r.retlen
        r.retlen).trace (device m bad) (w.afterRead.afterDeliver buf r.retlen r.data)) := by
  unfold readBlocks
  rw [if_pos hjump]
  exact stored_part (fun r z => readSecond m fuel buf count z r.retlen r.retlen) _ _ _ _ w huser hr

end Stages

theorem stored_at91flashRead_good {x b o z : Int} {count : Nat} {readbuf : Nat → Byte}
    (hwalk : walk m bad fuel z = .good x b o) (hclip : m.clip x count ≠ 0)
    (hheap : w.heap 0 = some readbuf) :
    stored ((at91flashRead m fuel buf count z).trace (device m bad) w) =
      stored ((readBlocks m fuel buf (clipKmalloc (m.clip x count)) x b).trace (device m bad)
        w.afterKmalloc) := by
  have hmalloc : (ask (.kmalloc (clipKmalloc (m.clip x count)))).run (device m bad) w =
      (some readbuf, w.afterKmalloc) := Prod.ext hheap rfl
  unfold at91flashRead
  rw [Prog.trace_bind, stored_append, stored_skipBadBlocks, run_skipBadBlocks, hwalk, Nat.zero_add]
  dsimp only
  rw [if_neg hclip, Prog.trace_bind, stored_append, hmalloc]
  exact Nat.zero_add _

theorem stored_readSecond_endOfFile {z q : Int} {count readlen readtmplen : Nat}
    (hwalk : walk m bad fuel z = .endOfFile q) :
    stored ((readSecond m fuel buf count z readlen readtmplen).trace (device m bad) w) = 0 := by
  unfold readSecond
  rw [Prog.trace_bind, stored_append, stored_skipBadBlocks, run_skipBadBlocks, hwalk]
  rfl

theorem stored_at91flashRead_none {z q : Int} {count : Nat}
    (hwalk : walk m bad fuel z = .noBlock q ∨ walk m bad fuel z = .endOfFile q) :
    stored ((at91flashRead m fuel buf count z).trace (device m bad) w) = 0 := by
  unfold at91flashRead
  rw [Prog.trace_bind, stored_append, stored_skipBadBlocks, run_skipBadBlocks]
  rcases hwalk with hwalk | hwalk <;> rw [hwalk] <;> rfl

theorem stored_at91flashRead_empty {x b o z : Int} {count : Nat}
    (hwalk : walk m bad fuel z = .good x b o) (hclip : m.clip x count = 0) :
    stored ((at91flashRead m fuel buf count z).trace (device m bad) w) = 0 := by
  unfold at91flashRead
  rw [Prog.trace_bind, stored_append, stored_skipBadBlocks, run_skipBadBlocks, hwalk]
  dsimp only
  rw [if_pos hclip]
  rfl

/-! ## One block and two -/

/-- On a device of whole blocks the loop does not run out of them: the jump over
the last one ends it. -/
theorem not_runsOut (hdvd : m.erasesize ∣ m.size) (hp : p < m.size) : ¬ RunsOut m bad p := by
  intro h
  obtain ⟨x, hx⟩ : ∃ x : Int, x = p := ⟨p, rfl⟩
  rw [← hx] at h
  induction h generalizing p with
  | here h =>
      subst hx
      have hblock : p / m.erasesize < m.blocks := Nat.div_lt_div_of_lt_of_dvd hdvd hp
      have hblocks := m.blocks_lt
      have hsize := m.size_lt
      rw [Mtd.blocks] at hblock
      rw [m.ebcnt_eq, Mtd.ebnum_natCast (by omega) (by omega)] at h
      exact absurd (by exact_mod_cast h) (not_le.mpr hblock)
  | @next q _ _ hlt _ ih =>
      have hjump : m.ebAddr (m.ebnum q + 1) < 4294967296 := u32_lt _
      rw [jump, u64_natCast (by omega)] at hlt
      exact ih hlt rfl

/-- How many bytes a read stored, and what it returned. -/
structure Accounts (m : Mtd) (bad : Nat → Bool) (w : World) (call : Driver (Option Ret))
    (k : Nat) (ret : Int) : Prop where
  run : ∃ r w', call.run (device m bad) w = (some r, w') ∧ r.ret = ret
  stored : stored (call.trace (device m bad) w) = k

section Returns

variable (hsize : m.size < 4294967296) (hw : w.FaultFree) (huser : w.UserOk)
  (hx : Landing m bad p x) (hin : x + n ≤ m.size)

include hsize hw huser hx hin

theorem accounts_within (hfit : x % m.erasesize + n ≤ m.erasesize) :
    Accounts m bad w (readBlocks m fuel buf n x (x / m.erasesize : Nat)) n (i32 n) := by
  have hstay : ¬ m.Jumps x n := by
    rw [jumps_iff hsize hx hin]
    omega
  have hlen : n = readLen m x n (w.reads 0) := by rw [hw.reads, readLen_inside hin]
  have hread : (w.rangeRead m (u64 x) n).retlen = n := by
    rw [u64_natCast (by omega), World.rangeRead, retlen_readReply, ← hlen]
  obtain ⟨w', hrun, -, -⟩ := run_read_within fuel buf w (by omega) bad hstay hlen
  rw [if_pos (huser.copyOk n)] at hrun
  exact ⟨⟨_, w', hrun, rfl⟩, (stored_readBlocks_within fuel buf w huser hstay rfl).trans hread⟩

/-- The first part is stored in any case; what is returned is the length of the
second, or an error. -/
theorem accounts_jump (hdvd : m.erasesize ∣ m.size) (hes : n ≤ m.erasesize)
    (hfuel : m.blocks < fuel) (hfit : m.erasesize < x % m.erasesize + n) {first : Nat}
    (hfirst : first = m.erasesize - x % m.erasesize) :
    Accounts m bad w (readBlocks m fuel buf n x (x / m.erasesize : Nat)) n (i32 (n - first : Nat)) ∨
      Accounts m bad w (readBlocks m fuel buf n x (x / m.erasesize : Nat)) first (-EFAULT) := by
  have hext := m.extent_le_size
  have hblock := hx.block_lt
  have hmod := Nat.mod_lt x m.erasesize_pos
  have hblockEnd : m.blockEnd x = x + first := by rw [m.blockEnd_eq, hfirst]
  have hjumps := (jumps_iff hsize hx hin).mpr hfit
  have hfirstLen : first = readLen m x (m.toBlockEnd x) (w.reads 0) := by
    rw [hw.reads, toBlockEnd_eq hsize hblock, ← hfirst, readLen_inside (by omega)]
  have hread : (w.rangeRead m (u64 x) (m.toBlockEnd x)).retlen = first := by
    rw [u64_natCast (by omega), World.rangeRead, retlen_readReply, ← hfirstLen]
  obtain ⟨r, hr⟩ : ∃ r, w.rangeRead m (u64 x) (m.toBlockEnd x) = r := ⟨_, rfl⟩
  obtain ⟨w₁, hw₁⟩ : ∃ w₁, w₁ = w.afterRead.afterDeliver buf r.retlen r.data := ⟨_, rfl⟩
  have hlater : w₁ = ((deliver buf x r.retlen r.data).run (device m bad) w.afterRead).2 := by
    rw [run_deliver, hw₁]
  have huser₁ : w₁.UserOk :=
    hlater ▸ Caller.UserOk.run (w := w.afterRead) ⟨huser.heap, huser.copies⟩ _
  have hfree₁ : w₁.FaultFree :=
    hlater ▸ Caller.FaultFree.run (w := w.afterRead) ⟨fun _ => hw.reads _, hw.erases, hw.writes⟩ _
  have hrun₁ := run_readBlocks_jump m bad fuel buf w hjumps hr
  have hstored₁ : stored ((readBlocks m fuel buf n x _).trace (device m bad) w) = _ :=
    stored_readBlocks_jump fuel buf w huser hjumps hr
  rw [hr] at hread
  rw [if_pos (huser.copyOk _), hread, delivered_natCast (by omega), ← hread, ← hw₁, hread,
    ← hblockEnd] at hrun₁
  rw [hread, delivered_natCast (by omega), ← hread, ← hw₁, hread, ← hblockEnd] at hstored₁
  have hinside : m.blockEnd x < m.size := by omega
  rcases walk_of_le_size hsize bad hfuel hinside.le with ⟨y, hwalk, hy⟩ | ⟨⟨q, hwalk⟩, -⟩
  · have hyEnd := m.blockEnd_le_extent hy.block_lt
    rw [m.blockEnd_eq, hy.aligned_next] at hyEnd
    obtain ⟨r₂, hr₂⟩ : ∃ r₂, w₁.rangeRead m (u64 y) (u32 (n - first)) = r₂ := ⟨_, rfl⟩
    have hrest : r₂.retlen = n - first := by
      rw [← hr₂, u64_natCast (by omega), ← Nat.cast_sub (by omega), u32_natCast (by omega),
        World.rangeRead, retlen_readReply, hfree₁.reads, readLen_inside (by omega)]
    have hrun₂ := run_readSecond_good m bad fuel buf w₁ first hwalk hr₂
    have hstored₂ := stored_readSecond_good fuel buf w₁ huser₁ first hwalk hr₂
    rw [if_pos (huser₁.copyOk _), hrest] at hrun₂
    refine .inl ⟨⟨_, _, hrun₁.trans hrun₂, rfl⟩, ?_⟩
    rw [hstored₁, hstored₂, hrest]
    omega
  · rcases hwalk with hwalk | hwalk
    · exact absurd (runsOut_of_walk hwalk) (not_runsOut hdvd hinside)
    · refine .inr ⟨⟨_, _, hrun₁.trans (run_readSecond_endOfFile m bad fuel buf w₁ hwalk), rfl⟩, ?_⟩
      rw [hstored₁, stored_readSecond_endOfFile hwalk, Nat.add_zero]

end Returns

/-! ## All of it -/

/-- The read returns the number of bytes that it stored, 0 only where it has
nothing to transfer, and no error. -/
def ReadReturns (m : Mtd) (bad : Nat → Bool) (w : World) (fuel buf n p : Nat) : Prop :=
  ∃ r w', (at91flashRead m fuel buf n p).run (device m bad) w = (some r, w') ∧
    r.ret = stored ((at91flashRead m fuel buf n p).trace (device m bad) w) ∧
    (r.ret = 0 → n = 0 ∨ m.stream bad p = []) ∧ 0 ≤ r.ret

theorem Accounts.readReturns_iff {k : Nat} {ret : Int}
    (h : Accounts m bad w (at91flashRead m fuel buf n p) k ret) :
    ReadReturns m bad w fuel buf n p ↔
      ret = k ∧ (ret = 0 → n = 0 ∨ m.stream bad p = []) ∧ 0 ≤ ret := by
  obtain ⟨⟨r, w', hrun, rfl⟩, hstored⟩ := h
  constructor
  · rintro ⟨r', w'', hrun', hret⟩
    rw [hrun] at hrun'
    obtain rfl := Option.some.inj (Prod.mk.inj hrun').1
    rwa [hstored] at hret
  · intro hret
    exact ⟨r, w', hrun, by rwa [hstored]⟩

/-- The accounts of a read that gets to its transfer are those of the transfer. -/
theorem Accounts.of_landing (hlt : x < m.size) (hn : 0 < n) (hn' : n < 4294967296)
    (huser : w.UserOk)
    (hwalk : walk m bad fuel p = .good x (x / m.erasesize : Nat) (m.blockoffset x)) {k : Nat}
    {ret : Int} (h : Accounts m bad w.afterKmalloc
      (readBlocks m fuel buf (m.readCount x n) x (x / m.erasesize : Nat)) k ret) :
    Accounts m bad w (at91flashRead m fuel buf n p) k ret := by
  obtain ⟨kbuf, hheap⟩ := huser.heap_eq
  have hpos := readCount_pos hlt hn
  have hclip : m.clip x n ≠ 0 := by
    rw [clip_eq hn' hlt]
    unfold Mtd.readCount at hpos
    omega
  obtain ⟨⟨r, w', hrun, hret⟩, hstored⟩ := h
  refine ⟨⟨r, w', ?_, hret⟩, ?_⟩
  · rw [run_read_landing hn hn' hlt hwalk, hheap]
    exact hrun
  · rw [stored_at91flashRead_good hwalk hclip hheap, clipKmalloc_clip hn' hlt]
    exact hstored

theorem Accounts.ne_zero {call : Driver (Option Ret)} {k : Nat} {ret : Int}
    (h : Accounts m bad w call k ret) (hret : ret ≠ 0) :
    ∃ r w', call.run (device m bad) w = (some r, w') ∧ r.ret ≠ 0 := by
  obtain ⟨r, w', hrun, rfl⟩ := h.run
  exact ⟨r, w', hrun, hret⟩

/-- A read that finds a block: all of its bytes come from it, or a second block
has the rest, or there is no second block. -/
theorem accounts_landing (hsize : m.size < 4294967296) (hdvd : m.erasesize ∣ m.size)
    (hw : w.FaultFree) (huser : w.UserOk) (hn : 0 < n) (hes : n ≤ m.erasesize)
    (hfuel : m.blocks < fuel) (hx : Landing m bad p x)
    (hwalk : walk m bad fuel p = .good x (x / m.erasesize : Nat) (m.blockoffset x))
    {count : Nat} (hcount : count = m.readCount x n) (hk : count < 2147483648) :
    x % m.erasesize + count ≤ m.erasesize ∧
        Accounts m bad w (at91flashRead m fuel buf n p) count count ∨
      m.erasesize < x % m.erasesize + count ∧ ∃ first, 0 < first ∧ first < count ∧
        (Accounts m bad w (at91flashRead m fuel buf n p) count (count - first : Nat) ∨
          Accounts m bad w (at91flashRead m fuel buf n p) first (-EFAULT)) := by
  have hesLt := m.erasesize_lt
  have hlt := hx.lt_extent.trans_le m.extent_le_size
  have hmalloc : w.afterKmalloc.FaultFree := ⟨hw.reads, hw.erases, hw.writes⟩
  have hmallocUser : w.afterKmalloc.UserOk := ⟨fun _ => huser.heap _, huser.copies⟩
  have hin : x + count ≤ m.size := hcount ▸ readCount_le hlt.le
  have hle : count ≤ n := hcount ▸ readCount_le_count
  have hread {k : Nat} {ret : Int} (h : Accounts m bad w.afterKmalloc
      (readBlocks m fuel buf count x (x / m.erasesize : Nat)) k ret) :
      Accounts m bad w (at91flashRead m fuel buf n p) k ret :=
    Accounts.of_landing hlt hn (by omega) huser hwalk (hcount ▸ h)
  by_cases hfit : x % m.erasesize + count ≤ m.erasesize
  · have hall : Accounts m bad _ (readBlocks m fuel buf count x _) count (i32 count) :=
      accounts_within hsize hmalloc hmallocUser hx hin hfit
    rw [i32_natCast hk] at hall
    exact .inl ⟨hfit, hread hall⟩
  · have hmod := Nat.mod_lt x m.erasesize_pos
    obtain ⟨first, hfirst⟩ : ∃ first, first = m.erasesize - x % m.erasesize := ⟨_, rfl⟩
    have hparts : Accounts m bad _ (readBlocks m fuel buf count x _) count _ ∨ _ :=
      accounts_jump hsize hmalloc hmallocUser hx hin hdvd (by omega) hfuel (not_le.mp hfit) hfirst
    rw [i32_natCast (by omega)] at hparts
    exact .inr ⟨not_le.mp hfit, first, by omega, by omega, hparts.imp hread hread⟩

/-- A read returns what it should exactly when there is a block to read from and
all its bytes come from that block.  It never returns 0 for a positive count, so
a caller that goes on until 0 is stopped by an error. -/
theorem read_returns_iff (hsize : m.size < 4294967296) (hdvd : m.erasesize ∣ m.size)
    (hw : w.FaultFree) (huser : w.UserOk) (hp : p ≤ m.size) (hes : n ≤ m.erasesize)
    (hk : n ≤ maxKmallocSize) (hfuel : m.blocks < fuel) :
    (ReadReturns m bad w fuel buf n p ↔
      ∃ x, Landing m bad p x ∧ x % m.erasesize + min n (m.size - x) ≤ m.erasesize) ∧
    (0 < n → ∃ r w', (at91flashRead m fuel buf n p).run (device m bad) w = (some r, w') ∧
      r.ret ≠ 0) := by
  unfold maxKmallocSize at hk
  rcases walk_of_le_size hsize bad hfuel hp with ⟨x, hwalk, hx⟩ | ⟨⟨q, hwalk⟩, hnone⟩
  · have hlt := hx.lt_extent.trans_le m.extent_le_size
    have honly : (∃ x, Landing m bad p x ∧ x % m.erasesize + min n (m.size - x) ≤ m.erasesize) ↔
        x % m.erasesize + min n (m.size - x) ≤ m.erasesize :=
      ⟨fun ⟨x', hx', h⟩ => hx'.unique hx ▸ h, fun h => ⟨x, hx, h⟩⟩
    rw [honly]
    rcases Nat.eq_zero_or_pos n with rfl | hn
    · have hclip : m.clip x 0 = 0 := by rw [clip_eq (by decide) hlt, Nat.zero_min]
      have hrun := run_at91flashRead_good m bad fuel buf w 0 hwalk
      rw [if_pos hclip] at hrun
      have haccounts : Accounts m bad w (at91flashRead m fuel buf 0 p) 0 0 :=
        ⟨⟨_, _, hrun, rfl⟩, stored_at91flashRead_empty hwalk hclip⟩
      rw [haccounts.readReturns_iff]
      have hmod := Nat.mod_lt x m.erasesize_pos
      refine ⟨iff_of_true ⟨rfl, fun _ => .inl rfl, le_rfl⟩ ?_, fun h => absurd h (lt_irrefl 0)⟩
      rw [Nat.zero_min]
      exact hmod.le
    · have hcount : min n (m.size - x) = m.readCount x n := by
        unfold Mtd.readCount maxKmallocSize
        omega
      rcases accounts_landing hsize hdvd hw huser hn hes hfuel hx hwalk hcount (by omega) with
        ⟨hfit, hall⟩ | ⟨hcross, first, hpos, hshort, hrest | hnone⟩
      · rw [hall.readReturns_iff]
        refine ⟨iff_of_true ⟨rfl, fun h => ?_, Int.natCast_nonneg _⟩ hfit,
          fun _ => hall.ne_zero ?_⟩
        · omega
        · omega
      · -- the length of the second part is less than what was stored
        rw [hrest.readReturns_iff]
        refine ⟨iff_of_false (fun h => ?_) (not_le.mpr hcross), fun _ => hrest.ne_zero ?_⟩
        · omega
        · omega
      · rw [hnone.readReturns_iff]
        exact ⟨iff_of_false (fun h => absurd h.2.2 (not_le.mpr neg_EFAULT)) (not_le.mpr hcross),
          fun _ => hnone.ne_zero neg_EFAULT.ne⟩
  · have haccounts : Accounts m bad w (at91flashRead m fuel buf n p) 0 (-EFAULT) :=
      ⟨⟨_, _, run_at91flashRead_none m bad fuel buf w hwalk, rfl⟩, stored_at91flashRead_none hwalk⟩
    rw [haccounts.readReturns_iff]
    refine ⟨iff_of_false (fun h => absurd h.1 (by decide)) ?_, fun _ => haccounts.ne_zero ?_⟩
    · rintro ⟨x, hx, -⟩
      exact hx.stream_ne_nil hnone
    · exact neg_EFAULT.ne

/-- Three bytes at 6, the third of them behind the bad block 2. -/
theorem read_returns_iff_at_six :
    (ReadReturns fourBlocks (· == 2) (quiet (fun _ => 0) (fun _ => 7) fun _ => 9) 5 0 3 6 ↔
      ∃ x, Landing fourBlocks (· == 2) 6 x ∧ x % 4 + min 3 (16 - x) ≤ 4) ∧
    (0 < 3 → ∃ r w', (at91flashRead fourBlocks 5 0 3 (6 : Nat)).run
        (device fourBlocks (· == 2)) (quiet (fun _ => 0) (fun _ => 7) fun _ => 9) =
          (some r, w') ∧ r.ret ≠ 0) :=
  read_returns_iff (by decide) (by decide) (quiet_faultFree _ _ _) (quiet_userOk _ _ _) (by decide)
    (by decide) (by decide) (by decide)

/-- Three bytes at 2, across the end of block 0, return 1. -/
theorem read_returns_rest :
    ¬ ∀ (m : Mtd) (bad : Nat → Bool) (w : World) (fuel buf n p : Nat), m.size < 4294967296 →
      m.erasesize ∣ m.size → w.FaultFree → w.UserOk → p ≤ m.size → n ≤ m.erasesize →
      n ≤ maxKmallocSize → m.blocks < fuel → ReadReturns m bad w fuel buf n p := by
  intro h
  obtain ⟨r, w', hrun, hret, -⟩ := h fourBlocks (fun _ => false)
    (quiet (fun _ => 0) (fun _ => 7) fun _ => 9) 5 0 3 2 (by decide) (by decide)
    (quiet_faultFree _ _ _) (quiet_userOk _ _ _) (by decide) (by decide) (by decide) (by decide)
  have hrest : ((at91flashRead fourBlocks 5 0 3 (2 : Nat)).run (device fourBlocks fun _ => false)
      (quiet (fun _ => 0) (fun _ => 7) fun _ => 9)).1 = some ⟨1, 5⟩ := by decide +kernel
  have hstored : stored ((at91flashRead fourBlocks 5 0 3 (2 : Nat)).trace
      (device fourBlocks fun _ => false) (quiet (fun _ => 0) (fun _ => 7) fun _ => 9)) = 3 := by
    decide +kernel
  rw [hrun] at hrest
  obtain rfl := Option.some.inj hrest
  rw [hstored] at hret
  exact absurd hret (by decide)

end At91Drivers.Flash
