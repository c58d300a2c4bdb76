import At91Drivers.Flash.Ends
import At91Drivers.Flash.ReadRun
import At91Drivers.Flash.Search

/-!
# Where a read takes its bytes from

A read is one `mtd->read` or two.  The first ends with the block of the landing
at the latest; the second is as long as what is left of the count, which
`MAX_KMALLOC_SIZE` bounds and the erase size does not.

```text
first    [x, x + n) or the rest of the block of x
second   [y, y + (n - len))     len: what the first got to
```
-/

namespace At91Drivers.Flash

open Effects Arith

/-- The range lies inside the device and inside one block, which was reported
good. -/
def InGoodBlock (m : Mtd) (past : History) (addr len : Nat) : Prop :=
  addr + len ≤ m.size ∧ ∃ b, b * m.erasesize ≤ addr ∧ addr + len ≤ (b + 1) * m.erasesize ∧
    ⟨.blockIsbad (b * m.erasesize), (0 : Int)⟩ ∈ past

def RangeOk (m : Mtd) (past : History) : Op → Prop
  | .mtdRead addr len => InGoodBlock m past addr len
  | _ => True

/-- All ranges that a call reads are such ranges. -/
def RangesOk (m : Mtd) (trace : History) : Prop := Prog.Observed (RangeOk m) [] trace

variable {m : Mtd} {bad : Nat → Bool} {w : World} {fuel buf n k x y : Nat} {past : History}

/-! ## Ranges -/

/-- A range that starts in a block of the device that was reported good. -/
theorem inGoodBlock_iff (hblock : k / m.erasesize < m.blocks) (hn : 0 < n)
    (hgood : ⟨.blockIsbad (k / m.erasesize * m.erasesize), (0 : Int)⟩ ∈ past) :
    InGoodBlock m past k n ↔ k % m.erasesize + n ≤ m.erasesize := by
  have hpos := m.erasesize_pos
  have hend := m.blockEnd_eq k
  constructor
  · rintro ⟨-, b, hlo, hhi, -⟩
    have hb : k / m.erasesize = b := by
      rw [Nat.div_eq_iff hpos]
      rw [Nat.add_mul, Nat.one_mul] at hhi
      omega
    rw [← hb] at hhi
    change k + n ≤ m.blockEnd k at hhi
    omega
  · intro hfit
    have hhi : k + n ≤ m.blockEnd k := by omega
    have hext := m.blockEnd_le_extent hblock
    have hsize := m.extent_le_size
    exact ⟨by omega, k / m.erasesize, Nat.div_mul_le_self _ _, hhi, hgood⟩

/-- A range that starts past the end. -/
theorem not_inGoodBlock {addr len : Nat} (h : m.size < addr) : ¬ InGoodBlock m past addr len :=
  fun hin => by
    have := hin.1
    omega

/-! ## Parts of a trace -/

theorem observed_searches {trace : History} (h : ∀ event ∈ trace, event.1.Searches) :
    Prog.Observed (RangeOk m) past trace := by
  refine Prog.observed_of_forall fun event hevent past => ?_
  obtain ⟨e, r⟩ := event
  cases e with
  | mtdRead addr len => exact absurd (h _ hevent) id
  | _ => trivial

theorem observed_skip (z : Int) :
    Prog.Observed (RangeOk m) past ((skipBadBlocks m fuel z).trace (device m bad) w) :=
  observed_searches fun _ hevent => searches_of_mem_trace m bad hevent

theorem observed_deliver (z : Int) (len : Nat) (src : Nat → Byte) :
    Prog.Observed (RangeOk m) past ((deliver buf z len src).trace (device m bad) w) := by
  unfold deliver
  split
  · exact Prog.observed_cons.mpr ⟨trivial, Prog.observed_nil⟩
  · exact Prog.observed_nil

/-- The block that a search ends at was reported good. -/
theorem reported_good {z x b o : Int} (hwalk : walk m bad fuel z = .good x b o) :
    ⟨.blockIsbad (m.ebAddr (m.ebnum x)), (0 : Int)⟩ ∈
      (skipBadBlocks m fuel z).trace (device m bad) w := by
  induction fuel generalizing z with
  | zero => cases hwalk
  | succ fuel ih =>
      unfold skipBadBlocks
      rw [walk] at hwalk
      by_cases hend : m.ebcnt ≤ m.ebnum z
      · rw [if_pos hend] at hwalk
        cases hwalk
      · have hasked : (isBlockBad m (m.ebnum z)).trace (device m bad) w =
            [⟨.blockIsbad (m.ebAddr (m.ebnum z)), if probe m bad z then (1 : Int) else 0⟩] := rfl
        rw [if_neg hend] at hwalk ⊢
        rw [Prog.trace_bind, run_isBlockBad, hasked]
        cases hprobe : probe m bad z with
        | false =>
            rw [hprobe] at hwalk
            obtain ⟨rfl, -, -⟩ := Skip.good.inj hwalk
            exact List.mem_append_left _ List.mem_cons_self
        | true =>
            rw [hprobe, if_pos rfl] at hwalk
            by_cases heof : m.size ≤ u64 (jump m z)
            · rw [if_pos heof] at hwalk
              cases hwalk
            · rw [if_neg heof] at hwalk
              rw [jump] at heof
              dsimp only
              rw [Prog.trace_bind, if_pos rfl, if_pos (by decide), if_neg heof]
              exact List.mem_append_right _ (List.mem_append_right _ (ih hwalk))

theorem observed_free {r : Option Ret} :
    Prog.Observed (RangeOk m) past
      ((do ask .kfree; pure r : Driver (Option Ret)).trace (device m bad) w) :=
  Prog.observed_cons.mpr ⟨trivial, Prog.observed_nil⟩

/-- A part of a read; `next` is what follows when it is delivered. -/
theorem observed_part (next : ReadReply → Int → Driver (Option Ret)) (buf addr len : Nat) (z : Int)
    (w : World) {r : ReadReply} (hr : w.rangeRead m addr len = r) :
    Prog.Observed (RangeOk m) past ((do
        let r ← ask (.mtdRead addr len)
        let (ok, z) ← deliver buf z r.retlen r.data
        if ok then next r z else freeFail EFAULT z).trace (device m bad) w) ↔
      InGoodBlock m past addr len ∧
        (w.CopyOk r.retlen → Prog.Observed (RangeOk m)
          (past ++ [⟨.mtdRead addr len, r⟩] ++
            (deliver buf z r.retlen r.data).trace (device m bad) w.afterRead)
          ((next r (delivered z r.retlen)).trace (device m bad)
            (w.afterRead.afterDeliver buf r.retlen r.data))) := by
  subst hr
  have hread : (ask (.mtdRead addr len)).run (device m bad) w =
      (w.rangeRead m addr len, w.afterRead) := rfl
  have hasked : (ask (.mtdRead addr len)).trace (device m bad) w =
      [⟨.mtdRead addr len, w.rangeRead m addr len⟩] := rfl
  rw [Prog.trace_bind, hasked, hread, List.singleton_append, Prog.observed_cons]
  refine and_congr_right fun _ => ?_
  dsimp only
  rw [Prog.trace_bind, run_deliver, Prog.observed_append]
  refine (and_iff_right (observed_deliver _ _ _)).trans ?_
  by_cases hcopy : w.CopyOk (w.rangeRead m addr len).retlen
  · rw [if_pos (decide_eq_true (show w.afterRead.CopyOk _ from hcopy))]
    exact ⟨fun h _ => h, fun h => h hcopy⟩
  · rw [if_neg (by simpa using (show ¬ w.afterRead.CopyOk _ from hcopy))]
    exact iff_of_true observed_free fun h => absurd h hcopy

section Small

variable (hsize : m.size < 4294967296)

include hsize

/-- The second part, where the search for it starts inside the device. -/
theorem observed_readSecond (hfuel : m.blocks < fuel) (hx : x ≤ m.size) {count len rest : Nat}
    (hrest : rest = u32 (count - len)) (hpos : 0 < rest) :
    Prog.Observed (RangeOk m) past
        ((readSecond m fuel buf count x len len).trace (device m bad) w) ↔
      ∀ y, Landing m bad x y → y % m.erasesize + rest ≤ m.erasesize := by
  unfold readSecond
  rw [Prog.trace_bind, run_skipBadBlocks, Prog.observed_append]
  refine (and_iff_right (observed_skip _)).trans ?_
  rcases walk_of_le_size hsize bad hfuel hx with ⟨y, hwalk, hy⟩ | ⟨⟨q, hwalk⟩, hnone⟩
  · have hext := m.lt_extent_iff.mpr hy.block_lt
    have hle := m.extent_le_size
    have hblocks := m.blocks_lt
    have hlow : y / m.erasesize * m.erasesize ≤ y := Nat.div_mul_le_self _ _
    have hgood : ⟨.blockIsbad (y / m.erasesize * m.erasesize), (0 : Int)⟩ ∈
        past ++ (skipBadBlocks m fuel x).trace (device m bad) w := by
      have hquot := hy.block_lt
      rw [Mtd.blocks] at hquot
      have hreported := reported_good (w := w) hwalk
      rw [Mtd.ebnum_natCast (by omega) (by omega), Mtd.ebAddr_natCast (by omega)] at hreported
      exact List.mem_append_right _ hreported
    rw [hwalk]
    dsimp only
    rw [observed_part (fun r z => do ask .kfree; pure (some ⟨i32 r.retlen, z⟩)) _ _ _ _ w rfl,
      ← hrest, u64_natCast (by omega), inGoodBlock_iff hy.block_lt hpos hgood]
    constructor
    · rintro ⟨hfit, -⟩ y' hy'
      rwa [← hy.unique hy']
    · exact fun h => ⟨h y hy, fun _ => observed_free⟩
  · refine iff_of_true ?_ fun y hy => absurd hnone hy.stream_ne_nil
    rcases hwalk with hwalk | hwalk
    · rw [hwalk]
      exact observed_free
    · rw [hwalk]
      exact observed_free

/-- How far the first part of a read that jumps gets. -/
def World.firstLen (w : World) (m : Mtd) (k : Nat) : Nat :=
  readLen m k (m.erasesize - k % m.erasesize) (w.reads 0)

/-- The second part starts at the end of the first.  When the first was short
it goes on in the same block, and past its end. -/
theorem second_inside (hfuel : m.blocks < fuel) (hk : Landing m bad k k) (hin : k + n ≤ m.size)
    (hjump : m.erasesize < k % m.erasesize + n) {w' : World} {len : Nat}
    (hlen : len ≤ m.erasesize - k % m.erasesize) :
    Prog.Observed (RangeOk m) past
        ((readSecond m fuel buf n (k + len : Nat) len len).trace (device m bad) w') ↔
      len = m.erasesize - k % m.erasesize ∧
        (m.stream bad (m.blockEnd k) = [] ∨ k % m.erasesize + n ≤ 2 * m.erasesize) := by
  have hmod := Nat.mod_lt k m.erasesize_pos
  have hend := m.blockEnd_eq k
  have hrest : n - len = u32 (n - len) := by
    rw [← Nat.cast_sub (by omega), u32_natCast (by omega)]
  rw [observed_readSecond hsize hfuel (by omega) hrest (by omega)]
  rcases hlen.eq_or_lt with heq | hshort
  · -- the first part was whole: the search starts at the next block
    have hnext : k + len = m.blockEnd k := by omega
    rw [hnext]
    constructor
    · intro h
      refine ⟨heq, or_iff_not_imp_left.mpr fun hstream => ?_⟩
      rcases walk_of_le_size hsize bad hfuel (show m.blockEnd k ≤ m.size by omega) with
        ⟨y, -, hy⟩ | ⟨-, hnone⟩
      · have hfit := h y hy
        rw [hy.aligned_next] at hfit
        omega
      · exact absurd hnone hstream
    · rintro ⟨-, hstream⟩ y hy
      have hfit := hstream.resolve_left hy.stream_ne_nil
      rw [hy.aligned_next]
      omega
  · have hdiv : (k + len) / m.erasesize = k / m.erasesize :=
      m.div_of_mem_block (Nat.le_add_right k len) (by omega)
    have hmod' : (k + len) % m.erasesize = k % m.erasesize + len := by
      have h₁ := Nat.div_add_mod k m.erasesize
      have h₂ := Nat.div_add_mod (k + len) m.erasesize
      rw [hdiv] at h₂
      omega
    have hself : Landing m bad (k + len) (k + len) :=
      ⟨le_rfl, hdiv ▸ hk.block_lt, hdiv ▸ hk.good, rfl, .inl rfl⟩
    refine iff_of_false (fun h => ?_) fun h => hshort.ne h.1
    have hfit := h _ hself
    omega

theorem observed_readBlocks (hfuel : m.blocks < fuel) (hk : Landing m bad k k) (hn : 0 < n)
    (hin : k + n ≤ m.size)
    (hgood : ⟨.blockIsbad (k / m.erasesize * m.erasesize), (0 : Int)⟩ ∈ past) :
    Prog.Observed (RangeOk m) past
        ((readBlocks m fuel buf n k (k / m.erasesize : Nat)).trace (device m bad) w) ↔
      k % m.erasesize + n ≤ m.erasesize ∨ ¬ w.CopyOk (w.firstLen m k) ∨
        w.firstLen m k = m.erasesize - k % m.erasesize ∧
          (m.stream bad (m.blockEnd k) = [] ∨ k % m.erasesize + n ≤ 2 * m.erasesize) := by
  have hmod := Nat.mod_lt k m.erasesize_pos
  have hjumps := jumps_iff hsize hk hin
  rw [Mtd.Jumps] at hjumps
  unfold readBlocks
  by_cases hfit : k % m.erasesize + n ≤ m.erasesize
  · have hstay := mt hjumps.mp (not_lt.mpr hfit)
    refine iff_of_true ?_ (.inl hfit)
    rw [if_neg hstay, if_pos (not_lt.mp hstay),
      observed_part (fun r z => do ask .kfree; pure (some ⟨i32 r.retlen, z⟩)) _ _ _ _ w rfl,
      u64_natCast (by omega), inGoodBlock_iff hk.block_lt hn hgood]
    exact ⟨hfit, fun _ => observed_free⟩
  · have hjump := not_le.mp hfit
    have hlen : w.firstLen m k ≤ m.erasesize - k % m.erasesize := readLen_le
    have hpart := toBlockEnd_eq hsize hk.block_lt
    have hread : (w.rangeRead m k (m.erasesize - k % m.erasesize)).retlen = w.firstLen m k :=
      retlen_readReply
    rw [Mtd.toBlockEnd] at hpart
    rw [if_pos (hjumps.mpr hjump),
      observed_part (fun r z => readSecond m fuel buf n z r.retlen r.retlen) _ _ _ _ w rfl,
      u64_natCast (by omega), hpart, inGoodBlock_iff hk.block_lt (by omega) hgood, hread,
      delivered_natCast (by omega), second_inside hsize hfuel hk hin hjump hlen,
      and_iff_right (by omega), or_iff_right hfit, imp_iff_not_or]

end Small

/-! ## All of a read -/

/-- After a jump the search is inside the device. -/
theorem SkipsTo.start_or_inside {p x : Int} (h : SkipsTo m bad p x) :
    x = p ∨ ∃ k : Nat, x = k ∧ k < m.size := by
  induction h with
  | here _ _ => exact .inl rfl
  | @next p x _ _ hsize _ ih =>
      have hjump : m.ebAddr (m.ebnum p + 1) < 4294967296 := u32_lt _
      rw [jump, u64_natCast (by omega)] at hsize
      exact .inr (ih.elim (fun heq => ⟨_, heq, hsize⟩) id)

/-- A good block found from a position outside the device is not there. -/
theorem size_lt_of_outside {p x : Int} (hsize : m.size < 4294967296)
    (hlo : -9223372036854775808 ≤ p) (hhi : p < 9223372036854775808) (h : SkipsTo m bad p x)
    (hout : ¬ ∃ k : Nat, x = k ∧ k < m.size) : m.size < u64 x := by
  have hin := h.in_range
  obtain rfl := h.start_or_inside.resolve_right hout
  rcases lt_or_ge x 0 with hneg | hnonneg
  · unfold u64
    omega
  · obtain ⟨k, rfl⟩ := Int.eq_ofNat_of_zero_le hnonneg
    have hblocks := m.blocks_lt
    have hle : m.size ≤ k := by
      by_contra hlt
      exact hout ⟨k, rfl, not_le.mp hlt⟩
    change m.size < u64 (k : Int)
    rw [u64_natCast (by omega)]
    by_contra hge
    obtain rfl : k = m.size := by omega
    rw [m.ebcnt_eq, Mtd.ebnum_natCast hblocks m.size_lt] at hin
    exact absurd hin (lt_irrefl _)

/-- The read starts inside the device, and its bytes lie in the block where it
starts; or the first part cannot be copied; or the first part is not short, and
what is left fits one block or there is no block for it. -/
def RangesMet (m : Mtd) (bad : Nat → Bool) (w : World) (n : Nat) (p : Int) : Prop :=
  ∀ x, SkipsTo m bad p x → m.clip x n ≠ 0 → w.heap 0 ≠ none →
    ∃ k : Nat, x = k ∧ k < m.size ∧
      (k % m.erasesize + m.readCount k n ≤ m.erasesize ∨ ¬ w.CopyOk (w.firstLen m k) ∨
        w.firstLen m k = m.erasesize - k % m.erasesize ∧
          (m.stream bad (m.blockEnd k) = [] ∨
            k % m.erasesize + m.readCount k n ≤ 2 * m.erasesize))

theorem observed_none {p q : Int}
    (hwalk : walk m bad fuel p = .noBlock q ∨ walk m bad fuel p = .endOfFile q) :
    RangesOk m ((at91flashRead m fuel buf n p).trace (device m bad) w) := by
  unfold RangesOk at91flashRead
  rw [Prog.trace_bind, run_skipBadBlocks, Prog.observed_append]
  refine ⟨observed_skip _, ?_⟩
  rcases hwalk with hwalk | hwalk
  · rw [hwalk]
    exact Prog.observed_nil
  · rw [hwalk]
    exact Prog.observed_nil

/-- From a good block the ranges are those after the allocation, if a read gets
there. -/
theorem observed_good {p x b o : Int} (hwalk : walk m bad fuel p = .good x b o) :
    RangesOk m ((at91flashRead m fuel buf n p).trace (device m bad) w) ↔
      (m.clip x n ≠ 0 → w.heap 0 ≠ none →
        Prog.Observed (RangeOk m)
          ((skipBadBlocks m fuel p).trace (device m bad) w ++
            [⟨.kmalloc (clipKmalloc (m.clip x n)), w.heap 0⟩])
          ((readBlocks m fuel buf (clipKmalloc (m.clip x n)) x b).trace (device m bad)
            w.afterKmalloc)) := by
  have hmalloc : (ask (.kmalloc (clipKmalloc (m.clip x n)))).run (device m bad) w =
      (w.heap 0, w.afterKmalloc) := rfl
  have hasked : (ask (.kmalloc (clipKmalloc (m.clip x n)))).trace (device m bad) w =
      [⟨.kmalloc (clipKmalloc (m.clip x n)), w.heap 0⟩] := rfl
  unfold RangesOk at91flashRead
  rw [Prog.trace_bind, run_skipBadBlocks, Prog.observed_append, hwalk]
  refine (and_iff_right (observed_skip _)).trans ?_
  dsimp only
  by_cases hclip : m.clip x n = 0
  · rw [if_pos hclip]
    exact iff_of_true Prog.observed_nil fun h => absurd hclip h
  · rw [if_neg hclip, Prog.trace_bind, hmalloc, hasked, Prog.observed_append]
    have hfirst : Prog.Observed (RangeOk m)
        ([] ++ (skipBadBlocks m fuel p).trace (device m bad) w)
        [⟨.kmalloc (clipKmalloc (m.clip x n)), w.heap 0⟩] :=
      Prog.observed_cons.mpr ⟨trivial, Prog.observed_nil⟩
    refine (and_iff_right hfirst).trans ?_
    cases hheap : w.heap 0 with
    | none => exact iff_of_true Prog.observed_nil fun _ h => absurd rfl h
    | some readbuf => exact ⟨fun h _ _ => h, fun h => h hclip (Option.some_ne_none _)⟩

/-- A read takes its bytes from good blocks inside the device exactly when it
meets the condition. -/
theorem ranges_ok_iff {p : Int} (hsize : m.size < 4294967296) (hfuel : m.blocks + 1 < fuel)
    (hn : n < 4294967296) (hlo : -9223372036854775808 ≤ p) (hhi : p < 9223372036854775808) :
    RangesOk m ((at91flashRead m fuel buf n p).trace (device m bad) w) ↔
      RangesMet m bad w n p := by
  rcases walk_cases m bad fuel p with ⟨x, hx, hwalk⟩ | ⟨hfails, q, hwalk⟩ | hspin
  · have honly : RangesMet m bad w n p ↔ _ :=
      ⟨fun h => h x hx, fun h x' hx' => hx.unique hx' ▸ h⟩
    rw [observed_good hwalk, honly]
    refine imp_congr_right fun hclip => imp_congr_right fun hheap => ?_
    by_cases hinside : ∃ k : Nat, x = k ∧ k < m.size
    · obtain ⟨k, rfl, hk⟩ := hinside
      have hin := hx.in_range
      have hblocks := m.blocks_lt
      have hquot : k / m.erasesize ≤ m.size / m.erasesize := Nat.div_le_div_right hk.le
      rw [m.ebcnt_eq, Mtd.ebnum_natCast (by omega) (by omega)] at hin
      have hblock : k / m.erasesize < m.blocks := by exact_mod_cast hin
      have hgood := hx.probe_end
      rw [probe_natCast hsize hblock] at hgood
      have hlow : k / m.erasesize * m.erasesize ≤ k := Nat.div_mul_le_self _ _
      have hreported := reported_good (w := w) hwalk
      rw [Mtd.ebnum_natCast (by omega) (by omega), Mtd.ebAddr_natCast (by omega)] at hreported
      have hcount := clipKmalloc_clip hn hk
      have hpos : 0 < m.readCount k n := readCount_pos hk (Nat.pos_of_ne_zero fun hzero => by
        rw [hzero, clip_eq (by decide) hk, Nat.zero_min] at hclip
        exact hclip rfl)
      have hend : k + m.readCount k n ≤ m.size := readCount_le hk.le
      rw [hcount, Mtd.ebnum_natCast (by omega) (by omega),
        observed_readBlocks hsize (by omega) ⟨le_rfl, hblock, hgood, rfl, .inl rfl⟩ hpos hend
          (List.mem_append_left _ hreported)]
      constructor
      · exact fun h => ⟨k, rfl, hk, h⟩
      · rintro ⟨k', heq, -, h⟩
        obtain rfl : k = k' := by exact_mod_cast heq
        exact h
    · refine iff_of_false (fun h => ?_) fun ⟨k, hk, hlt, _⟩ => hinside ⟨k, hk, hlt⟩
      -- a position off the device reads past its end, by either path
      have hpast := size_lt_of_outside hsize hlo hhi hx hinside
      unfold readBlocks at h
      by_cases hjump : (m.ebAddr (m.ebnum x + 1) : Int) < i64 (x + clipKmalloc (m.clip x n))
      · rw [if_pos hjump] at h
        exact not_inGoodBlock hpast (h [] ⟨.mtdRead _ _, _⟩ _ rfl)
      · rw [if_neg hjump, if_pos (not_lt.mp hjump)] at h
        exact not_inGoodBlock hpast (h [] ⟨.mtdRead _ _, _⟩ _ rfl)
  · exact iff_of_true (observed_none hwalk) fun x hx => absurd hfails hx.not_fails
  · exact absurd hspin (walk_ne_spinning hsize hfuel p)

/-- Three bytes at 6, the third of them behind the bad block 2. -/
theorem ranges_ok_iff_at_six :
    RangesOk fourBlocks ((at91flashRead fourBlocks 6 0 3 (6 : Nat)).trace
        (device fourBlocks (· == 2)) (quiet (fun _ => 0) (fun _ => 7) fun _ => 9)) ↔
      RangesMet fourBlocks (· == 2) (quiet (fun _ => 0) (fun _ => 7) fun _ => 9) 3 (6 : Nat) :=
  ranges_ok_iff (by decide) (by decide) (by decide) (by decide) (by decide)

/-- Twelve bytes at 0 with block 2 bad: the second part is [4, 12). -/
theorem read_crosses_bad_block :
    ¬ ∀ (m : Mtd) (bad : Nat → Bool) (w : World) (fuel buf n : Nat) (p : Int),
      m.size < 4294967296 → m.erasesize ∣ m.size → m.blocks + 1 < fuel → n < 4294967296 →
      -9223372036854775808 ≤ p → p < 9223372036854775808 →
      RangesOk m ((at91flashRead m fuel buf n p).trace (device m bad) w) := by
  intro h
  obtain ⟨w, hw⟩ : ∃ w, w = quiet (fun _ => 0) (fun _ => 7) fun _ => 9 := ⟨_, rfl⟩
  have hok := h fourBlocks (· == 2) w 6 0 12 (0 : Nat) (by decide) (by decide) (by decide)
    (by decide) (by decide) (by decide)
  have hwalk : walk fourBlocks (· == 2) 6 (0 : Nat) = .good (0 : Nat) (0 / 4 : Nat) 0 := by
    decide +kernel
  have hcount : clipKmalloc (fourBlocks.clip (0 : Nat) 12) = 12 := by decide +kernel
  have haddr : fourBlocks.ebAddr (fourBlocks.ebnum (0 : Nat)) = 0 / 4 * 4 := by decide +kernel
  have hreported := reported_good (w := w) hwalk
  rw [haddr] at hreported
  have hrest := (observed_good hwalk).mp hok (by decide +kernel) (by rw [hw]; exact nofun)
  rw [hcount] at hrest
  rcases (observed_readBlocks (m := fourBlocks) (k := 0) (by decide) (by decide)
    ⟨le_rfl, by decide, rfl, rfl, .inl rfl⟩ (by decide) (by decide)
    (List.mem_append_left _ hreported)).mp hrest with hfit | hcopy | ⟨-, hnone | hfit⟩
  · exact absurd hfit (by decide)
  · exact absurd (show w.afterKmalloc.CopyOk _ by rw [hw]; rfl) hcopy
  · exact absurd hnone (by decide)
  · exact absurd hfit (by decide)

end At91Drivers.Flash
