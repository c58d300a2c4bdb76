import At91Drivers.Flash.FaultFree
import At91Drivers.Flash.ReadRun
import At91Drivers.Flash.Rules

/-!
# Which transfers fit their kernel buffer

A call allocates one buffer, and every copy from the user and every `mtd->read`
should fit it.  Two combinations of position and count break this, for any
geometry:

```text
write   the search ends at byte 0, where the whole count is copied at once,
        and the count was clipped to the end of the device, not to a block
read    the block of the landing ends at or past 4 GiB, so that its 32-bit
        end lies before the position, and the count is shorter than the rest
        of the block
```
-/

namespace At91Drivers.Flash

open Effects Arith

/-! ## Fitting -/

/-- The operation fills a kernel buffer. -/
def Op.Fills : Op → Prop
  | .copyFromUser _ _ _ => True
  | .mtdRead _ _ => True
  | _ => False

/-- What the operation fills ends within `size` bytes. -/
def Op.EndsIn (size : Nat) : Op → Prop
  | .copyFromUser dst _ len => dst + len ≤ size
  | .mtdRead _ len => len ≤ size
  | _ => True

/-- The operation fits a buffer that was allocated before. -/
def FitsBuffer (past : History) (e : Op) : Prop :=
  e.Fills → ∃ size kbuf, ⟨.kmalloc size, some kbuf⟩ ∈ past ∧ e.EndsIn size

def Fits (trace : History) : Prop :=
  ∀ before event after, trace = before ++ event :: after → FitsBuffer before event.1

/-- Every write of `n` bytes at `p` fits its buffer, and every read. -/
def WriteFits (m : Mtd) (bad : Nat → Bool) (p n : Nat) : Prop :=
  ∀ fuel buf w, Fits ((at91flashWrite m fuel buf n p).trace (device m bad) w)

def ReadFits (m : Mtd) (bad : Nat → Bool) (p n : Nat) : Prop :=
  ∀ fuel buf w, Fits ((at91flashRead m fuel buf n p).trace (device m bad) w)

theorem fitsBuffer_policy : Policy FitsBuffer where
  grows h later hfills :=
    let ⟨size, kbuf, hmem, hends⟩ := h hfills
    ⟨size, kbuf, List.mem_append_left _ hmem, hends⟩
  harmless := by
    intro past e he hfills
    cases e <;> first | exact he.elim | exact hfills.elim

variable {m : Mtd} {bad : Nat → Bool}

theorem fitsBuffer_of_kmalloc {past later : History} {e : Op} {size : Nat} {kbuf : Nat → Byte}
    (h : e.EndsIn size) :
    FitsBuffer (past ++ [⟨.kmalloc size, some kbuf⟩] ++ later) e :=
  fun _ => ⟨size, kbuf, by simp, h⟩

theorem fits_of_meets {p : Driver (Option Ret)}
    (h : p.Meets (Sane m bad) FitsBuffer (fun _ _ => True) []) (w : World) :
    Fits (p.trace (device m bad) w) := by
  intro before event after hsplit
  exact h.sound_ask (device_sane m bad) w hsplit

/-- The search allocates nothing. -/
theorem no_kmalloc_in_search {fuel : Nat} {x : Int} {w : World} {size : Nat}
    {kbuf : Option (Nat → Byte)} :
    ⟨.kmalloc size, kbuf⟩ ∉ (skipBadBlocks m fuel x).trace (device m bad) w :=
  fun h => searches_of_mem_trace m bad h

/-- In a trace that searches, allocates and then performs `e`, the buffer `e`
has to fit is the allocated one. -/
theorem endsIn_of_fits {fuel : Nat} {x : Int} {w : World} {size : Nat} {kbuf : Nat → Byte}
    {e : Op} {r : Reply e} {after : History} (he : e.Fills)
    (h : Fits ((skipBadBlocks m fuel x).trace (device m bad) w ++
      ⟨.kmalloc size, some kbuf⟩ :: ⟨e, r⟩ :: after)) : e.EndsIn size := by
  obtain ⟨size', kbuf', hmem, hends⟩ :=
    h ((skipBadBlocks m fuel x).trace (device m bad) w ++ [⟨.kmalloc size, some kbuf⟩]) ⟨e, r⟩
      after (by simp) he
  rcases List.mem_append.mp hmem with hmem | hmem
  · exact absurd hmem no_kmalloc_in_search
  · have hsize : size' = size := by
      have hfst := congrArg Sigma.fst (List.mem_singleton.mp hmem)
      exact Op.kmalloc.inj hfst
    exact hsize ▸ hends

/-! ## write -/

/-- The 32-bit ends of the block of a position and of the block after it. -/
theorem ebAddr_blockEnd (k : Nat) :
    m.ebAddr ((k / m.erasesize : Nat) + 1) = u32 (m.blockEnd k : Nat) := by
  rw [Mtd.ebAddr, Mtd.blockEnd]
  push_cast
  rfl

theorem ebAddr_blockEnd_add (k : Nat) :
    m.ebAddr ((k / m.erasesize : Nat) + 2) = u32 ((m.blockEnd k + m.erasesize : Nat) : Int) := by
  rw [Mtd.ebAddr, Mtd.blockEnd]
  congr 1
  push_cast
  ring

/-- The guard of a write inside one block holds only where it fits the block,
even where the product of the guard wraps. -/
theorem mod_add_le {k count : Nat}
    (hfit : ((k + count : Nat) : Int) ≤ m.ebAddr ((k / m.erasesize : Nat) + 1)) :
    k % m.erasesize + count ≤ m.erasesize := by
  have hmod := Nat.mod_lt k m.erasesize_pos
  have hwrap := m.ebAddr_le (k / m.erasesize + 1)
  have hend := m.blockEnd_eq k
  rw [Mtd.blockEnd] at hend
  rw [Nat.cast_succ] at hwrap
  omega

/-- The last part of a write that jumps a block fits, even where the products
of the guards wrap. -/
theorem u32_rest_le {k count first : Nat} (hfirst : first = m.erasesize - k % m.erasesize)
    (hcount : count < 4294967296)
    (hnot : ¬ ((k + count : Nat) : Int) ≤ m.ebAddr ((k / m.erasesize : Nat) + 1))
    (hguard : ((k + count : Nat) : Int) ≤ m.ebAddr ((k / m.erasesize : Nat) + 2)) :
    u32 ((count : Int) - first) ≤ m.erasesize := by
  have hend : m.blockEnd k = k + first := by rw [hfirst, ← m.blockEnd_eq]
  rw [ebAddr_blockEnd, hend] at hnot
  rw [ebAddr_blockEnd_add, hend] at hguard
  unfold u32 at *
  omega

/-- A write fits unless its whole count is copied at byte 0 and is longer than
a block. -/
theorem writeCount_fits {p n fuel buf : Nat} (hp : p ≤ m.size) (hn : n < 4294967296)
    (hzero : SkipsTo m bad p 0 → n ≤ m.erasesize) :
    (writeCount m fuel buf n p).Meets (Sane m bad) FitsBuffer (fun _ _ => True) [] := by
  have hwide := m.extent_add_lt
  have hbound := m.size_lt
  refine meets_writeCount fitsBuffer_policy trivial
    ((meets_skipBadBlocks_walk fitsBuffer_policy fun _ _ h => h).mono fun later s hs => ?_)
  subst hs
  rcases walk_cases m bad fuel p with ⟨x, hx, hwalk⟩ | ⟨-, q, hwalk | hwalk⟩ | hwalk
  · obtain ⟨k, rfl, hblock⟩ := hx.natCast rfl (Nat.div_le_div_right hp) (by omega)
    have hk := m.lt_extent_iff.mpr hblock
    have hblocks := m.blocks_lt
    have hblock' := hblock
    rw [Mtd.blocks] at hblock'
    have hmod := Nat.mod_lt k m.erasesize_pos
    have hsum : i64 ((k : Int) + n) = (k + n : Nat) := by
      rw [← Nat.cast_add, i64_natCast (by omega)]
    rw [hwalk, Mtd.ebnum_natCast (by omega) (by omega)]
    have hin (e : Op) (later' : History) (kbuf : Nat → Byte) (h : e.EndsIn m.erasesize) :
        FitsBuffer ([] ++ later ++ [⟨.kmalloc m.erasesize, some kbuf⟩] ++ later') e :=
      fitsBuffer_of_kmalloc h
    -- the block read, then the copy of each path: at 0, within, and jumping
    refine ⟨trivial, fun kbuf => ⟨⟨?_, ?_, ?_⟩, fun hzero' => ?_, fun _ hfit => ?_,
      fun _ hnot hguard => ⟨?_, fun _ _ _ later' => ?_⟩, trivial, fun _ _ _ => trivial⟩⟩
    · simpa using hin (.mtdRead _ m.erasesize) [] kbuf le_rfl
    · exact fun h => h.elim
    · exact fun _ h => h.elim
    · obtain rfl : k = 0 := by exact_mod_cast hzero'
      simpa using hin (.copyFromUser 0 buf n) [] kbuf (by
        simpa [Op.EndsIn] using hzero hx)
    · have hle := mod_add_le (hsum ▸ hfit)
      rw [Mtd.u32_blockoffset (by omega)]
      simpa using hin (.copyFromUser _ buf n) [] kbuf hle
    · rw [Mtd.u32_blockoffset (by omega), Mtd.u32_sub_blockoffset (by omega)]
      simpa using hin (.copyFromUser _ buf _) [] kbuf
        (Nat.add_sub_cancel' hmod.le).le
    · rw [hsum] at hnot hguard
      -- the guard bounds the second part by a block
      have hrest := u32_rest_le rfl hn hnot hguard
      rw [Mtd.u32_sub_blockoffset (by omega)]
      refine (meets_skipBadBlocks_walk fitsBuffer_policy fun _ _ h => h).mono fun later'' s hs => ?_
      cases s with
      | spinning => trivial
      | noBlock q => trivial
      | endOfFile q => trivial
      | good y b o =>
          refine ⟨⟨?_, fun h => h.elim, fun _ h => h.elim⟩, ?_, trivial, fun _ _ _ => trivial⟩
          · simpa using hin (.mtdRead _ m.erasesize) (later' ++ later'') kbuf le_rfl
          · simpa using hin (.copyFromUser 0 _ _) (later' ++ later'') kbuf (by
              simpa [Op.EndsIn] using hrest)
  · rw [hwalk]
    trivial
  · rw [hwalk]
    trivial
  · rw [hwalk]
    trivial

/-- A count clipped to more than a block is copied whole at byte 0. -/
theorem write_overflows {p n : Nat} (hp : p ≤ m.size) (hn : n < 4294967296)
    (hskip : SkipsTo m bad p 0) (hclip : m.size < p + n) (hlong : m.erasesize < m.size - p) :
    ¬ WriteFits m bad p n := by
  intro h
  have hbound := m.size_lt_i64
  obtain ⟨rounds, hwalk⟩ := walk_of_skipsTo hskip
  have hfits := h rounds 0 (quiet (fun _ => 0) (fun _ => 0) fun _ => 0)
  unfold at91flashWrite at hfits
  rw [← Nat.cast_add, u64_natCast (by omega), if_pos hclip, ← Nat.cast_sub hp,
    u32_natCast (by omega)] at hfits
  unfold writeCount at hfits
  rw [if_neg (by omega), Prog.trace_bind, run_skipBadBlocks, hwalk rounds le_rfl] at hfits
  have hends : (Op.copyFromUser 0 0 (m.size - p)).EndsIn m.erasesize :=
    endsIn_of_fits (by trivial) hfits
  simp only [Op.EndsIn, Nat.zero_add] at hends
  omega

theorem write_fits {p n : Nat} (hp : p ≤ m.size) (hn : n < 4294967296)
    (h : ¬ (SkipsTo m bad p 0 ∧ m.size < p + n ∧ m.erasesize < m.size - p)) :
    WriteFits m bad p n := by
  have hbound := m.size_lt_i64
  intro fuel buf w
  refine fits_of_meets ?_ w
  unfold at91flashWrite
  rw [← Nat.cast_add, u64_natCast (by omega)]
  by_cases hclip : m.size < p + n
  · rw [if_pos hclip, ← Nat.cast_sub hp, u32_natCast (by omega)]
    refine writeCount_fits hp (by omega) fun hskip => not_lt.mp fun hlong => ?_
    exact h ⟨hskip, hclip, hlong⟩
  · rw [if_neg hclip]
    by_cases hlong : m.erasesize < n
    · rw [if_pos hlong]
      trivial
    · rw [if_neg hlong]
      exact writeCount_fits hp hn fun _ => not_lt.mp hlong

/-! ## read -/

/-- The first part of a read that jumps fits, unless the 32-bit block end
wrapped and the rest of the block is longer than the read. -/
theorem u32_first_le {k count : Nat} (hcount : count < 4294967296)
    (hjump : (m.ebAddr ((k / m.erasesize : Nat) + 1) : Int) < (k + count : Nat))
    (h : ¬ (count < m.erasesize - k % m.erasesize ∧ 4294967296 ≤ m.blockEnd k)) :
    u32 ((m.ebAddr ((k / m.erasesize : Nat) + 1) : Int) - k) ≤ count := by
  have hend := m.blockEnd_eq k
  rw [ebAddr_blockEnd] at hjump ⊢
  unfold u32 at *
  omega

theorem read_fits {p n : Nat} (hp : p ≤ m.size) (hn : n < 4294967296)
    (h : ∀ x : Nat, SkipsTo m bad p x → ¬ (0 < n ∧
      m.readCount x n < m.erasesize - x % m.erasesize ∧ 4294967296 ≤ m.blockEnd x)) :
    ReadFits m bad p n := by
  have hbound := m.size_lt_i64
  have hwide := m.extent_add_lt
  intro fuel buf w
  refine fits_of_meets ?_ w
  refine meets_at91flashRead fitsBuffer_policy
    ((meets_skipBadBlocks_walk fitsBuffer_policy fun _ _ h => h).mono fun later s hs => ?_)
  subst hs
  rcases walk_cases m bad fuel p with ⟨x, hx, hwalk⟩ | ⟨-, q, hwalk | hwalk⟩ | hwalk
  · obtain ⟨k, rfl, hblock⟩ := hx.natCast rfl (Nat.div_le_div_right hp) (by omega)
    have hk := m.lt_extent_iff.mpr hblock
    have hksize := hk.trans_le m.extent_le_size
    have hblocks := m.blocks_lt
    have hblock' := hblock
    rw [Mtd.blocks] at hblock'
    have hcount : m.readCount k n < 4294967296 := readCount_le_count.trans_lt hn
    have hsum : i64 ((k : Int) + m.readCount k n) = (k + m.readCount k n : Nat) := by
      rw [← Nat.cast_add, i64_natCast (by omega)]
    rw [hwalk, Mtd.ebnum_natCast (by omega) (by omega)]
    refine ⟨fun _ => trivial, fun hclip readbuf => ?_⟩
    rw [clipKmalloc_clip hn hksize]
    have hin {len addr : Nat} (later' : History) (h : len ≤ m.readCount k n) :
        FitsBuffer ([] ++ later ++ [⟨.kmalloc (m.readCount k n), some readbuf⟩] ++ later')
          (.mtdRead addr len) := fitsBuffer_of_kmalloc h
    refine ⟨fun _ => ⟨?_, fun _ _ _ => trivial⟩, fun hjump => ?_⟩
    · simpa using hin [] le_rfl
    · rw [hsum] at hjump
      have hpos : 0 < n := by
        rw [clip_eq hn hksize] at hclip
        omega
      -- here the rest of the block may be longer than the buffer
      have hfirst := u32_first_le hcount hjump fun hbad => h k hx ⟨hpos, hbad⟩
      refine ⟨⟨?_, fun _ _ _ => trivial⟩, fun r hr later' => ?_⟩
      · simpa using hin [] hfirst
      · refine (meets_skipBadBlocks_walk fitsBuffer_policy fun _ _ h => h).mono
          fun later'' s hs => ?_
        cases s with
        | spinning => trivial
        | noBlock q => trivial
        | endOfFile q => trivial
        | good y b o =>
            have hr' : r.retlen ≤ m.readCount k n := hr.1.trans hfirst
            refine ⟨?_, fun _ _ _ => trivial⟩
            rw [← Nat.cast_sub hr', u32_natCast (by omega)]
            simpa using hin (later' ++ later'') (Nat.sub_le _ _)
  · rw [hwalk]
    trivial
  · rw [hwalk]
    trivial
  · rw [hwalk]
    trivial

/-- A read shorter than the rest of a block that ends past 4 GiB asks for the
whole rest. -/
theorem read_overflows {p n x : Nat} (hp : p ≤ m.size) (hn : n < 4294967296) (hpos : 0 < n)
    (hskip : SkipsTo m bad p x) (hshort : m.readCount x n < m.erasesize - x % m.erasesize)
    (hwrap : 4294967296 ≤ m.blockEnd x) : ¬ ReadFits m bad p n := by
  intro h
  have hbound := m.size_lt_i64
  have hwide := m.extent_add_lt
  have hes := m.erasesize_lt
  have hend := m.blockEnd_eq x
  obtain ⟨k, hk, hblock⟩ := hskip.natCast rfl (Nat.div_le_div_right hp) (by omega)
  obtain rfl : x = k := by exact_mod_cast hk
  have hx := m.lt_extent_iff.mpr hblock
  have hxsize := hx.trans_le m.extent_le_size
  have hblocks := m.blocks_lt
  rw [Mtd.blocks] at hblock
  have hclip : m.clip x n ≠ 0 := by
    rw [clip_eq hn hxsize]
    omega
  have hjump : (m.ebAddr ((x / m.erasesize : Nat) + 1) : Int) < i64 (x + m.readCount x n) := by
    rw [ebAddr_blockEnd, ← Nat.cast_add, i64_natCast (by omega)]
    unfold u32
    omega
  -- the subtraction wraps back to the whole rest of the block
  have hfirst : u32 ((m.ebAddr ((x / m.erasesize : Nat) + 1) : Int) - x) =
      m.erasesize - x % m.erasesize := by
    rw [ebAddr_blockEnd]
    unfold u32
    omega
  obtain ⟨rounds, hwalk⟩ := walk_of_skipsTo hskip
  have hfits := h rounds 0 (quiet (fun _ => 0) (fun _ => 0) fun _ => 0)
  unfold at91flashRead at hfits
  rw [Prog.trace_bind, run_skipBadBlocks, hwalk rounds le_rfl,
    Mtd.ebnum_natCast (by omega) (by omega)] at hfits
  dsimp only at hfits
  rw [if_neg hclip, clipKmalloc_clip hn hxsize] at hfits
  have hmalloc (w : World) : device m bad (.kmalloc (m.readCount x n)) w =
      (w.heap 0, w.afterKmalloc) := rfl
  rw [Prog.trace_perform_bind, hmalloc] at hfits
  simp only [quiet] at hfits
  unfold readBlocks at hfits
  rw [if_pos hjump, hfirst, Prog.trace_perform_bind] at hfits
  have hends : (Op.mtdRead (u64 x) (m.erasesize - x % m.erasesize)).EndsIn (m.readCount x n) :=
    endsIn_of_fits (by trivial) hfits
  simp only [Op.EndsIn] at hends
  omega

/-! ## Exactly when -/

/-- A write fits its buffer unless its search ends at byte 0 with a count that
is clipped to more than a block; a read unless its landing is in a block that
ends past 4 GiB and its count is shorter than the rest of that block. -/
theorem transfers_fit_iff {p n : Nat} (hp : p ≤ m.size) (hn : n < 4294967296) :
    (WriteFits m bad p n ↔
        ¬ (SkipsTo m bad p 0 ∧ m.size < p + n ∧ m.erasesize < m.size - p)) ∧
      (ReadFits m bad p n ↔ ∀ x : Nat, SkipsTo m bad p x → ¬ (0 < n ∧
        m.readCount x n < m.erasesize - x % m.erasesize ∧ 4294967296 ≤ m.blockEnd x)) := by
  refine ⟨⟨fun h hbad => ?_, write_fits hp hn⟩, ⟨fun h x hskip hbad => ?_, read_fits hp hn⟩⟩
  · exact write_overflows hp hn hbad.1 hbad.2.1 hbad.2.2 h
  · exact read_overflows hp hn hbad.1 hskip hbad.2.1 hbad.2.2 h

/-- Three bytes at 6, the third of them behind the bad block 2. -/
theorem transfers_fit_iff_at_six :
    (WriteFits fourBlocks (· == 2) 6 3 ↔
        ¬ (SkipsTo fourBlocks (· == 2) (6 : Nat) 0 ∧ 16 < 6 + 3 ∧ 4 < 16 - 6)) ∧
      (ReadFits fourBlocks (· == 2) 6 3 ↔
        ∀ x : Nat, SkipsTo fourBlocks (· == 2) (6 : Nat) x → ¬ (0 < 3 ∧
          fourBlocks.readCount x 3 < 4 - x % 4 ∧ 4294967296 ≤ fourBlocks.blockEnd x)) :=
  transfers_fit_iff (by decide) (by decide)

/-- A write of 17 bytes at 0 copies 16 of them into a buffer of four. -/
theorem transfers_not_fit :
    ¬ ∀ (m : Mtd) (bad : Nat → Bool) (p n : Nat), m.erasesize ∣ m.size → p ≤ m.size →
      n < 4294967296 → WriteFits m bad p n ∧ ReadFits m bad p n := by
  intro h
  have hskip : SkipsTo fourBlocks (fun _ => false) (0 : Nat) 0 :=
    .here (by decide +kernel) rfl
  exact write_overflows (by decide) (by decide) hskip (by decide) (by decide)
    (h fourBlocks (fun _ => false) 0 17 (by decide) (by decide) (by decide)).1

end At91Drivers.Flash
