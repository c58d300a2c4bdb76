import At91Drivers.Flash.FaultFree
import At91Drivers.Flash.Rules

/-!
# Only good blocks are erased and programmed

Whatever fails and whatever is answered, every erase and every program of a call is
for one whole block inside the device that the same call asked about and was
told is good.  The position is what selects the block, and it is moved by every
call; the invariant of a whole run is that it stays within one block past the
end of the device (`Placed`).
-/

namespace At91Drivers.Flash

open Effects Arith

/-- The range is one whole block, inside the device and not bad, that was
reported good before. -/
def ReportedGood (m : Mtd) (bad : Nat → Bool) (past : History) (addr len : Nat) : Prop :=
  ∃ k < m.blocks, addr = k * m.erasesize ∧ len = m.erasesize ∧ addr + len ≤ m.size ∧
    bad k = false ∧ ⟨.blockIsbad addr, (0 : Int)⟩ ∈ past

def GoodBlock (m : Mtd) (bad : Nat → Bool) (past : History) : Op → Prop
  | .mtdErase addr len => ReportedGood m bad past addr len
  | .mtdWrite addr len _ => ReportedGood m bad past addr len
  | _ => True

/-- A position that a call may leave: inside the device, or in the block after
its last one. -/
def Placed (m : Mtd) (ppos : Int) : Prop := ∃ k : Nat, ppos = k ∧ k / m.erasesize ≤ m.blocks

/-- A call that ends leaves such a position. -/
def LeavesPlaced (m : Mtd) (r : Option Ret) : Prop := ∀ r', r = some r' → Placed m r'.ppos

variable {m : Mtd} {bad : Nat → Bool}

theorem goodBlock_policy : Policy (GoodBlock m bad) where
  grows := by
    intro past e h later
    cases e with
    | mtdErase addr len =>
        obtain ⟨k, hk, haddr, hlen, hin, hgood, hmem⟩ := h
        exact ⟨k, hk, haddr, hlen, hin, hgood, List.mem_append_left _ hmem⟩
    | mtdWrite addr len src =>
        obtain ⟨k, hk, haddr, hlen, hin, hgood, hmem⟩ := h
        exact ⟨k, hk, haddr, hlen, hin, hgood, List.mem_append_left _ hmem⟩
    | _ => trivial
  harmless := by
    intro past e he
    cases e <;> first | exact he.elim | trivial

theorem placed_of_le_size {k : Nat} (h : k ≤ m.size) : Placed m k :=
  ⟨k, rfl, Nat.div_le_div_right h⟩

/-- A transfer of at most a block from inside the device. -/
theorem placed_of_le_add {k x : Nat} (hx : x / m.erasesize < m.blocks)
    (h : k ≤ x + m.erasesize) : Placed m k := by
  refine ⟨k, rfl, (Nat.div_le_div_right h).trans ?_⟩
  rw [Nat.add_div_right _ m.erasesize_pos]
  exact hx

theorem leavesPlaced_some {r : Ret} (h : Placed m r.ppos) : LeavesPlaced m (some r) := by
  rintro r' ⟨⟩
  exact h

theorem leavesPlaced_none : LeavesPlaced m none := fun _ h => nomatch h

section Small

variable (hsize : m.size < 4294967296) {fuel buf count p : Nat} (hp : p / m.erasesize ≤ m.blocks)

include hsize

/-- The block that a search found may be read, erased and programmed. -/
theorem blockMay_found {past : History} {k : Nat} (hk : k / m.erasesize < m.blocks)
    (hmem : ⟨.blockIsbad (k / m.erasesize * m.erasesize), (0 : Int)⟩ ∈ past)
    (hgood : Sane m bad (.blockIsbad (k / m.erasesize * m.erasesize)) (0 : Int)) :
    BlockMay m (GoodBlock m bad) past (k / m.erasesize : Nat) := by
  have hreported : ReportedGood m bad past (m.ebAddr (k / m.erasesize : Nat))
      m.erasesize := by
    have hin := inDevice_of_lt hsize hk
    rw [ebAddr_of_lt hsize hk] at hin ⊢
    refine ⟨k / m.erasesize, hk, rfl, rfl, hin, ?_, hmem⟩
    have hmap := not_iff_not.mpr hgood
    rw [Nat.mul_div_cancel _ m.erasesize_pos, Bool.not_eq_true] at hmap
    exact hmap.mp (not_not.mpr rfl)
  exact ⟨trivial, hreported, fun _ => hreported⟩

omit hsize in
theorem placed_of_found {q : Int} (hp : p / m.erasesize ≤ m.blocks)
    (h : ∃ k : Nat, q = k ∧ (k = p ∨ k ≤ m.extent)) : Placed m q := by
  obtain ⟨k, rfl, rfl | hk⟩ := h
  · exact ⟨k, rfl, hp⟩
  · exact placed_of_le_size (hk.trans m.extent_le_size)

/-- A search from a position that a call may leave. -/
theorem meets_skip_found {allow : (e : Op) → Reply e → Prop} {may : History → Op → Prop}
    (hpolicy : Policy may) (hp : p / m.erasesize ≤ m.blocks) {past : History} :
    (skipBadBlocks m fuel p).Meets allow may (Found m allow p) past := by
  have hblocks := m.blocks_lt
  have hes := m.erasesize_lt
  have hext := m.extent_le_size
  have hlt := m.lt_of_div_le hp
  refine meets_skipBadBlocks_found hpolicy hsize ?_ (by omega)
  rw [Mtd.blocks] at hp
  omega

theorem meets_skip_placed (hp : p / m.erasesize ≤ m.blocks) {past : History} :
    (skipBadBlocks m fuel p).Meets (Sane m bad) (GoodBlock m bad) (Found m (Sane m bad) p)
      past :=
  meets_skip_found hsize goodBlock_policy hp

/-! ## write -/

/-- The search for the second block, from the end of the first one. -/
theorem second_good {x first : Nat} (hx : x / m.erasesize < m.blocks)
    (hfirst : first = m.erasesize - x % m.erasesize) (hcount : first ≤ count)
    (hcount' : count ≤ first + m.erasesize) {past : History} :
    (skipBadBlocks m fuel (m.blockEnd x)).Meets (Sane m bad) (GoodBlock m bad)
      (SecondMay m (Sane m bad) (GoodBlock m bad) (LeavesPlaced m) buf count first) past := by
  have hes := m.erasesize_lt
  have hext := m.extent_le_size
  have hend : m.blockEnd x / m.erasesize ≤ m.blocks := by
    rw [m.blockEnd_div]
    exact hx
  refine (meets_skip_placed hsize hend).mono fun later s hs => ?_
  cases s with
  | spinning => exact leavesPlaced_none
  | noBlock q => exact leavesPlaced_some (placed_of_found hend hs)
  | endOfFile q =>
      obtain ⟨k, hk, hk'⟩ := hs
      exact leavesPlaced_some (placed_of_found hend ⟨k, hk, .inr hk'⟩)
  | good y b o =>
      obtain ⟨k, rfl, rfl, rfl, hlt, -, -, hmem, hgood⟩ := hs
      have hkext := m.lt_extent_iff.mpr hlt
      have hrest : u32 ((count : Int) - first) = count - first := by
        rw [← Nat.cast_sub hcount, u32_natCast (by omega)]
      refine ⟨blockMay_found hsize hlt hmem hgood, trivial, ?_, ?_⟩
      · exact leavesPlaced_some (placed_of_le_size (hkext.le.trans hext))
      · intro _ _ _
        rw [hrest, ← Nat.cast_add, i64_natCast (by omega)]
        exact leavesPlaced_some (placed_of_le_add hlt (by omega))

/-- The paths of a write from a landing. -/
theorem first_good {x : Nat} (hx : x / m.erasesize < m.blocks) (hcount : count < 4294967296)
    {past : History} (hblock : BlockMay m (GoodBlock m bad) past (x / m.erasesize : Nat)) :
    WriteMay m (Sane m bad) (GoodBlock m bad) (LeavesPlaced m) fuel buf count x
      (x / m.erasesize : Nat) (m.blockoffset x) past := by
  have hes := m.erasesize_lt
  have hext := m.extent_le_size
  have hxext := m.lt_extent_iff.mpr hx
  have hendEq := m.blockEnd_eq x
  refine ⟨hblock, fun _ => trivial, fun _ _ => trivial, fun _ hnot hguard => ⟨trivial, ?_⟩, ?_, ?_⟩
  · intro _ _ _ later
    rw [ebAddr_next hsize hx, ← Nat.cast_add, i64_natCast (by omega)] at hnot
    have hwide := m.ebAddr_add_two_le x
    rw [← Nat.cast_add, i64_natCast (by omega)] at hguard
    rw [Mtd.u32_sub_blockoffset (by omega), ← Nat.cast_add, i64_natCast (by omega), ← hendEq]
    exact second_good hsize hx rfl (by omega) (by omega)
  · exact leavesPlaced_some (placed_of_le_size (hxext.le.trans hext))
  · intro src r hr
    have hr' : r.retlen ≤ m.erasesize := hr
    rw [← Nat.cast_add, i64_natCast (by omega)]
    exact leavesPlaced_some (placed_of_le_add hx (by omega))

include hp

theorem writeCount_good (hcount : count < 4294967296) {past : History} :
    (writeCount m fuel buf count p).Meets (Sane m bad) (GoodBlock m bad)
      (fun _ => LeavesPlaced m) past := by
  have hext := m.extent_le_size
  refine meets_writeCount goodBlock_policy (leavesPlaced_some ⟨p, rfl, hp⟩)
    ((meets_skip_placed hsize hp).mono fun later s hs => ?_)
  cases s with
  | spinning => exact leavesPlaced_none
  | noBlock q => exact leavesPlaced_some (placed_of_found hp hs)
  | endOfFile q =>
      obtain ⟨k, hk, hk'⟩ := hs
      exact leavesPlaced_some (placed_of_found hp ⟨k, hk, .inr hk'⟩)
  | good x b o =>
      obtain ⟨k, rfl, rfl, rfl, hlt, -, -, hmem, hgood⟩ := hs
      have hkext := m.lt_extent_iff.mpr hlt
      refine ⟨leavesPlaced_some (placed_of_le_size (hkext.le.trans hext)), fun kbuf => ?_⟩
      exact first_good hsize hlt hcount
        ((blockMay_found hsize hlt hmem hgood).grows goodBlock_policy _)

theorem write_good {past : History} :
    (at91flashWrite m fuel buf count p).Meets (Sane m bad) (GoodBlock m bad)
      (fun _ => LeavesPlaced m) past := by
  have hes := m.erasesize_lt
  unfold at91flashWrite
  split
  · exact writeCount_good hsize hp (u32_lt _)
  · split
    · exact leavesPlaced_some ⟨p, rfl, hp⟩
    · exact writeCount_good hsize hp (by omega)

/-! ## read -/

omit hp

/-- A part of a read moves the position within the device. -/
theorem delivered_le_size {x len : Nat} (hx : x ≤ m.size) {r : ReadReply}
    (hr : Sane m bad (.mtdRead (u64 (x : Nat)) len) r) :
    ∃ k : Nat, delivered x r.retlen = k ∧ k ≤ m.size := by
  have hlast := hr.2
  rw [u64_natCast (by omega)] at hlast
  unfold delivered
  by_cases hzero : r.retlen = 0
  · rw [if_neg (not_not.mpr hzero)]
    exact ⟨x, rfl, hx⟩
  · rw [if_pos hzero, ← Nat.cast_add, i64_natCast (by omega)]
    exact ⟨x + r.retlen, rfl, by omega⟩

theorem part_good {x len : Nat} (hx : x ≤ m.size) {past : History} :
    PartMay (Sane m bad) (GoodBlock m bad) (LeavesPlaced m) past x len := by
  refine ⟨trivial, fun r hr ret => ?_⟩
  obtain ⟨k, hk, hk'⟩ := delivered_le_size hsize hx hr
  exact leavesPlaced_some ((congrArg (Placed m) hk).mpr (placed_of_le_size hk'))

theorem readSecond_good {x readlen readtmplen : Nat} (hx : x ≤ m.size) {past : History} :
    (skipBadBlocks m fuel x).Meets (Sane m bad) (GoodBlock m bad)
      (ReadSecondMay (Sane m bad) (GoodBlock m bad) (LeavesPlaced m) count readlen readtmplen)
      past := by
  have hext := m.extent_le_size
  have hquot : x / m.erasesize ≤ m.blocks := Nat.div_le_div_right hx
  refine (meets_skip_placed hsize hquot).mono fun later s hs => ?_
  cases s with
  | spinning => exact leavesPlaced_none
  | noBlock q => exact leavesPlaced_some (placed_of_found hquot hs)
  | endOfFile q =>
      obtain ⟨k, hk, hk'⟩ := hs
      exact leavesPlaced_some (placed_of_found hquot ⟨k, hk, .inr hk'⟩)
  | good y b o =>
      obtain ⟨k, rfl, -, -, hlt, -⟩ := hs
      exact part_good hsize ((m.lt_extent_iff.mpr hlt).le.trans hext)

include hp

theorem read_good {past : History} :
    (at91flashRead m fuel buf count p).Meets (Sane m bad) (GoodBlock m bad)
      (fun _ => LeavesPlaced m) past := by
  have hext := m.extent_le_size
  refine meets_at91flashRead goodBlock_policy
    ((meets_skip_placed hsize hp).mono fun later s hs => ?_)
  cases s with
  | spinning => exact leavesPlaced_none
  | noBlock q => exact leavesPlaced_some (placed_of_found hp hs)
  | endOfFile q =>
      obtain ⟨k, hk, hk'⟩ := hs
      exact leavesPlaced_some (placed_of_found hp ⟨k, hk, .inr hk'⟩)
  | good x b o =>
      obtain ⟨k, rfl, rfl, -, hlt, -⟩ := hs
      have hk := (m.lt_extent_iff.mpr hlt).le.trans hext
      refine ⟨fun ret => leavesPlaced_some (placed_of_le_size hk), fun _ readbuf =>
        ⟨fun _ => part_good hsize hk, fun _ => ⟨part_good hsize hk, fun r hr later' => ?_⟩⟩⟩
      obtain ⟨k', hk', hle⟩ := delivered_le_size hsize hk hr
      rw [hk']
      exact readSecond_good hsize hle

end Small

/-! ## lseek, ioctl and whole runs -/

/-- A seek goes inside the device or leaves the position where it is. -/
theorem lseek_cases (m : Mtd) (fPos offset orig : Int) :
    (at91flashLseek m fPos offset orig).ppos = fPos ∨
      ∃ k : Nat, (at91flashLseek m fPos offset orig).ppos = k ∧ k ≤ m.size := by
  have hseek (target : Int) :
      (if 0 ≤ i64 target ∧ u64 (i64 target) ≤ m.size then (⟨i64 target, i64 target⟩ : Ret)
        else ⟨-EINVAL, fPos⟩).ppos = fPos ∨
      ∃ k : Nat, (if 0 ≤ i64 target ∧ u64 (i64 target) ≤ m.size then
        (⟨i64 target, i64 target⟩ : Ret) else ⟨-EINVAL, fPos⟩).ppos = k ∧ k ≤ m.size := by
    by_cases h : 0 ≤ i64 target ∧ u64 (i64 target) ≤ m.size
    · obtain ⟨k, hk⟩ := Int.eq_ofNat_of_zero_le h.1
      have hbound := i64_lt target
      have hsize := h.2
      rw [hk, u64_natCast (by omega)] at hsize
      rw [if_pos h, hk]
      exact .inr ⟨k, rfl, hsize⟩
    · rw [if_neg h]
      exact .inl rfl
  unfold at91flashLseek
  split
  · exact hseek _
  · exact hseek _
  · exact hseek _
  · exact .inl rfl

theorem lseek_placed {fPos : Int} (hpos : Placed m fPos) (offset orig : Int) :
    Placed m (at91flashLseek m fPos offset orig).ppos := by
  rcases lseek_cases m fPos offset orig with h | ⟨k, h, hk⟩
  · rwa [h]
  · rw [h]
    exact placed_of_le_size hk

variable {fuel : Nat}

theorem ioctlReturn_good {karg : FlashData} {fPos : Int} (hpos : Placed m fPos)
    {past : History} :
    (ioctlReturn karg fPos).Meets (Sane m bad) (GoodBlock m bad) (fun _ => LeavesPlaced m)
      past := by
  refine ⟨trivial, fun ok _ => ?_⟩
  cases ok <;> exact leavesPlaced_some hpos

/-- The calls one after the other on one open file: the trace of each, until
one does not return. -/
def runCalls {σ : Type} (m : Mtd) (fuel : Nat) (h : Handler Op Reply σ) :
    List Call → Int → σ → List History
  | [], _, _ => []
  | c :: rest, fPos, s =>
      (c.body m fuel fPos).trace h s ::
        match (c.body m fuel fPos).run h s with
        | (none, _) => []
        | (some r, s') => runCalls m fuel h rest r.ppos s'

/-- In every call of a run every erase and program is for a whole good block
that the same call was told is good. -/
def KeepsToGoodBlocks (m : Mtd) (bad : Nat → Bool) (traces : List History) : Prop :=
  ∀ trace ∈ traces, ∀ before event after, trace = before ++ event :: after →
    GoodBlock m bad before event.1

section Runs

variable (hsize : m.size < 4294967296)

include hsize

/-- Every call of a process keeps to good blocks and leaves such a position. -/
theorem call_good (bad : Nat → Bool) (fuel : Nat) {fPos : Int} (hpos : Placed m fPos) (c : Call) :
    (c.body m fuel fPos).Meets (Sane m bad) (GoodBlock m bad) (fun _ => LeavesPlaced m) [] := by
  cases c with
  | lseek offset orig => exact leavesPlaced_some (lseek_placed hpos _ _)
  | read buf count =>
      obtain ⟨p, rfl, hp⟩ := hpos
      exact read_good hsize hp
  | write buf count =>
      obtain ⟨p, rfl, hp⟩ := hpos
      exact write_good hsize hp
  | ioctl cmd =>
      unfold Call.body at91flashIoctl
      rw [Prog.meets_bind, Prog.meets_perform]
      refine ⟨trivial, fun karg _ => ?_⟩
      cases karg with
      | none => exact leavesPlaced_some hpos
      | some karg =>
          obtain ⟨p, hp, hp'⟩ := lseek_placed hpos karg.offset.toInt 0
          dsimp only
          split
          · rw [Prog.meets_bind, hp]
            refine (read_good hsize hp').mono fun later r hr => ?_
            cases r with
            | none => exact leavesPlaced_none
            | some r => exact ioctlReturn_good (hr r rfl)
          · rw [Prog.meets_bind, hp]
            refine (write_good hsize hp').mono fun later r hr => ?_
            cases r with
            | none => exact leavesPlaced_none
            | some r => exact ioctlReturn_good (hr r rfl)
          · exact leavesPlaced_some hpos

/-- From a position that a call may leave, every call of a run keeps to good
blocks. -/
theorem runCalls_good {σ : Type} {h : Handler Op Reply σ} (hh : Prog.Obeys h (Sane m bad))
    (calls : List Call) {fPos : Int} (hpos : Placed m fPos) (s : σ) :
    KeepsToGoodBlocks m bad (runCalls m fuel h calls fPos s) := by
  induction calls generalizing fPos s with
  | nil => exact fun _ htrace => absurd htrace List.not_mem_nil
  | cons c rest ih =>
      have hcall := call_good hsize bad fuel hpos c
      intro trace htrace before event after hsplit
      rcases List.mem_cons.mp htrace with rfl | hrest
      · exact hcall.sound_ask hh s hsplit
      · have hpost := hcall.sound_post hh s
        generalize (c.body m fuel fPos).run h s = out at hrest hpost
        obtain ⟨r, s'⟩ := out
        cases r with
        | none => cases hrest
        | some r => exact ih (hpost r rfl) s' trace hrest before event after hsplit

/-- On a file opened at position 0. -/
theorem runCalls_good_from_start {σ : Type} {h : Handler Op Reply σ}
    (hh : Prog.Obeys h (Sane m bad)) (calls : List Call) (s : σ) :
    KeepsToGoodBlocks m bad (runCalls m fuel h calls 0 s) :=
  runCalls_good hsize hh calls (placed_of_le_size (Nat.zero_le m.size)) s

end Runs

/-- A seek to 6 and two writes there, the second across the bad block 2. -/
theorem runCalls_good_at_six :
    KeepsToGoodBlocks fourBlocks (· == 2)
      (runCalls fourBlocks 5 (device fourBlocks (· == 2))
        [.lseek 6 0, .write 0 1, .lseek 6 0, .write 0 4, .lseek (-3) 2, .read 8 3] 0
        (quiet (fun _ => 1) (fun _ => 7) (fun _ => 9))) :=
  runCalls_good_from_start (by decide) (device_sane _ _) _ _

end At91Drivers.Flash
