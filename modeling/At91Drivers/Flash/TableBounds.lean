import At91Drivers.Flash.GoodBlocks

/-!
# The indices of the bad-block table

The loops store what they learn about a block at `bbt[ebnum]`, where `ebnum` is
the quotient of the position by the erase size, put into an `int` and compared
with `ebcnt` from above only.  A position whose quotient is not an `int` makes
it negative, or the number of another block.
-/

namespace At91Drivers.Flash

open Effects Arith

/-! ## The position during a call -/

/-- How an operation, or the assignment next to it, moves `*ppos`: a bad block
jumps to the next, bytes for the user advance by their number, and the program
of a first block goes on to its end. -/
def Mtd.moved (m : Mtd) (pos : Int) : Op → Int
  | .bbtStore ebnum true => m.ebAddr (ebnum + 1)
  | .copyToUser _ len _ => i64 (pos + len)
  | .mtdWrite _ _ _ => i64 (pos + u32 (m.erasesize - m.blockoffset pos))
  | _ => pos

/-- `*ppos` after the events of a call that started at `p`. -/
def Mtd.position (m : Mtd) (p : Int) (past : History) : Int :=
  past.foldl (fun pos event => m.moved pos event.1) p

/-- An index of the table is inside it, and is the block of the position. -/
def IndexOk (m : Mtd) (p : Int) (past : History) : Op → Prop
  | .bbtStore ebnum _ =>
      (0 ≤ ebnum ∧ ebnum < m.ebcnt) ∧ ebnum = m.position p past / m.erasesize
  | _ => True

/-- All indices that a call uses are. -/
def IndicesOk (m : Mtd) (p : Int) (trace : History) : Prop :=
  Prog.Observed (IndexOk m p) [] trace

variable {m : Mtd} {bad : Nat → Bool} {allow : (e : Op) → Reply e → Prop} {p : Int}
  {past : History}

@[simp] theorem position_concat (e : Op) (r : Reply e) :
    m.position p (past ++ [⟨e, r⟩]) = m.moved (m.position p past) e := by
  simp [Mtd.position]

theorem position_mtdRead {addr len : Nat} {r : ReadReply} :
    m.position p (past ++ [⟨.mtdRead addr len, r⟩]) = m.position p past :=
  position_concat _ _

theorem position_kmalloc {size : Nat} {kbuf : Option (Nat → Byte)} :
    m.position p (past ++ [⟨.kmalloc size, kbuf⟩]) = m.position p past :=
  position_concat _ _

theorem position_copyFromUser {dst buf len : Nat} {data : Option (Nat → Byte)} :
    m.position p (past ++ [⟨.copyFromUser dst buf len, data⟩]) = m.position p past :=
  position_concat _ _

/-! ## The loop -/

/-- The loop leaves the position of its events, at a good block inside the
device. -/
def Stands (m : Mtd) (p : Int) (past : History) : Skip → Prop
  | .good x _ o =>
      o = m.blockoffset x ∧ m.position p past = x ∧ ∃ k : Nat, x = k ∧ k / m.erasesize < m.blocks
  | .noBlock q => m.position p past = q
  | .endOfFile q => m.position p past = q
  | .spinning => True

/-- A call leaves the position of its events. -/
def Accounted (m : Mtd) (p : Int) (past : History) (ret : Option Ret) : Prop :=
  ∀ r, ret = some r → m.position p past = r.ppos

theorem accounted_some {r : Ret} (h : m.position p past = r.ppos) :
    Accounted m p past (some r) := by
  rintro r' ⟨⟩
  exact h

theorem accounted_none : Accounted m p past none := fun _ h => nomatch h

theorem meets_free {r : Ret} (h : m.position p past = r.ppos) :
    (do ask .kfree; pure (some r) : Driver (Option Ret)).Meets allow (IndexOk m p) (Accounted m p)
      past :=
  ⟨trivial, fun _ _ => accounted_some ((position_concat _ _).trans h)⟩

section Small

variable (hsize : m.size < 4294967296)

include hsize

theorem indexed_skip {fuel k : Nat} (hk : k / m.erasesize < 2147483648)
    (hbound : k < 18446744073709551616) (hpos : m.position p past = k) :
    (skipBadBlocks m fuel k).Meets allow (IndexOk m p) (Stands m p) past := by
  induction fuel generalizing k past with
  | zero => exact trivial
  | succ fuel ih =>
      unfold skipBadBlocks
      rw [m.ebcnt_eq, Mtd.ebnum_natCast hk hbound]
      by_cases hend : m.blocks ≤ k / m.erasesize
      · rw [if_pos (by exact_mod_cast hend)]
        exact hpos
      · have hblock : k / m.erasesize < m.blocks := not_le.mp hend
        rw [if_neg (by exact_mod_cast hend)]
        refine ⟨trivial, fun ret _ => ⟨⟨⟨Int.natCast_nonneg _, ?_⟩, ?_⟩, fun store _ => ?_⟩⟩
        · rw [m.ebcnt_eq]
          exact_mod_cast hblock
        · rw [position_concat]
          exact congrArg (· / (m.erasesize : Int)) hpos.symm
        · change (if _ then _ else _ : Driver Skip).Meets _ _ _ _
          by_cases hret : ret ≠ 0
          · have hjump := jump_natCast hsize hblock
            have hend := m.blockEnd_le_extent hblock
            have hext := m.extent_le_size
            have hblocks := m.blocks_lt
            rw [jump, Mtd.ebnum_natCast hk hbound] at hjump
            -- a bad block moves the position on to its end
            have hmoved : m.position p (past ++ [⟨.blockIsbad _, ret⟩] ++
                [⟨.bbtStore (k / m.erasesize : Nat) (decide (ret ≠ 0)), store⟩]) =
                m.blockEnd k := by
              rw [position_concat, decide_eq_true hret]
              exact hjump
            rw [if_pos hret, hjump]
            split
            · exact hmoved
            · refine ih ?_ (by omega) hmoved
              rw [m.blockEnd_div]
              rw [Mtd.blocks] at hblock
              omega
          · rw [if_neg hret]
            refine ⟨rfl, ?_, k, rfl, hblock⟩
            rw [position_concat, position_concat, decide_eq_false hret]
            exact hpos

omit hsize in
theorem div_le_blocks {k : Nat} (hk : k ≤ m.size) : k / m.erasesize < 2147483648 :=
  (Nat.div_le_div_right hk).trans_lt m.blocks_lt

/-! ## read -/

omit hsize in
theorem indexed_deliver {buf readlen : Nat} {x : Int} {readbuf : Nat → Byte}
    (hpos : m.position p past = x) :
    (deliver buf x readlen readbuf).Meets allow (IndexOk m p)
      (fun later r => r.2 = delivered x readlen ∧ m.position p later = delivered x readlen)
      past := by
  unfold deliver delivered
  by_cases hlen : readlen ≠ 0
  · rw [if_pos hlen, if_pos hlen]
    refine ⟨trivial, fun ok _ => ⟨rfl, ?_⟩⟩
    rw [position_concat, ← hpos]
    rfl
  · rw [if_neg hlen, if_neg hlen]
    exact ⟨rfl, hpos⟩

theorem indexed_readSecond {fuel buf count readlen readtmplen k : Nat} (hk : k ≤ m.size)
    (hpos : m.position p past = k) :
    (readSecond m fuel buf count k readlen readtmplen).Meets (Sane m bad) (IndexOk m p)
      (Accounted m p) past := by
  unfold readSecond
  rw [Prog.meets_bind]
  refine (indexed_skip hsize (div_le_blocks hk) (by omega) hpos).mono fun later s hs => ?_
  cases s with
  | spinning => exact accounted_none
  | noBlock q => exact meets_free hs
  | endOfFile q => exact meets_free hs
  | good x b o =>
      refine ⟨trivial, fun r hr => ?_⟩
      change (deliver _ _ _ _ >>= _).Meets _ _ _ _
      rw [Prog.meets_bind]
      refine (indexed_deliver (position_mtdRead.trans hs.2.1)).mono fun later' delivery h => ?_
      obtain ⟨ok, x⟩ := delivery
      cases ok with
      | true => exact meets_free (h.2.trans h.1.symm)
      | false => exact meets_free (h.2.trans h.1.symm)

theorem indexed_readBlocks {fuel buf count k : Nat} {x b : Int} (hx : x = k) (hk : k ≤ m.size)
    (hpos : m.position p past = x) :
    (readBlocks m fuel buf count x b).Meets (Sane m bad) (IndexOk m p) (Accounted m p) past := by
  subst hx
  unfold readBlocks
  by_cases hjump : (m.ebAddr (b + 1) : Int) < i64 (k + count)
  · rw [if_pos hjump]
    refine ⟨trivial, fun r hr => ?_⟩
    obtain ⟨j, hj, hj'⟩ := delivered_le_size hsize hk hr
    change (deliver _ _ _ _ >>= _).Meets _ _ _ _
    rw [Prog.meets_bind]
    refine (indexed_deliver (position_mtdRead.trans hpos)).mono fun later delivery h => ?_
    obtain ⟨ok, x⟩ := delivery
    obtain ⟨rfl, hpos'⟩ := h
    cases ok with
    | true =>
        dsimp only
        rw [hj] at hpos' ⊢
        exact indexed_readSecond hsize hj' hpos'
    | false => exact meets_free hpos'
  · rw [if_neg hjump, if_pos (not_lt.mp hjump)]
    refine ⟨trivial, fun r hr => ?_⟩
    change (deliver _ _ _ _ >>= _).Meets _ _ _ _
    rw [Prog.meets_bind]
    refine (indexed_deliver (position_mtdRead.trans hpos)).mono fun later delivery h => ?_
    obtain ⟨ok, x⟩ := delivery
    cases ok with
    | true => exact meets_free (h.2.trans h.1.symm)
    | false => exact meets_free (h.2.trans h.1.symm)

omit hsize in
theorem le_size_of_block {k : Nat} (h : k / m.erasesize < m.blocks) : k ≤ m.size :=
  (m.lt_extent_iff.mpr h).le.trans m.extent_le_size

theorem indexed_read_from {fuel buf count k : Nat} (hk : k / m.erasesize < 2147483648)
    (hbound : k < 18446744073709551616) (hpos : m.position p past = k) :
    (at91flashRead m fuel buf count k).Meets (Sane m bad) (IndexOk m p) (Accounted m p) past := by
  unfold at91flashRead
  rw [Prog.meets_bind]
  refine (indexed_skip hsize hk hbound hpos).mono fun later s hs => ?_
  cases s with
  | spinning => exact accounted_none
  | noBlock q => exact accounted_some hs
  | endOfFile q => exact accounted_some hs
  | good x b o =>
      obtain ⟨-, hpos, j, hx, hblock⟩ := hs
      dsimp only
      by_cases hclip : m.clip x count = 0
      · rw [if_pos hclip]
        exact accounted_some hpos
      · rw [if_neg hclip]
        refine ⟨trivial, fun readbuf _ => ?_⟩
        cases readbuf with
        | none => exact accounted_some (position_kmalloc.trans hpos)
        | some readbuf =>
            exact indexed_readBlocks hsize hx (le_size_of_block hblock)
              (position_kmalloc.trans hpos)

theorem indexed_read {fuel buf count k : Nat} (hk : k / m.erasesize < 2147483648)
    (hbound : k < 18446744073709551616) :
    (at91flashRead m fuel buf count k).Meets (Sane m bad) (IndexOk m k) (Accounted m k) [] :=
  indexed_read_from hsize hk hbound rfl

/-- The events of a read account for the position that it leaves. -/
theorem position_after_read {fuel buf count k : Nat} (hk : k / m.erasesize < 2147483648)
    (hbound : k < 18446744073709551616) {w w' : World} {r : Ret}
    (hrun : (at91flashRead m fuel buf count k).run (device m bad) w = (some r, w')) :
    m.position k ((at91flashRead m fuel buf count k).trace (device m bad) w) = r.ppos :=
  (indexed_read hsize hk hbound).sound_post (device_sane m bad) w r (congrArg Prod.fst hrun)

/-! ## write -/

omit hsize in
theorem indexed_readBlock {b : Int} {kbuf : Nat → Byte} :
    (readBlock m b kbuf).Meets allow (IndexOk m p)
      (fun later _ => m.position p later = m.position p past) past := by
  unfold readBlock
  rw [Prog.meets_bind]
  refine ⟨trivial, fun r _ => ?_⟩
  change (if _ then _ else _ : Driver (Option (Nat → Byte))).Meets _ _ _ _
  split
  · exact position_concat _ _
  · exact position_concat _ _

omit hsize in
/-- The position after a program is that of the next block. -/
theorem indexed_commit {b : Int} {kbuf : Nat → Byte} :
    (commit m b kbuf).Meets allow (IndexOk m p)
      (fun later res => ∀ r, res = .ok r → m.position p later =
        i64 (m.position p past + u32 (m.erasesize - m.blockoffset (m.position p past)))) past := by
  unfold commit
  rw [Prog.meets_bind]
  unfold eraseEraseblock
  rw [Prog.meets_bind]
  refine ⟨trivial, fun ei _ => ?_⟩
  have hrest (err : Int) : Prog.Meets allow (IndexOk m p)
      (fun later res => ∀ r, res = .ok r → m.position p later =
        i64 (m.position p past + u32 (m.erasesize - m.blockoffset (m.position p past))))
      (if err ≠ 0 then pure (.error err) else do
        let r ← ask (.mtdWrite (m.ebAddr b) m.erasesize kbuf)
        pure (.ok r) : Driver (Except Int WriteReply))
      (past ++ [⟨.mtdErase (m.ebAddr b) m.erasesize, ei⟩]) := by
    split
    · rintro r ⟨⟩
    · refine ⟨trivial, fun r _ _ _ => ?_⟩
      rw [position_concat, position_concat]
      rfl
  change (if _ then _ else _ : Driver Int).Meets _ _ _ _
  split
  · exact hrest _
  · split
    · exact hrest _
    · exact hrest _

omit hsize in
theorem indexed_eraseAction {x b : Int} {kbuf : Nat → Byte} :
    (eraseAction m x b kbuf).Meets allow (IndexOk m p) (fun _ _ => True) past := by
  unfold eraseAction
  rw [Prog.meets_bind]
  refine indexed_commit.mono fun later res _ => ?_
  cases res with
  | error err => exact ⟨trivial, fun _ _ => trivial⟩
  | ok r => exact ⟨trivial, fun _ _ => trivial⟩

theorem indexed_writeSecond {fuel buf count first k : Nat} {x : Int} {kbuf : Nat → Byte}
    (hx : x = k) (hk : k ≤ m.size) (hpos : m.position p past = x) :
    (writeSecond m fuel buf count first x kbuf).Meets allow (IndexOk m p) (fun _ _ => True)
      past := by
  subst hx
  unfold writeSecond
  rw [Prog.meets_bind]
  refine (indexed_skip hsize (div_le_blocks hk) (by omega) hpos).mono fun later s _ => ?_
  cases s with
  | spinning => exact trivial
  | noBlock q => exact ⟨trivial, fun _ _ => trivial⟩
  | endOfFile q => exact ⟨trivial, fun _ _ => trivial⟩
  | good y b o =>
      dsimp only
      rw [Prog.meets_bind]
      refine indexed_readBlock.mono fun later' kbuf _ => ?_
      cases kbuf with
      | none => exact ⟨trivial, fun _ _ => trivial⟩
      | some kbuf =>
          refine ⟨trivial, fun data _ => ?_⟩
          cases data with
          | none => exact ⟨trivial, fun _ _ => trivial⟩
          | some data =>
              change (commit m b _ >>= _).Meets _ _ _ _
              rw [Prog.meets_bind]
              refine indexed_commit.mono fun later'' res _ => ?_
              cases res with
              | error err => exact ⟨trivial, fun _ _ => trivial⟩
              | ok r => exact ⟨trivial, fun _ _ => trivial⟩

theorem indexed_writeJump {fuel buf count k : Nat} {x b o : Int} {kbuf : Nat → Byte}
    (hx : x = k) (hblock : k / m.erasesize < m.blocks) (ho : o = m.blockoffset x)
    (hpos : m.position p past = x) :
    (writeJump m fuel buf count x b o kbuf).Meets allow (IndexOk m p) (fun _ _ => True)
      past := by
  refine ⟨trivial, fun data _ => ?_⟩
  cases data with
  | none => exact ⟨trivial, fun _ _ => trivial⟩
  | some data =>
      change (commit m b _ >>= _).Meets _ _ _ _
      rw [Prog.meets_bind]
      refine indexed_commit.mono fun later res h => ?_
      cases res with
      | error err => exact ⟨trivial, fun _ _ => trivial⟩
      | ok r =>
          have hafter := h r rfl
          rw [position_copyFromUser, hpos, ← ho] at hafter
          have hend := m.blockEnd_le_extent hblock
          have hext := m.extent_le_size
          have hnext : i64 (x + u32 (m.erasesize - o)) = m.blockEnd k := by
            have hend' := m.blockEnd_eq k
            rw [ho, hx, Mtd.u32_sub_blockoffset (by omega), ← Nat.cast_add,
              i64_natCast (by omega)]
            omega
          exact indexed_writeSecond hsize hnext (hend.trans hext) hafter

theorem indexed_writeBlocks {fuel buf count k : Nat} {x b o : Int} {kbuf : Nat → Byte}
    (hx : x = k) (hblock : k / m.erasesize < m.blocks) (ho : o = m.blockoffset x)
    (hpos : m.position p past = x) :
    (writeBlocks m fuel buf count x b o kbuf).Meets allow (IndexOk m p) (fun _ _ => True)
      past := by
  unfold writeBlocks
  by_cases hzero : x = 0
  · rw [if_pos hzero]
    refine ⟨trivial, fun data _ => ?_⟩
    cases data with
    | none => exact ⟨trivial, fun _ _ => trivial⟩
    | some data => exact indexed_eraseAction
  · rw [if_neg hzero, Prog.meets_bind]
    refine indexed_readBlock.mono fun later kbuf hread => ?_
    cases kbuf with
    | none => exact ⟨trivial, fun _ _ => trivial⟩
    | some kbuf =>
        dsimp only
        by_cases hfit : i64 (x + count) ≤ m.ebAddr (b + 1)
        · rw [if_pos hfit]
          refine ⟨trivial, fun data _ => ?_⟩
          cases data with
          | none => exact ⟨trivial, fun _ _ => trivial⟩
          | some data => exact indexed_eraseAction
        · rw [if_neg hfit]
          by_cases hguard : i64 (x + count) ≤ m.ebAddr (b + 2)
          · rw [if_pos hguard]
            exact indexed_writeJump hsize hx hblock ho (hread.trans hpos)
          · rw [if_neg hguard]
            exact ⟨trivial, fun _ _ => trivial⟩

theorem indexed_writeCount_from {fuel buf count k : Nat} (hk : k / m.erasesize < 2147483648)
    (hbound : k < 18446744073709551616) (hpos : m.position p past = k) :
    (writeCount m fuel buf count k).Meets allow (IndexOk m p) (fun _ _ => True) past := by
  unfold writeCount
  by_cases hcount : count = 0
  · rw [if_pos hcount]
    exact trivial
  · rw [if_neg hcount, Prog.meets_bind]
    refine (indexed_skip hsize hk hbound hpos).mono fun later s hs => ?_
    cases s with
    | spinning => exact trivial
    | noBlock q => exact trivial
    | endOfFile q => exact trivial
    | good x b o =>
        obtain ⟨ho, hpos, j, hx, hblock⟩ := hs
        refine ⟨trivial, fun kbuf _ => ?_⟩
        cases kbuf with
        | none => exact trivial
        | some kbuf =>
            exact indexed_writeBlocks hsize hx hblock ho (position_kmalloc.trans hpos)

theorem indexed_writeCount {fuel buf count k : Nat} (hk : k / m.erasesize < 2147483648)
    (hbound : k < 18446744073709551616) :
    (writeCount m fuel buf count k).Meets allow (IndexOk m k) (fun _ _ => True) [] :=
  indexed_writeCount_from hsize hk hbound rfl

end Small

/-! ## Positions whose quotient is not an `int` -/

section Large

variable {w : World} {fuel buf n q : Nat} (hfuel : 0 < fuel) (hq : q < 9223372036854775808)

include hq

theorem ebnum_eq_i32 : m.ebnum q = i32 (q / m.erasesize : Nat) := by
  rw [Mtd.ebnum, u64_natCast (by omega)]

include hfuel

/-- The first index of a call is the quotient as an `int`. -/
theorem not_indicesOk (hlarge : 2147483648 ≤ q / m.erasesize)
    (hin : i32 (q / m.erasesize : Nat) < m.ebcnt) (f : Skip → Driver (Option Ret)) :
    ¬ IndicesOk m q ((skipBadBlocks m fuel q >>= f).trace (device m bad) w) := by
  intro h
  obtain ⟨fuel, rfl⟩ := Nat.exists_eq_add_of_le' hfuel
  have hblocks := m.blocks_lt
  have hebcnt := m.ebcnt_eq
  rw [Mtd.blocks] at hebcnt
  rw [← ebnum_eq_i32 hq] at hin
  unfold skipBadBlocks at h
  rw [if_neg (not_le.mpr hin)] at h
  have hfirst := h [_] ⟨.bbtStore (m.ebnum q) _, ()⟩ _ rfl
  have hquot : m.ebnum q = (q / m.erasesize : Nat) := hfirst.2
  omega

theorem read_endsAtOnce (hend : m.ebcnt ≤ i32 (q / m.erasesize : Nat)) :
    (at91flashRead m fuel buf n q).trace (device m bad) w = [] := by
  obtain ⟨fuel, rfl⟩ := Nat.exists_eq_add_of_le' hfuel
  rw [← ebnum_eq_i32 hq] at hend
  unfold at91flashRead skipBadBlocks
  rw [if_pos hend]
  rfl

theorem writeCount_endsAtOnce (hend : m.ebcnt ≤ i32 (q / m.erasesize : Nat)) :
    (writeCount m fuel buf n q).trace (device m bad) w = [] := by
  obtain ⟨fuel, rfl⟩ := Nat.exists_eq_add_of_le' hfuel
  rw [← ebnum_eq_i32 hq] at hend
  unfold writeCount skipBadBlocks
  rw [if_pos hend]
  split
  · rfl
  · rfl

end Large

/-- The indices of a call are right exactly when the quotient of its position is
an `int`, when as an `int` it is past the last block, or when the call is a
write with no bytes left after the clip. -/
theorem indices_ok_iff {w : World} {fuel buf n q : Nat} (hsize : m.size < 4294967296)
    (hfuel : 0 < fuel) (hn : n < 4294967296) (hq : q < 9223372036854775808) :
    (IndicesOk m q ((at91flashRead m fuel buf n q).trace (device m bad) w) ↔
      q / m.erasesize < 2147483648 ∨ m.ebcnt ≤ i32 (q / m.erasesize : Nat)) ∧
    (IndicesOk m q ((at91flashWrite m fuel buf n q).trace (device m bad) w) ↔
      q / m.erasesize < 2147483648 ∨ m.ebcnt ≤ i32 (q / m.erasesize : Nat) ∨
        u32 (m.size - q) = 0) := by
  by_cases hint : q / m.erasesize < 2147483648
  · refine ⟨iff_of_true ?_ (.inl hint), iff_of_true ?_ (.inl hint)⟩
    · exact (indexed_read hsize hint (by omega)).observed (device_sane m bad) w
    · unfold at91flashWrite
      split
      · exact (indexed_writeCount hsize hint (by omega)).observed (device_sane m bad) w
      · split
        · exact Prog.observed_nil
        · exact (indexed_writeCount hsize hint (by omega)).observed (device_sane m bad) w
  have hlarge := not_lt.mp hint
  have hpast : m.size < q := by
    have hblocks := m.blocks_lt
    by_contra hle
    have hquot : q / m.erasesize ≤ m.size / m.erasesize := Nat.div_le_div_right (not_lt.mp hle)
    omega
  -- past the end of the device a write is clipped, and may have bytes left
  have hclip : at91flashWrite m fuel buf n q = writeCount m fuel buf (u32 (m.size - q)) q := by
    unfold at91flashWrite
    rw [if_pos]
    rw [← Nat.cast_add, u64_natCast (by omega)]
    omega
  by_cases hend : m.ebcnt ≤ i32 (q / m.erasesize : Nat)
  · refine ⟨iff_of_true ?_ (.inr hend), iff_of_true ?_ (.inr (.inl hend))⟩
    · rw [read_endsAtOnce hfuel hq hend]
      exact Prog.observed_nil
    · rw [hclip, writeCount_endsAtOnce hfuel hq hend]
      exact Prog.observed_nil
  have hin := not_le.mp hend
  constructor
  · exact iff_of_false (not_indicesOk hfuel hq hlarge hin _) fun h => h.elim hint hend
  · rw [hclip]
    unfold writeCount
    by_cases hcount : u32 (m.size - q) = 0
    · rw [if_pos hcount]
      exact iff_of_true Prog.observed_nil (.inr (.inr hcount))
    · rw [if_neg hcount]
      exact iff_of_false (not_indicesOk hfuel hq hlarge hin _)
        fun h => h.elim hint fun h => h.elim hend hcount

/-- 16 MiB in blocks of 16 KiB. -/
def nandChip : Mtd := ⟨16777216, 16384, by decide, by decide, by decide, by decide⟩

/-- A position just past the device. -/
theorem indices_ok_iff_past_end :
    (IndicesOk nandChip (16777216 : Nat) ((at91flashRead nandChip 1 0 1 (16777216 : Nat)).trace
        (device nandChip fun _ => false) (quiet (fun _ => 0) (fun _ => 0) fun _ => 0)) ↔
      16777216 / 16384 < 2147483648 ∨ nandChip.ebcnt ≤ i32 (16777216 / 16384 : Nat)) ∧
    (IndicesOk nandChip (16777216 : Nat) ((at91flashWrite nandChip 1 0 1 (16777216 : Nat)).trace
        (device nandChip fun _ => false) (quiet (fun _ => 0) (fun _ => 0) fun _ => 0)) ↔
      16777216 / 16384 < 2147483648 ∨ nandChip.ebcnt ≤ i32 (16777216 / 16384 : Nat) ∨
        u32 (nandChip.size - 16777216) = 0) :=
  indices_ok_iff (m := nandChip) (q := 16777216) (by decide) (by decide) (by decide) (by decide)

/-- At the position 2^45 the first index is -2147483648. -/
theorem index_negative :
    ¬ ∀ (m : Mtd) (bad : Nat → Bool) (w : World) (fuel buf n q : Nat), m.size < 4294967296 →
      0 < fuel → n < 4294967296 → q < 9223372036854775808 →
      IndicesOk m q ((at91flashRead m fuel buf n q).trace (device m bad) w) := by
  intro h
  have hok := h nandChip (fun _ => false) (quiet (fun _ => 0) (fun _ => 0) fun _ => 0) 1 0 1
    35184372088832 (by decide) (by decide) (by decide) (by decide)
  have hindex : i32 (35184372088832 / nandChip.erasesize : Nat) = -2147483648 := by
    decide +kernel
  exact not_indicesOk (by decide) (by decide) (by decide) (hindex ▸ by decide +kernel) _ hok

end At91Drivers.Flash
