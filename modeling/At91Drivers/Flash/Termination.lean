import At91Drivers.Effects.Bounded
import At91Drivers.Flash.Search

/-!
# Every call returns

The only loops of the driver look for a good block, and what ends them is the
answer of `block_isbad`, which may fail or change from one question to the next.
Below 4 GiB a call returns all the same, whatever any operation answers and
whatever position it starts from: a search moves on by a block in each round.
So the bound on the rounds takes nothing away once it is above the number of
blocks.

From 4 GiB on the 32-bit product of a jump wraps, and a search among bad blocks
goes round.

```text
call    at91flash_write:  search · kmalloc · read · copy · erase · program
                          search ·           read · copy · erase · program · kfree
search  at most one block_isbad and one bbt[ebnum] = … for each block, and one of
        each more from a position that is not on the device
```
-/

namespace At91Drivers.Flash

open Effects Arith

variable {m : Mtd}

/-! ## The search -/

/-- One round of the search, with what comes after it. -/
def searchRound (m : Mtd) (b : Int) (later : Int → Driver Skip) : Driver Skip := do
  let ret ← isBlockBad m b
  ask (.bbtStore b (decide (ret ≠ 0)))
  later ret

section Round

variable {b : Int} {later : Int → Driver Skip} {n : Nat}

theorem round_ends (h : ∀ ret, (later ret).Ends (· ≠ .spinning) n) :
    (searchRound m b later).Ends (· ≠ .spinning) (n + 2) :=
  fun ret _ => h ret

theorem ends_of_round (h : (searchRound m b later).Ends (· ≠ .spinning) n) (ret : Int) :
    (later ret).Ends (· ≠ .spinning) (n - 2) := by
  cases n with
  | zero => exact h.elim
  | succ n =>
      cases n with
      | zero => exact (h ret).elim
      | succ n => exact h ret ()

end Round

/-- What a round does with the answer. -/
def searchOn (m : Mtd) (fuel : Nat) (x ret : Int) : Driver Skip :=
  if ret ≠ 0 then
    if m.size ≤ u64 (m.ebAddr (m.ebnum x + 1)) then
      pure (.endOfFile (m.ebAddr (m.ebnum x + 1)))
    else
      skipBadBlocks m fuel (m.ebAddr (m.ebnum x + 1))
  else
    pure (.good x (m.ebnum x) (m.blockoffset x))

theorem skip_succ (fuel : Nat) (x : Int) :
    skipBadBlocks m (fuel + 1) x =
      if m.ebcnt ≤ m.ebnum x then pure (.noBlock x)
      else searchRound m (m.ebnum x) (searchOn m fuel x) := rfl

/-- A position of the device is in the block that C computes, and may be the end. -/
theorem ebnum_of_le_size {p : Nat} (hp : p ≤ m.size) : m.ebnum p = (p / m.erasesize : Nat) := by
  have hsize := m.size_lt
  have hblocks := m.blocks_lt
  have hdiv : p / m.erasesize ≤ m.size / m.erasesize := Nat.div_le_div_right hp
  exact Mtd.ebnum_natCast (by omega) (by omega)

/-- Where a jump goes is a 32-bit number. -/
theorem u64_ebAddr (b : Int) : u64 (m.ebAddr b) = m.ebAddr b := by
  have hlt : m.ebAddr b < 4294967296 := u32_lt _
  exact u64_natCast (by omega)

theorem searchOn_ends {fuel n : Nat} {x : Int}
    (h : m.ebAddr (m.ebnum x + 1) < m.size →
      (skipBadBlocks m fuel (m.ebAddr (m.ebnum x + 1))).Ends (· ≠ .spinning) n) (ret : Int) :
    (searchOn m fuel x ret).Ends (· ≠ .spinning) n := by
  unfold searchOn
  rw [u64_ebAddr]
  split
  · split
    · exact Skip.noConfusion
    · next heof => exact h (Nat.lt_of_not_le heof)
  · exact Skip.noConfusion

section Small

variable (hsize : m.size < 4294967296)

include hsize

/-- A jump goes to the start of the next block. -/
theorem jump_of_lt {p : Nat} (hp : p / m.erasesize < m.blocks) (hle : p ≤ m.size) :
    m.ebAddr (m.ebnum p + 1) = (p / m.erasesize + 1) * m.erasesize := by
  have hend : (p / m.erasesize + 1) * m.erasesize ≤ m.extent := Nat.mul_le_mul_right _ hp
  have hext := m.extent_le_size
  rw [ebnum_of_le_size hle, ← Nat.cast_add_one]
  exact Mtd.ebAddr_natCast (by omega)

/-- A search from a position of the device, by the number of blocks that are left. -/
theorem skip_ends_on_device {fuel p : Nat} (hp : p ≤ m.size)
    (hfuel : m.blocks < p / m.erasesize + fuel) :
    (skipBadBlocks m fuel p).Ends (· ≠ .spinning) (2 * (m.blocks - p / m.erasesize)) := by
  induction fuel generalizing p with
  | zero =>
      have hdiv : p / m.erasesize ≤ m.blocks := Nat.div_le_div_right hp
      omega
  | succ fuel ih =>
      rw [skip_succ, m.ebcnt_eq, ebnum_of_le_size hp]
      by_cases hend : m.blocks ≤ p / m.erasesize
      · rw [if_pos (Int.ofNat_le.mpr hend)]
        exact Skip.noConfusion
      · rw [if_neg (by exact_mod_cast hend)]
        have hlt : p / m.erasesize < m.blocks := Nat.lt_of_not_le hend
        have hnext : (p / m.erasesize + 1) * m.erasesize / m.erasesize = p / m.erasesize + 1 :=
          Nat.mul_div_cancel _ m.erasesize_pos
        have hleft : 2 * (m.blocks - p / m.erasesize) =
            2 * (m.blocks - (p / m.erasesize + 1)) + 2 := by omega
        rw [hleft]
        apply round_ends
        apply searchOn_ends
        intro hjump
        rw [jump_of_lt hsize hlt hp] at hjump ⊢
        have hrest := ih hjump.le (by rw [hnext]; omega)
        rwa [hnext] at hrest

/-- From anywhere else the first jump leads to the device, or ends the search. -/
theorem skip_ends {fuel : Nat} (hfuel : m.blocks + 2 ≤ fuel) (x : Int) :
    (skipBadBlocks m fuel x).Ends (· ≠ .spinning) (2 * m.blocks + 2) := by
  obtain ⟨fuel, rfl⟩ := Nat.exists_eq_add_of_le' (Nat.le_of_add_left_le hfuel)
  rw [skip_succ]
  split
  · exact Skip.noConfusion
  · apply round_ends
    apply searchOn_ends
    intro hjump
    apply (skip_ends_on_device hsize hjump.le (Nat.lt_add_left _ (by omega))).le
    exact Nat.mul_le_mul_left 2 (Nat.sub_le _ _)

end Small

/-- A search that ends needs no more rounds. -/
theorem skip_eq_of_ends {fuel n : Nat} {x : Int}
    (h : (skipBadBlocks m fuel x).Ends (· ≠ .spinning) n) (more : Nat) :
    skipBadBlocks m (fuel + more) x = skipBadBlocks m fuel x := by
  induction fuel generalizing n x with
  | zero => exact absurd rfl h
  | succ fuel ih =>
      rw [Nat.succ_add, skip_succ, skip_succ]
      rw [skip_succ] at h
      by_cases hend : m.ebcnt ≤ m.ebnum x
      · rw [if_pos hend, if_pos hend]
      · rw [if_neg hend] at h ⊢
        rw [if_neg hend]
        have hlater : searchOn m (fuel + more) x = searchOn m fuel x := by
          funext ret
          have hround := ends_of_round h ret
          unfold searchOn at hround ⊢
          by_cases hbad : ret ≠ 0
          · rw [if_pos hbad] at hround ⊢
            rw [if_pos hbad]
            by_cases heof : m.size ≤ u64 (m.ebAddr (m.ebnum x + 1))
            · rw [if_pos heof, if_pos heof]
            · rw [if_neg heof] at hround ⊢
              rw [if_neg heof]
              exact ih hround
          · rw [if_neg hbad, if_neg hbad]
        rw [hlater]

/-! ## The parts of a call -/

/-- The call returned. -/
abbrev Ended (r : Option Ret) : Prop := r ≠ none

theorem fail_ends {code ppos : Int} (n : Nat) : (fail code ppos).Ends Ended n :=
  Option.some_ne_none _

theorem freeFail_ends {code ppos : Int} (n : Nat) : (freeFail code ppos).Ends Ended (n + 1) :=
  fun _ => Option.some_ne_none _

theorem freeReturn_ends {r : Ret} (n : Nat) :
    (do ask .kfree; pure (some r) : Driver (Option Ret)).Ends Ended (n + 1) :=
  fun _ => Option.some_ne_none _

theorem deliver_ends {buf readlen : Nat} {ppos : Int} {readbuf : Nat → Byte} :
    (deliver buf ppos readlen readbuf).Ends (fun _ => True) 1 := by
  unfold deliver
  split
  · exact fun _ => trivial
  · trivial

/-- The last part of a read. -/
theorem lastPart_ends {addr len buf : Nat} {ppos : Int} :
    (do
      let r ← ask (.mtdRead addr len)
      let (ok, ppos) ← deliver buf ppos r.retlen r.data
      if ok then
        ask .kfree
        pure (some ⟨i32 r.retlen, ppos⟩)
      else
        freeFail EFAULT ppos : Driver (Option Ret)).Ends Ended 3 := by
  intro r
  refine deliver_ends.bind (show 1 + 1 ≤ 2 by decide) fun ⟨ok, ppos⟩ _ => ?_
  cases ok with
  | true => exact freeReturn_ends 0
  | false => exact freeFail_ends 0

theorem readBlock_ends {b : Int} {kbuf : Nat → Byte} :
    (readBlock m b kbuf).Ends (fun _ => True) 1 := by
  intro r
  change (if _ then _ else _ : Driver (Option (Nat → Byte))).Ends _ _
  split <;> trivial

theorem commit_ends {b : Int} {kbuf : Nat → Byte} :
    (commit m b kbuf).Ends (fun _ => True) 2 := by
  have herase : (eraseEraseblock m b).Ends (fun _ => True) 1 := by
    intro ei
    change (if _ then _ else _ : Driver Int).Ends _ _
    split
    · trivial
    · split <;> trivial
  unfold commit
  refine herase.bind (show 1 + 1 ≤ 2 by decide) fun err _ => ?_
  split
  · trivial
  · exact fun _ => trivial

theorem eraseAction_ends {x b : Int} {kbuf : Nat → Byte} :
    (eraseAction m x b kbuf).Ends Ended 3 := by
  unfold eraseAction
  refine commit_ends.bind (show 2 + 1 ≤ 3 by decide) fun result _ => ?_
  cases result with
  | error err => exact freeFail_ends 0
  | ok r => exact freeReturn_ends 0

section Parts

variable (hsize : m.size < 4294967296) {fuel buf count : Nat} (hfuel : m.blocks + 2 ≤ fuel)

include hsize hfuel

/-! ### read -/

theorem readSecond_ends {x : Int} {readlen readtmplen : Nat} :
    (readSecond m fuel buf count x readlen readtmplen).Ends Ended (2 * m.blocks + 5) := by
  refine (skip_ends hsize hfuel x).bind (show 2 * m.blocks + 2 + 3 ≤ 2 * m.blocks + 5 by omega)
    fun s hs => ?_
  cases s with
  | spinning => exact absurd rfl hs
  | noBlock q => exact freeReturn_ends 2
  | endOfFile q => exact freeFail_ends 2
  | good y b o => exact lastPart_ends

theorem readBlocks_ends {x b : Int} :
    (readBlocks m fuel buf count x b).Ends Ended (2 * m.blocks + 7) := by
  unfold readBlocks
  split
  · intro r
    refine deliver_ends.bind (show 1 + (2 * m.blocks + 5) ≤ 2 * m.blocks + 6 by omega)
      fun ⟨ok, ppos⟩ _ => ?_
    cases ok with
    | true => exact readSecond_ends hsize hfuel
    | false => exact freeFail_ends _
  · split
    · exact lastPart_ends.le (show 3 ≤ 2 * m.blocks + 7 by omega)
    · exact freeFail_ends _

theorem at91flashRead_bounded {x : Int} :
    (at91flashRead m fuel buf count x).Ends Ended (4 * m.blocks + 10) := by
  refine (skip_ends hsize hfuel x).bind
    (show 2 * m.blocks + 2 + (2 * m.blocks + 8) ≤ 4 * m.blocks + 10 by omega) fun s hs => ?_
  cases s with
  | spinning => exact absurd rfl hs
  | noBlock q => exact fail_ends _
  | endOfFile q => exact fail_ends _
  | good x b o =>
      dsimp only
      split
      · exact Option.some_ne_none _
      · intro readbuf
        cases readbuf with
        | none => exact fail_ends _
        | some readbuf => exact readBlocks_ends hsize hfuel

/-! ### write -/

theorem writeSecond_ends {first : Nat} {x : Int} {kbuf : Nat → Byte} :
    (writeSecond m fuel buf count first x kbuf).Ends Ended (2 * m.blocks + 7) := by
  refine (skip_ends hsize hfuel x).bind (show 2 * m.blocks + 2 + 5 ≤ 2 * m.blocks + 7 by omega)
    fun s hs => ?_
  cases s with
  | spinning => exact absurd rfl hs
  | noBlock q => exact freeFail_ends 4
  | endOfFile q => exact freeFail_ends 4
  | good y b o =>
      refine readBlock_ends.bind (show 1 + 4 ≤ 5 by decide) fun kbuf _ => ?_
      cases kbuf with
      | none => exact freeFail_ends 3
      | some kbuf =>
          intro data
          cases data with
          | none => exact freeFail_ends 2
          | some data =>
              change (commit m b _ >>= _).Ends _ _
              refine commit_ends.bind (show 2 + 1 ≤ 3 by decide) fun result _ => ?_
              cases result with
              | error err => exact freeFail_ends 0
              | ok r => exact freeReturn_ends 0

theorem writeJump_ends {x b o : Int} {kbuf : Nat → Byte} :
    (writeJump m fuel buf count x b o kbuf).Ends Ended (2 * m.blocks + 10) := by
  intro data
  cases data with
  | none => exact freeFail_ends _
  | some data =>
      change (commit m b _ >>= _).Ends _ _
      refine commit_ends.bind (show 2 + (2 * m.blocks + 7) ≤ 2 * m.blocks + 9 by omega)
        fun result _ => ?_
      cases result with
      | error err => exact freeFail_ends _
      | ok r => exact writeSecond_ends hsize hfuel

theorem writeBlocks_ends {x b o : Int} {kbuf : Nat → Byte} :
    (writeBlocks m fuel buf count x b o kbuf).Ends Ended (2 * m.blocks + 11) := by
  unfold writeBlocks
  split
  · intro data
    cases data with
    | none => exact freeFail_ends _
    | some data => exact eraseAction_ends.le (show 3 ≤ 2 * m.blocks + 10 by omega)
  · refine readBlock_ends.bind (show 1 + (2 * m.blocks + 10) ≤ 2 * m.blocks + 11 by omega)
      fun kbuf _ => ?_
    cases kbuf with
    | none => exact freeFail_ends _
    | some kbuf =>
        dsimp only
        split
        · intro data
          cases data with
          | none => exact freeFail_ends _
          | some data => exact eraseAction_ends.le (show 3 ≤ 2 * m.blocks + 9 by omega)
        · split
          · exact writeJump_ends hsize hfuel
          · exact freeFail_ends _

theorem writeCount_ends {x : Int} :
    (writeCount m fuel buf count x).Ends Ended (4 * m.blocks + 14) := by
  unfold writeCount
  split
  · exact Option.some_ne_none _
  · refine (skip_ends hsize hfuel x).bind
      (show 2 * m.blocks + 2 + (2 * m.blocks + 12) ≤ 4 * m.blocks + 14 by omega) fun s hs => ?_
    cases s with
    | spinning => exact absurd rfl hs
    | noBlock q => exact fail_ends _
    | endOfFile q => exact fail_ends _
    | good x b o =>
        intro kbuf
        cases kbuf with
        | none => exact fail_ends _
        | some kbuf => exact writeBlocks_ends hsize hfuel

theorem at91flashWrite_bounded {x : Int} :
    (at91flashWrite m fuel buf count x).Ends Ended (4 * m.blocks + 14) := by
  unfold at91flashWrite
  split
  · exact writeCount_ends hsize hfuel
  · split
    · exact fail_ends _
    · exact writeCount_ends hsize hfuel

/-! ## The calls -/

omit hsize hfuel in
theorem ioctlReturn_ends {karg : FlashData} {fPos : Int} :
    (ioctlReturn karg fPos).Ends Ended 1 := by
  intro ok
  cases ok <;> exact Option.some_ne_none _

theorem call_bounded {fPos : Int} (c : Call) :
    (c.body m fuel fPos).Ends Ended (4 * m.blocks + 16) := by
  cases c with
  | lseek offset orig => exact Option.some_ne_none _
  | read buf count =>
      exact (at91flashRead_bounded hsize hfuel).le (show 4 * m.blocks + 10 ≤ _ by omega)
  | write buf count =>
      exact (at91flashWrite_bounded hsize hfuel).le (show 4 * m.blocks + 14 ≤ _ by omega)
  | ioctl cmd =>
      intro karg
      cases karg with
      | none => exact fail_ends _
      | some karg =>
          dsimp only
          split
          · refine (at91flashRead_bounded hsize hfuel).bind
              (show 4 * m.blocks + 10 + 1 ≤ 4 * m.blocks + 15 by omega) fun r hr => ?_
            cases r with
            | none => exact absurd rfl hr
            | some r => exact ioctlReturn_ends
          · refine (at91flashWrite_bounded hsize hfuel).bind
              (show 4 * m.blocks + 14 + 1 ≤ 4 * m.blocks + 15 by omega) fun r hr => ?_
            cases r with
            | none => exact absurd rfl hr
            | some r => exact ioctlReturn_ends
          · exact Option.some_ne_none _

/-- More rounds than that change nothing. -/
theorem body_of_le (c : Call) (fPos : Int) :
    c.body m fuel fPos = c.body m (m.blocks + 2) fPos := by
  have hskip (x : Int) : skipBadBlocks m fuel x = skipBadBlocks m (m.blocks + 2) x := by
    obtain ⟨more, rfl⟩ := Nat.exists_eq_add_of_le hfuel
    exact skip_eq_of_ends (skip_ends hsize le_rfl x) more
  cases c with
  | lseek offset orig => rfl
  | read buf count => simp only [Call.body, at91flashRead, readBlocks, readSecond, hskip]
  | write buf count =>
      simp only [Call.body, at91flashWrite, writeCount, writeBlocks, writeJump, writeSecond, hskip]
  | ioctl cmd =>
      simp only [Call.body, at91flashIoctl, at91flashRead, readBlocks, readSecond, at91flashWrite,
        writeCount, writeBlocks, writeJump, writeSecond, hskip]

end Parts

/-- On a device of 4 GiB or more whose blocks are all bad a read of one byte goes
round for ever. -/
theorem read_spins (hlarge : 4294967296 ≤ m.size) (hdvd : m.erasesize ∣ m.size) (fuel : Nat) :
    (((Call.read 0 1).body m fuel 0).run (device m fun _ => true)
      (quiet (fun _ => 0) (fun _ => 0) fun _ => 0)).1 = none := by
  have hwalk : walk m (fun _ => true) fuel (0 : Nat) = .spinning :=
    walk_spins hlarge hdvd (by omega) (fun _ => rfl) fuel
  rw [Nat.cast_zero] at hwalk
  simp only [Call.body, at91flashRead, Prog.run_bind, run_skipBadBlocks, hwalk]
  rfl

/-- Every call returns, with some bound on the rounds and whatever the operations
answer, exactly when the device is smaller than 4 GiB.  There a call is of at most
four operations for each block and sixteen more, and more rounds than two above the
number of blocks change nothing.  From 4 GiB on a read among bad blocks alone does not
return with any bound. -/
theorem calls_return_iff (hdvd : m.erasesize ∣ m.size) :
    ((∀ (c : Call) (fPos : Int), ∃ fuel, ∀ {σ : Type} (h : Handler Op Reply σ) (s : σ),
        ∃ r, ((c.body m fuel fPos).run h s).1 = some r) ↔ m.size < 4294967296) ∧
      (m.size < 4294967296 → ∀ (c : Call) (fPos : Int) (fuel : Nat), m.blocks + 2 ≤ fuel →
        c.body m fuel fPos = c.body m (m.blocks + 2) fPos ∧
          ∀ {σ : Type} (h : Handler Op Reply σ) (s : σ),
            ((c.body m fuel fPos).trace h s).length ≤ 4 * m.blocks + 16) ∧
      (4294967296 ≤ m.size → ∀ fuel,
        (((Call.read 0 1).body m fuel 0).run (device m fun _ => true)
          (quiet (fun _ => 0) (fun _ => 0) fun _ => 0)).1 = none) := by
  refine ⟨⟨fun hreturns => ?_, fun hsize c fPos => ⟨m.blocks + 2, fun h s => ?_⟩⟩,
    fun hsize c fPos fuel hfuel => ⟨body_of_le hsize hfuel c fPos, fun h s => ?_⟩,
    fun hlarge fuel => read_spins hlarge hdvd fuel⟩
  · by_contra hlarge
    obtain ⟨fuel, hfuel⟩ := hreturns (.read 0 1) 0
    obtain ⟨r, hr⟩ := hfuel (device m fun _ => true) (quiet (fun _ => 0) (fun _ => 0) fun _ => 0)
    rw [read_spins (not_lt.mp hlarge) hdvd fuel] at hr
    cases hr
  · exact Option.ne_none_iff_exists'.mp ((call_bounded hsize le_rfl c).sound h s).1
  · exact ((call_bounded hsize hfuel c).sound h s).2

/-- On a small device: a write across a bad block. -/
theorem calls_return_iff_at_three :
    (∃ fuel, ∀ {σ : Type} (h : Handler Op Reply σ) (s : σ),
      ∃ r, (((Call.write 0 4).body fourBlocks fuel 3).run h s).1 = some r) ∧
    (((Call.write 0 4).body fourBlocks 9 3).trace (device fourBlocks (· == 1))
      (quiet (fun _ => 1) (fun _ => 7) fun _ => 0)).length ≤ 32 := by
  obtain ⟨hreturns, hbounds, -⟩ := calls_return_iff (m := fourBlocks) (by decide)
  exact ⟨hreturns.mpr (by decide) (.write 0 4) 3,
    (hbounds (by decide) (.write 0 4) 3 9 (by decide)).2 _ _⟩

end At91Drivers.Flash
