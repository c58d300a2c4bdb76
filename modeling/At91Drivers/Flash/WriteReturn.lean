import At91Drivers.Flash.Frame
import At91Drivers.Flash.Transfers

/-!
# What a write returns, and where it leaves the position

A write that jumps a block returns the number of bytes it was given and leaves
the position after the last of them.  One that stays in a block returns what
`mtd->write` programmed, the whole block, and moves the position on by as much.

```text
n = erasesize      the same thing, when the block starts at the position
n < erasesize      too much, and the next write leaves a gap
```

So two writes through one file position make up one write of all the data only
when the first one jumps a block, or ends with its block and the next one is
bad: a position anywhere in a bad block is as good as one at its start.
-/

namespace At91Drivers.Flash

open Effects Arith

variable {m : Mtd} {bad : Nat → Bool} {w : World} {fuel buf n k l p x y : Nat}

/-! ## The user memory -/

/-- The operation does not store to the user memory. -/
def Op.KeepsUser : Op → Prop
  | .copyToUser _ _ _ => False
  | _ => True

theorem keepsUser_search (m : Mtd) (fuel : Nat) (z : Int) :
    (skipBadBlocks m fuel z).Asks Op.KeepsUser := by
  induction fuel generalizing z with
  | zero => exact trivial
  | succ fuel ih =>
      unfold skipBadBlocks
      split
      · exact trivial
      · refine Prog.Asks.bind ⟨trivial, fun _ => trivial⟩ fun ret => ?_
        refine Prog.Asks.bind ⟨trivial, fun _ => trivial⟩ fun _ => ?_
        split
        · split
          · exact trivial
          · exact ih _
        · exact trivial

theorem keepsUser_freeFail (code z : Int) : (freeFail code z).Asks Op.KeepsUser :=
  ⟨trivial, fun _ => trivial⟩

theorem keepsUser_readBlock (m : Mtd) (b : Int) (kbuf : Nat → Byte) :
    (readBlock m b kbuf).Asks Op.KeepsUser := by
  refine Prog.Asks.bind ⟨trivial, fun _ => trivial⟩ fun r => ?_
  split <;> exact trivial

theorem keepsUser_commit (m : Mtd) (b : Int) (kbuf : Nat → Byte) :
    (commit m b kbuf).Asks Op.KeepsUser := by
  refine Prog.Asks.bind (Prog.Asks.bind ⟨trivial, fun _ => trivial⟩ fun ei => ?_) fun err => ?_
  · split
    · exact trivial
    · split <;> exact trivial
  · split
    · exact trivial
    · exact ⟨trivial, fun _ => trivial⟩

theorem keepsUser_eraseAction (m : Mtd) (z b : Int) (kbuf : Nat → Byte) :
    (eraseAction m z b kbuf).Asks Op.KeepsUser := by
  refine (keepsUser_commit m b kbuf).bind fun r => ?_
  cases r with
  | error err => exact keepsUser_freeFail _ _
  | ok r => exact ⟨trivial, fun _ => trivial⟩

theorem keepsUser_writeSecond (m : Mtd) (fuel buf n first : Nat) (z : Int) (kbuf : Nat → Byte) :
    (writeSecond m fuel buf n first z kbuf).Asks Op.KeepsUser := by
  refine (keepsUser_search m fuel z).bind fun s => ?_
  cases s with
  | spinning => exact trivial
  | noBlock z => exact keepsUser_freeFail _ _
  | endOfFile z => exact keepsUser_freeFail _ _
  | good z b o =>
      refine (keepsUser_readBlock m b kbuf).bind fun read => ?_
      cases read with
      | none => exact keepsUser_freeFail _ _
      | some kbuf =>
          refine Prog.Asks.bind ⟨trivial, fun _ => trivial⟩ fun data => ?_
          cases data with
          | none => exact keepsUser_freeFail _ _
          | some data =>
              refine (keepsUser_commit m b _).bind fun r => ?_
              cases r with
              | error err => exact keepsUser_freeFail _ _
              | ok r => exact ⟨trivial, fun _ => trivial⟩

theorem keepsUser_writeJump (m : Mtd) (fuel buf n : Nat) (z b o : Int) (kbuf : Nat → Byte) :
    (writeJump m fuel buf n z b o kbuf).Asks Op.KeepsUser := by
  refine Prog.Asks.bind ⟨trivial, fun _ => trivial⟩ fun data => ?_
  cases data with
  | none => exact keepsUser_freeFail _ _
  | some data =>
      refine (keepsUser_commit m b _).bind fun r => ?_
      cases r with
      | error err => exact keepsUser_freeFail _ _
      | ok r => exact keepsUser_writeSecond m fuel buf n _ _ _

theorem keepsUser_writeBlocks (m : Mtd) (fuel buf n : Nat) (z b o : Int) (kbuf : Nat → Byte) :
    (writeBlocks m fuel buf n z b o kbuf).Asks Op.KeepsUser := by
  unfold writeBlocks
  split
  · refine Prog.Asks.bind ⟨trivial, fun _ => trivial⟩ fun data => ?_
    cases data with
    | none => exact keepsUser_freeFail _ _
    | some data => exact keepsUser_eraseAction m z b _
  · refine (keepsUser_readBlock m b kbuf).bind fun read => ?_
    cases read with
    | none => exact keepsUser_freeFail _ _
    | some kbuf =>
        dsimp only
        split
        · refine Prog.Asks.bind ⟨trivial, fun _ => trivial⟩ fun data => ?_
          cases data with
          | none => exact keepsUser_freeFail _ _
          | some data => exact keepsUser_eraseAction m z b _
        · split
          · exact keepsUser_writeJump m fuel buf n z b o kbuf
          · exact keepsUser_freeFail _ _

theorem keepsUser_writeCount (m : Mtd) (fuel buf n : Nat) (z : Int) :
    (writeCount m fuel buf n z).Asks Op.KeepsUser := by
  unfold writeCount
  split
  · exact trivial
  · refine (keepsUser_search m fuel z).bind fun s => ?_
    cases s with
    | spinning => exact trivial
    | noBlock z => exact trivial
    | endOfFile z => exact trivial
    | good z b o =>
        refine Prog.Asks.bind ⟨trivial, fun _ => trivial⟩ fun kbuf => ?_
        cases kbuf with
        | none => exact trivial
        | some kbuf => exact keepsUser_writeBlocks m fuel buf n z b o kbuf

/-- A write leaves the user memory as it is. -/
theorem user_write (m : Mtd) (bad : Nat → Bool) (fuel buf n : Nat) (z : Int) (w : World) :
    ((at91flashWrite m fuel buf n z).run (device m bad) w).2.user = w.user := by
  have hasks : (at91flashWrite m fuel buf n z).Asks Op.KeepsUser := by
    unfold at91flashWrite
    split
    · exact keepsUser_writeCount m fuel buf _ z
    · split
      · exact trivial
      · exact keepsUser_writeCount m fuel buf n z
  refine hasks.run (I := fun w' : World => w'.user = w.user) (fun e w' he hw' => ?_) rfl
  cases e with
  | copyToUser buf len src => exact he.elim
  | _ => exact hw'

/-- What a write on a good device leaves of its caller. -/
theorem write_kept {z : Int} {r : Option Ret} {w' : World} (hw : w.FaultFree) (huser : w.UserOk)
    (hrun : (at91flashWrite m fuel buf n z).run (device m bad) w = (r, w')) :
    w'.FaultFree ∧ w'.UserOk ∧ w'.user = w.user := by
  have hfault : ((at91flashWrite m fuel buf n z).run (device m bad) w).2.FaultFree := hw.run _
  have hok : ((at91flashWrite m fuel buf n z).run (device m bad) w).2.UserOk := huser.run _
  have hdata := user_write m bad fuel buf n z w
  rw [hrun] at hfault hok hdata
  exact ⟨hfault, hok, hdata⟩

/-! ## One write -/

/-- The write stores its data, returns the number of bytes, and leaves the
position after the last of them. -/
def WriteReturns (m : Mtd) (bad : Nat → Bool) (w : World) (fuel buf n p : Nat) : Prop :=
  ∃ r w', (at91flashWrite m fuel buf n p).run (device m bad) w = (some r, w') ∧
    ((m.stream bad p).take n).map w'.flash = (List.range n).map (fun i => w.user (buf + i)) ∧
    r.ret = n ∧ ∀ a ∈ ((m.stream bad p).take n).getLast?, r.ppos = a + 1

/-- The write is of a whole block, or jumps one, and the count is no error
number. -/
def Counts (m : Mtd) (bad : Nat → Bool) (n p : Nat) : Prop :=
  n < 2147483648 ∧ (n = m.erasesize ∨ ∃ x, Landing m bad p x ∧ m.erasesize < x % m.erasesize + n)

theorem Landing.exists_of_mem (hsize : m.size < 4294967296) (h : m.stream bad p ≠ []) :
    ∃ x, Landing m bad p x := by
  have hlt := Mtd.lt_extent_of_stream_ne_nil h
  have hext := m.extent_le_size
  rcases walk_of_le_size hsize bad (Nat.lt_succ_self _) (hlt.le.trans hext) with
    ⟨x, -, hx⟩ | ⟨-, hnone⟩
  · exact ⟨x, hx⟩
  · exact absurd hnone h

theorem i32_eq_natCast (hn : n < 4294967296) : i32 n = n ↔ n < 2147483648 := by
  constructor
  · intro h
    unfold i32 at h
    omega
  · exact i32_natCast

theorem i32_eq_natCast_of_ne {es : Nat} (hes : es < 4294967296) (hne : n ≠ es) :
    i32 es ≠ n := by
  intro h
  unfold i32 at h
  omega

/-- The result of a write that stays in its block. -/
theorem counts_within (hx : Landing m bad p x) (hes : n ≤ m.erasesize) (hn : 0 < n)
    (hfit : x % m.erasesize + n ≤ m.erasesize) :
    (i32 m.erasesize = n ∧
        ∀ a ∈ ((m.stream bad p).take n).getLast?, (x : Int) + m.erasesize = a + 1) ↔
      Counts m bad n p := by
  have hlt := m.erasesize_lt
  have hlast : ((m.stream bad p).take n).getLast? = some (x + n - 1) := by
    rw [hx.take_within hfit]
    obtain ⟨n, rfl⟩ := Nat.exists_eq_add_of_lt hn
    simp [List.getLast?_range']
  have hnot : ¬ ∃ x, Landing m bad p x ∧ m.erasesize < x % m.erasesize + n := by
    rintro ⟨x', hx', hlong⟩
    rw [hx'.unique hx] at hlong
    omega
  rw [Counts, or_iff_left hnot, hlast]
  by_cases hwhole : n = m.erasesize
  · rw [← hwhole, i32_eq_natCast (by omega)]
    refine and_congr_right fun _ => iff_of_true (fun a ha => ?_) rfl
    obtain rfl := Option.some.inj ha
    omega
  · exact iff_of_false (fun h => i32_eq_natCast_of_ne hlt hwhole h.1) fun h => hwhole h.2

/-- The result of a write that jumps a block. -/
theorem counts_jump {first rest : Nat} (hsize : m.size < 4294967296) (hx : Landing m bad p x)
    (hfirst : first = m.erasesize - x % m.erasesize) (hrest : n = first + rest)
    (hrestPos : 0 < rest) (hes : n ≤ m.erasesize) (hy : Landing m bad (m.blockEnd x) y) :
    (i32 n = n ∧ ∀ a ∈ ((m.stream bad p).take n).getLast?, (y : Int) + rest = a + 1) ∧
      Counts m bad n p := by
  have hext := m.extent_le_size
  have hend := m.blockEnd_le_extent hy.block_lt
  have haligned := hy.aligned_next
  have hyle := hy.le
  have hle := Nat.mod_le x m.erasesize
  rw [m.blockEnd_eq, haligned] at hend
  rw [m.blockEnd_eq] at hyle
  -- two blocks fit in the device, so one of them is below 2 GiB
  have hsmall : n < 2147483648 := by omega
  have hlast : ((m.stream bad p).take n).getLast? = some (y + rest - 1) := by
    rw [hrest, hx.take_jump hfirst hy (by omega)]
    obtain ⟨rest, rfl⟩ := Nat.exists_eq_add_of_lt hrestPos
    simp [List.getLast?_append, List.getLast?_range']
  refine ⟨⟨i32_natCast hsmall, fun a ha => ?_⟩, hsmall, .inr ⟨x, hx, by omega⟩⟩
  rw [hlast] at ha
  obtain rfl := Option.some.inj ha
  omega

theorem write_returns_iff (hsize : m.size < 4294967296) (hw : w.FaultFree) (huser : w.UserOk)
    (hn : 0 < n) (hes : n ≤ m.erasesize) (hlen : n ≤ (m.stream bad p).length)
    (hfuel : m.blocks < fuel) :
    WriteReturns m bad w fuel buf n p ↔ Counts m bad n p := by
  obtain ⟨r, w', hrun, hdone⟩ := writeDone_of_enough buf hsize hw huser hn hes hlen hfuel
  have hreturns : WriteReturns m bad w fuel buf n p ↔
      (r.ret = n ∧ ∀ a ∈ ((m.stream bad p).take n).getLast?, r.ppos = a + 1) := by
    constructor
    · rintro ⟨r₁, w₁, hrun₁, -, hresult⟩
      rw [hrun] at hrun₁
      obtain rfl := Option.some.inj (congrArg Prod.fst hrun₁)
      exact hresult
    · exact fun hresult => ⟨r, w', hrun, hdone.stored hes, hresult⟩
  rw [hreturns]
  generalize w'.flash = flash at hdone
  cases hdone with
  | first hx _ => simpa using counts_within hx hes hn (by rw [Nat.zero_mod]; omega)
  | within hx _ hfit => exact counts_within hx hes hn hfit
  | jump hx _ hfirst hrest hrestPos hy =>
      obtain ⟨hresult, hcounts⟩ := counts_jump hsize hx hfirst hrest hrestPos hes hy
      exact iff_of_true hresult hcounts

/-! ## What a write leaves alone, whether or not it fails -/

section Below

variable (hsize : m.size < 4294967296) (hw : w.FaultFree) (huser : w.UserOk)

include hsize hw huser

/-- The first block of a write that jumps is rewritten, and no second one is
found. -/
theorem writeBlocks_noSecond (buf : Nat) (hx : Landing m bad p x) (hpos : 0 < x)
    (hes : n ≤ m.erasesize) (hlong : m.erasesize < x % m.erasesize + n)
    (hfuel : m.blocks < fuel) (hnone : m.stream bad (m.blockEnd x) = []) (kbuf : Nat → Byte) :
    ∃ r w', (writeBlocks m fuel buf n x (x / m.erasesize : Nat) (m.blockoffset x) kbuf).run
        (device m bad) w.afterKmalloc = (some r, w') ∧ ∀ a < x, w'.flash a = w.flash a := by
  have hmalloc : w.afterKmalloc.FaultFree := ⟨hw.reads, hw.erases, hw.writes⟩
  have hend := (m.blockEnd_le_extent hx.block_lt).trans m.extent_le_size
  by_cases hguard : i64 (x + n) ≤ m.ebAddr ((x / m.erasesize : Nat) + 2)
  · obtain ⟨kbuf', w', hrun, -, -, -, hflash⟩ :=
      write_jump_first hsize hmalloc hx fuel buf hpos.ne' hes hlong hguard kbuf
    have hcopy : w.afterKmalloc.CopyOk (m.erasesize - x % m.erasesize) := huser.copyOk _
    rw [hrun, if_pos hcopy]
    rcases walk_of_le_size hsize bad hfuel hend with ⟨y, -, hy⟩ | ⟨⟨q, hwalk⟩, -⟩
    · exact absurd hnone hy.stream_ne_nil
    · rw [run_writeSecond_none m bad fuel buf _ _ hwalk]
      refine ⟨_, _, rfl, fun a ha => ?_⟩
      show w'.flash a = w.flash a
      rw [hflash]
      exact splice_of_lt ha
  · have hnot : ¬ i64 (x + n) ≤ m.ebAddr ((x / m.erasesize : Nat) + 1) := by
      rw [fits_iff hsize hx hes]
      omega
    rw [run_writeBlocks_tooMuch m bad fuel buf kbuf _ (by exact_mod_cast hpos.ne')
      (blockRead_ok hmalloc (inDevice_of_lt hsize hx.block_lt)) hnot hguard]
    exact ⟨_, _, rfl, fun _ _ => rfl⟩

theorem writeBlocks_keeps_below (buf : Nat) (hx : Landing m bad p x) (hpos : 0 < x)
    (hes : n ≤ m.erasesize) (hfuel : m.blocks < fuel) (kbuf : Nat → Byte) :
    ∃ r w', (writeBlocks m fuel buf n x (x / m.erasesize : Nat) (m.blockoffset x) kbuf).run
        (device m bad) w.afterKmalloc = (some r, w') ∧ ∀ a < x, w'.flash a = w.flash a := by
  have hbelow {a : Nat} (ha : a < x) : a ∉ (m.stream bad p).take n := by
    intro hmem
    have hstream := List.mem_of_mem_take hmem
    rw [hx.stream_eq] at hstream
    exact absurd (Mtd.mem_stream.mp hstream).1 (not_le.mpr ha)
  have hzero : ¬ WriteDone.AtZero bad p := WriteDone.pos_of_not_atZero hx hpos
  have hcopied : w.afterCopy.UserOk := ⟨fun _ => huser.heap _, fun _ => huser.copies _⟩
  by_cases hfit : x % m.erasesize + n ≤ m.erasesize
  · obtain ⟨r, w', hrun, ⟨-, hnot⟩ | ⟨-, hdone⟩⟩ : ∃ r w', (writeBlocks m fuel buf n x
        (x / m.erasesize : Nat) (m.blockoffset x) kbuf).run (device m bad) w.afterKmalloc =
          (some r, w') ∧ _ := write_within hsize hw hx hpos.ne' hfit kbuf
    · exact absurd (huser.copyOk n) hnot
    · exact ⟨r, w', hrun, fun a ha => hdone.frame hes hzero (hbelow ha)⟩
  · have hlong := not_le.mp hfit
    by_cases hnext : ∃ y, Landing m bad (m.blockEnd x) y
    · obtain ⟨r, w', hrun, ⟨-, hnot⟩ | ⟨-, hdone⟩⟩ : ∃ r w', (writeBlocks m fuel buf n x
          (x / m.erasesize : Nat) (m.blockoffset x) kbuf).run (device m bad) w.afterKmalloc =
            (some r, w') ∧ _ := write_jump hsize hw hx hpos.ne' hes hlong hfuel kbuf
      · exact absurd ⟨huser.copyOk _, hnext, hcopied.copyOk _⟩ hnot
      · exact ⟨r, w', hrun, fun a ha => hdone.frame hes hzero (hbelow ha)⟩
    · refine writeBlocks_noSecond hsize hw huser buf hx hpos hes hlong hfuel ?_ kbuf
      by_contra hsome
      exact hnext (Landing.exists_of_mem hsize hsome)

omit hsize hw huser in
theorem writeClip_le {c : Nat} (hin : p ≤ m.size) (hn : n < 4294967296)
    (h : m.writeClip p n = some c) : c ≤ n := by
  have hlt := m.size_lt_i64
  unfold Mtd.writeClip at h
  rw [← Nat.cast_add, u64_natCast (by omega)] at h
  split at h
  · obtain rfl := Option.some.inj h
    rw [← Nat.cast_sub hin]
    exact (u32_natCast_le _).trans (by omega)
  · split at h
    · cases h
    · exact (Option.some.inj h).symm.le

/-- A write leaves the bytes below its position alone. -/
theorem write_keeps_below (buf : Nat) (hpos : 0 < p) (hle : p < m.extent + m.erasesize)
    (hes : n ≤ m.erasesize) (hfuel : m.blocks < fuel) :
    ∃ r w', (at91flashWrite m fuel buf n p).run (device m bad) w = (some r, w') ∧
      (∀ a < p, w'.flash a = w.flash a) ∧ (n = 0 → w'.flash = w.flash) := by
  have hlt := m.erasesize_lt
  have hext := m.extent_le_size
  have hblocks := m.blocks_lt
  have hquot : p / m.erasesize < m.blocks + 1 := by
    rw [Nat.div_lt_iff_lt_mul m.erasesize_pos, Nat.add_mul, Nat.one_mul]
    exact hle
  have hrounds : m.blocks - p / m.erasesize < fuel := (Nat.sub_le _ _).trans_lt hfuel
  have hquot' : p / m.erasesize < 2147483648 := by
    rw [Mtd.blocks] at hquot
    omega
  have hsearch : (∃ x : Nat, walk m bad fuel p = .good x (x / m.erasesize : Nat)
      (m.blockoffset x) ∧ Landing m bad p x) ∨ (∃ q, walk m bad fuel p = .noBlock q ∨
        walk m bad fuel p = .endOfFile q) ∧ m.stream bad p = [] :=
    walk_spec hsize hquot' (by omega) hrounds
  rw [at91flashWrite_eq_clip]
  cases hclip : m.writeClip p n with
  | none => exact ⟨_, _, rfl, fun _ _ => rfl, fun _ => rfl⟩
  | some c =>
      dsimp only
      by_cases hc : c = 0
      · subst hc
        exact ⟨_, _, rfl, fun _ _ => rfl, fun _ => rfl⟩
      · rcases hsearch with ⟨x, hwalk, hx⟩ | ⟨⟨q, hwalk⟩, -⟩
        · have hxlt := hx.lt_extent
          have hxle := hx.le
          have hcn := writeClip_le (by omega) (by omega) hclip
          obtain ⟨kbuf, hheap⟩ := huser.heap_eq
          rw [run_writeCount_good m bad fuel buf w hc hwalk, hheap]
          dsimp only
          obtain ⟨r, w', hrun, hbelow⟩ := writeBlocks_keeps_below hsize hw huser buf hx (by omega)
            (by omega : c ≤ m.erasesize) hfuel kbuf
          exact ⟨r, w', hrun, fun a ha => hbelow a (by omega), fun hn => absurd hn (by omega)⟩
        · rw [run_writeCount_none m bad fuel buf w hc hwalk]
          exact ⟨_, _, rfl, fun _ _ => rfl, fun _ => rfl⟩

end Below

/-! ## Two writes through one file position -/

/-- A write of `k` bytes and one of the `l` bytes after them, where the first
left the position, leave the flash as one write of all of them does. -/
def Composes (m : Mtd) (bad : Nat → Bool) (w : World) (fuel buf k l p : Nat) : Prop :=
  ∃ r₁ w₁ r₂ w₂ r w',
    (at91flashWrite m fuel buf k p).run (device m bad) w = (some r₁, w₁) ∧
    (at91flashWrite m fuel (buf + k) l r₁.ppos).run (device m bad) w₁ = (some r₂, w₂) ∧
    (at91flashWrite m fuel buf (k + l) p).run (device m bad) w = (some r, w') ∧
    w₂.flash = w'.flash

/-- The first write jumps a block, or it fills its block and the next one is
bad; or one of the two has nothing to write. -/
def Joins (m : Mtd) (bad : Nat → Bool) (k l p : Nat) : Prop :=
  k = 0 ∨ l = 0 ∨ ∃ x, Landing m bad p x ∧ (m.erasesize < x % m.erasesize + k ∨
    x % m.erasesize + k = m.erasesize ∧ bad (x / m.erasesize + 1) = true)

theorem WriteDone.flash_within {r : Ret} {flash : Nat → Byte}
    (h : WriteDone m bad w buf n p r flash) (hx : Landing m bad p x) (hpos : 0 < x)
    (hfit : x % m.erasesize + n ≤ m.erasesize) :
    r.ppos = x + m.erasesize ∧ flash = splice w.flash x n fun i => w.user (buf + i) := by
  cases h with
  | first hx' _ => exact absurd (hx.unique hx') hpos.ne'
  | within hx' _ _ =>
      obtain rfl := hx.unique hx'
      exact ⟨rfl, rfl⟩
  | jump hx' _ hfirst hrest hrestPos _ =>
      obtain rfl := hx.unique hx'
      omega

theorem WriteDone.flash_jump {r : Ret} {flash : Nat → Byte}
    (h : WriteDone m bad w buf n p r flash) (hx : Landing m bad p x) (hes : n ≤ m.erasesize)
    (hlong : m.erasesize < x % m.erasesize + n) :
    0 < x ∧ ∃ y first rest, first = m.erasesize - x % m.erasesize ∧ n = first + rest ∧
      Landing m bad (m.blockEnd x) y ∧ r.ppos = y + rest ∧
        flash = splice (splice w.flash x first fun i => w.user (buf + i)) y rest
          fun i => w.user (buf + first + i) := by
  cases h with
  | first hx' _ =>
      obtain rfl := hx.unique hx'
      rw [Nat.zero_mod] at hlong
      omega
  | within hx' _ hfit =>
      obtain rfl := hx.unique hx'
      omega
  | jump hx' hpos hfirst hrest _ hy =>
      obtain rfl := hx.unique hx'
      exact ⟨hpos, _, _, _, hfirst, hrest, hy, rfl, rfl⟩

/-- As many bytes as are left of the block of the landing are in the stream. -/
theorem Landing.le_length (hx : Landing m bad p x) (hfit : x % m.erasesize + n ≤ m.erasesize) :
    n ≤ (m.stream bad p).length := by
  rw [hx.stream_split, List.length_append, List.length_range']
  omega

/-- Where a write that stored its data leaves the position. -/
theorem WriteDone.position {r : Ret} {flash : Nat → Byte} (h : WriteDone m bad w buf n p r flash)
    (hes : n ≤ m.erasesize) : ∃ q : Nat, r.ppos = q ∧ 0 < q ∧ q < m.extent + m.erasesize := by
  have hpos := m.erasesize_pos
  cases h with
  | first hx _ => exact ⟨m.erasesize, rfl, hpos, by have := hx.lt_extent; omega⟩
  | @within x hx _ _ =>
      exact ⟨x + m.erasesize, (Nat.cast_add _ _).symm, by omega, by have := hx.lt_extent; omega⟩
  | @jump x y first rest _ _ _ _ _ hy =>
      exact ⟨y + rest, (Nat.cast_add _ _).symm, by omega, by have := hy.lt_extent; omega⟩

section Compose

variable (hsize : m.size < 4294967296) (hw : w.FaultFree) (huser : w.UserOk)
  (hfuel : m.blocks < fuel)

include hsize hw huser hfuel

/-- A write into the rest of a block. -/
theorem write_inside (buf : Nat) (hn : 0 < n) (hx : Landing m bad p x) (hpos : 0 < x)
    (hfit : x % m.erasesize + n ≤ m.erasesize) :
    ∃ r w', (at91flashWrite m fuel buf n p).run (device m bad) w = (some r, w') ∧
      w'.flash = splice w.flash x n fun i => w.user (buf + i) := by
  have hes : n ≤ m.erasesize := by omega
  obtain ⟨r, w', hrun, hdone⟩ :=
    writeDone_of_enough buf hsize hw huser hn hes (hx.le_length hfit) hfuel
  exact ⟨r, w', hrun, (hdone.flash_within hx hpos hfit).2⟩

/-- The first of the two writes, and the one of all the data. -/
theorem both_done (buf : Nat) (hk : 0 < k) (hes : k + l ≤ m.erasesize)
    (hlen : k + l ≤ (m.stream bad p).length) :
    ∃ r₁ w₁ r w', (at91flashWrite m fuel buf k p).run (device m bad) w = (some r₁, w₁) ∧
      WriteDone m bad w buf k p r₁ w₁.flash ∧
      (at91flashWrite m fuel buf (k + l) p).run (device m bad) w = (some r, w') ∧
      WriteDone m bad w buf (k + l) p r w'.flash := by
  have hlen₁ : k ≤ (m.stream bad p).length := by omega
  obtain ⟨r₁, w₁, hrun₁, hdone₁⟩ :=
    writeDone_of_enough buf hsize hw huser hk (by omega) hlen₁ hfuel
  obtain ⟨r, w', hrun, hdone⟩ :=
    writeDone_of_enough buf hsize hw huser (by omega : 0 < k + l) hes hlen hfuel
  exact ⟨r₁, w₁, r, w', hrun₁, hdone₁, hrun, hdone⟩

/-- A second write into the rest of a block completes the data of the first. -/
theorem composes_of_inside {r₁ r : Ret} {w₁ w' : World} {q z : Nat} (hl : 0 < l)
    (hrun₁ : (at91flashWrite m fuel buf k p).run (device m bad) w = (some r₁, w₁))
    (hrun : (at91flashWrite m fuel buf (k + l) p).run (device m bad) w = (some r, w'))
    (hppos : r₁.ppos = q) (hz : Landing m bad q z) (hpos : 0 < z)
    (hfit : z % m.erasesize + l ≤ m.erasesize)
    (hflash : splice w₁.flash z l (fun i => w.user (buf + k + i)) = w'.flash) :
    Composes m bad w fuel buf k l p := by
  obtain ⟨hw₁, huser₁, hdata⟩ := write_kept hw huser hrun₁
  obtain ⟨r₂, w₂, hrun₂, hflash₂⟩ :=
    write_inside hsize hw₁ huser₁ hfuel (buf + k) hl hz hpos hfit
  refine ⟨r₁, w₁, r₂, w₂, r, w', hrun₁, ?_, hrun, ?_⟩
  · rw [hppos]
    exact hrun₂
  · rw [hflash₂, hdata]
    exact hflash

theorem composes_of_jump (hk : 0 < k) (hl : 0 < l) (hes : k + l ≤ m.erasesize)
    (hlen : k + l ≤ (m.stream bad p).length) (hx : Landing m bad p x)
    (hlong : m.erasesize < x % m.erasesize + k) : Composes m bad w fuel buf k l p := by
  obtain ⟨r₁, w₁, r, w', hrun₁, hdone₁, hrun, hdone⟩ :=
    both_done hsize hw huser hfuel buf hk hes hlen
  obtain ⟨-, y, first, rest₁, hfirst, hrest₁, hy, hppos, hflash₁⟩ :=
    hdone₁.flash_jump hx (by omega) hlong
  obtain ⟨-, y', first', rest, hfirst', hrest, hy', -, hflash⟩ :=
    hdone.flash_jump hx hes (by omega)
  obtain rfl := hy.unique hy'
  obtain rfl : first = first' := by omega
  obtain rfl : rest = rest₁ + l := by omega
  have haligned := hy.aligned_next
  have hquot : (y + rest₁) / m.erasesize = y / m.erasesize := by
    refine m.div_of_mem_block (Nat.le_add_right y rest₁) ?_
    rw [m.blockEnd_eq]
    omega
  have hoffset : (y + rest₁) % m.erasesize = rest₁ := by
    rw [Nat.add_mod, haligned, Nat.zero_add, Nat.mod_mod, Nat.mod_eq_of_lt (by omega)]
  -- the second write starts where the first one ended
  have hq : Landing m bad (y + rest₁) (y + rest₁) :=
    ⟨le_rfl, hquot ▸ hy.block_lt, hquot ▸ hy.good, rfl, .inl rfl⟩
  refine composes_of_inside hsize hw huser hfuel hl hrun₁ hrun
    (hppos.trans (Nat.cast_add _ _).symm) hq (by omega) (by omega) ?_
  have hsource (i : Nat) : buf + k + i = buf + first + (rest₁ + i) := by omega
  simp only [hsource]
  rw [hflash₁, hflash]
  exact splice_append _ _ _ _ _

theorem composes_of_bad (hk : 0 < k) (hl : 0 < l) (hes : k + l ≤ m.erasesize)
    (hlen : k + l ≤ (m.stream bad p).length) (hx : Landing m bad p x)
    (hfull : x % m.erasesize + k = m.erasesize) (hbad : bad (x / m.erasesize + 1) = true) :
    Composes m bad w fuel buf k l p := by
  obtain ⟨r₁, w₁, r, w', hrun₁, hdone₁, hrun, hdone⟩ :=
    both_done hsize hw huser hfuel buf hk hes hlen
  obtain ⟨hpos, y, first, rest, hfirst, hrest, hy, -, hflash⟩ :=
    hdone.flash_jump hx hes (by omega)
  obtain ⟨hppos, hflash₁⟩ := hdone₁.flash_within hx hpos hfull.le
  obtain rfl : k = first := by omega
  obtain rfl : l = rest := by omega
  have haligned := hy.aligned_next
  have hend := m.blockEnd_eq x
  have hyle := hy.le
  have hnext : m.blockEnd x / m.erasesize < m.blocks :=
    (Nat.div_le_div_right hyle).trans_lt hy.block_lt
  have hnextBad : bad (m.blockEnd x / m.erasesize) = true := by rwa [m.blockEnd_div]
  -- the first write leaves the position inside the bad block
  have hquot : (x + m.erasesize) / m.erasesize = m.blockEnd x / m.erasesize := by
    rw [Nat.add_div_right _ m.erasesize_pos, m.blockEnd_div]
  have hend' : m.blockEnd (x + m.erasesize) = m.blockEnd (m.blockEnd x) := by
    rw [Mtd.blockEnd, hquot, ← Mtd.blockEnd]
  have hskipped : m.blockEnd (m.blockEnd x) ≤ y := by
    have hmem : y ∈ m.stream bad (m.blockEnd x) := hy.stream_eq ▸
      Mtd.mem_stream.mpr ⟨le_rfl, hy.block_lt, hy.good⟩
    rw [Mtd.stream_of_bad hnext hnextBad] at hmem
    exact (Mtd.mem_stream.mp hmem).1
  have hq : Landing m bad (x + m.erasesize) y := by
    refine ⟨?_, hy.block_lt, hy.good, ?_, .inr haligned⟩
    · have hlt := m.lt_blockEnd (x + m.erasesize)
      omega
    · rw [Mtd.stream_of_bad (hquot ▸ hnext) (hquot ▸ hnextBad), hend',
        ← Mtd.stream_of_bad hnext hnextBad, hy.stream_eq]
  refine composes_of_inside hsize hw huser hfuel hl hrun₁ hrun
    (hppos.trans (Nat.cast_add _ _).symm) hq (by omega) (by omega) ?_
  rw [hflash₁, hflash]

omit hsize hw huser hfuel in
/-- Where the data after the first `k` bytes belongs, unless it is past a bad
block. -/
theorem stream_next (hx : Landing m bad p x) (hlen : k < (m.stream bad p).length)
    (hshort : x % m.erasesize + k < m.erasesize ∨
      x % m.erasesize + k = m.erasesize ∧ bad (x / m.erasesize + 1) = false) :
    (m.stream bad p)[k]? = some (x + k) := by
  rcases hshort with hinside | ⟨hfull, hgood⟩
  · rw [hx.stream_split, List.getElem?_append_left (by rw [List.length_range']; omega),
      List.getElem?_range' (by omega), Nat.one_mul]
  · have hend := m.blockEnd_eq x
    have hnext : m.blockEnd x / m.erasesize < m.blocks := by
      by_contra hpast
      rw [hx.stream_split, Mtd.stream_of_ge (not_lt.mp hpast), List.append_nil,
        List.length_range'] at hlen
      omega
    have hrest : k - (m.erasesize - x % m.erasesize) = 0 := by omega
    have hmod := Nat.mod_lt (m.blockEnd x) m.erasesize_pos
    rw [hx.stream_split, List.getElem?_append_right (by rw [List.length_range']; omega),
      List.length_range', hrest, Mtd.stream_of_good hnext (by rwa [m.blockEnd_div]),
      List.getElem?_append_left (by rw [List.length_range']; omega),
      List.getElem?_range' (by omega), Nat.mul_zero, Nat.add_zero, hend]
    congr 1
    omega

omit hsize hw huser hfuel in
theorem stored_next (hl : 0 < l) {a : Nat} {flash : Nat → Byte}
    (hat : (m.stream bad p)[k]? = some a)
    (hstored : ((m.stream bad p).take (k + l)).map flash =
      (List.range (k + l)).map fun i => w.user (buf + i)) :
    flash a = w.user (buf + k) := by
  have hlt : k < k + l := by omega
  have hbyte := congrArg (·[k]?) hstored
  simpa only [List.getElem?_map, List.getElem?_take_of_lt hlt, hat, List.getElem?_range hlt,
    Option.map_some, Option.some.injEq] using hbyte

/-- After a first write that ends in its block, the byte where the second part
of the data belongs is below the position. -/
theorem left_behind (hk : 0 < k) (hl : 0 < l) (hes : k + l ≤ m.erasesize)
    (hlen : k + l ≤ (m.stream bad p).length) (hx : Landing m bad p x)
    (hshort : x % m.erasesize + k < m.erasesize ∨
      x % m.erasesize + k = m.erasesize ∧ bad (x / m.erasesize + 1) = false)
    (h : Composes m bad w fuel buf k l p) :
    w.user (buf + k) = w.flash (x + k) ∨
      ∃ kbuf, w.heap 0 = some kbuf ∧ w.user (buf + k) = kbuf k := by
  obtain ⟨r₁, w₁, r, w', hrun₁, hdone₁, hrun, hdone⟩ :=
    both_done hsize hw huser hfuel buf hk hes hlen
  have hall := stored_next hl (stream_next hx (by omega) hshort) (hdone.stored hes)
  obtain ⟨hw₁, huser₁, -⟩ := write_kept hw huser hrun₁
  have hxlt := hx.lt_extent
  -- the second write changes nothing below its position
  have hkept : r₁.ppos = (x + m.erasesize : Nat) → w'.flash (x + k) = w₁.flash (x + k) := by
    intro hppos
    obtain ⟨r₂, w₂, hrun₂, hbelow, -⟩ := write_keeps_below hsize hw₁ huser₁ (buf + k)
      (by omega : 0 < x + m.erasesize) (by omega) (by omega : l ≤ m.erasesize) hfuel
    obtain ⟨s₁, v₁, s₂, v₂, s, v, hs₁, hs₂, hs, hsame⟩ := h
    cases hrun₁.symm.trans hs₁
    cases hrun.symm.trans hs
    rw [hppos, hrun₂] at hs₂
    cases hs₂
    rw [← hsame]
    exact hbelow (x + k) (by omega)
  generalize w₁.flash = flash₁ at hdone₁ hkept
  cases hdone₁ with
  | first hx' hheap =>
      obtain rfl := hx.unique hx'
      refine .inr ⟨_, hheap, ?_⟩
      rw [← hall, hkept (by rw [Nat.zero_add]), splice_of_mem (by omega) (by omega),
        splice_of_ge (by omega), Nat.zero_add, Nat.sub_zero]
  | within hx' _ _ =>
      obtain rfl := hx.unique hx'
      left
      rw [← hall, hkept (Nat.cast_add _ _).symm, splice_of_ge le_rfl]
  | jump hx' _ hfirst hrest hrestPos _ =>
      obtain rfl := hx.unique hx'
      omega

theorem composes_of_zero (hkl : k = 0 ∨ l = 0) (hpos : 0 < k + l) (hes : k + l ≤ m.erasesize)
    (hlen : k + l ≤ (m.stream bad p).length) : Composes m bad w fuel buf k l p := by
  obtain ⟨r, w', hrun, hdone⟩ :=
    writeDone_of_enough buf hsize hw huser hpos hes hlen hfuel
  rcases hkl with rfl | rfl
  · have hp : p ≤ m.size := by
      have hstream := m.length_stream_le bad p
      have hext := m.extent_le_size
      omega
    refine ⟨⟨0, p⟩, w, r, w', r, w', ?_, ?_, hrun, rfl⟩
    · rw [at91flashWrite_zero m fuel buf hp]
      rfl
    · rw [Nat.zero_add] at hrun
      exact hrun
  · obtain ⟨q, hq, hqpos, hqlt⟩ := hdone.position hes
    obtain ⟨hw', huser', -⟩ := write_kept hw huser hrun
    obtain ⟨r₂, w₂, hrun₂, -, hsame⟩ := write_keeps_below hsize hw' huser' (buf + k) hqpos hqlt
      (Nat.zero_le m.erasesize) hfuel
    refine ⟨r, w', r₂, w₂, r, w', hrun, ?_, hrun, hsame rfl⟩
    rw [hq]
    exact hrun₂

/-- Two writes make up one, whatever the flash and the user memory hold, just
when the second one starts where the data goes on. -/
theorem writes_compose_iff (hpos : 0 < k + l) (hes : k + l ≤ m.erasesize)
    (hlen : k + l ≤ (m.stream bad p).length) :
    (∀ flash user, Composes m bad (w.holding flash user) fuel buf k l p) ↔ Joins m bad k l p := by
  obtain ⟨x, hx⟩ := Landing.exists_of_mem hsize (List.ne_nil_of_length_pos (hpos.trans_le hlen))
  have hfault (flash user : Nat → Byte) : (w.holding flash user).FaultFree :=
    ⟨hw.reads, hw.erases, hw.writes⟩
  have hok (flash user : Nat → Byte) : (w.holding flash user).UserOk :=
    ⟨huser.heap, huser.copies⟩
  constructor
  · intro h
    by_cases hzero : k = 0 ∨ l = 0
    · exact or_assoc.mp (.inl hzero)
    · obtain ⟨hk, hl⟩ := not_or.mp hzero
      by_contra hnot
      have hshort : x % m.erasesize + k < m.erasesize ∨
          x % m.erasesize + k = m.erasesize ∧ bad (x / m.erasesize + 1) = false := by
        by_contra hlong
        rcases Nat.lt_trichotomy (x % m.erasesize + k) m.erasesize with hlt | heq | hgt
        · exact hlong (.inl hlt)
        · refine hnot (.inr (.inr ⟨x, hx, .inr ⟨heq, ?_⟩⟩))
          rw [← Bool.not_eq_false]
          exact fun hgood => hlong (.inr ⟨heq, hgood⟩)
        · exact hnot (.inr (.inr ⟨x, hx, .inl hgt⟩))
      -- data that is neither on the flash nor in the buffer
      obtain ⟨kbuf, hheap⟩ := huser.heap_eq
      obtain ⟨v, hv, -⟩ := byte_ne_both (kbuf k) (kbuf k)
      have hleft := left_behind hsize (hfault (fun _ => kbuf k) fun _ => v)
        (hok (fun _ => kbuf k) fun _ => v) hfuel (Nat.pos_of_ne_zero hk)
        (Nat.pos_of_ne_zero hl) hes hlen hx hshort (h (fun _ => kbuf k) fun _ => v)
      rcases hleft with hflash | ⟨kbuf', hheap', hbyte⟩
      · exact hv hflash
      · obtain rfl := Option.some.inj (hheap.symm.trans hheap')
        exact hv hbyte
  · intro h flash user
    by_cases hzero : k = 0 ∨ l = 0
    · exact composes_of_zero hsize (hfault flash user) (hok flash user) hfuel hzero hpos hes hlen
    · obtain ⟨hk, hl⟩ := not_or.mp hzero
      obtain ⟨x', hx', hlong | ⟨hfull, hbad⟩⟩ := (or_assoc.mpr h).resolve_left hzero
      · exact composes_of_jump hsize (hfault flash user) (hok flash user) hfuel
          (Nat.pos_of_ne_zero hk) (Nat.pos_of_ne_zero hl) hes hlen hx' hlong
      · exact composes_of_bad hsize (hfault flash user) (hok flash user) hfuel
          (Nat.pos_of_ne_zero hk) (Nat.pos_of_ne_zero hl) hes hlen hx' hfull hbad

end Compose

/-- A write of at most one block returns its count and leaves the position
after its data just when it is of a whole block or jumps one; and two writes
through one file position make up one just when the second one starts where the
data goes on. -/
theorem write_counts_iff (hsize : m.size < 4294967296) (hw : w.FaultFree) (huser : w.UserOk)
    (hn : 0 < n) (hes : n ≤ m.erasesize) (hlen : n ≤ (m.stream bad p).length)
    (hfuel : m.blocks < fuel) :
    (WriteReturns m bad w fuel buf n p ↔ Counts m bad n p) ∧
      ∀ k l, k + l = n →
        ((∀ flash user, Composes m bad (w.holding flash user) fuel buf k l p) ↔
          Joins m bad k l p) := by
  refine ⟨write_returns_iff hsize hw huser hn hes hlen hfuel, fun k l hkl => ?_⟩
  subst hkl
  exact writes_compose_iff hsize hw huser hfuel hn hes hlen

/-- Two bytes at 5 of sixteen, one of them in a write of its own. -/
theorem write_counts_iff_at_five :
    (WriteReturns fourBlocks (fun _ => false) (quiet (fun _ => 1) (fun _ => 7) (fun _ => 9))
          5 0 2 5 ↔
        Counts fourBlocks (fun _ => false) 2 5) ∧
      ∀ k l, k + l = 2 →
        ((∀ flash user, Composes fourBlocks (fun _ => false)
            ((quiet (fun _ => 1) (fun _ => 7) (fun _ => 9)).holding flash user) 5 0 k l 5) ↔
          Joins fourBlocks (fun _ => false) k l 5) :=
  write_counts_iff (by decide) (quiet_faultFree _ _ _) (quiet_userOk _ _ _) (by decide)
    (by decide) (by decide +kernel) (by decide)

/-- One byte written at 5 comes back as four. -/
theorem write_returns_block :
    ¬ ∀ (m : Mtd) (bad : Nat → Bool) (w : World) (fuel buf n p : Nat),
      m.size < 4294967296 → m.erasesize ∣ m.size → w.FaultFree → w.UserOk → 1 ≤ n →
      n ≤ m.erasesize → n ≤ (m.stream bad p).length → m.blocks < fuel →
      WriteReturns m bad w fuel buf n p := by
  intro h
  obtain ⟨r, w', hrun, -, hret, -⟩ := h fourBlocks (fun _ => false)
    (quiet (fun _ => 1) (fun _ => 7) (fun _ => 9)) 5 0 1 5 (by decide) (by decide)
    (quiet_faultFree _ _ _) (quiet_userOk _ _ _) (by decide) (by decide) (by decide +kernel)
    (by decide)
  have hfour : ((at91flashWrite fourBlocks 5 0 1 (5 : Nat)).run (device fourBlocks fun _ => false)
      (quiet (fun _ => 1) (fun _ => 7) (fun _ => 9))).1 = some ⟨4, 9⟩ := by decide +kernel
  rw [hrun] at hfour
  obtain rfl := Option.some.inj hfour
  exact absurd hret (by decide)

end At91Drivers.Flash
