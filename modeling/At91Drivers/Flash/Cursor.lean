import At91Drivers.Flash.Ioctl

/-!
# Where a call leaves the position

`*ppos` is the cursor of both transfers: the bad-block loops move it, and so
does each part that is moved.  No function keeps the value it had on entry, so
an error leaves it where the call got to.

```text
nothing before p to skip, nothing moved    p
search                                     the landing, or the end of the blocks
part of a read                             past the bytes the device delivered
first block of a write                     the end of the block
```

On a device below 4 GiB every byte of the good-block stream that an error
leaves behind has been moved by the call (`Cursor`): an `mtd->read` delivered
it, or an `mtd->write` covered it.
-/

namespace At91Drivers.Flash

open Effects Arith

variable {m : Mtd} {bad : Nat → Bool} {fuel buf n p q x k : Nat}

/-! ## Where a search stops -/

/-- A search from `p` stops at the landing, or past the last good byte. -/
def StopsAt (m : Mtd) (bad : Nat → Bool) (p : Nat) : Skip → Prop
  | .spinning => True
  | .noBlock q => ∃ k : Nat, q = k ∧ p ≤ k ∧ k ≤ m.size ∧ m.stream bad p = []
  | .endOfFile q => ∃ k : Nat, q = k ∧ p ≤ k ∧ k ≤ m.size ∧ m.stream bad p = []
  | .good x b o =>
      ∃ k : Nat, x = k ∧ b = (k / m.erasesize : Nat) ∧ o = m.blockoffset k ∧ Landing m bad p k

/-- What a search from the next block stops at, a search from a bad one does. -/
theorem StopsAt.of_bad (hp : p / m.erasesize < m.blocks) (hbad : bad (p / m.erasesize) = true)
    {s : Skip} (h : StopsAt m bad (m.blockEnd p) s) : StopsAt m bad p s := by
  have hlt := m.lt_blockEnd p
  cases s with
  | spinning => trivial
  | noBlock q =>
      obtain ⟨k, hk, hle, hsize, hnil⟩ := h
      exact ⟨k, hk, hlt.le.trans hle, hsize, (Mtd.stream_of_bad hp hbad).trans hnil⟩
  | endOfFile q =>
      obtain ⟨k, hk, hle, hsize, hnil⟩ := h
      exact ⟨k, hk, hlt.le.trans hle, hsize, (Mtd.stream_of_bad hp hbad).trans hnil⟩
  | good x b o =>
      obtain ⟨k, hk, hb, ho, hx⟩ := h
      exact ⟨k, hk, hb, ho, hx.of_bad hp hbad⟩

theorem walk_stops (hsize : m.size < 4294967296) (bad : Nat → Bool) (fuel : Nat)
    (hp : p ≤ m.size) : StopsAt m bad p (walk m bad fuel p) := by
  have hblocks := m.blocks_lt
  induction fuel generalizing p with
  | zero => trivial
  | succ fuel ih =>
      have hquot : p / m.erasesize ≤ m.size / m.erasesize := Nat.div_le_div_right hp
      unfold walk
      rw [m.ebcnt_eq, Mtd.ebnum_natCast (by omega) (by omega)]
      by_cases hend : m.blocks ≤ p / m.erasesize
      · rw [if_pos (by exact_mod_cast hend)]
        exact ⟨p, rfl, le_rfl, hp, Mtd.stream_of_ge hend⟩
      · have hin : p / m.erasesize < m.blocks := not_le.mp hend
        have hext := (m.blockEnd_le_extent hin).trans m.extent_le_size
        rw [if_neg (by exact_mod_cast hend), probe_natCast hsize hin, jump_natCast hsize hin]
        cases hbad : bad (p / m.erasesize) with
        | false => exact ⟨p, rfl, rfl, rfl, le_rfl, hin, hbad, rfl, .inl rfl⟩
        | true =>
            rw [u64_natCast (by omega), if_pos rfl]
            by_cases heof : m.size ≤ m.blockEnd p
            · rw [if_pos heof]
              refine ⟨m.blockEnd p, rfl, (m.lt_blockEnd p).le, hext, ?_⟩
              rw [Mtd.stream_of_bad hin hbad]
              refine Mtd.stream_of_ge ?_
              by_contra hlt
              have := m.lt_extent_iff.mpr (not_le.mp hlt)
              have := m.extent_le_size
              omega
            · rw [if_neg heof]
              exact (ih hext).of_bad hin hbad

/-- A position that the search does not move. -/
def Stays (m : Mtd) (bad : Nat → Bool) (p : Int) : Prop :=
  m.ebcnt ≤ m.ebnum p ∨ probe m bad p = false

theorem walk_stays {p : Int} (h : Stays m bad p) (fuel : Nat) :
    walk m bad fuel p = .spinning ∨ walk m bad fuel p = .noBlock p ∨
      walk m bad fuel p = .good p (m.ebnum p) (m.blockoffset p) := by
  cases fuel with
  | zero => exact .inl rfl
  | succ fuel =>
      unfold walk
      by_cases hend : m.ebcnt ≤ m.ebnum p
      · exact .inr (.inl (if_pos hend))
      · rw [if_neg hend, h.resolve_left hend]
        exact .inr (.inr rfl)

/-! ## The cursor -/

/-- Every byte of the stream from `p` up to `q` has been moved. -/
structure Cursor (m : Mtd) (bad : Nat → Bool) (moved : Nat → Prop) (p q : Nat) : Prop where
  le : p ≤ q
  moved : ∀ a ∈ m.stream bad p, a < q → moved a

variable {moved : Nat → Prop}

namespace Cursor

theorem refl (m : Mtd) (bad : Nat → Bool) (moved : Nat → Prop) (p : Nat) :
    Cursor m bad moved p p :=
  ⟨le_rfl, fun _ ha hlt => absurd (Mtd.mem_stream.mp ha).1 (not_le.mpr hlt)⟩

/-- Where no good byte is left the cursor may go on. -/
theorem stop (h : Cursor m bad moved p q) (hle : q ≤ k) (hnil : m.stream bad q = []) :
    Cursor m bad moved p k := by
  refine ⟨h.le.trans hle, fun a ha _ => ?_⟩
  obtain ⟨-, hblock, hgood⟩ := Mtd.mem_stream.mp ha
  by_cases hlt : a < q
  · exact h.moved a ha hlt
  · have hmem : a ∈ m.stream bad q := Mtd.mem_stream.mpr ⟨not_lt.mp hlt, hblock, hgood⟩
    rw [hnil] at hmem
    exact absurd hmem List.not_mem_nil

theorem landing (h : Cursor m bad moved p q) (hx : Landing m bad q x) :
    Cursor m bad moved p x := by
  refine ⟨h.le.trans hx.le, fun a ha hax => ?_⟩
  obtain ⟨-, hblock, hgood⟩ := Mtd.mem_stream.mp ha
  by_cases hlt : a < q
  · exact h.moved a ha hlt
  · have hmem : a ∈ m.stream bad q := Mtd.mem_stream.mpr ⟨not_lt.mp hlt, hblock, hgood⟩
    rw [hx.stream_eq] at hmem
    exact absurd (Mtd.mem_stream.mp hmem).1 (not_le.mpr hax)

/-- A part that has been moved. -/
theorem advance (h : Cursor m bad moved p q) {len : Nat}
    (hpart : ∀ a, q ≤ a → a < q + len → moved a) : Cursor m bad moved p (q + len) := by
  refine ⟨h.le.trans (Nat.le_add_right q len), fun a ha hlt => ?_⟩
  by_cases hq : a < q
  · exact h.moved a ha hq
  · exact hpart a (not_lt.mp hq) hlt

end Cursor

/-! ## The calls -/

/-- Every end of a call satisfies `P`. -/
def Leaves (P : Ret → Prop) (r : Option Ret) : Prop := ∀ r', r = some r' → P r'

theorem leaves_none {P : Ret → Prop} : Leaves P none := fun _ h => nomatch h

theorem leaves_some {P : Ret → Prop} {r : Ret} (h : P r) : Leaves P (some r) := by
  rintro r' ⟨⟩
  exact h

/-- A search without a good block. -/
theorem leaves_stop {P : Ret → Prop} {ret s : Int} (hP : ∀ ret (k : Nat), k ≤ m.size →
    Cursor m bad moved p k → P ⟨ret, k⟩) (hq : Cursor m bad moved p q)
    (h : ∃ k : Nat, s = k ∧ q ≤ k ∧ k ≤ m.size ∧ m.stream bad q = []) :
    Leaves P (some ⟨ret, s⟩) := by
  obtain ⟨k, rfl, hle, hk, hnil⟩ := h
  exact leaves_some (hP ret k hk (hq.stop hle hnil))

section Calls

variable {allow : (e : Op) → Reply e → Prop} (hsane : ∀ e r, allow e r → Sane m bad e r)
  {P : Ret → Prop}

section Moving

variable (hsize : m.size < 4294967296)
  (hP : ∀ ret (k : Nat), k ≤ m.size → Cursor m bad moved p k → P ⟨ret, k⟩)

include hsane hsize

theorem meets_search_stops (hq : q ≤ m.size) {past : History} :
    (skipBadBlocks m fuel q).Meets allow (fun _ _ => True) (fun _ s => StopsAt m bad q s) past :=
  (meets_skipBadBlocks_walk policy_any fun addr ret h => hsane (.blockIsbad addr) ret h).mono
    fun _ _ hs => hs ▸ walk_stops hsize bad fuel hq

theorem part_leaves (hread : ∀ addr len r, allow (.mtdRead addr len) r →
      ∀ a, addr ≤ a → a < addr + r.retlen → moved a)
    (hx : x ≤ m.size) (hcursor : Cursor m bad moved p x) {len : Nat} {r : ReadReply}
    (hr : allow (.mtdRead (u64 (x : Nat)) len) r) :
    delivered x r.retlen = (x + r.retlen : Nat) ∧ x + r.retlen ≤ m.size ∧
      Cursor m bad moved p (x + r.retlen) := by
  have hbounds := (hsane _ _ hr).2
  have hpart := hread _ _ _ hr
  rw [u64_natCast (by omega)] at hbounds hpart
  exact ⟨delivered_natCast (by omega), by omega, hcursor.advance hpart⟩

include hP

/-- A read leaves the position behind bytes that the device delivered. -/
theorem read_leaves (hread : ∀ addr len r, allow (.mtdRead addr len) r →
      ∀ a, addr ≤ a → a < addr + r.retlen → moved a)
    (hp : p ≤ m.size) {past : History} :
    (at91flashRead m fuel buf n p).Meets allow (fun _ _ => True) (fun _ => Leaves P) past := by
  have hstart := Cursor.refl m bad moved p
  refine meets_at91flashRead policy_any
    ((meets_search_stops hsane hsize hp).mono fun later s hs => ?_)
  cases s with
  | spinning => exact leaves_none
  | noBlock q => exact leaves_stop hP hstart hs
  | endOfFile q => exact leaves_stop hP hstart hs
  | good x b o =>
      obtain ⟨x, rfl, rfl, rfl, hx⟩ := hs
      have hxsize := hx.lt_extent.le.trans m.extent_le_size
      have hcursor := hstart.landing hx
      -- every part advances over what its `mtd->read` delivered
      have hdone {y len : Nat} (hy : y ≤ m.size) (hcy : Cursor m bad moved p y) (r : ReadReply)
          (hr : allow (.mtdRead (u64 (y : Nat)) len) r) (ret : Int) :
          Leaves P (some ⟨ret, delivered y r.retlen⟩) := by
        obtain ⟨heq, hle, hc⟩ := part_leaves hsane hsize hread hy hcy hr
        rw [heq]
        exact leaves_some (hP ret _ hle hc)
      refine ⟨fun ret => leaves_some (hP ret x hxsize hcursor), fun _ _ =>
        ⟨fun _ => ⟨trivial, hdone hxsize hcursor⟩,
          fun _ => ⟨⟨trivial, hdone hxsize hcursor⟩, fun r hr later' => ?_⟩⟩⟩
      obtain ⟨heq, hle, hc⟩ := part_leaves hsane hsize hread hxsize hcursor hr
      rw [heq]
      refine (meets_search_stops hsane hsize hle).mono fun later'' s hs => ?_
      cases s with
      | spinning => exact leaves_none
      | noBlock q => exact leaves_stop hP hc hs
      | endOfFile q => exact leaves_stop hP hc hs
      | good y b o =>
          obtain ⟨y, rfl, -, -, hy⟩ := hs
          exact ⟨trivial, hdone (hy.lt_extent.le.trans m.extent_le_size) (hc.landing hy)⟩

variable (hwrite : ∀ addr len src r, allow (.mtdWrite addr len src) r →
    ∀ a, addr ≤ a → a < addr + len → moved a)

include hwrite

omit hsane hP in
/-- A program of the block of `x` covers the block. -/
theorem programmed_block (hx : x / m.erasesize < m.blocks) {src : Nat → Byte} {r : WriteReply}
    (hr : allow (.mtdWrite (m.ebAddr (x / m.erasesize : Nat)) m.erasesize src) r) {a : Nat}
    (ha : a / m.erasesize = x / m.erasesize) : moved a := by
  have hdiv := Nat.div_add_mod' a m.erasesize
  have hmod := Nat.mod_lt a m.erasesize_pos
  rw [ha] at hdiv
  refine hwrite _ _ _ _ hr a ?_ ?_
  · rw [ebAddr_of_lt hsize hx]
    omega
  · rw [ebAddr_of_lt hsize hx]
    omega

/-- The search for the second block, from the end of the first one. -/
theorem second_leaves {first : Nat} (hx : x / m.erasesize < m.blocks)
    (hcursor : Cursor m bad moved p (m.blockEnd x)) (hfirst : first ≤ n)
    (hrest : n ≤ first + m.erasesize) (hn : n < 4294967296) {past : History} :
    (skipBadBlocks m fuel (m.blockEnd x)).Meets allow (fun _ _ => True)
      (SecondMay m allow (fun _ _ => True) (Leaves P) buf n first) past := by
  have hext := m.extent_le_size
  have hend := (m.blockEnd_le_extent hx).trans hext
  refine (meets_search_stops hsane hsize hend).mono fun later s hs => ?_
  cases s with
  | spinning => exact leaves_none
  | noBlock q => exact leaves_stop hP hcursor hs
  | endOfFile q => exact leaves_stop hP hcursor hs
  | good y b o =>
      obtain ⟨y, rfl, rfl, -, hy⟩ := hs
      have hlt := hy.lt_extent
      have hc := hcursor.landing hy
      have hyEnd := m.blockEnd_le_extent hy.block_lt
      have hyEq := m.blockEnd_eq y
      rw [hy.aligned_next] at hyEq
      have hcount : u32 ((n : Int) - first) = n - first := by
        rw [← Nat.cast_sub hfirst, u32_natCast (by omega)]
      refine ⟨⟨trivial, trivial, fun _ => trivial⟩, trivial,
        leaves_some (hP _ y (hlt.le.trans hext) hc), fun src r hr => ?_⟩
      rw [hcount, ← Nat.cast_add, i64_natCast (by omega)]
      refine leaves_some (hP _ _ (by omega) (hc.advance fun a hya haw => ?_))
      exact programmed_block hsize hwrite hy.block_lt hr (m.div_of_mem_block hya (by omega))

theorem writeCount_leaves (hn : n < 4294967296) (hp : p ≤ m.size)
    (hdone : ∀ (x : Nat) src r, Landing m bad p x →
      allow (.mtdWrite (m.ebAddr (x / m.erasesize : Nat)) m.erasesize src) r →
        P ⟨i32 r.retlen, (x + r.retlen : Nat)⟩) {past : History} :
    (writeCount m fuel buf n p).Meets allow (fun _ _ => True) (fun _ => Leaves P) past := by
  have hstart := Cursor.refl m bad moved p
  have hext := m.extent_le_size
  have hes := m.erasesize_lt
  refine meets_writeCount policy_any (leaves_some (hP 0 p hp hstart))
    ((meets_search_stops hsane hsize hp).mono fun later s hs => ?_)
  cases s with
  | spinning => exact leaves_none
  | noBlock q => exact leaves_stop hP hstart hs
  | endOfFile q => exact leaves_stop hP hstart hs
  | good x b o =>
      obtain ⟨x, rfl, rfl, rfl, hx⟩ := hs
      have hlt := hx.lt_extent
      have hcursor := hstart.landing hx
      have hendEq := m.blockEnd_eq x
      have hleft (ret : Int) : Leaves P (some ⟨ret, x⟩) :=
        leaves_some (hP ret x (hlt.le.trans hext) hcursor)
      refine ⟨hleft _, fun kbuf => ⟨⟨trivial, trivial, fun _ => trivial⟩, fun _ => trivial,
        fun _ _ => trivial, fun _ hnot hguard => ⟨trivial, fun src r hr later' => ?_⟩,
        hleft _, fun src r hr => ?_⟩⟩
      · rw [ebAddr_next hsize hx.block_lt, ← Nat.cast_add, i64_natCast (by omega)] at hnot
        have hwide := m.ebAddr_add_two_le x
        rw [← Nat.cast_add, i64_natCast (by omega)] at hguard
        rw [Mtd.u32_sub_blockoffset (by omega), ← Nat.cast_add, i64_natCast (by omega), ← hendEq]
        -- the first block was programmed to its end
        have hblock : Cursor m bad moved p (m.blockEnd x) := by
          rw [hendEq]
          refine hcursor.advance fun a hxa hlast => ?_
          exact programmed_block hsize hwrite hx.block_lt hr
            (m.div_of_mem_block hxa (by omega))
        exact second_leaves hsane hsize hP hwrite hx.block_lt hblock (by omega) (by omega) hn
      · have hr' : r.retlen ≤ m.erasesize := hsane _ _ hr
        rw [← Nat.cast_add, i64_natCast (by omega)]
        exact leaves_some (hdone x src r hx hr)

/-- A write leaves the position behind bytes that it programmed, or where one
block less than its length was. -/
theorem write_leaves (hp : p ≤ m.size)
    (hdone : ∀ (x : Nat) src r, Landing m bad p x →
      allow (.mtdWrite (m.ebAddr (x / m.erasesize : Nat)) m.erasesize src) r →
        P ⟨i32 r.retlen, (x + r.retlen : Nat)⟩) {past : History} :
    (at91flashWrite m fuel buf n p).Meets allow (fun _ _ => True) (fun _ => Leaves P) past := by
  unfold at91flashWrite
  split
  · exact writeCount_leaves hsane hsize hP hwrite (u32_lt _) hp hdone
  · split
    · exact leaves_some (hP _ p hp (Cursor.refl m bad moved p))
    · have hes := m.erasesize_lt
      exact writeCount_leaves hsane hsize hP hwrite (by omega) hp hdone

end Moving

include hsane

/-- From a position that the search does not move, a read that is given no
byte leaves it there. -/
theorem read_stays {z : Int} (hz : Stays m bad z) (hread : ∀ addr len r,
      allow (.mtdRead addr len) r → r.retlen = 0) {past : History} :
    (at91flashRead m fuel buf n z).Meets allow (fun _ _ => True)
      (fun _ => Leaves fun r => r.ppos = z) past := by
  have hsearch {past : History} : (skipBadBlocks m fuel z).Meets allow (fun _ _ => True)
      (fun _ s => s = .spinning ∨ s = .noBlock z ∨ s = .good z (m.ebnum z) (m.blockoffset z))
      past :=
    (meets_skipBadBlocks_walk policy_any fun addr ret h => hsane (.blockIsbad addr) ret h).mono
      fun _ _ hs => hs ▸ walk_stays hz fuel
  have hpart {past : History} {len : Nat} :
      PartMay allow (fun _ _ => True) (Leaves fun r => r.ppos = z) past z len := by
    refine ⟨trivial, fun r hr ret => leaves_some ?_⟩
    rw [hread _ _ _ hr]
    rfl
  refine meets_at91flashRead policy_any (hsearch.mono fun later s hs => ?_)
  rcases hs with rfl | rfl | rfl
  · exact leaves_none
  · exact leaves_some rfl
  · refine ⟨fun _ => leaves_some rfl, fun _ _ => ⟨fun _ => hpart, fun _ =>
      ⟨hpart, fun r hr later' => ?_⟩⟩⟩
    rw [hread _ _ _ hr]
    refine Prog.Meets.mono hsearch fun later'' s hs => ?_
    rcases hs with rfl | rfl | rfl
    · exact leaves_none
    · exact leaves_some rfl
    · exact @hpart [] _

/-- A write that programs nothing leaves such a position as well. -/
theorem write_stays {z : Int} (hz : Stays m bad z) (hwrite : ∀ addr src r,
      ¬ allow (.mtdWrite addr m.erasesize src) r) {past : History} :
    (at91flashWrite m fuel buf n z).Meets allow (fun _ _ => True)
      (fun _ => Leaves fun r => r.ppos = z) past := by
  have hcount (n : Nat) : (writeCount m fuel buf n z).Meets allow (fun _ _ => True)
      (fun _ => Leaves fun r => r.ppos = z) past := by
    refine meets_writeCount policy_any (leaves_some rfl)
      ((meets_skipBadBlocks_walk policy_any fun addr ret h => hsane (.blockIsbad addr) ret h).mono
        fun _ s hs => ?_)
    subst hs
    rcases walk_stays hz fuel with hwalk | hwalk | hwalk <;> rw [hwalk]
    · exact leaves_none
    · exact leaves_some rfl
    · exact ⟨leaves_some rfl, fun _ => ⟨⟨trivial, trivial, fun _ => trivial⟩, fun _ => trivial,
        fun _ _ => trivial, fun _ _ _ => ⟨trivial, fun _ _ hr => absurd hr (hwrite _ _ _)⟩,
        leaves_some rfl, fun _ _ hr => absurd hr (hwrite _ _ _)⟩⟩
  unfold at91flashWrite
  split
  · exact hcount _
  · split
    · exact leaves_some rfl
    · exact hcount _

end Calls

/-! ## An error and the position -/

/-- The operation moved the byte at `a` for a transfer: an `mtd->read` that
delivered it to a read, or an `mtd->write` that covered it for a write. -/
def Moves (t : Transfer) (a : Nat) : (e : Op) → Reply e → Prop
  | .mtdRead addr _, r => t = .read ∧ addr ≤ a ∧ a < addr + r.retlen
  | .mtdWrite addr len _, _ => t = .write ∧ addr ≤ a ∧ a < addr + len
  | _, _ => False

def Moved (t : Transfer) (trace : History) (a : Nat) : Prop :=
  ∃ event ∈ trace, Moves t a event.1 event.2

/-- A length that is negative as an `int` is more than half of the device. -/
theorem one_block (hsize : m.size < 4294967296) (hk : k ≤ m.erasesize) (hneg : i32 k < 0) :
    m.blocks ≤ 1 := by
  have hext := m.extent_le_size
  have hlarge : 2147483648 ≤ k := by
    by_contra hsmall
    rw [i32_natCast (by omega)] at hneg
    omega
  by_contra hmany
  have hle : 2 * m.erasesize ≤ m.extent := Nat.mul_le_mul_right _ (by omega)
  omega

/-- An error leaves the position where it was when there is no bad block to
skip and nothing was moved.  From a position of the device it leaves it where
it was or further on, and every byte of the stream before it has been moved. -/
theorem failed_position {w w' : World} {t : Transfer} {r : Ret} {z : Int}
    (hsize : m.size < 4294967296)
    (hrun : (t.body m fuel buf n z).run (device m bad) w = (some r, w')) (hneg : r.ret < 0) :
    (Stays m bad z → (∀ a, ¬ Moved t ((t.body m fuel buf n z).trace (device m bad) w) a) →
        r.ppos = z) ∧
      ∀ p : Nat, z = p → p ≤ m.size → ∃ q : Nat, r.ppos = q ∧
        Cursor m bad (Moved t ((t.body m fuel buf n z).trace (device m bad) w)) p q := by
  obtain ⟨trace, htrace⟩ : ∃ trace, trace = (t.body m fuel buf n z).trace (device m bad) w :=
    ⟨_, rfl⟩
  -- the answers of this run, with the bytes they move
  let allow (e : Op) (r : Reply e) : Prop := Sane m bad e r ∧ ∀ a, Moves t a e r → Moved t trace a
  have hsane (e : Op) (r : Reply e) (h : allow e r) : Sane m bad e r := h.1
  have hallow : ∀ event ∈ (t.body m fuel buf n z).trace (device m bad) w,
      allow event.1 event.2 := fun event hevent =>
    ⟨(device_sane m bad).of_mem_trace hevent, fun a ha => ⟨event, htrace ▸ hevent, ha⟩⟩
  rw [← htrace]
  constructor
  · intro hz hnone
    have hmeets : (t.body m fuel buf n z).Meets allow (fun _ _ => True)
        (fun _ => Leaves fun r => r.ppos = z) [] := by
      cases t with
      | read =>
          refine read_stays hsane hz fun addr len r hr => ?_
          by_contra hlen
          exact hnone addr (hr.2 addr ⟨rfl, le_rfl, by omega⟩)
      | write =>
          refine write_stays hsane hz fun addr src r hr => ?_
          have hpos := m.erasesize_pos
          exact hnone addr (hr.2 addr ⟨rfl, le_rfl, by omega⟩)
    have hleaves := hmeets.sound_of_trace w hallow
    rw [hrun] at hleaves
    exact hleaves r rfl
  · rintro p rfl hp
    have hmeets : (t.body m fuel buf n p).Meets allow (fun _ _ => True)
        (fun _ => Leaves fun r => r.ret < 0 → ∃ q : Nat, r.ppos = q ∧
          Cursor m bad (Moved t trace) p q) [] := by
      cases t with
      | read =>
          refine read_leaves hsane hsize (fun ret k _ hc _ => ⟨k, rfl, hc⟩) ?_ hp
          exact fun addr len r hr a hlo hhi => hr.2 a ⟨rfl, hlo, hhi⟩
      | write =>
          have hwrite (addr len : Nat) (src : Nat → Byte) (r : WriteReply)
              (hr : allow (.mtdWrite addr len src) r) (a : Nat) (hlo : addr ≤ a)
              (hhi : a < addr + len) : Moved .write trace a := hr.2 a ⟨rfl, hlo, hhi⟩
          refine write_leaves hsane hsize (fun ret k _ hc _ => ⟨k, rfl, hc⟩) hwrite hp ?_
          -- the length of a program is negative only when the device is one block
          intro x src r hx hr hret
          have hone := one_block hsize (hsane _ _ hr) hret
          have hx₀ := Nat.lt_one_iff.mp (hx.block_lt.trans_le hone)
          refine ⟨_, rfl, hx.le.trans (Nat.le_add_right _ _), fun a ha _ => ?_⟩
          have ha₀ := Nat.lt_one_iff.mp ((Mtd.mem_stream.mp ha).2.1.trans_le hone)
          exact programmed_block hsize hwrite hx.block_lt hr (ha₀.trans hx₀.symm)
    have hleaves := hmeets.sound_of_trace w hallow
    rw [hrun] at hleaves
    exact hleaves r rfl hneg

/-- One byte at 0 with block 0 bad and no memory for the buffer. -/
def starved : World :=
  { quiet (fun _ => 1) (fun _ => 7) (fun _ => 9) with heap := fun _ => none }

theorem run_starved :
    (Transfer.write.body fourBlocks 5 0 1 0).run (device fourBlocks (· == 0)) starved =
      (some ⟨-12, 4⟩, ((Transfer.write.body fourBlocks 5 0 1 0).run
        (device fourBlocks (· == 0)) starved).2) :=
  Prod.ext (by decide +kernel) rfl

theorem failed_position_at_zero :
    (Stays fourBlocks (· == 0) 0 →
        (∀ a, ¬ Moved .write ((Transfer.write.body fourBlocks 5 0 1 0).trace
          (device fourBlocks (· == 0)) starved) a) → (4 : Int) = 0) ∧
      ∀ p : Nat, (0 : Int) = p → p ≤ 16 → ∃ q : Nat, (4 : Int) = q ∧
        Cursor fourBlocks (· == 0) (Moved .write ((Transfer.write.body fourBlocks 5 0 1 0).trace
          (device fourBlocks (· == 0)) starved)) p q :=
  failed_position (by decide) run_starved (by decide)

/-- It fails with the position moved on to block 1. -/
theorem failure_moves_position :
    ¬ ∀ (m : Mtd) (bad : Nat → Bool) (w w' : World) (fuel buf n : Nat) (t : Transfer) (z : Int)
      (r : Ret), m.size < 4294967296 →
      (t.body m fuel buf n z).run (device m bad) w = (some r, w') → r.ret < 0 → r.ppos = z := by
  intro h
  have hkept := h fourBlocks (· == 0) starved _ 5 0 1 .write 0 ⟨-12, 4⟩ (by decide)
    run_starved (by decide)
  exact absurd hkept (by decide)

end At91Drivers.Flash
