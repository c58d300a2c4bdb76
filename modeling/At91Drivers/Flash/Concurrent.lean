import At91Drivers.Flash.Rules
import At91Drivers.Flash.Sharing

/-!
# Two writers at once

The driver takes no lock: two calls interleave operation by operation.  A write
reads, erases and programs the blocks of its stream bytes and no others.  So
two calls that share no block end like the two calls one after the other, in
either order.  Two calls that share a block do so only when the operations of
one on the shared block all come before the conflicting ones of the other.
-/

namespace At91Drivers.Flash

open Effects Arith

variable {m : Mtd} {bad : Nat → Bool} {fuel : Nat}

/-! ## The footprint of a write -/

/-- The operation keeps to the blocks of the given addresses. -/
def Op.Within (m : Mtd) (l : List Nat) (e : Op) : Prop :=
  ∀ a, e.Reads a ∨ e.Changes a → ∃ x ∈ l, a / m.erasesize = x / m.erasesize

theorem within_policy (l : List Nat) : Policy fun _ e => Op.Within m l e where
  grows h _ := h
  harmless := by
    intro _ e he a ha
    cases e <;> first | exact ha.elim False.elim False.elim | exact he.elim

theorem blockMay_within (hsize : m.size < 4294967296) {l : List Nat} {past : History} {x : Nat}
    (hx : x ∈ l) (hblock : x / m.erasesize < m.blocks) :
    BlockMay m (fun _ e => Op.Within m l e) past (x / m.erasesize : Nat) := by
  have hrange {a : Nat} (h : m.ebAddr (x / m.erasesize : Nat) ≤ a ∧
      a < m.ebAddr (x / m.erasesize : Nat) + m.erasesize) :
      ∃ x' ∈ l, a / m.erasesize = x' / m.erasesize := by
    rw [ebAddr_of_lt hsize hblock] at h
    refine ⟨x, hx, ?_⟩
    have hdiv := m.div_of_mem_block (a := x / m.erasesize * m.erasesize) h.1 (by
      rw [Mtd.blockEnd, Nat.mul_div_cancel _ m.erasesize_pos, Nat.add_mul]
      omega)
    rwa [Nat.mul_div_cancel _ m.erasesize_pos] at hdiv
  exact ⟨fun a ha => hrange (ha.elim id False.elim), fun a ha => hrange (ha.elim False.elim id),
    fun src a ha => hrange (ha.elim False.elim id)⟩

theorem Landing.mem_take {p x n : Nat} (h : Landing m bad p x) (hn : 0 < n) :
    x ∈ (m.stream bad p).take n := by
  have hmod := Nat.mod_lt x m.erasesize_pos
  obtain ⟨k, hk⟩ : ∃ k, m.erasesize - x % m.erasesize = k + 1 :=
    ⟨m.erasesize - x % m.erasesize - 1, by omega⟩
  obtain ⟨j, rfl⟩ : ∃ j, n = j + 1 := ⟨n - 1, by omega⟩
  rw [h.stream_split, hk, List.range'_succ]
  exact List.mem_cons_self

theorem Landing.mem_take_next {p x y n : Nat} (h : Landing m bad p x)
    (hy : Landing m bad (m.blockEnd x) y) (hn : m.erasesize - x % m.erasesize < n) :
    y ∈ (m.stream bad p).take n := by
  obtain ⟨rest, rfl⟩ := Nat.exists_eq_add_of_lt hn
  rw [h.stream_split, List.take_append, List.length_range']
  exact List.mem_append_right _ (hy.mem_take (by omega))

section Write

variable {may : History → Op → Prop} (hpolicy : Policy may)
  (hcopy : ∀ {past dst buf len}, may past (.copyFromUser dst buf len))
  (hsize : m.size < 4294967296) {buf n p : Nat} (hp : p / m.erasesize ≤ m.blocks)

include hpolicy hcopy hsize hp

/-- A write asks for the blocks of its stream bytes only. -/
theorem writeCount_blocks {past : History} (hn : n < 4294967296)
    (hblock : ∀ x ∈ (m.stream bad p).take n, ∀ past, BlockMay m may past (x / m.erasesize : Nat)) :
    (writeCount m fuel buf n p).Meets (Sane m bad) may (fun _ _ => True) past := by
  have hext := m.extent_le_size
  rcases Nat.eq_zero_or_pos n with rfl | hpos
  · trivial
  refine meets_writeCount hpolicy trivial
    ((meets_skipBadBlocks_walk hpolicy fun _ _ h => h).mono fun later s hs => ?_)
  subst hs
  rcases walk_of_div_le hsize bad fuel hp with ⟨x, hwalk, hx⟩ | ⟨q, hwalk | hwalk⟩ | hwalk
  · have hlt := hx.lt_extent
    have hend := m.blockEnd_eq x
    rw [hwalk]
    refine ⟨trivial, fun kbuf => ⟨hblock x (hx.mem_take hpos) _, fun _ => hcopy,
      fun _ _ => hcopy, fun _ hnot _ => ⟨hcopy, fun _ _ _ later' => ?_⟩, trivial,
      fun _ _ _ => trivial⟩⟩
    -- only a write that jumps asks for another block
    rw [ebAddr_next hsize hx.block_lt, ← Nat.cast_add, i64_natCast (by omega)] at hnot
    have hlong : m.blockEnd x < x + n := by exact_mod_cast not_le.mp hnot
    rw [Mtd.u32_sub_blockoffset (by omega), ← Nat.cast_add, i64_natCast (by omega), ← hend]
    refine (meets_skipBadBlocks_walk hpolicy fun _ _ h => h).mono fun later s hs => ?_
    subst hs
    have hnext : m.blockEnd x / m.erasesize ≤ m.blocks := by
      rw [m.blockEnd_div]
      exact hx.block_lt
    rcases walk_of_div_le hsize bad fuel hnext with
      ⟨y, hwalk₂, hy⟩ | ⟨q, hwalk₂ | hwalk₂⟩ | hwalk₂
    · rw [hwalk₂]
      have hmem := hx.mem_take_next hy (n := n) (by omega)
      exact ⟨hblock y hmem _, hcopy, trivial, fun _ _ _ => trivial⟩
    · rw [hwalk₂]
      trivial
    · rw [hwalk₂]
      trivial
    · rw [hwalk₂]
      trivial
  · rw [hwalk]
    trivial
  · rw [hwalk]
    trivial
  · rw [hwalk]
    trivial

theorem write_blocks {past : History}
    (hblock : ∀ x ∈ (m.stream bad p).take n, ∀ past, BlockMay m may past (x / m.erasesize : Nat)) :
    (at91flashWrite m fuel buf n p).Meets (Sane m bad) may (fun _ _ => True) past := by
  have hes := m.erasesize_lt
  unfold at91flashWrite
  split
  · next hclip =>
      -- what is left of the device is less than the count, or is nothing
      refine writeCount_blocks hpolicy hcopy hsize hp (u32_lt _) fun x hx => hblock x ?_
      have hne : m.stream bad p ≠ [] := by
        intro hnil
        rw [hnil, List.take_nil] at hx
        cases hx
      have hlt := Mtd.lt_extent_of_stream_ne_nil hne
      have hext := m.extent_le_size
      have hle : u32 ((m.size : Int) - p) ≤ n := by
        rw [← Nat.cast_sub (by omega), u32_natCast (by omega)]
        have hwrap := u64_natCast_le (p + n)
        rw [← Nat.cast_add] at hclip
        omega
      exact List.take_subset_take_left _ hle hx
  · split
    · trivial
    · exact writeCount_blocks hpolicy hcopy hsize hp (by omega) hblock

end Write

/-- A write touches the blocks of its stream bytes only. -/
theorem write_within_blocks (bad : Nat → Bool) (hsize : m.size < 4294967296) {buf n p : Nat}
    (hp : p ≤ m.size) :
    (at91flashWrite m fuel buf n p).Meets (Sane m bad)
      (fun _ e => Op.Within m ((m.stream bad p).take n) e) (fun _ _ => True) [] := by
  refine write_blocks (within_policy _) (fun a ha => ha.elim False.elim False.elim) hsize
    (Nat.div_le_div_right hp) fun x hx _ => ?_
  exact blockMay_within hsize hx (Mtd.mem_stream.mp (List.mem_of_mem_take hx)).2.1

/-! ## Two calls -/

namespace WriteCall

/-- The call's data is in its stream bytes. -/
def Stored (m : Mtd) (bad : Nat → Bool) (c : WriteCall) (flash : Nat → Byte) : Prop :=
  ((m.stream bad c.ppos).take c.count).map flash =
    (List.range c.count).map fun i => c.caller.user (c.buf + i)

/-- The two calls operation by operation, in the order of the turns. -/
def race (m : Mtd) (bad : Nat → Bool) (fuel : Nat) (a b : WriteCall) (turns : List Bool)
    (flash : Nat → Byte) : Option (Prog.Race Op (Option Ret) (Option Ret) Shared) :=
  Prog.race (leftDevice m bad) (rightDevice m bad) turns
    (at91flashWrite m fuel a.buf a.count a.ppos) (at91flashWrite m fuel b.buf b.count b.ppos)
    ⟨a.caller, b.caller, flash⟩

end WriteCall

/-- A call returned, and not with an error. -/
def Returned (r : Option Ret) : Prop := ∃ r', r = some r' ∧ 0 ≤ r'.ret

variable {a b c : WriteCall} {flash : Nat → Byte} {turns : List Bool}
  {o : Prog.Race Op (Option Ret) (Option Ret) Shared}

/-- A write leaves the blocks alone that hold none of its stream bytes. -/
theorem WriteDone.frame_block {w : World} {buf n p : Nat} {r : Ret} {flash : Nat → Byte}
    (h : WriteDone m bad w buf n p r flash) (hn : 0 < n) (hes : n ≤ m.erasesize) {x : Nat}
    (hx : ∀ y ∈ (m.stream bad p).take n, x / m.erasesize ≠ y / m.erasesize) :
    flash x = w.flash x := by
  by_cases hzero : AtZero bad p
  · obtain ⟨kbuf, -, hland, rfl⟩ := h.flash_atZero hzero
    have hne := hx 0 (hland.mem_take hn)
    rw [Nat.zero_div] at hne
    refine splice_of_ge ?_
    rw [Nat.zero_add]
    by_contra hlt
    exact hne (Nat.div_eq_of_lt (not_le.mp hlt))
  · exact h.frame hes hzero fun hmem => hx x hmem rfl

/-- The same race with the calls named the other way round. -/
theorem WriteCall.race_symm (h : a.race m bad fuel b turns flash = some o) :
    b.race m bad fuel a (turns.map not) flash = some (o.swap.mapState Shared.swap) := by
  have hleft (e : Op) (s : Shared) : leftDevice m bad e s.swap =
      ((rightDevice m bad e s).1, (rightDevice m bad e s).2.swap) := rfl
  have hright (e : Op) (s : Shared) : rightDevice m bad e s.swap =
      ((leftDevice m bad e s).1, (leftDevice m bad e s).2.swap) := rfl
  have hswap := Prog.race_mapState Shared.swap hleft hright (turns.map not)
    (at91flashWrite m fuel b.buf b.count b.ppos) (at91flashWrite m fuel a.buf a.count a.ppos)
    ⟨a.caller, b.caller, flash⟩
  rw [Prog.race_swap h] at hswap
  exact hswap

section TwoCalls

variable (hsize : m.size < 4294967296) (hfuel : m.blocks < fuel)

/-- With the operations of the left call first wherever the calls conflict, the
race is the left call and then the right one. -/
theorem race_leftFirst (h : a.race m bad fuel b turns flash = some o)
    (hfirst : Prog.LeftFirst Op.Conflict o.log) (ha : Returned o.left) (hb : Returned o.right) :
    a.Succeeds m bad fuel flash ∧
      b.Succeeds m bad fuel (a.flashAfter m bad fuel flash) ∧
      o.state.flash = b.flashAfter m bad fuel (a.flashAfter m bad fuel flash) := by
  obtain ⟨hleft, hright, -⟩ := Prog.race_serial (fun _ _ => commutes_of_not_conflict) h hfirst
  rw [run_leftDevice] at hleft hright
  rw [run_rightDevice] at hright
  have hleft' : (a.run m bad fuel flash).1 = o.left := hleft.symm
  have hright' : (b.run m bad fuel (a.flashAfter m bad fuel flash)).1 = o.right :=
    congrArg Prod.fst hright
  have hflash : b.flashAfter m bad fuel (a.flashAfter m bad fuel flash) = o.state.flash :=
    congrArg (fun s => s.2.flash) hright
  refine ⟨?_, ?_, hflash.symm⟩
  · obtain ⟨r, hr, hret⟩ := ha
    exact ⟨r, hleft'.trans hr, hret⟩
  · obtain ⟨r, hr, hret⟩ := hb
    exact ⟨r, hright'.trans hr, hret⟩

include hsize

/-- Operations of calls that share no block do not conflict. -/
theorem race_noConflict (hA : a.Ok m) (hB : b.Ok m)
    (h : a.race m bad fuel b turns flash = some o)
    (hblocks : ∀ x ∈ (m.stream bad a.ppos).take a.count,
      ∀ y ∈ (m.stream bad b.ppos).take b.count, x / m.erasesize ≠ y / m.erasesize) :
    ∀ e e', .inl e ∈ o.log → .inr e' ∈ o.log → ¬ e.Conflict e' := by
  have hleft := Prog.race_asks (Prog.Obeys.within (device_sane m bad) _ _)
    (write_within_blocks bad hsize (Nat.le_of_add_right_le hA.inside)) h
  have hright := Prog.race_asks (Prog.Obeys.within (device_sane m bad) _ _)
    (write_within_blocks bad hsize (Nat.le_of_add_right_le hB.inside)) (Prog.race_swap h)
  intro e e' he he' hconflict
  have hmem : Sum.inl e' ∈ o.swap.log := List.mem_map.mpr ⟨.inr e', he', rfl⟩
  have hcommon : ∃ x, (e.Reads x ∨ e.Changes x) ∧ (e'.Reads x ∨ e'.Changes x) := by
    obtain ⟨x, ⟨hc, hc'⟩ | ⟨hr, hc⟩⟩ := hconflict
    · exact ⟨x, .inr hc, hc'⟩
    · exact ⟨x, .inl hr, .inr hc⟩
  obtain ⟨x, hx, hx'⟩ := hcommon
  obtain ⟨y, hy, hxy⟩ := hleft e he x hx
  obtain ⟨z, hz, hxz⟩ := hright e' hmem x hx'
  exact hblocks y hy z hz (hxy.symm.trans hxz)

include hfuel

theorem WriteCall.stored_after (hc : c.Ok m) (hsucc : c.Succeeds m bad fuel flash)
    (flash' : Nat → Byte) : c.Stored m bad (c.flashAfter m bad fuel flash') := by
  obtain ⟨r, h⟩ := c.flashAfter_done hsize hfuel hc hsucc c.caller.user flash'
  exact h.stored hc.block

/-- After both calls, one after the other, both have their data in the flash,
if the second one leaves the stream bytes of the first one alone. -/
theorem stored_both {flashA flashB : Nat → Byte} (hA : a.Ok m) (hB : b.Ok m)
    (hsA : a.Succeeds m bad fuel flashA) (hsB : b.Succeeds m bad fuel flashB)
    (hkept : ∀ f, ∀ x ∈ (m.stream bad a.ppos).take a.count, b.flashAfter m bad fuel f x = f x)
    (f : Nat → Byte) :
    a.Stored m bad (b.flashAfter m bad fuel (a.flashAfter m bad fuel f)) ∧
      b.Stored m bad (b.flashAfter m bad fuel (a.flashAfter m bad fuel f)) := by
  refine ⟨?_, b.stored_after hsize hfuel hB hsB _⟩
  rw [WriteCall.Stored, List.map_congr_left (hkept _)]
  exact a.stored_after hsize hfuel hA hsA f

/-- One order: a race with the left call first wherever the calls conflict. -/
theorem race_ordered (hA : a.Ok m) (hB : b.Ok m)
    (hdisj : ∀ x ∈ (m.stream bad a.ppos).take a.count, x ∉ (m.stream bad b.ppos).take b.count)
    (h : a.race m bad fuel b turns flash = some o) (ha : Returned o.left) (hb : Returned o.right)
    (hfirst : Prog.LeftFirst Op.Conflict o.log) :
    o.state.flash = b.flashAfter m bad fuel (a.flashAfter m bad fuel flash) ∧
      (¬ WriteDone.AtZero bad b.ppos →
        a.Stored m bad o.state.flash ∧ b.Stored m bad o.state.flash) := by
  obtain ⟨hsA, hsB, hflash⟩ := race_leftFirst h hfirst ha hb
  refine ⟨hflash, fun hzero => ?_⟩
  rw [hflash]
  exact stored_both hsize hfuel hA hB hsA hsB
    (fun f x hx => b.frame hsize hfuel hB hsB hzero f (hdisj x hx)) flash

/-- Two calls without a common block. -/
theorem race_apart (hA : a.Ok m) (hB : b.Ok m)
    (h : a.race m bad fuel b turns flash = some o) (ha : Returned o.left) (hb : Returned o.right)
    (hblocks : ∀ x ∈ (m.stream bad a.ppos).take a.count,
      ∀ y ∈ (m.stream bad b.ppos).take b.count, x / m.erasesize ≠ y / m.erasesize) :
    o.state.flash = b.flashAfter m bad fuel (a.flashAfter m bad fuel flash) ∧
      a.Stored m bad o.state.flash ∧ b.Stored m bad o.state.flash := by
  have hnone := race_noConflict hsize hA hB h hblocks
  have hfirst : Prog.LeftFirst Op.Conflict o.log := by
    refine List.pairwise_of_forall_mem_list fun x hx y hy e' e hx' hy' => ?_
    subst hx' hy'
    exact hnone e e' hy hx
  obtain ⟨hsA, hsB, hflash⟩ := race_leftFirst h hfirst ha hb
  refine ⟨hflash, ?_⟩
  rw [hflash]
  refine stored_both hsize hfuel hA hB hsA hsB (fun f x hx => ?_) flash
  obtain ⟨r, hdone⟩ := b.flashAfter_done hsize hfuel hB hsB b.caller.user f
  exact hdone.frame_block hB.pos hB.block (hblocks x hx)

/-- Two calls that use different stream bytes end as in one of the two serial
orders, with the data of both in the flash, in every race in which one of them
comes first wherever they conflict; for two calls without a common block that
is every race.  (A second call at byte 0 rewrites all of block 0.) -/
theorem race_serializable (hA : a.Ok m) (hB : b.Ok m)
    (hdisj : ∀ x ∈ (m.stream bad a.ppos).take a.count, x ∉ (m.stream bad b.ppos).take b.count)
    (h : a.race m bad fuel b turns flash = some o) (ha : Returned o.left)
    (hb : Returned o.right) :
    (Prog.LeftFirst Op.Conflict o.log →
      o.state.flash = b.flashAfter m bad fuel (a.flashAfter m bad fuel flash) ∧
        (¬ WriteDone.AtZero bad b.ppos →
          a.Stored m bad o.state.flash ∧ b.Stored m bad o.state.flash)) ∧
    (Prog.LeftFirst Op.Conflict o.swap.log →
      o.state.flash = a.flashAfter m bad fuel (b.flashAfter m bad fuel flash) ∧
        (¬ WriteDone.AtZero bad a.ppos →
          a.Stored m bad o.state.flash ∧ b.Stored m bad o.state.flash)) ∧
    ((∀ x ∈ (m.stream bad a.ppos).take a.count,
        ∀ y ∈ (m.stream bad b.ppos).take b.count, x / m.erasesize ≠ y / m.erasesize) →
      o.state.flash = b.flashAfter m bad fuel (a.flashAfter m bad fuel flash) ∧
        o.state.flash = a.flashAfter m bad fuel (b.flashAfter m bad fuel flash) ∧
        a.Stored m bad o.state.flash ∧ b.Stored m bad o.state.flash) := by
  have hsymm := WriteCall.race_symm h
  refine ⟨race_ordered hsize hfuel hA hB hdisj h ha hb, fun hfirst => ?_, fun hblocks => ?_⟩
  · obtain ⟨hflash, hstored⟩ :=
      race_ordered hsize hfuel hB hA (fun x hx hx' => hdisj x hx' hx) hsymm hb ha hfirst
    exact ⟨hflash, fun hzero => (hstored hzero).symm⟩
  · obtain ⟨hflash, hstored⟩ := race_apart hsize hfuel hA hB h ha hb hblocks
    obtain ⟨hflash', -⟩ := race_apart hsize hfuel hB hA hsymm hb ha
      fun y hy x hx => (hblocks x hx y hy).symm
    exact ⟨hflash, hflash', hstored⟩

end TwoCalls

/-- One byte at 5 and one at 9, in two blocks, turn by turn. -/
theorem race_serializable_turn_by_turn :
    ∃ o, (byteAt 5).race fourBlocks (fun _ => false) 5 (byteAt 9)
        [true, false, true, false, true, false, true, false, true, false, true, false, true, false,
          true, false] (fun _ => 7) = some o ∧
      (Prog.LeftFirst Op.Conflict o.log →
        o.state.flash = (byteAt 9).flashAfter fourBlocks (fun _ => false) 5
            ((byteAt 5).flashAfter fourBlocks (fun _ => false) 5 fun _ => 7) ∧
          (¬ WriteDone.AtZero (fun _ => false) 9 →
            (byteAt 5).Stored fourBlocks (fun _ => false) o.state.flash ∧
              (byteAt 9).Stored fourBlocks (fun _ => false) o.state.flash)) ∧
      (Prog.LeftFirst Op.Conflict o.swap.log →
        o.state.flash = (byteAt 5).flashAfter fourBlocks (fun _ => false) 5
            ((byteAt 9).flashAfter fourBlocks (fun _ => false) 5 fun _ => 7) ∧
          (¬ WriteDone.AtZero (fun _ => false) 5 →
            (byteAt 5).Stored fourBlocks (fun _ => false) o.state.flash ∧
              (byteAt 9).Stored fourBlocks (fun _ => false) o.state.flash)) ∧
      ((∀ x ∈ (fourBlocks.stream (fun _ => false) 5).take 1,
          ∀ y ∈ (fourBlocks.stream (fun _ => false) 9).take 1, x / 4 ≠ y / 4) →
        o.state.flash = (byteAt 9).flashAfter fourBlocks (fun _ => false) 5
            ((byteAt 5).flashAfter fourBlocks (fun _ => false) 5 fun _ => 7) ∧
          o.state.flash = (byteAt 5).flashAfter fourBlocks (fun _ => false) 5
            ((byteAt 9).flashAfter fourBlocks (fun _ => false) 5 fun _ => 7) ∧
          (byteAt 5).Stored fourBlocks (fun _ => false) o.state.flash ∧
            (byteAt 9).Stored fourBlocks (fun _ => false) o.state.flash) := by
  have hends : ((byteAt 5).race fourBlocks (fun _ => false) 5 (byteAt 9)
      [true, false, true, false, true, false, true, false, true, false, true, false, true, false,
        true, false] fun _ => 7).map (fun o => (o.left, o.right)) =
      some (some ⟨4, 9⟩, some ⟨4, 13⟩) := by decide +kernel
  obtain ⟨o, ho, hret⟩ := Option.map_eq_some_iff.mp hends
  exact ⟨o, ho, race_serializable (by decide) (by decide) (byteAt_ok (by decide))
    (byteAt_ok (by decide)) (by decide +kernel) ho
    ⟨⟨4, 9⟩, congrArg Prod.fst hret, by decide⟩ ⟨⟨4, 13⟩, congrArg Prod.snd hret, by decide⟩⟩

/-- One byte at 5 and one at 6: the right call runs between the read and the
program of the left one, and its byte is lost. -/
theorem race_loses_update :
    ¬ ∀ (m : Mtd) (bad : Nat → Bool) (fuel : Nat) (a b : WriteCall) (turns : List Bool)
        (flash : Nat → Byte) (o : Prog.Race Op (Option Ret) (Option Ret) Shared),
      m.size < 4294967296 → m.blocks < fuel → a.Ok m → b.Ok m →
      (∀ x ∈ (m.stream bad a.ppos).take a.count, x ∉ (m.stream bad b.ppos).take b.count) →
      a.race m bad fuel b turns flash = some o → Returned o.left → Returned o.right →
      o.state.flash = b.flashAfter m bad fuel (a.flashAfter m bad fuel flash) ∨
        o.state.flash = a.flashAfter m bad fuel (b.flashAfter m bad fuel flash) := by
  intro h
  have hends : ((byteAt 5).race fourBlocks (fun _ => false) 5 (byteAt 6)
      [true, true, true, true, false, false, false, false, false, false, false, false, true, true,
        true, true] fun _ => 7).map (fun o => (o.left, o.right, o.state.flash 6)) =
      some (some ⟨4, 9⟩, some ⟨4, 10⟩, 7) := by decide +kernel
  obtain ⟨o, ho, hret⟩ := Option.map_eq_some_iff.mp hends
  obtain ⟨hleft, hright, hbyte⟩ : o.left = some ⟨4, 9⟩ ∧ o.right = some ⟨4, 10⟩ ∧
      o.state.flash 6 = 7 := by simpa using hret
  have hserial : (byteAt 6).flashAfter fourBlocks (fun _ => false) 5
      ((byteAt 5).flashAfter fourBlocks (fun _ => false) 5 fun _ => 7) 6 = 1 ∧
    (byteAt 5).flashAfter fourBlocks (fun _ => false) 5
      ((byteAt 6).flashAfter fourBlocks (fun _ => false) 5 fun _ => 7) 6 = 1 := by decide +kernel
  rcases h fourBlocks (fun _ => false) 5 (byteAt 5) (byteAt 6) _ (fun _ => 7) o (by decide)
      (by decide) (byteAt_ok (by decide)) (byteAt_ok (by decide)) (by decide +kernel) ho
      ⟨_, hleft, by decide⟩ ⟨_, hright, by decide⟩ with heq | heq
  · rw [heq, hserial.1] at hbyte
    exact absurd hbyte (by decide)
  · rw [heq, hserial.2] at hbyte
    exact absurd hbyte (by decide)

end At91Drivers.Flash
