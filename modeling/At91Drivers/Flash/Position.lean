import At91Drivers.Flash.Cursor
import At91Drivers.Flash.GoodBlocks

/-!
# The file position over a run

The calls of a process on an open file share its position.  On a device without
faults, below 4 GiB and a whole number of blocks long, every call leaves the
position in `[0, size]` but one: a write that programs one block moves the
position on by the length of a block, whatever its count.

```text
starts a block           x + erasesize is the end of the block
inside a block           x + erasesize is inside the next one
inside the last block    past the end of the device
```
-/

namespace At91Drivers.Flash

open Effects Arith

/-- A position on the device, or right after its last byte. -/
def OnDevice (m : Mtd) (z : Int) : Prop := 0 ≤ z ∧ z ≤ m.size

/-- A `size_t`. -/
def Call.Sized : Call → Prop
  | .read _ count => count < 4294967296
  | .write _ count => count < 4294967296
  | _ => True

/-- A call on the open file, and what belongs to its caller. -/
structure FileCall where
  call : Call
  caller : Caller
  sized : call.Sized

namespace FileCall

variable (m : Mtd) (bad : Nat → Bool) (fuel : Nat)

def run (c : FileCall) (fPos : Int) (flash : Nat → Byte) : Option Ret × World :=
  (c.call.body m fuel fPos).run (device m bad) ⟨c.caller, flash⟩

/-- The count and the position of the write that a call makes. -/
def writeAt (c : FileCall) (fPos : Int) : Option (Nat × Int) :=
  match c.call with
  | .write _ count => some (count, fPos)
  | .ioctl cmd =>
      match c.caller.arg with
      | none => none
      | some karg =>
          if iocNr cmd = 2 then
            some (u32 karg.len.toInt, (at91flashLseek m fPos karg.offset.toInt 0).ppos)
          else none
  | _ => none

end FileCall

/-- A write of `n` bytes at `p` that starts inside the last block, in a good
block, and gets its buffer and its data. -/
structure Overshoots (m : Mtd) (bad : Nat → Bool) (c : Caller) (n p : Nat) : Prop where
  inside : p % m.erasesize ≠ 0
  last : m.blockEnd p = m.size
  good : bad (p / m.erasesize) = false
  pos : 0 < n
  heap : (c.heap 0).isSome = true
  copy : copied (min n (m.size - p)) (c.copies 0) = min n (m.size - p)

/-- The call makes such a write. -/
def FileCall.Overshoots (m : Mtd) (bad : Nat → Bool) (c : FileCall) (fPos : Int) : Prop :=
  ∃ n p : Nat, c.writeAt m fPos = some (n, (p : Int)) ∧ Flash.Overshoots m bad c.caller n p

/-- The position after each of the calls, until one does not return. -/
def positions (m : Mtd) (bad : Nat → Bool) (fuel : Nat) :
    List FileCall → Int → (Nat → Byte) → List Int
  | [], _, _ => []
  | c :: rest, fPos, flash =>
      match c.run m bad fuel fPos flash with
      | (none, _) => []
      | (some r, w') => r.ppos :: positions m bad fuel rest r.ppos w'.flash

/-- No call of the run makes such a write from where it is. -/
def NeverOvershoots (m : Mtd) (bad : Nat → Bool) (fuel : Nat) :
    List FileCall → Int → (Nat → Byte) → Prop
  | [], _, _ => True
  | c :: rest, fPos, flash =>
      ¬ c.Overshoots m bad fPos ∧
        match c.run m bad fuel fPos flash with
        | (none, _) => True
        | (some r, w') => NeverOvershoots m bad fuel rest r.ppos w'.flash

variable {m : Mtd} {bad : Nat → Bool} {fuel buf n p : Nat} {w : World}

theorem onDevice_natCast : OnDevice m (p : Int) ↔ p ≤ m.size := by
  unfold OnDevice
  omega

theorem onDevice_iff {z : Int} : OnDevice m z ↔ ∃ p : Nat, z = p ∧ p ≤ m.size := by
  constructor
  · intro hz
    obtain ⟨p, rfl⟩ := Int.eq_ofNat_of_zero_le hz.1
    exact ⟨p, rfl, onDevice_natCast.mp hz⟩
  · rintro ⟨p, rfl, hp⟩
    exact onDevice_natCast.mpr hp

theorem lseek_onDevice {fPos : Int} (hpos : OnDevice m fPos) (offset orig : Int) :
    OnDevice m (at91flashLseek m fPos offset orig).ppos := by
  rcases lseek_cases m fPos offset orig with h | h
  · rwa [h]
  · exact onDevice_iff.mpr h

/-! ## One write -/

theorem cursor_onDevice (m : Mtd) (bad : Nat → Bool) (p : Nat) (count : Int) (k : Nat)
    (hk : k ≤ m.size) (_ : Cursor m bad (fun _ => True) p k) :
    OnDevice m (⟨count, (k : Nat)⟩ : Ret).ppos :=
  onDevice_natCast.mpr hk

section Small

variable (hsize : m.size < 4294967296)

include hsize

/-- A read leaves the position on the device. -/
theorem read_onDevice {r : Ret} {w' : World} (hp : p ≤ m.size)
    (hrun : (at91flashRead m fuel buf n p).run (device m bad) w = (some r, w')) :
    OnDevice m r.ppos := by
  have hmeets : (at91flashRead m fuel buf n p).Meets (Sane m bad) (fun _ _ => True)
      (fun _ => Leaves fun r => OnDevice m r.ppos) [] :=
    read_leaves (fun _ _ h => h) hsize (cursor_onDevice m bad p) (fun _ _ _ _ _ _ _ => trivial) hp
  have hleaves := hmeets.sound_post (device_sane m bad) w
  rw [hrun] at hleaves
  exact hleaves r rfl

/-- So does a write whose landing is a block away from the end of the device. -/
theorem write_onDevice {r : Ret} {w' : World} (hp : p ≤ m.size)
    (hfar : ∀ x, Landing m bad p x → x + m.erasesize ≤ m.size)
    (hrun : (at91flashWrite m fuel buf n p).run (device m bad) w = (some r, w')) :
    OnDevice m r.ppos := by
  have hmeets : (at91flashWrite m fuel buf n p).Meets (Sane m bad) (fun _ _ => True)
      (fun _ => Leaves fun r => OnDevice m r.ppos) [] := by
    refine write_leaves (fun _ _ h => h) hsize (cursor_onDevice m bad p)
      (fun _ _ _ _ _ _ _ _ => trivial) hp ?_
    intro x src r hx hr
    have hle := hfar x hx
    have hr' : r.retlen ≤ m.erasesize := hr
    exact onDevice_natCast.mpr (by omega)
  have hleaves := hmeets.sound_post (device_sane m bad) w
  rw [hrun] at hleaves
  exact hleaves r rfl

/-- A write inside the last block programs it alone. -/
theorem write_last (buf : Nat) (hw : w.FaultFree) (hfuel : m.blocks < fuel)
    (hinside : p % m.erasesize ≠ 0) (hlast : m.blockEnd p = m.size)
    (hgood : bad (p / m.erasesize) = false) (hn : 0 < n) (hn' : n < 4294967296) :
    ∃ r w', (at91flashWrite m fuel buf n p).run (device m bad) w = (some r, w') ∧
      (OnDevice m r.ppos ↔
        ¬ ((w.heap 0).isSome = true ∧ w.CopyOk (min n (m.size - p)))) := by
  have hend := m.blockEnd_eq p
  have hmod := Nat.mod_lt p m.erasesize_pos
  have hblocks : m.blocks = p / m.erasesize + 1 := by
    rw [Mtd.blocks, ← hlast, m.blockEnd_div]
  have hin : p / m.erasesize < m.blocks := by rw [hblocks]; exact Nat.lt_succ_self _
  have hpos : p ≠ 0 := fun h => hinside (by rw [h, Nat.zero_mod])
  obtain ⟨count, hcount⟩ : ∃ count, count = min n (m.size - p) := ⟨_, rfl⟩
  have hfit : p % m.erasesize + count ≤ m.erasesize := by omega
  have hclip : at91flashWrite m fuel buf n p = writeCount m fuel buf count p := by
    unfold at91flashWrite
    rw [← Nat.cast_add, u64_natCast (by omega)]
    by_cases hlong : m.size < p + n
    · rw [if_pos hlong, ← Nat.cast_sub (by omega), u32_natCast (by omega), hcount]
      congr 1
      omega
    · rw [if_neg hlong, if_neg (by omega), hcount]
      congr 1
      omega
  have hmem : p ∈ m.stream bad p := Mtd.mem_stream.mpr ⟨le_rfl, hin, hgood⟩
  rcases walk_of_le_size hsize bad hfuel (show p ≤ m.size by omega) with
    ⟨x, hwalk, hx⟩ | ⟨-, hnone⟩
  · obtain rfl := hx.eq_self hgood
    rw [hclip, run_writeCount_good m bad fuel buf w (by omega) hwalk, ← hcount]
    cases hheap : w.heap 0 with
    | none => exact ⟨_, _, rfl, iff_of_true (onDevice_natCast.mpr (by omega)) (by simp)⟩
    | some kbuf =>
        have hmalloc : w.afterKmalloc.FaultFree := ⟨hw.reads, hw.erases, hw.writes⟩
        have hblock := inDevice_of_lt hsize hin
        dsimp only
        rw [run_writeBlocks_within m bad fuel buf kbuf w.afterKmalloc (by exact_mod_cast hpos)
          (blockRead_ok hmalloc hblock) ((fits_iff hsize hx (by omega)).mpr hfit)]
        by_cases hcopy : w.afterKmalloc.CopyOk count
        · obtain ⟨w', hrun, -⟩ := run_eraseAction_landing hsize hx
            (w := w.afterKmalloc.afterRead.afterCopy) ⟨fun _ => hw.reads _, hw.erases, hw.writes⟩ _
          rw [if_pos hcopy]
          refine ⟨_, w', hrun, iff_of_false ?_ (not_not.mpr ⟨rfl, hcopy⟩)⟩
          -- one block further on than the inside of the last one
          rw [← Nat.cast_add, onDevice_natCast]
          omega
        · rw [if_neg hcopy]
          refine ⟨_, _, rfl, iff_of_true (onDevice_natCast.mpr (by omega)) ?_⟩
          exact fun h => hcopy h.2
  · rw [hnone] at hmem
    exact absurd hmem List.not_mem_nil

variable (hwhole : m.size % m.erasesize = 0) (hfuel : m.blocks + 1 < fuel)

include hwhole hfuel

/-- A write leaves the position on the device unless it overshoots. -/
theorem write_position (buf : Nat) (bad : Nat → Bool) (hw : w.FaultFree) (hn : n < 4294967296)
    (hp : p ≤ m.size) :
    ∃ r w', (at91flashWrite m fuel buf n p).run (device m bad) w = (some r, w') ∧
      (OnDevice m r.ppos ↔ ¬ Overshoots m bad w.toCaller n p) := by
  by_cases hlast : p % m.erasesize ≠ 0 ∧ m.blockEnd p = m.size ∧ bad (p / m.erasesize) = false ∧
      0 < n
  · obtain ⟨hinside, hend, hgood, hpos⟩ := hlast
    obtain ⟨r, w', hrun, hiff⟩ :=
      write_last hsize buf hw (show m.blocks < fuel by omega) hinside hend hgood hpos hn
    refine ⟨r, w', hrun, hiff.trans (not_congr ⟨fun h => ?_, fun h => ⟨h.heap, h.copy⟩⟩)⟩
    exact ⟨hinside, hend, hgood, hpos, h.1, h.2⟩
  · obtain ⟨r, w', hrun⟩ := at91flashWrite_ends hsize hfuel bad buf n p w
    refine ⟨r, w', hrun, iff_of_true ?_ fun h => hlast ⟨h.inside, h.last, h.good, h.pos⟩⟩
    by_cases hzero : n = 0
    · -- nothing to write: the position stays
      subst hzero
      rw [at91flashWrite_zero m fuel buf hp] at hrun
      obtain rfl := Option.some.inj (congrArg Prod.fst hrun)
      exact onDevice_natCast.mpr hp
    · refine write_onDevice hsize hp (fun x hx => ?_) hrun
      have hblock := m.blockEnd_le_extent hx.block_lt
      have hext := m.extent_le_size
      have hend := m.blockEnd_eq x
      by_cases hx₀ : x % m.erasesize = 0
      · omega
      · obtain rfl := hx.aligned.resolve_right hx₀
        have hshort : m.blockEnd x ≠ m.size := fun h => hlast ⟨hx₀, h, hx.good, by omega⟩
        -- another block follows
        have hsizeEq : m.extent = m.size := Nat.div_mul_cancel (Nat.dvd_of_mod_eq_zero hwhole)
        have hnext := m.blockEnd_le_extent (m.lt_extent_iff.mp (by omega : m.blockEnd x < m.extent))
        rw [m.blockEnd_eq (m.blockEnd x), m.blockEnd_mod] at hnext
        omega

/-! ## One call -/

omit hwhole in
/-- Every call ends, wherever the position is. -/
theorem call_ends (bad : Nat → Bool) (c : FileCall) (fPos : Int) (flash : Nat → Byte) :
    ∃ r w', c.run m bad fuel fPos flash = (some r, w') := by
  obtain ⟨call, caller, -⟩ := c
  cases call with
  | lseek offset orig => exact ⟨_, _, rfl⟩
  | read buf count => exact at91flashRead_ends hsize hfuel bad buf count fPos _
  | write buf count => exact at91flashWrite_ends hsize hfuel bad buf count fPos _
  | ioctl cmd =>
      cases harg : caller.arg with
      | none => exact ⟨_, _, run_ioctl_noArg harg⟩
      | some karg =>
          by_cases hcmd : ∃ t : Transfer, iocNr cmd = t.nr
          · obtain ⟨t, ht⟩ := hcmd
            obtain ⟨r, w', hbody⟩ := body_ends hsize hfuel bad t karg.pbuf (u32 karg.len.toInt)
              (at91flashLseek m fPos karg.offset.toInt 0).ppos ⟨caller, flash⟩
            obtain ⟨w'', hrun, -, -⟩ := run_at91flashIoctl ht harg hbody
            exact ⟨_, w'', hrun⟩
          · exact ⟨_, _, run_ioctl_other harg (not_exists.mp hcmd)⟩

section Overshoots

omit hsize hwhole hfuel

/-- A call that makes no write does not overshoot. -/
theorem not_overshoots_of_none {bad : Nat → Bool} {c : FileCall} {fPos : Int}
    (hnone : c.writeAt m fPos = none) : ¬ c.Overshoots m bad fPos := by
  rintro ⟨n, q, hwrite, -⟩
  rw [hnone] at hwrite
  cases hwrite

/-- A call overshoots as the write that it makes. -/
theorem overshoots_iff_of_some {bad : Nat → Bool} {c : FileCall} {fPos : Int} {n q : Nat}
    (hsome : c.writeAt m fPos = some (n, (q : Int))) :
    c.Overshoots m bad fPos ↔ Flash.Overshoots m bad c.caller n q := by
  constructor
  · rintro ⟨n', q', hwrite, h⟩
    obtain ⟨rfl, hq⟩ := Prod.mk.inj (Option.some.inj (hsome.symm.trans hwrite))
    obtain rfl : q = q' := by exact_mod_cast hq
    exact h
  · exact fun h => ⟨n, q, hsome, h⟩

end Overshoots

/-- An `ioctl` seeks first, and then transfers from where it is. -/
theorem ioctl_position (bad : Nat → Bool) (cmd : Nat) (caller : Caller) (hc : caller.FaultFree)
    (hsized : (Call.ioctl cmd).Sized) {fPos : Int} (hpos : OnDevice m fPos) (flash : Nat → Byte) :
    ∃ r w', FileCall.run m bad fuel ⟨.ioctl cmd, caller, hsized⟩ fPos flash = (some r, w') ∧
      (OnDevice m r.ppos ↔ ¬ FileCall.Overshoots m bad ⟨.ioctl cmd, caller, hsized⟩ fPos) := by
  cases harg : caller.arg with
  | none =>
      refine ⟨_, _, run_ioctl_noArg harg, iff_of_true hpos (not_overshoots_of_none ?_)⟩
      simp only [FileCall.writeAt, harg]
  | some karg =>
      obtain ⟨q, hq, hqsize⟩ := onDevice_iff.mp (lseek_onDevice hpos karg.offset.toInt 0)
      by_cases hread : iocNr cmd = 1
      · obtain ⟨r, w', hbody⟩ := at91flashRead_ends hsize hfuel bad karg.pbuf
          (u32 karg.len.toInt) (at91flashLseek m fPos karg.offset.toInt 0).ppos ⟨caller, flash⟩
        obtain ⟨w'', hrun, -, -⟩ := run_at91flashIoctl (t := .read) hread harg hbody
        rw [hq] at hbody
        have hr : OnDevice m r.ppos := read_onDevice hsize hqsize hbody
        refine ⟨_, w'', hrun, iff_of_true hr (not_overshoots_of_none ?_)⟩
        simp [FileCall.writeAt, harg, hread]
      · by_cases hwrite : iocNr cmd = 2
        · obtain ⟨r, w', hbody, hiff⟩ := write_position (w := ⟨caller, flash⟩) hsize hwhole
            hfuel karg.pbuf bad hc (u32_lt karg.len.toInt) hqsize
          rw [← hq] at hbody
          obtain ⟨w'', hrun, -, -⟩ := run_at91flashIoctl (t := .write) hwrite harg hbody
          have hover : FileCall.Overshoots m bad ⟨.ioctl cmd, caller, hsized⟩ fPos ↔
              Flash.Overshoots m bad caller (u32 karg.len.toInt) q :=
            overshoots_iff_of_some (by simp [FileCall.writeAt, harg, hwrite, hq])
          exact ⟨_, w'', hrun, hiff.trans (not_congr hover.symm)⟩
        · refine ⟨_, _, run_ioctl_other harg fun t => ?_,
            iff_of_true hpos (not_overshoots_of_none ?_)⟩
          · cases t with
            | read => exact hread
            | write => exact hwrite
          · simp [FileCall.writeAt, harg, hwrite]

/-- A call leaves the position on the device unless it overshoots. -/
theorem call_position (bad : Nat → Bool) (c : FileCall) (hc : c.caller.FaultFree) {fPos : Int}
    (hpos : OnDevice m fPos) (flash : Nat → Byte) :
    ∃ r w', c.run m bad fuel fPos flash = (some r, w') ∧
      (OnDevice m r.ppos ↔ ¬ c.Overshoots m bad fPos) := by
  obtain ⟨call, caller, hsized⟩ := c
  obtain ⟨p, hfPos, hp⟩ := onDevice_iff.mp hpos
  cases call with
  | lseek offset orig =>
      exact ⟨_, _, rfl, iff_of_true (lseek_onDevice hpos offset orig) (not_overshoots_of_none rfl)⟩
  | read buf count =>
      obtain ⟨r, w', hrun⟩ := at91flashRead_ends hsize hfuel bad buf count fPos ⟨caller, flash⟩
      refine ⟨r, w', hrun, iff_of_true ?_ (not_overshoots_of_none rfl)⟩
      subst hfPos
      exact read_onDevice hsize hp hrun
  | write buf count =>
      subst hfPos
      obtain ⟨r, w', hrun, hiff⟩ := write_position (w := ⟨caller, flash⟩) hsize hwhole hfuel buf
        bad hc hsized hp
      have hover : FileCall.Overshoots m bad ⟨.write buf count, caller, hsized⟩ p ↔
          Flash.Overshoots m bad caller count p := overshoots_iff_of_some rfl
      exact ⟨r, w', hrun, hiff.trans (not_congr hover.symm)⟩
  | ioctl cmd => exact ioctl_position hsize hwhole hfuel bad cmd caller hc hsized hpos flash

/-! ## Runs -/

omit hwhole in
theorem length_positions (bad : Nat → Bool) (calls : List FileCall) (fPos : Int)
    (flash : Nat → Byte) :
    (positions m bad fuel calls fPos flash).length = calls.length := by
  induction calls generalizing fPos flash with
  | nil => rfl
  | cons c rest ih =>
      obtain ⟨r, w', hrun⟩ := call_ends hsize hfuel bad c fPos flash
      simp only [positions, hrun, List.length_cons, ih]

/-- From a position on the device, the calls of a run stay on it just when none
overshoots. -/
theorem positions_iff (calls : List FileCall) (hcalls : ∀ c ∈ calls, c.caller.FaultFree)
    {fPos : Int} (hpos : OnDevice m fPos) (flash : Nat → Byte) :
    (∀ z ∈ positions m bad fuel calls fPos flash, OnDevice m z) ↔
      NeverOvershoots m bad fuel calls fPos flash := by
  induction calls generalizing fPos flash with
  | nil => simp [positions, NeverOvershoots]
  | cons c rest ih =>
      obtain ⟨hc, hrest⟩ := List.forall_mem_cons.mp hcalls
      obtain ⟨r, w', hrun, hiff⟩ := call_position hsize hwhole hfuel bad c hc hpos flash
      simp only [positions, NeverOvershoots, hrun, List.forall_mem_cons, hiff]
      refine and_congr_right fun hstays => ?_
      exact ih hrest (hiff.mpr hstays) w'.flash

/-- On a file opened at position 0 every call of a run returns, and the
position after every call is on the device just when no call overshoots. -/
theorem file_position_iff (bad : Nat → Bool) (calls : List FileCall)
    (hcalls : ∀ c ∈ calls, c.caller.FaultFree) (flash : Nat → Byte) :
    (positions m bad fuel calls 0 flash).length = calls.length ∧
      ((∀ z ∈ positions m bad fuel calls 0 flash, OnDevice m z) ↔
        NeverOvershoots m bad fuel calls 0 flash) :=
  ⟨length_positions hsize hfuel bad calls 0 flash,
    positions_iff hsize hwhole hfuel calls hcalls (onDevice_natCast.mpr (Nat.zero_le _)) flash⟩

end Small

/-- A seek to 13, inside the last block, and a write of one byte. -/
def byteAtEnd : List FileCall :=
  [⟨.lseek 13 0, (quiet (fun _ => 1) (fun _ => 7) (fun _ => 9)).toCaller, trivial⟩,
    ⟨.write 0 1, (quiet (fun _ => 1) (fun _ => 7) (fun _ => 9)).toCaller,
      show 1 < 4294967296 by decide⟩]

theorem byteAtEnd_faultFree : ∀ c ∈ byteAtEnd, c.caller.FaultFree :=
  List.forall_mem_cons.mpr ⟨⟨fun _ => rfl, fun _ => rfl, fun _ => rfl⟩,
    List.forall_mem_cons.mpr ⟨⟨fun _ => rfl, fun _ => rfl, fun _ => rfl⟩,
      fun _ h => absurd h List.not_mem_nil⟩⟩

theorem file_position_iff_byteAtEnd :
    (positions fourBlocks (fun _ => false) 6 byteAtEnd 0 fun _ => 7).length = 2 ∧
      ((∀ z ∈ positions fourBlocks (fun _ => false) 6 byteAtEnd 0 fun _ => 7,
          OnDevice fourBlocks z) ↔
        NeverOvershoots fourBlocks (fun _ => false) 6 byteAtEnd 0 fun _ => 7) :=
  file_position_iff (by decide) rfl (by decide) (fun _ => false) byteAtEnd byteAtEnd_faultFree
    fun _ => 7

/-- The write leaves the position at 17, past the end of the device. -/
theorem file_position_overshoots :
    ¬ ∀ (m : Mtd) (bad : Nat → Bool) (fuel : Nat) (calls : List FileCall) (flash : Nat → Byte),
      m.size < 4294967296 → m.size % m.erasesize = 0 → m.blocks + 1 < fuel →
      (∀ c ∈ calls, c.caller.FaultFree) →
      ∀ z ∈ positions m bad fuel calls 0 flash, OnDevice m z := by
  intro h
  have hpositions : positions fourBlocks (fun _ => false) 6 byteAtEnd 0 (fun _ => 7) =
      [13, 17] := by
    decide +kernel
  have hlast := h fourBlocks (fun _ => false) 6 byteAtEnd (fun _ => 7) (by decide) rfl
    (by decide) byteAtEnd_faultFree 17 (by rw [hpositions]; decide)
  exact absurd hlast.2 (by decide)

end At91Drivers.Flash
