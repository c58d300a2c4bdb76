import At91Drivers.Flash.Ends
import At91Drivers.Flash.Transfers

/-!
# What a flash ioctl promises

`AT91FLASH_READ` and `AT91FLASH_WRITE` seek, transfer and store the argument
back, and return 0 when the last of these succeeds.  The results of the seek
and of the transfer are dropped.

```text
offset not in [0, size]    the seek fails, the transfer is at the old position
len < 0                    the count is at least 2 GiB
the transfer fails         the call returns 0 all the same
```

So a call is exact only where none of the three can happen: for an argument in
range whose transfer is empty or gets all of its bytes.
-/

namespace At91Drivers.Flash

open Effects Arith

/-- The two transfers of the flash ioctl. -/
inductive Transfer where
  | read
  | write
deriving DecidableEq

namespace Transfer

/-- The number field of the command. -/
def nr : Transfer → Nat
  | read => 1
  | write => 2

def body (m : Mtd) (fuel : Nat) : Transfer → Nat → Nat → Int → Driver (Option Ret)
  | read => at91flashRead m fuel
  | write => at91flashWrite m fuel

/-- What a transfer of `n` bytes at `p` needs in order to move them all. -/
def Moves (m : Mtd) (bad : Nat → Bool) (w : World) (n p : Nat) : Transfer → Prop
  | read => Receives m bad w n p
  | write => n ≤ m.erasesize ∧ p + n ≤ m.size ∧ Completes m bad w n p

end Transfer

/-- The offset and the count of an argument in range. -/
def FlashData.start (karg : FlashData) : Nat := karg.offset.toInt.toNat

def FlashData.count (karg : FlashData) : Nat := karg.len.toInt.toNat

/-- The offset is on the device and the length is not negative. -/
structure FlashData.InRange (m : Mtd) (karg : FlashData) : Prop where
  offset_nonneg : 0 ≤ karg.offset.toInt
  offset_le : karg.offset.toInt ≤ m.size
  len_nonneg : 0 ≤ karg.len.toInt

/-- All bytes of the argument were moved, between the user buffer and the
stream at the offset. -/
def Transferred (m : Mtd) (bad : Nat → Bool) (karg : FlashData) (w w' : World) : Transfer → Prop
  | .read => (List.range karg.count).map (fun i => w'.user (karg.pbuf + i)) =
      ((m.stream bad karg.start).take karg.count).map w.flash
  | .write => ((m.stream bad karg.start).take karg.count).map w'.flash =
      (List.range karg.count).map fun i => w.user (karg.pbuf + i)

/-- The same call with other contents, and an argument that can be stored back
or not. -/
def World.holdingArg (w : World) (flash user : Nat → Byte) (writable : Bool) : World :=
  { w.holding flash user with argWritable := writable }

/-- Whatever the flash and the user memory hold, and whether or not the
argument can be stored back: a call that returns 0 has moved all bytes, and a
call with an argument out of range fails and changes nothing. -/
def IoctlExact (m : Mtd) (bad : Nat → Bool) (w : World) (fuel cmd : Nat) (karg : FlashData)
    (t : Transfer) (fPos : Int) : Prop :=
  ∀ flash user writable, ∃ r w', (at91flashIoctl m fuel cmd fPos).run (device m bad)
      (w.holdingArg flash user writable) = (some r, w') ∧
    (r.ret = 0 → Transferred m bad karg (w.holdingArg flash user writable) w' t) ∧
    (¬ karg.InRange m → r.ret < 0 ∧ w'.flash = flash ∧ w'.user = user ∧ r.ppos = fPos)

variable {m : Mtd} {bad : Nat → Bool} {w : World} {fuel cmd : Nat} {karg : FlashData}
  {t : Transfer} {fPos : Int}

/-! ## The seek -/

theorem lseek_set (offset : Int) :
    at91flashLseek m fPos offset 0 =
      if 0 ≤ i64 offset ∧ u64 (i64 offset) ≤ m.size then ⟨i64 offset, i64 offset⟩
      else ⟨-EINVAL, fPos⟩ := rfl

/-- The position after the seek of an argument in range. -/
theorem lseek_inRange (h : karg.InRange m) :
    (at91flashLseek m fPos karg.offset.toInt 0).ppos = karg.start := by
  have hlt := karg.offset.toInt_lt
  obtain ⟨o, ho⟩ := Int.eq_ofNat_of_zero_le h.offset_nonneg
  have hle := h.offset_le
  rw [FlashData.start, ho, Int.toNat_natCast]
  rw [ho] at hlt hle
  rw [lseek_set, i64_natCast (by omega), u64_natCast (by omega), if_pos ⟨by omega, by omega⟩]

theorem u32_len (h : karg.InRange m) : u32 karg.len.toInt = karg.count := by
  have hlt := karg.len.toInt_lt
  obtain ⟨n, hn⟩ := Int.eq_ofNat_of_zero_le h.len_nonneg
  rw [FlashData.count, hn, Int.toNat_natCast]
  rw [hn] at hlt
  exact u32_natCast (by omega)

theorem start_le (h : karg.InRange m) : karg.start ≤ m.size := by
  have hle := h.offset_le
  unfold FlashData.start
  omega

theorem count_lt (karg : FlashData) : karg.count < 4294967296 := by
  have hlt := karg.len.toInt_lt
  unfold FlashData.count
  omega

/-! ## The call -/

theorem argWritable_device (m : Mtd) (bad : Nat → Bool) (b : Bool) (e : Op) (w : World)
    (hw : w.argWritable = b) :
    (device m bad e w).2.argWritable = b := by
  cases e <;> exact hw

/-- The call ends as the transfer does, with the result of the copy back. -/
theorem run_at91flashIoctl (hcmd : iocNr cmd = t.nr) (harg : w.arg = some karg) {r : Ret}
    {w' : World} (hbody : (t.body m fuel karg.pbuf (u32 karg.len.toInt)
      (at91flashLseek m fPos karg.offset.toInt 0).ppos).run (device m bad) w = (some r, w')) :
    ∃ w'', (at91flashIoctl m fuel cmd fPos).run (device m bad) w =
        (some ⟨if w.argWritable then 0 else -EFAULT, r.ppos⟩, w'') ∧
      w''.flash = w'.flash ∧ w''.user = w'.user := by
  have hread : (ask .argFromUser).run (device m bad) w = (some karg, w) := Prod.ext harg rfl
  -- the transfer does not change whether the argument is writable
  have hkept := Prog.run_preserves (I := fun w' : World => w'.argWritable = w.argWritable) _
    (argWritable_device m bad _)
    (t.body m fuel karg.pbuf (u32 karg.len.toInt)
      (at91flashLseek m fPos karg.offset.toInt 0).ppos) (s := w) rfl
  rw [hbody] at hkept
  refine ⟨{ w' with arg := if w'.argWritable then some karg else w'.arg }, ?_, rfl, rfl⟩
  have hback : (ioctlReturn karg r.ppos).run (device m bad) w' =
      (some ⟨if w.argWritable then 0 else -EFAULT, r.ppos⟩,
        { w' with arg := if w'.argWritable then some karg else w'.arg }) := by
    have hstore : (ask (.argToUser karg)).run (device m bad) w' =
        (w'.argWritable, { w' with arg := if w'.argWritable then some karg else w'.arg }) := rfl
    unfold ioctlReturn
    rw [Prog.run_bind, hstore]
    dsimp only at hkept ⊢
    rw [hkept]
    cases w.argWritable <;> rfl
  unfold at91flashIoctl
  rw [Prog.run_bind, hread]
  simp only [hcmd]
  cases t with
  | read =>
      simp only [Transfer.nr]
      rw [Prog.run_bind, show (at91flashRead m fuel _ _ _).run _ _ = _ from hbody]
      exact hback
  | write =>
      simp only [Transfer.nr]
      rw [Prog.run_bind, show (at91flashWrite m fuel _ _ _).run _ _ = _ from hbody]
      exact hback

/-- Without a readable argument nothing is done. -/
theorem run_ioctl_noArg (harg : w.arg = none) :
    (at91flashIoctl m fuel cmd fPos).run (device m bad) w = (some ⟨-EFAULT, fPos⟩, w) := by
  have hread : (ask .argFromUser).run (device m bad) w = (none, w) := Prod.ext harg rfl
  unfold at91flashIoctl
  rw [Prog.run_bind, hread]
  rfl

/-- Nor for a number that is not one of the two transfers. -/
theorem run_ioctl_other (harg : w.arg = some karg) (hcmd : ∀ t : Transfer, iocNr cmd ≠ t.nr) :
    (at91flashIoctl m fuel cmd fPos).run (device m bad) w = (some ⟨0, fPos⟩, w) := by
  have hread : (ask .argFromUser).run (device m bad) w = (some karg, w) := Prod.ext harg rfl
  have h₁ : iocNr cmd ≠ 1 := hcmd .read
  have h₂ : iocNr cmd ≠ 2 := hcmd .write
  unfold at91flashIoctl
  rw [Prog.run_bind, hread]
  dsimp only
  split
  · next h => exact absurd h h₁
  · next h => exact absurd h h₂
  · rfl

section Exact

variable (hsize : m.size < 4294967296) (hfuel : m.blocks + 1 < fuel)

include hsize hfuel

theorem body_ends (bad : Nat → Bool) (t : Transfer) (buf count : Nat) (x : Int) (w : World) :
    ∃ r w', (t.body m fuel buf count x).run (device m bad) w = (some r, w') := by
  cases t with
  | read => exact at91flashRead_ends hsize hfuel bad buf count x w
  | write => exact at91flashWrite_ends hsize hfuel bad buf count x w

/-- A transfer in range moves all its bytes, whatever is in the memories, just
when it is empty or has what it takes. -/
theorem transferred_iff (hw : w.FaultFree) (hrange : karg.InRange m) :
    (∀ flash user, ∃ r w', (t.body m fuel karg.pbuf karg.count karg.start).run (device m bad)
        (w.holding flash user) = (some r, w') ∧
      Transferred m bad karg (w.holding flash user) w' t) ↔
      karg.count = 0 ∨ t.Moves m bad w karg.count karg.start := by
  by_cases hzero : karg.count = 0
  · refine iff_of_true (fun flash user => ?_) (.inl hzero)
    obtain ⟨r, w', hrun⟩ := body_ends hsize hfuel bad t karg.pbuf karg.count karg.start
      (w.holding flash user)
    refine ⟨r, w', hrun, ?_⟩
    cases t <;> simp [Transferred, hzero]
  · rw [or_iff_right hzero]
    cases t with
    | read =>
        exact read_transfers_iff hsize hw (Nat.pos_of_ne_zero hzero) (count_lt karg)
          (start_le hrange) (by omega)
    | write =>
        exact write_transfers_iff hsize hw (Nat.pos_of_ne_zero hzero) (count_lt karg) (by omega)

/-- A flash ioctl is exact just when its argument is in range and its transfer
is empty or moves all of its bytes. -/
theorem ioctl_exact_iff (hw : w.FaultFree) (harg : w.arg = some karg) (hcmd : iocNr cmd = t.nr) :
    IoctlExact m bad w fuel cmd karg t fPos ↔
      karg.InRange m ∧ (karg.count = 0 ∨ t.Moves m bad w karg.count karg.start) := by
  -- the run of the call, from the run of the transfer
  have hcall (flash user : Nat → Byte) (writable : Bool) {r : Ret} {w' : World}
      (hbody : (t.body m fuel karg.pbuf (u32 karg.len.toInt)
        (at91flashLseek m fPos karg.offset.toInt 0).ppos).run (device m bad)
          (w.holdingArg flash user writable) = (some r, w')) :=
    run_at91flashIoctl (w := w.holdingArg flash user writable) hcmd harg hbody
  constructor
  · intro hexact
    have hrange : karg.InRange m := by
      by_contra hout
      obtain ⟨r, w', hrun, -, hfails⟩ := hexact (fun _ => 0) (fun _ => 0) true
      obtain ⟨r₁, w₁, hbody⟩ := body_ends hsize hfuel bad t karg.pbuf
        (u32 karg.len.toInt) (at91flashLseek m fPos karg.offset.toInt 0).ppos
        (w.holdingArg (fun _ => 0) (fun _ => 0) true)
      obtain ⟨w₂, hrun₂, -, -⟩ := hcall _ _ _ hbody
      obtain rfl := Option.some.inj (Prod.mk.inj (hrun₂.symm.trans hrun)).1
      exact absurd (hfails hout).1 (lt_irrefl 0)
    refine ⟨hrange, (transferred_iff (w := { w with argWritable := true }) hsize hfuel
      ⟨hw.reads, hw.erases, hw.writes⟩ hrange).mp fun flash user => ?_⟩
    obtain ⟨r, w', hrun, htransferred, -⟩ := hexact flash user true
    obtain ⟨r₁, w₁, hbody⟩ := body_ends hsize hfuel bad t karg.pbuf karg.count karg.start
      (w.holdingArg flash user true)
    obtain ⟨w₂, hrun₂, hflash, huser⟩ := hcall flash user true
      (by rw [u32_len hrange, lseek_inRange hrange]; exact hbody)
    obtain ⟨hr, rfl⟩ := Prod.mk.inj (hrun₂.symm.trans hrun)
    obtain rfl := Option.some.inj hr
    refine ⟨r₁, w₁, hbody, ?_⟩
    have hdone := htransferred rfl
    cases t with
    | read => rwa [Transferred, huser] at hdone
    | write => rwa [Transferred, hflash] at hdone
  · rintro ⟨hrange, hmoves⟩ flash user writable
    obtain ⟨r, w', hbody, hdone⟩ := (transferred_iff (w := { w with argWritable := writable })
      hsize hfuel ⟨hw.reads, hw.erases, hw.writes⟩ hrange).mpr hmoves flash user
    obtain ⟨w'', hrun, hflash, huser⟩ := hcall flash user writable
      (by rw [u32_len hrange, lseek_inRange hrange]; exact hbody)
    refine ⟨_, w'', hrun, fun _ => ?_, fun hout => absurd hrange hout⟩
    cases t with
    | read => rwa [Transferred, huser]
    | write => rwa [Transferred, hflash]

end Exact

/-- A caller that asks for the byte at `offset`. -/
def asking (offset : Int32) : World :=
  { quiet (fun _ => 1) (fun _ => 7) (fun _ => 9) with arg := some ⟨offset, 1, 0⟩ }

/-- One byte at 5. -/
theorem ioctl_exact_iff_at_five :
    IoctlExact fourBlocks (fun _ => false) (asking 5) 6 2 ⟨5, 1, 0⟩ .write 0 ↔
      FlashData.InRange fourBlocks ⟨5, 1, 0⟩ ∧ (FlashData.count ⟨5, 1, 0⟩ = 0 ∨
        Transfer.Moves fourBlocks (fun _ => false) (asking 5) (FlashData.count ⟨5, 1, 0⟩)
          (FlashData.start ⟨5, 1, 0⟩) .write) :=
  ioctl_exact_iff (by decide) (by decide) ⟨fun _ => rfl, fun _ => rfl, fun _ => rfl⟩ rfl
    (by decide)

/-- One byte at 100, past the end of the device: the call writes it at the old
position and returns 0. -/
theorem ioctl_writes_elsewhere :
    ¬ ∀ (m : Mtd) (bad : Nat → Bool) (w : World) (fuel cmd : Nat) (karg : FlashData)
      (t : Transfer) (fPos : Int), m.size < 4294967296 → m.blocks + 1 < fuel → w.FaultFree →
      w.arg = some karg → iocNr cmd = t.nr → IoctlExact m bad w fuel cmd karg t fPos := by
  intro h
  obtain ⟨r, w', hrun, -, hfails⟩ := h fourBlocks (fun _ => false) (asking 100) 6 2 ⟨100, 1, 0⟩
    .write 5 (by decide) (by decide) ⟨fun _ => rfl, fun _ => rfl, fun _ => rfl⟩ rfl (by decide)
    (fun _ => 7) (fun _ => 1) true
  have hzero : ((at91flashIoctl fourBlocks 6 2 5).run (device fourBlocks fun _ => false)
      ((asking 100).holdingArg (fun _ => 7) (fun _ => 1) true)).1 = some ⟨0, 9⟩ := by
    decide +kernel
  rw [hrun] at hzero
  obtain rfl := Option.some.inj hzero
  have hout : ¬ FlashData.InRange fourBlocks ⟨100, 1, 0⟩ := fun hin =>
    absurd hin.offset_le (by decide)
  exact absurd (hfails hout).1 (by decide)

end At91Drivers.Flash
