import At91Drivers.Effects.Prog
import At91Drivers.Arith.CInt
import At91Drivers.Arith.Ranges

/-!
# The MTD device below the flash driver, and the kernel around it

`Mtd` is what the driver reads of its device: size, erase size and the number
of blocks `ebcnt` that `at91flash_init` computes from them.  `Op` lists
everything a driver function asks of the outside: the `mtd` methods, the copies
from and to user space, `kmalloc` and the stores into the bad-block table.

`device m bad` answers these operations from a `World`: the flash, the user
memory, and for each kind of operation that can fail the outcomes of the coming
ones.  A world whose three MTD outcome lists are empty of faults is a fault-free
device; the bad-block map `bad` never changes during a run.
-/

namespace At91Drivers.Flash

open Effects Arith

abbrev Byte := UInt8

/-! ## Device geometry -/

/-- The `mtd_info` fields the driver uses.  `blocks_lt`: `ebcnt` is an `int`,
and `at91flash_init` gets past the `kzalloc(ebcnt)` of its table only when the
block count fits. -/
structure Mtd where
  size : Nat
  erasesize : Nat
  size_lt : size < 18446744073709551616
  erasesize_pos : 0 < erasesize
  erasesize_lt : erasesize < 4294967296
  blocks_lt : size / erasesize < 2147483648

namespace Mtd

/-- The number of erase blocks. -/
def blocks (m : Mtd) : Nat := m.size / m.erasesize

/-- `ebcnt` as `at91flash_init` computes it. -/
def ebcnt (m : Mtd) : Int := i32 m.blocks

/-- The 32-bit product `ebnum * mtd->erasesize`. -/
def ebAddr (m : Mtd) (ebnum : Int) : Nat := u32 (ebnum * m.erasesize)

theorem ebcnt_eq (m : Mtd) : m.ebcnt = m.blocks := i32_natCast m.blocks_lt

end Mtd

/-! ## Error numbers and constants -/

def EIO : Int := 5
def ENOMEM : Int := 12
def EFAULT : Int := 14
def EINVAL : Int := 22
def EUCLEAN : Int := 117

theorem neg_EFAULT : -EFAULT < 0 := by decide

theorem neg_ENOMEM : -ENOMEM < 0 := by decide

/-- `MAX_KMALLOC_SIZE`. -/
def maxKmallocSize : Nat := 0x20000

/-! ## Operations -/

/-- The argument of the flash ioctls, `flash_data`. -/
structure FlashData where
  offset : Int32
  len : Int32
  pbuf : Nat
deriving DecidableEq

/-- What `mtd->read` returns, the `retlen` it reports and the bytes it stored. -/
structure ReadReply where
  ret : Int
  retlen : Nat
  data : Nat → Byte

/-- What `mtd->erase` returns, and whether it left `MTD_ERASE_FAILED`. -/
structure EraseReply where
  ret : Int
  failed : Bool

structure WriteReply where
  ret : Int
  retlen : Nat

/-- The operations of the driver.  A flash address is a `loff_t`, given by its
64 bits.  `dst` of a copy from user space is an offset into the `kmalloc`ed
buffer, `src` of a copy to user space its contents. -/
inductive Op where
  | blockIsbad (addr : Nat)
  | bbtStore (ebnum : Int) (bad : Bool)
  | kmalloc (size : Nat)
  | kfree
  | copyFromUser (dst buf len : Nat)
  | copyToUser (buf len : Nat) (src : Nat → Byte)
  | mtdRead (addr len : Nat)
  | mtdErase (addr len : Nat)
  | mtdWrite (addr len : Nat) (src : Nat → Byte)
  | argFromUser
  | argToUser (karg : FlashData)

/-- The answers.  A copy from user space answers the bytes when it is complete
and `none` when a part is missing. -/
abbrev Reply : Op → Type
  | .blockIsbad _ => Int
  | .bbtStore _ _ => Unit
  | .kmalloc _ => Option (Nat → Byte)
  | .kfree => Unit
  | .copyFromUser _ _ _ => Option (Nat → Byte)
  | .copyToUser _ _ _ => Bool
  | .mtdRead _ _ => ReadReply
  | .mtdErase _ _ => EraseReply
  | .mtdWrite _ _ _ => WriteReply
  | .argFromUser => Option FlashData
  | .argToUser _ => Bool

abbrev Driver := Prog Op Reply

abbrev ask (e : Op) : Driver (Reply e) := Prog.perform e

/-! ## The world of a call -/

/-- A faulty MTD operation: the value it returns, the length it gets to, and
what it leaves behind in the part it did not get to. -/
structure Fault where
  ret : Int
  len : Nat
  junk : Nat → Byte

/-- What belongs to the caller of a driver function: its memory, its ioctl
argument (`none` where it cannot be read) and whether the argument can be
stored back, and the outcomes of the coming `kmalloc`s (old contents, or
`none`), user copies (`some n`: faults after `n` bytes) and MTD operations. -/
structure Caller where
  user : Nat → Byte
  arg : Option FlashData
  argWritable : Bool
  heap : Nat → Option (Nat → Byte)
  copies : Nat → Option Nat
  reads : Nat → Option Fault
  erases : Nat → Option Fault
  writes : Nat → Option Fault

structure World extends Caller where
  flash : Nat → Byte

/-- No MTD operation of the call faults. -/
structure Caller.FaultFree (c : Caller) : Prop where
  reads : ∀ k, c.reads k = none
  erases : ∀ k, c.erases k = none
  writes : ∀ k, c.writes k = none

/-- No `kmalloc` and no user copy of the call fails. -/
structure Caller.UserOk (c : Caller) : Prop where
  heap : ∀ k, (c.heap k).isSome = true
  copies : ∀ k, c.copies k = none

/-! ## The answers of the device -/

/-- The range lies inside the device. -/
def Mtd.InDevice (m : Mtd) (addr len : Nat) : Prop := addr + len ≤ m.size

instance (m : Mtd) (addr len : Nat) : Decidable (m.InDevice addr len) :=
  inferInstanceAs (Decidable (_ ≤ _))

/-- The first `len` bytes of a range, and what the caller's buffer holds after
them. -/
def slice (flash : Nat → Byte) (addr len : Nat) (junk : Nat → Byte) : Nat → Byte := fun i =>
  if i < len then flash (addr + i) else junk i

def readReply (m : Mtd) (flash : Nat → Byte) (addr len : Nat) : Option Fault → ReadReply
  | none =>
      if m.InDevice addr len then ⟨0, len, slice flash addr len fun _ => 0⟩
      else ⟨-EINVAL, 0, fun _ => 0⟩
  | some f =>
      ⟨f.ret, min f.len (min len (m.size - addr)),
        slice flash addr (min f.len (min len (m.size - addr))) f.junk⟩

theorem slice_of_lt {flash junk : Nat → Byte} {addr len i : Nat} (h : i < len) :
    slice flash addr len junk i = flash (addr + i) := if_pos h

def eraseReply (m : Mtd) (addr len : Nat) : Option Fault → EraseReply
  | none => if m.InDevice addr len then ⟨0, false⟩ else ⟨-EINVAL, false⟩
  | some f => ⟨f.ret, true⟩

def writeReply (m : Mtd) (addr len : Nat) : Option Fault → WriteReply
  | none => if m.InDevice addr len then ⟨0, len⟩ else ⟨-EINVAL, 0⟩
  | some f => ⟨f.ret, min f.len len⟩

/-- The flash after an erase: `0xFF` throughout the range, or what the fault
leaves there. -/
def eraseFlash (m : Mtd) (flash : Nat → Byte) (addr len : Nat) :
    Option Fault → Nat → Byte
  | none =>
      if m.InDevice addr len then splice flash addr len fun _ => 0xFF else flash
  | some f => splice flash addr len f.junk

def writeFlash (m : Mtd) (flash : Nat → Byte) (addr len : Nat) (src : Nat → Byte) :
    Option Fault → Nat → Byte
  | none => if m.InDevice addr len then splice flash addr len src else flash
  | some f => splice flash addr len fun i => if i < f.len then src i else f.junk i

/-- The number of bytes a user copy of `len` bytes gets to. -/
def copied (len : Nat) : Option Nat → Nat
  | none => len
  | some n => min n len

theorem copied_le (len : Nat) (o : Option Nat) : copied len o ≤ len := by
  cases o with
  | none => exact le_rfl
  | some n => exact Nat.min_le_right n len

/-- The device of geometry `m` with the bad-block map `bad`. -/
def device (m : Mtd) (bad : Nat → Bool) : Handler Op Reply World
  | .blockIsbad addr, w => ((if bad (addr / m.erasesize) then 1 else 0 : Int), w)
  | .bbtStore _ _, w => ((), w)
  | .kmalloc _, w => (w.heap 0, { w with heap := fun k => w.heap (k + 1) })
  | .kfree, w => ((), w)
  | .copyFromUser _ buf len, w =>
      (if copied len (w.copies 0) = len then some fun i => w.user (buf + i) else none,
        { w with copies := fun k => w.copies (k + 1) })
  | .copyToUser buf len src, w =>
      (decide (copied len (w.copies 0) = len),
        { w with
          copies := fun k => w.copies (k + 1)
          user := splice w.user buf (copied len (w.copies 0)) src })
  | .mtdRead addr len, w =>
      (readReply m w.flash addr len (w.reads 0), { w with reads := fun k => w.reads (k + 1) })
  | .mtdErase addr len, w =>
      (eraseReply m addr len (w.erases 0),
        { w with
          erases := fun k => w.erases (k + 1)
          flash := eraseFlash m w.flash addr len (w.erases 0) })
  | .mtdWrite addr len src, w =>
      (writeReply m addr len (w.writes 0),
        { w with
          writes := fun k => w.writes (k + 1)
          flash := writeFlash m w.flash addr len src (w.writes 0) })
  | .argFromUser, w => (w.arg, w)
  | .argToUser karg, w =>
      (w.argWritable, { w with arg := if w.argWritable then some karg else w.arg })

end At91Drivers.Flash
