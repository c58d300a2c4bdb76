import At91Drivers.Effects.Ledger
import At91Drivers.Flash.Device
import At91Drivers.Kernel.Module
import Mathlib.Data.PNat.Basic

/-!
# Loading and unloading the flash driver

A load registers the device, looks up the MTD device and sets up the bad-block
table.  `MtdInfo` is any MTD device, of any type and size; the other modules
have the device of a usable driver, an `Mtd`.  The page counts, which nothing
reads, are left out.
-/

namespace At91Drivers.Flash.Life

open Effects Kernel Arith

/-- `MTD_NANDFLASH`. -/
def mtdNandflash : Nat := 4

/-- What a load reads of its MTD device. -/
structure MtdInfo where
  type : Nat
  size : Nat
  erasesize : Nat
  /-- `mtd->block_isbad`, unless it is `NULL` -/
  blockIsbad : Option (Nat → Int)
  size_lt : size < 18446744073709551616
  erasesize_pos : 0 < erasesize
  erasesize_lt : erasesize < 4294967296

namespace MtdInfo

/-- The number of erase blocks. -/
def blocks (m : MtdInfo) : Nat := m.size / m.erasesize

/-- `ebcnt`, an `int`. -/
def ebcnt (m : MtdInfo) : Int := i32 m.blocks

end MtdInfo

inductive Resource where
  | misc
  /-- the reference to the MTD device -/
  | mtd
  /-- the table at an address -/
  | table (addr : Nat)
deriving DecidableEq

inductive Op where
  | miscRegister
  | miscDeregister
  /-- `mtd = get_mtd_device(NULL, dev)` -/
  | getMtdDevice
  | putMtdDevice
  | setEbcnt (n : Int)
  /-- `bbt = kzalloc(len)` -/
  | allocBbt (len : Nat)
  /-- `!bbt` -/
  | bbtIsNull
  /-- `kfree(bbt)` -/
  | freeBbt
  | blockIsbad (addr : Nat)
  /-- `bbt[i] = v` -/
  | bbtStore (i : Nat) (v : UInt8)

/-- The lookup answers the device, or the error in its pointer. -/
abbrev Reply : Op → Type
  | .miscRegister => Int
  | .getMtdDevice => Except Int MtdInfo
  | .bbtIsNull => Bool
  | .blockIsbad _ => Int
  | _ => Unit

abbrev Driver := Prog Op Reply

def ask (e : Op) : Driver (Reply e) := Prog.perform e

/-! ## The functions of the module -/

def isBlockBad (mtd : MtdInfo) (ebnum : Nat) : Driver Int :=
  ask (.blockIsbad (u32 (ebnum * mtd.erasesize : Nat)))

/-- The loop of `scan_for_bad_eraseblocks`. -/
def scanBlocks (mtd : MtdInfo) : List Nat → Driver Unit
  | [] => pure ()
  | i :: rest => do
      let ret ← isBlockBad mtd i
      ask (.bbtStore i (if ret ≠ 0 then 1 else 0))
      scanBlocks mtd rest

def scanForBadEraseblocks (mtd : MtdInfo) : Driver Int := do
  ask (.allocBbt (u32 mtd.ebcnt))
  if ← ask .bbtIsNull then
    return -ENOMEM
  else if mtd.blockIsbad.isNone then
    return 0
  else do
    scanBlocks mtd (List.range mtd.ebcnt.toNat)
    return 0

/-- From the label `out` on: the error is dropped. -/
def out : Driver Int := do
  ask .freeBbt
  ask .putMtdDevice
  ask .miscDeregister
  return 0

/-- The device is found. -/
def setUp (mtd : MtdInfo) : Driver Int :=
  if mtd.type ≠ mtdNandflash then
    out
  else do
    ask (.setEbcnt mtd.ebcnt)
    let err ← scanForBadEraseblocks mtd
    if err ≠ 0 then
      out
    else
      return 0

def at91flashInit : Driver Int := do
  let ret ← (ask .miscRegister : Driver Int)
  if ret ≠ 0 then
    return ret
  else
    match ← (ask .getMtdDevice : Driver (Except Int MtdInfo)) with
    | .error err => do
        ask .miscDeregister
        return err
    | .ok mtd => setUp mtd

def at91flashExit : Driver Unit := do
  ask .miscDeregister
  ask .putMtdDevice
  ask .freeBbt

/-! ## The kernel -/

/-- What becomes of the requests of a load: the error of the registration, 0
when there is none, the device or the error of the lookup, and whether there is
memory for the table. -/
structure Outcomes where
  misc : Nat
  lookup : Except ℕ+ MtdInfo
  table : Bool

/-- The globals of the module, the memory, and what the module holds. -/
structure World where
  mtd : Option MtdInfo
  ebcnt : Int
  bbt : Option Nat
  /-- the bytes of the table at an address -/
  tables : Nat → List UInt8
  /-- the address that the kernel gives out next -/
  next : Nat
  ledger : Ledger Resource
  coming : Outcomes

namespace World

def acquire (w : World) (r : Resource) : World := { w with ledger := w.ledger.acquire r }

def release (w : World) (r : Resource) : World := { w with ledger := w.ledger.release r }

def getMtdDevice (w : World) : Except Int MtdInfo × World :=
  match w.coming.lookup with
  | .ok mtd => (.ok mtd, { w.acquire .mtd with mtd := some mtd })
  | .error e => (.error (-(e : Int)), { w with mtd := none })

/-- The table is zeroed, or `NULL`. -/
def allocBbt (w : World) (len : Nat) : World :=
  if w.coming.table then
    { w with
      bbt := some w.next
      tables := Function.update w.tables w.next (List.replicate len 0)
      next := w.next + 1
      ledger := w.ledger.acquire (.table w.next) }
  else
    { w with bbt := none }

/-- `kfree(NULL)` does nothing. -/
def freeBbt (w : World) : World :=
  match w.bbt with
  | some a => w.release (.table a)
  | none => w

def bbtStore (w : World) (i : Nat) (v : UInt8) : World :=
  match w.bbt with
  | some a => { w with tables := Function.update w.tables a ((w.tables a).set i v) }
  | none => w

end World

def machine : Handler Op Reply World
  | .miscRegister, w =>
      (-(w.coming.misc : Int), if w.coming.misc = 0 then w.acquire .misc else w)
  | .miscDeregister, w => ((), w.release .misc)
  | .getMtdDevice, w => w.getMtdDevice
  | .putMtdDevice, w => ((), w.release .mtd)
  | .setEbcnt n, w => ((), { w with ebcnt := n })
  | .allocBbt len, w => ((), w.allocBbt len)
  | .bbtIsNull, w => (w.bbt.isNone, w)
  | .freeBbt, w => ((), w.freeBbt)
  | .blockIsbad addr, w => (((w.mtd.bind (·.blockIsbad)).map (· addr)).getD 0, w)
  | .bbtStore i v, w => ((), w.bbtStore i v)

/-- The kernel when the module was never loaded. -/
def World.boot (w : World) : World := { w with ledger := .empty }

/-- The statics of the module are fresh at every load. -/
def World.fresh (w : World) (o : Outcomes) : World :=
  { w with mtd := none, ebcnt := 0, bbt := none, coming := o }

/-- The flash driver as a module. -/
def flashModule : Module Outcomes World where
  init o w := at91flashInit.run machine (w.fresh o)
  exit w := (at91flashExit.run machine w).2

end At91Drivers.Flash.Life
