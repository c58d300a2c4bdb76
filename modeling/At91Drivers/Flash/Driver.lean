import At91Drivers.Flash.Device

/-!
# The functions of `at91flash.c`

Each function is the program of operations it performs, with the values of its
C variables passed along.  A `ssize_t` result and the final `*ppos` are
returned together (`Ret`): the VFS stores the position back even when the call
fails.  The four copies of the bad-block loop are one definition,
`skipBadBlocks`; its bound `fuel` counts the rounds, and a call whose loop is
still running when the bound is spent returns `none`.

`printk` is left out.  A `bbt` entry is stored and read back at once, so a
function branches on the value it stored.
-/

namespace At91Drivers.Flash

open Effects Arith

/-- What a driver function returns, and the position it leaves. -/
structure Ret where
  ret : Int
  ppos : Int
deriving DecidableEq

/-- `return -code` with the position as it is by then. -/
def fail (code ppos : Int) : Driver (Option Ret) := pure (some ⟨-code, ppos⟩)

/-- `kfree(buf); return -code`. -/
def freeFail (code ppos : Int) : Driver (Option Ret) := do
  ask .kfree
  fail code ppos

/-! ## Helpers of the file -/

def isBlockBad (m : Mtd) (ebnum : Int) : Driver Int :=
  ask (.blockIsbad (m.ebAddr ebnum))

def eraseEraseblock (m : Mtd) (ebnum : Int) : Driver Int := do
  let ei ← ask (.mtdErase (m.ebAddr ebnum) m.erasesize)
  if ei.ret ≠ 0 then
    pure ei.ret
  else if ei.failed then
    pure (- EIO)
  else
    pure 0

/-- How a bad-block loop ends: at a good block, at `ebnum >= ebcnt`, at a jump
past the end of the device, or not within the bound. -/
inductive Skip where
  | good (ppos ebnum blockoffset : Int)
  | noBlock (ppos : Int)
  | endOfFile (ppos : Int)
  | spinning
deriving DecidableEq

/-- `ebnum` of a position: `tmp = *ppos; do_div(tmp, mtd->erasesize); ebnum = tmp`. -/
def Mtd.ebnum (m : Mtd) (ppos : Int) : Int := i32 (u64 ppos / m.erasesize : Nat)

/-- The remainder `do_div` leaves, as an `int`. -/
def Mtd.blockoffset (m : Mtd) (ppos : Int) : Int := i32 (u64 ppos % m.erasesize : Nat)

/-- The loop `while(1)` that moves `*ppos` to the first good block. -/
def skipBadBlocks (m : Mtd) : Nat → Int → Driver Skip
  | 0, _ => pure .spinning
  | fuel + 1, ppos =>
      if m.ebcnt ≤ m.ebnum ppos then
        pure (.noBlock ppos)
      else do
        let ret ← isBlockBad m (m.ebnum ppos)
        ask (.bbtStore (m.ebnum ppos) (decide (ret ≠ 0)))
        if ret ≠ 0 then
          -- jump to the start of the next block
          if m.size ≤ u64 (m.ebAddr (m.ebnum ppos + 1)) then
            pure (.endOfFile (m.ebAddr (m.ebnum ppos + 1)))
          else
            skipBadBlocks m fuel (m.ebAddr (m.ebnum ppos + 1))
        else
          pure (.good ppos (m.ebnum ppos) (m.blockoffset ppos))

/-! ## lseek -/

def at91flashLseek (m : Mtd) (fPos offset orig : Int) : Ret :=
  let seek (offset : Int) : Ret :=
    if 0 ≤ offset ∧ u64 offset ≤ m.size then ⟨offset, offset⟩ else ⟨-EINVAL, fPos⟩
  match orig with
  | 0 => seek (i64 offset)
  | 1 => seek (i64 (offset + fPos))
  | 2 => seek (i64 (offset + m.size))
  | _ => ⟨-EINVAL, fPos⟩

/-! ## read -/

/-- What follows an `mtd->read` into `readbuf`: advance the position by the
length read and copy that much to the user.  `none` when the copy faults. -/
def deliver (buf : Nat) (ppos : Int) (readlen : Nat) (readbuf : Nat → Byte) :
    Driver (Bool × Int) :=
  if readlen ≠ 0 then do
    let ok ← ask (.copyToUser buf readlen readbuf)
    pure (ok, i64 (ppos + readlen))
  else
    pure (true, ppos)

/-- The second part of a read that jumps a block: `readlen` is what the first
part got, `readtmplen` what it delivered. -/
def readSecond (m : Mtd) (fuel buf count : Nat) (ppos : Int) (readlen readtmplen : Nat) :
    Driver (Option Ret) := do
  match ← skipBadBlocks m fuel ppos with
  | .spinning => pure none
  | .noBlock ppos =>
      ask .kfree
      pure (some ⟨i32 readlen, ppos⟩)
  | .endOfFile ppos => freeFail EFAULT ppos
  | .good ppos _ _ =>
      let r ← ask (.mtdRead (u64 ppos) (u32 (count - readtmplen)))
      let (ok, ppos) ← deliver (buf + readtmplen) ppos r.retlen r.data
      if ok then
        ask .kfree
        pure (some ⟨i32 r.retlen, ppos⟩)
      else
        freeFail EFAULT ppos

/-- The part of `at91flash_read` after the allocation of `readbuf`. -/
def readBlocks (m : Mtd) (fuel buf count : Nat) (ppos ebnum : Int) : Driver (Option Ret) :=
  if (m.ebAddr (ebnum + 1) : Int) < i64 (ppos + count) then do
    -- block jump: read the first block
    let r ← ask (.mtdRead (u64 ppos) (u32 (m.ebAddr (ebnum + 1) - ppos)))
    let (ok, ppos) ← deliver buf ppos r.retlen r.data
    if ok then
      readSecond m fuel buf count ppos r.retlen r.retlen
    else
      freeFail EFAULT ppos
  else if i64 (ppos + count) ≤ m.ebAddr (ebnum + 1) then do
    let r ← ask (.mtdRead (u64 ppos) count)
    let (ok, ppos) ← deliver buf ppos r.retlen r.data
    if ok then
      ask .kfree
      pure (some ⟨i32 r.retlen, ppos⟩)
    else
      freeFail EFAULT ppos
  else
    freeFail EFAULT ppos

/-- `count` of a read once it is clipped to the end of the device. -/
def Mtd.clip (m : Mtd) (ppos : Int) (count : Nat) : Nat :=
  if m.size < u64 (ppos + count) then u32 (m.size - ppos) else count

/-- `count` of a read once it is also clipped to `MAX_KMALLOC_SIZE`. -/
def clipKmalloc (count : Nat) : Nat :=
  if maxKmallocSize < count then maxKmallocSize else count

def at91flashRead (m : Mtd) (fuel buf count : Nat) (ppos : Int) : Driver (Option Ret) := do
  match ← skipBadBlocks m fuel ppos with
  | .spinning => pure none
  | .noBlock ppos => fail EFAULT ppos
  | .endOfFile ppos => fail EFAULT ppos
  | .good ppos ebnum _ =>
      if m.clip ppos count = 0 then
        pure (some ⟨0, ppos⟩)
      else
        match ← ask (.kmalloc (clipKmalloc (m.clip ppos count))) with
        | none => fail ENOMEM ppos
        | some _ => readBlocks m fuel buf (clipKmalloc (m.clip ppos count)) ppos ebnum

/-! ## write -/

/-- Erase and program the block of `ebnum`: the error of the erase, or the
answer of `mtd->write`. -/
def commit (m : Mtd) (ebnum : Int) (kbuf : Nat → Byte) : Driver (Except Int WriteReply) := do
  let err ← eraseEraseblock m ebnum
  if err ≠ 0 then
    pure (.error err)
  else do
    let r ← ask (.mtdWrite (m.ebAddr ebnum) m.erasesize kbuf)
    pure (.ok r)

/-- Read the whole block of `ebnum` into `kbuf`; `none` when the read fails or
is short. -/
def readBlock (m : Mtd) (ebnum : Int) (kbuf : Nat → Byte) : Driver (Option (Nat → Byte)) := do
  let r ← ask (.mtdRead (m.ebAddr ebnum) m.erasesize)
  if (r.ret ≠ 0 ∧ r.ret ≠ -EUCLEAN) ∨ r.retlen ≠ m.erasesize then
    pure none
  else
    pure (some (splice kbuf 0 r.retlen r.data))

/-- From the label `erase_action` to the end. -/
def eraseAction (m : Mtd) (ppos ebnum : Int) (kbuf : Nat → Byte) : Driver (Option Ret) := do
  match ← commit m ebnum kbuf with
  | .error _ => freeFail EFAULT ppos
  | .ok r =>
      ask .kfree
      pure (some ⟨i32 r.retlen, i64 (ppos + r.retlen)⟩)

/-- The second block of a write that jumps a block.  `first` is the part of
the data that went to the first block, `mtd->erasesize - blockoffset`. -/
def writeSecond (m : Mtd) (fuel buf count first : Nat) (ppos : Int) (kbuf : Nat → Byte) :
    Driver (Option Ret) := do
  match ← skipBadBlocks m fuel ppos with
  | .spinning => pure none
  | .noBlock ppos => freeFail EFAULT ppos
  | .endOfFile ppos => freeFail EFAULT ppos
  | .good ppos ebnum _ =>
      match ← readBlock m ebnum kbuf with
      | none => freeFail EFAULT ppos
      | some kbuf =>
          match ← ask (.copyFromUser 0 (buf + first) (u32 (count - first))) with
          | none => freeFail EFAULT ppos
          | some data =>
              match ← commit m ebnum (splice kbuf 0 (u32 (count - first)) data) with
              | .error _ => freeFail EFAULT ppos
              | .ok _ =>
                  ask .kfree
                  pure (some ⟨i32 count, i64 (ppos + u32 (count - first))⟩)

/-- A write that jumps a block: the first block, then `writeSecond`.  The
answer of the first `mtd->write` is only logged. -/
def writeJump (m : Mtd) (fuel buf count : Nat) (ppos ebnum blockoffset : Int)
    (kbuf : Nat → Byte) : Driver (Option Ret) := do
  let first := u32 (m.erasesize - blockoffset)
  match ← ask (.copyFromUser (u32 blockoffset) buf first) with
  | none => freeFail EFAULT ppos
  | some data =>
      let kbuf := splice kbuf (u32 blockoffset) first data
      match ← commit m ebnum kbuf with
      | .error _ => freeFail EFAULT ppos
      | .ok _ => writeSecond m fuel buf count first (i64 (ppos + first)) kbuf

/-- The part of `at91flash_write` after the allocation of `kbuf`. -/
def writeBlocks (m : Mtd) (fuel buf count : Nat) (ppos ebnum blockoffset : Int)
    (kbuf : Nat → Byte) : Driver (Option Ret) :=
  if ppos = 0 then do
    -- first block: `kbuf` is not read from the flash
    match ← ask (.copyFromUser 0 buf count) with
    | none => freeFail EFAULT ppos
    | some data => eraseAction m ppos ebnum (splice kbuf 0 count data)
  else do
    match ← readBlock m ebnum kbuf with
    | none => freeFail EFAULT ppos
    | some kbuf =>
        if i64 (ppos + count) ≤ m.ebAddr (ebnum + 1) then do
          match ← ask (.copyFromUser (u32 blockoffset) buf count) with
          | none => freeFail EFAULT ppos
          | some data => eraseAction m ppos ebnum (splice kbuf (u32 blockoffset) count data)
        else if i64 (ppos + count) ≤ m.ebAddr (ebnum + 2) then
          writeJump m fuel buf count ppos ebnum blockoffset kbuf
        else
          freeFail EFAULT ppos

/-- The part of `at91flash_write` after `count` is clipped or checked. -/
def writeCount (m : Mtd) (fuel buf count : Nat) (ppos : Int) : Driver (Option Ret) :=
  if count = 0 then
    pure (some ⟨0, ppos⟩)
  else do
    match ← skipBadBlocks m fuel ppos with
    | .spinning => pure none
    | .noBlock ppos => fail EFAULT ppos
    | .endOfFile ppos => fail EFAULT ppos
    | .good ppos ebnum blockoffset =>
        match ← ask (.kmalloc m.erasesize) with
        | none => fail ENOMEM ppos
        | some kbuf => writeBlocks m fuel buf count ppos ebnum blockoffset kbuf

def at91flashWrite (m : Mtd) (fuel buf count : Nat) (ppos : Int) : Driver (Option Ret) :=
  if m.size < u64 (ppos + count) then
    writeCount m fuel buf (u32 (m.size - ppos)) ppos
  else if m.erasesize < count then
    fail EFAULT ppos
  else
    writeCount m fuel buf count ppos

/-! ## ioctl and the calls on an open file -/

/-- `_IOC_NR`: the low eight bits of the command word. -/
def iocNr (cmd : Nat) : Nat := cmd % 256

/-- The tail of an ioctl transfer: copy the argument back and return 0. -/
def ioctlReturn (karg : FlashData) (fPos : Int) : Driver (Option Ret) := do
  if ← ask (.argToUser karg) then pure (some ⟨0, fPos⟩) else fail EFAULT fPos

/-- The results of the seek and of the transfer are not looked at. -/
def at91flashIoctl (m : Mtd) (fuel cmd : Nat) (fPos : Int) : Driver (Option Ret) := do
  match ← ask .argFromUser with
  | none => fail EFAULT fPos
  | some karg =>
      match iocNr cmd with
      | 1 => do
          match ← at91flashRead m fuel karg.pbuf (u32 karg.len.toInt)
              (at91flashLseek m fPos karg.offset.toInt 0).ppos with
          | none => pure none
          | some r => ioctlReturn karg r.ppos
      | 2 => do
          match ← at91flashWrite m fuel karg.pbuf (u32 karg.len.toInt)
              (at91flashLseek m fPos karg.offset.toInt 0).ppos with
          | none => pure none
          | some r => ioctlReturn karg r.ppos
      | _ => pure (some ⟨0, fPos⟩)

/-- A call of a user process on the open file. -/
inductive Call where
  | lseek (offset orig : Int)
  | read (buf count : Nat)
  | write (buf count : Nat)
  | ioctl (cmd : Nat)

/-- The driver function behind a call.  For `read` and `write` the VFS passes
the file position and stores it back. -/
def Call.body (m : Mtd) (fuel : Nat) (fPos : Int) : Call → Driver (Option Ret)
  | .lseek offset orig => pure (some (at91flashLseek m fPos offset orig))
  | .read buf count => at91flashRead m fuel buf count fPos
  | .write buf count => at91flashWrite m fuel buf count fPos
  | .ioctl cmd => at91flashIoctl m fuel cmd fPos

end At91Drivers.Flash
