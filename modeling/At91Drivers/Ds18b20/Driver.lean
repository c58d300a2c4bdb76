import At91Drivers.Effects.Prog
import At91Drivers.Kernel.Ioctl

/-!
# The DS18B20 driver

A read resets the sensor three times, starts a conversion, receives the nine
bytes of the scratchpad into `tmpdata` and checks their CRC.  A good frame is
swapped in place and saved in `lastdata`, a bad one is replaced by what is saved
there; then the first two bytes of `tmpdata` go to the user.  Both buffers belong
to the module and are not locked.
-/

namespace At91Drivers.Ds18b20

open Effects Kernel

/-- `unsigned char`. -/
abbrev Byte := BitVec 8

def readRom : Byte := 0x33
def skipRom : Byte := 0xcc
def convertT : Byte := 0x44
def readScratchpad : Byte := 0xbe

/-- `CrcTable`. -/
def crcTable : List Byte :=
  [0, 94, 188, 226, 97, 63, 221, 131, 194, 156, 126, 32, 163, 253, 31, 65,
    157, 195, 33, 127, 252, 162, 64, 30, 95, 1, 227, 189, 62, 96, 130, 220,
    35, 125, 159, 193, 66, 28, 254, 160, 225, 191, 93, 3, 128, 222, 60, 98,
    190, 224, 2, 92, 223, 129, 99, 61, 124, 34, 192, 158, 29, 67, 161, 255,
    70, 24, 250, 164, 39, 121, 155, 197, 132, 218, 56, 102, 229, 187, 89, 7,
    219, 133, 103, 57, 186, 228, 6, 88, 25, 71, 165, 251, 120, 38, 196, 154,
    101, 59, 217, 135, 4, 90, 184, 230, 167, 249, 27, 69, 198, 152, 122, 36,
    248, 166, 68, 26, 153, 199, 37, 123, 58, 100, 134, 216, 91, 5, 231, 185,
    140, 210, 48, 110, 237, 179, 81, 15, 78, 16, 242, 172, 47, 113, 147, 205,
    17, 79, 173, 243, 112, 46, 204, 146, 211, 141, 111, 49, 178, 236, 14, 80,
    175, 241, 19, 77, 206, 144, 114, 44, 109, 51, 209, 143, 12, 82, 176, 238,
    50, 108, 142, 208, 83, 13, 239, 177, 240, 174, 76, 18, 145, 207, 45, 115,
    202, 148, 118, 40, 171, 245, 23, 73, 8, 86, 180, 234, 105, 55, 213, 139,
    87, 9, 235, 181, 54, 104, 138, 212, 149, 203, 41, 119, 244, 170, 72, 22,
    233, 183, 85, 11, 136, 214, 52, 106, 43, 117, 151, 201, 74, 20, 246, 168,
    116, 42, 200, 150, 21, 75, 169, 247, 182, 232, 10, 84, 215, 137, 107, 53]

/-- `CrcTable[x]`. -/
def crcEntry (x : Byte) : Byte := crcTable.getD x.toNat 0

/-! ## Operations -/

/-- What the master does to the line, on `DS18B20_PIN`. -/
inductive LineOp where
  /-- `at91_set_gpio_output(DS18B20_PIN, 0)` -/
  | output
  /-- `at91_set_gpio_input(DS18B20_PIN, 0)` -/
  | input
  /-- `at91_set_gpio_value` to `DS18B20_HIGH` or `DS18B20_LOW` -/
  | value (high : Bool)
  | udelay (us : Nat)

/-- A byte of the buffers of the module. -/
inductive Cell where
  | tmpdata (i : Nat)
  | lastdata (i : Nat)
deriving DecidableEq

inductive Op where
  | line (a : LineOp)
  /-- `at91_get_gpio_value(DS18B20_PIN)` -/
  | sample
  | load (c : Cell)
  | store (c : Cell) (v : Byte)
  /-- one byte from `src` to `dst` -/
  | move (dst src : Cell)
  /-- `copy_to_user(buffer, tmpdata, 2)` -/
  | copyToUser

/-- Is the line high; a byte; or the number of bytes that were not copied. -/
abbrev Reply : Op → Type
  | .line _ => Unit
  | .sample => Bool
  | .load _ => Byte
  | .store _ _ => Unit
  | .move _ _ => Unit
  | .copyToUser => Nat

abbrev Wire := Prog Op Reply

def ask (e : Op) : Wire (Reply e) := Prog.perform e

def line (a : LineOp) : Wire Unit := ask (.line a)
def sample : Wire Bool := ask .sample
def load (c : Cell) : Wire Byte := ask (.load c)
def store (c : Cell) (v : Byte) : Wire Unit := ask (.store c v)
def move (dst src : Cell) : Wire Unit := ask (.move dst src)
def copyToUser : Wire Nat := ask .copyToUser

/-! ## The one-wire line -/

/-- `n` bits of a byte, the lowest first. -/
def writeBits : Nat → Byte → Wire Unit
  | 0, _ => pure ()
  | n + 1, byte => do
      line (.value false)
      line (.udelay 1)
      if byte &&& 0x01 ≠ 0 then
        line (.value true)
      line (.udelay 65)
      line (.value true)
      line (.udelay 1)
      writeBits n (byte >>> 1)

def ds18b20WriteByte (byte : Byte) : Wire Unit := do
  line .output
  writeBits 8 byte

/-- A sampled bit comes in at the top of the byte. -/
def shiftIn (byte : Byte) (high : Bool) : Byte :=
  if high then (byte >>> 1) ||| 0x80 else byte >>> 1

def readBits : Nat → Byte → Wire Byte
  | 0, byte => pure byte
  | n + 1, byte => do
      line .output
      line (.value true)
      line (.udelay 2)
      line (.value false)
      line (.udelay 3)
      line (.value true)
      line .input
      line (.udelay 5)
      let high ← sample
      line (.udelay 60)
      readBits n (shiftIn byte high)

def ds18b20ReadByte : Wire Byte := readBits 8 0

/-- 1 when no sensor answers. -/
def ds18b20Reset : Wire Int := do
  line .output
  line (.value true)
  line (.udelay 100)
  line (.value false)
  line (.udelay 600)
  line (.value true)
  line (.udelay 100)
  line .input
  let high ← sample
  if high then return 1 else return 0

/-- `n` bytes into `tmpdata` from index `i` on. -/
def receive : Nat → Nat → Wire Unit
  | 0, _ => pure ()
  | n + 1, i => do
      let byte ← ds18b20ReadByte
      store (.tmpdata i) byte
      receive n (i + 1)

/-- The results of the resets are not looked at. -/
def ds18b20Proc : Wire Unit := do
  let _ ← ds18b20Reset
  line (.udelay 100)
  ds18b20WriteByte readRom
  let _ ← ds18b20Reset
  line (.udelay 100)
  ds18b20WriteByte skipRom
  ds18b20WriteByte convertT
  line (.udelay 100)
  let _ ← ds18b20Reset
  line (.udelay 100)
  ds18b20WriteByte skipRom
  ds18b20WriteByte readScratchpad
  receive 9 0

/-! ## The read -/

/-- The loop of `crc_check`, `n` bytes from index `i` on. -/
def crcLoop : Nat → Nat → Byte → Wire Byte
  | 0, _, crc => pure crc
  | n + 1, i, crc => do
      let byte ← load (.tmpdata i)
      crcLoop n (i + 1) (crcEntry (crc ^^^ byte))

/-- `crc_check`, for a `j` that an `unsigned char` reaches. -/
def crcCheck (j : Nat) : Wire Byte := crcLoop j 0 0

/-- A good frame is swapped in place and saved. -/
def keepFrame : Wire Unit := do
  let tmp ← load (.tmpdata 0)
  move (.tmpdata 0) (.tmpdata 1)
  store (.tmpdata 1) tmp
  move (.lastdata 0) (.tmpdata 0)
  move (.lastdata 1) (.tmpdata 1)

/-- A bad one gives way to what was saved. -/
def useSaved : Wire Unit := do
  move (.tmpdata 0) (.lastdata 0)
  move (.tmpdata 1) (.lastdata 1)

/-- The end of `ds18b20_read`. -/
def handOver : Wire Int := do
  let left ← copyToUser
  if left ≠ 0 then
    return -EFAULT
  return 0

/-- `ds18b20_read` after the check. -/
def conclude (crc : Byte) : Wire Int := do
  if crc = 0 then
    keepFrame
  else
    useSaved
  handOver

def ds18b20Read : Wire Int := do
  ds18b20Proc
  let crc ← crcCheck 9
  conclude crc

/-! ## The machine -/

/-- The buffers of the module. -/
abbrev Memory := Cell → Byte

/-- A caller: what it sees on the line, its buffer, and what becomes of the copy
to it. -/
structure Caller where
  /-- the samples to come -/
  samples : Nat → Bool
  user : Byte × Byte
  /-- how many bytes the copy leaves out -/
  uncopied : Nat
  /-- the buffer after a copy that left some out -/
  torn : Byte × Byte

structure World extends Caller where
  memory : Memory

/-- The two bytes that go to the user. -/
def Memory.pair (mem : Memory) : Byte × Byte := (mem (.tmpdata 0), mem (.tmpdata 1))

def Memory.saved (mem : Memory) : Byte × Byte := (mem (.lastdata 0), mem (.lastdata 1))

def Memory.set (mem : Memory) (c : Cell) (v : Byte) : Memory :=
  fun c' => if c' = c then v else mem c'

def machine : Handler Op Reply World
  | .line _, w => ((), w)
  | .sample, w => (w.samples 0, { w with samples := fun k => w.samples (k + 1) })
  | .load c, w => (w.memory c, w)
  | .store c v, w => ((), { w with memory := w.memory.set c v })
  | .move dst src, w => ((), { w with memory := w.memory.set dst (w.memory src) })
  | .copyToUser, w =>
      (w.uncopied, { w with user := if w.uncopied = 0 then w.memory.pair else w.torn })

end At91Drivers.Ds18b20
