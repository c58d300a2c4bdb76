import At91Drivers.Arith.CInt
import At91Drivers.Effects.Prog
import At91Drivers.Kernel.Ioctl
import Mathlib.Logic.Function.Basic

/-!
# The ADC driver

A timer interrupt stores one sample of each of eleven channels into the ring
buffer of its channel, at an index that all the rings share.  A read sums every
ring and hands the eleven means to the user.  It takes no lock: an interrupt may
come before each of its additions.
-/

namespace At91Drivers.Adc

open Effects Kernel

/-- `MAX_ADCSAMPLES`. -/
@[irreducible] def maxAdcSamples : Nat := 16 * 1024

/-- The channels with a ring buffer; `at91adc_pbuf5` is commented out. -/
def channels : List Nat := [0, 1, 2, 3, 4, 6, 7, 8, 9, 10, 11]

/-- The channel data registers, `AT91_ADC_CHR(k)`, as an interrupt reads them. -/
abbrev Registers := Nat → UInt32

structure Rings where
  /-- `at91adc_pbuf<k>[j]` -/
  pbuf : Nat → Nat → UInt16
  appidx : UInt16

namespace Rings

/-- `at91adc_pbuf<k>[j] = v`. -/
def store (s : Rings) (k j : Nat) (v : UInt16) : Rings :=
  { s with pbuf := Function.update s.pbuf k (Function.update (s.pbuf k) j v) }

end Rings

/-- What an interrupt stores of channel `k`. -/
def sample (chr : Registers) (k : Nat) : UInt16 := (chr k &&& 0x3ff).toUInt16

/-- The cells of the rings, in the order in which the loops over them go. -/
def ringCells : List (Nat × Nat) :=
  (List.range maxAdcSamples).flatMap fun j => channels.map fun k => (k, j)

/-- The rings after `at91adc_init`, in memory with the contents `old`. -/
def at91adcInit (old : Nat → Nat → UInt16) : Rings :=
  ringCells.foldl (fun s kj => s.store kj.1 kj.2 0) ⟨old, 0⟩

def at91tc0Isr (s : Rings) (chr : Registers) : Rings :=
  let s := channels.foldl (fun s k => s.store k s.appidx.toNat (sample chr k)) s
  let appidx := s.appidx + 1
  { s with appidx := if maxAdcSamples ≤ appidx.toNat then 0 else appidx }

/-- The rings after some interrupts, oldest first. -/
def ringsAfter (old : Nat → Nat → UInt16) (irqs : List Registers) : Rings :=
  irqs.foldl at91tc0Isr (at91adcInit old)

/-! ## Reading -/

inductive Op where
  /-- load `at91adc_pbuf<k>[j]` -/
  | cell (k j : Nat)
  | copyToUser (buf : List UInt16)

/-- A cell, or the number of bytes that were not copied. -/
abbrev Reply : Op → Type
  | .cell _ _ => UInt16
  | .copyToUser _ => Nat

abbrev Reader := Prog Op Reply

def ask (e : Op) : Reader (Reply e) := Prog.perform e

/-- `data_add<k>` -/
abbrev Sums := Nat → UInt32

/-- `data_add<k> += at91adc_pbuf<k>[j]`. -/
def addCell (sums : Sums) (kj : Nat × Nat) : Reader Sums := do
  let v ← (ask (.cell kj.1 kj.2) : Reader UInt16)
  pure (Function.update sums kj.1 (sums kj.1 + v.toUInt32))

def addCells : List (Nat × Nat) → Sums → Reader Sums
  | [], sums => pure sums
  | kj :: rest, sums => do
      let sums ← addCell sums kj
      addCells rest sums

def sumLoop : Reader Sums := addCells ringCells fun _ => 0

/-- `data_add<k> >> 14`, in a slot of the buffer. -/
def shifted (sums : Sums) (k : Nat) : UInt16 := (sums k >>> 14).toUInt16

/-- `at91adc_buf`, with slots 5 to 10 for the channels 6 to 11. -/
def at91adcBuf (sums : Sums) : List UInt16 :=
  channels.map fun k => shifted sums k &&& 0x3ff

/-- The end of `at91adc_read`. -/
def handOver (buf : List UInt16) : Reader Int := do
  let left ← (ask (.copyToUser buf) : Reader Nat)
  if left ≠ 0 then
    return -EFAULT
  return 0

def at91adcRead : Reader Int := do
  let sums ← sumLoop
  handOver (at91adcBuf sums)

/-! ## The machine -/

/-- A reader's buffer, and what becomes of the copy to it. -/
structure Caller where
  /-- slot `s` of the buffer -/
  user : Nat → UInt16
  /-- how many bytes the copy leaves out -/
  uncopied : Nat
  /-- the buffer after a copy that left some out -/
  torn : Nat → UInt16

structure World extends Caller where
  rings : Rings
  /-- the interrupts before each of the next operations -/
  pending : Nat → List Registers

namespace World

/-- The interrupts before the next operation come. -/
def interrupt (w : World) : World :=
  { w with
    rings := (w.pending 0).foldl at91tc0Isr w.rings
    pending := fun i => w.pending (i + 1) }

def copyOut (w : World) (buf : List UInt16) : World :=
  { w with user := if w.uncopied = 0 then fun s => buf.getD s (w.user s) else w.torn }

end World

/-- The machine that the reader runs on. -/
def machine : Handler Op Reply World
  | .cell k j, w => (w.interrupt.rings.pbuf k j, w.interrupt)
  | .copyToUser buf, w => (w.uncopied, w.interrupt.copyOut buf)

end At91Drivers.Adc
