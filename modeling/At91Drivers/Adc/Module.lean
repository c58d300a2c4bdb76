import At91Drivers.Adc.Driver
import At91Drivers.Effects.Ledger
import At91Drivers.Kernel.Module

/-!
# Loading and unloading the ADC driver

A load registers the device, allocates and clears the eleven rings, and starts
the converter and the timer; a failure unwinds what it has done through a ladder
of labels.  The accesses to device registers and the pin multiplexing are left
out.

```text
exit_6    iounmap(tc1)
exit_5    clk_disable(tc1), iounmap(adc)
exit_4    clk_disable(adc)
exit_3    kfree(pbuf0 … pbuf11)
exit_2    misc_deregister
```
-/

namespace At91Drivers.Adc.Life

open Effects Kernel

def EBUSY : Int := 16
def EACCES : Int := 13
def ECANCELED : Int := 125

/-- The peripherals, each with a clock and a block of registers. -/
inductive Peripheral where
  | adc
  | tc1
deriving DecidableEq

inductive Resource where
  | misc
  /-- the memory at an address -/
  | buffer (addr : Nat)
  | clock (p : Peripheral)
  /-- the mapping at an address -/
  | mapping (addr : Nat)
  | irq
deriving DecidableEq

inductive Op where
  | miscRegister
  | miscDeregister
  /-- `at91adc_pbuf<k> = kmalloc(…)` -/
  | allocBuf (k : Nat)
  /-- `at91adc_pbuf<k> == NULL` -/
  | bufIsNull (k : Nat)
  /-- `kfree(at91adc_pbuf<k>)` -/
  | freeBuf (k : Nat)
  /-- `at91adc_appidx = 0` -/
  | clearIndex
  /-- `at91adc_pbuf<k>[j] = 0` -/
  | clearCell (k j : Nat)
  | clkEnable (p : Peripheral)
  | clkDisable (p : Peripheral)
  /-- `at91<p>_base = ioremap_nocache(…)` -/
  | mapBase (p : Peripheral)
  /-- `at91<p>_base == NULL` -/
  | baseIsNull (p : Peripheral)
  /-- `iounmap(at91<p>_base)` -/
  | unmapBase (p : Peripheral)
  | requestIrq
  | freeIrq

abbrev Reply : Op → Type
  | .miscRegister => Int
  | .bufIsNull _ => Bool
  | .baseIsNull _ => Bool
  | .requestIrq => Int
  | _ => Unit

abbrev Driver := Prog Op Reply

def ask (e : Op) : Driver (Reply e) := Prog.perform e

/-! ## The functions of the module -/

def allocBufs : List Nat → Driver Unit
  | [] => pure ()
  | k :: ks => do
      ask (.allocBuf k)
      allocBufs ks

def anyNull : List Nat → Driver Bool
  | [] => pure false
  | k :: ks => do
      if ← ask (.bufIsNull k) then
        pure true
      else
        anyNull ks

def freeBufs : List Nat → Driver Unit
  | [] => pure ()
  | k :: ks => do
      ask (.freeBuf k)
      freeBufs ks

def clearCells : List (Nat × Nat) → Driver Unit
  | [] => pure ()
  | kj :: rest => do
      ask (.clearCell kj.1 kj.2)
      clearCells rest

/-- From the label `exit_3` on; `exit_2` follows. -/
def exit3 (ret : Int) : Driver Int := do
  freeBufs channels
  ask .miscDeregister
  return ret

def exit4 (ret : Int) : Driver Int := do
  ask (.clkDisable .adc)
  exit3 ret

def exit5 (ret : Int) : Driver Int := do
  ask (.clkDisable .tc1)
  ask (.unmapBase .adc)
  exit4 ret

def exit6 (ret : Int) : Driver Int := do
  ask (.unmapBase .tc1)
  exit5 ret

/-- The timer and its interrupt. -/
def startTimer : Driver Int := do
  ask (.clkEnable .tc1)
  ask (.mapBase .tc1)
  if ← ask (.baseIsNull .tc1) then
    exit5 (-EACCES)
  else do
    let ret ← (ask .requestIrq : Driver Int)
    if ret ≠ 0 then
      exit6 (-EBUSY)
    else
      return 0

/-- The converter. -/
def startAdc : Driver Int := do
  ask (.clkEnable .adc)
  ask (.mapBase .adc)
  if ← ask (.baseIsNull .adc) then
    exit4 (-EACCES)
  else
    startTimer

def at91adcInit : Driver Int := do
  let ret ← (ask .miscRegister : Driver Int)
  if ret ≠ 0 then
    return ret
  else do
    allocBufs channels
    if ← anyNull channels then
      exit3 (-ECANCELED)
    else do
      ask .clearIndex
      clearCells ringCells
      startAdc

/-- The rings are not freed: their `kfree`s are commented out. -/
def at91adcExit : Driver Unit := do
  ask (.clkDisable .adc)
  ask (.clkDisable .tc1)
  ask .freeIrq
  ask (.unmapBase .adc)
  ask (.unmapBase .tc1)
  ask .miscDeregister

/-! ## The kernel -/

/-- What becomes of the requests of a load: the error of the registration and of
the interrupt, 0 when there is none, and which allocations and mappings do not
fail. -/
structure Outcomes where
  misc : Nat
  buffers : Nat → Bool
  maps : Peripheral → Bool
  irq : Nat

/-- The globals of the module, the memory, and what the module holds. -/
structure World where
  /-- `at91adc_pbuf<k>` -/
  pbuf : Nat → Option Nat
  appidx : UInt16
  /-- `at91adc_base` and `at91tc1_base` -/
  base : Peripheral → Option Nat
  /-- the cells of the buffer at an address, as far as they were written -/
  cells : Nat → Nat → Option UInt16
  /-- the address that the kernel gives out next -/
  next : Nat
  ledger : Ledger Resource
  coming : Outcomes

namespace World

def acquire (w : World) (r : Resource) : World := { w with ledger := w.ledger.acquire r }

def release (w : World) (r : Resource) : World := { w with ledger := w.ledger.release r }

/-- `at91adc_pbuf<k>` is a fresh buffer, or `NULL`. -/
def allocBuf (w : World) (k : Nat) : World :=
  if w.coming.buffers k then
    { w with
      pbuf := Function.update w.pbuf k (some w.next)
      cells := Function.update w.cells w.next fun _ => none
      next := w.next + 1
      ledger := w.ledger.acquire (.buffer w.next) }
  else
    { w with pbuf := Function.update w.pbuf k none }

/-- `kfree(NULL)` does nothing. -/
def freeBuf (w : World) (k : Nat) : World :=
  match w.pbuf k with
  | some a => w.release (.buffer a)
  | none => w

def mapBase (w : World) (p : Peripheral) : World :=
  if w.coming.maps p then
    { w with
      base := Function.update w.base p (some w.next)
      next := w.next + 1
      ledger := w.ledger.acquire (.mapping w.next) }
  else
    { w with base := Function.update w.base p none }

def unmapBase (w : World) (p : Peripheral) : World :=
  match w.base p with
  | some a => w.release (.mapping a)
  | none => w

def clearCell (w : World) (k j : Nat) : World :=
  match w.pbuf k with
  | some a => { w with cells := Function.update w.cells a (Function.update (w.cells a) j (some 0)) }
  | none => w

end World

def machine : Handler Op Reply World
  | .miscRegister, w =>
      (-(w.coming.misc : Int), if w.coming.misc = 0 then w.acquire .misc else w)
  | .miscDeregister, w => ((), w.release .misc)
  | .allocBuf k, w => ((), w.allocBuf k)
  | .bufIsNull k, w => ((w.pbuf k).isNone, w)
  | .freeBuf k, w => ((), w.freeBuf k)
  | .clearIndex, w => ((), { w with appidx := 0 })
  | .clearCell k j, w => ((), w.clearCell k j)
  | .clkEnable p, w => ((), w.acquire (.clock p))
  | .clkDisable p, w => ((), w.release (.clock p))
  | .mapBase p, w => ((), w.mapBase p)
  | .baseIsNull p, w => ((w.base p).isNone, w)
  | .unmapBase p, w => ((), w.unmapBase p)
  | .requestIrq, w => (-(w.coming.irq : Int), if w.coming.irq = 0 then w.acquire .irq else w)
  | .freeIrq, w => ((), w.release .irq)

/-- The kernel when the module was never loaded. -/
def World.boot (w : World) : World := { w with ledger := .empty }

/-- The statics of the module are fresh at every load. -/
def World.fresh (w : World) (o : Outcomes) : World :=
  { w with pbuf := fun _ => none, appidx := 0, base := fun _ => none, coming := o }

/-- The ADC driver as a module. -/
def adcModule : Module Outcomes World where
  init o w := at91adcInit.run machine (w.fresh o)
  exit w := (at91adcExit.run machine w).2

end At91Drivers.Adc.Life
