import At91Drivers.Kernel.Gpio

/-!
# The driver of the MC323 modem

Its ioctl pulses the power pin or the reset pin of the modem.
-/

namespace At91Drivers.Mc323

open Effects Kernel

/-- `HIGH` and `LOW`, as the inverting hardware has them. -/
def high : Int := 0
def low : Int := 1

variable (pinBase : Int)

/-- `MC323_RST`, pin PA2. -/
def mc323Rst : Int := pinBase + 0x00 + 2

/-- `MC323_POWERON`, pin PA3. -/
def mc323Poweron : Int := pinBase + 0x00 + 3

def at91Mc323Poweron : Nat := 0
def at91Mc323Poweroff : Nat := 1
def at91Mc323Reset : Nat := 3

/-- The commands of the header. -/
def commands : List Nat := [at91Mc323Poweron, at91Mc323Poweroff, at91Mc323Reset]

abbrev Driver := Prog PinOp PinReply

def ask (e : PinOp) : Driver (PinReply e) := Prog.perform e

def setValue (pin value : Int) : Driver Unit := ask (.setValue pin value)
def mdelay (ms : Nat) : Driver Unit := ask (.mdelay ms)

/-- A pin goes high, low for some time, and high again. -/
def pulse (pin : Int) (ms : Nat) : Driver Int := do
  setValue pin high
  setValue pin low
  mdelay ms
  setValue pin high
  return 0

def at91mc323Reset : Driver Int := pulse (mc323Rst pinBase) 20

def at91mc323Poweron : Driver Int := pulse (mc323Poweron pinBase) 200

def at91mc323Poweroff : Driver Int := pure 0

def at91mc323Ioctl (cmd : Nat) : Driver Int := do
  if cmd = at91Mc323Poweron then
    let _ ← at91mc323Poweron pinBase
  else if cmd = at91Mc323Poweroff then
    let _ ← at91mc323Poweroff
  else if cmd = at91Mc323Reset then
    let _ ← at91mc323Reset pinBase
  return 0

end At91Drivers.Mc323
