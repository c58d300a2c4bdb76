import At91Drivers.Kernel.Gpio
import At91Drivers.Kernel.Ioctl

/-!
# The GPIO driver

Its ioctl reads, writes or configures the pin that its argument names.  The
argument is read and its pin is looked up before the command is.
-/

namespace At91Drivers.Gpio

open Effects Kernel

/-- The argument, `at91_gpio_ctl_s`. -/
structure Ctl where
  whichPort : Int
  whichPin : Int
  inout : Int
  value : Int

def at91gpioCtl : Nat := iowr 'k' 1 16
def at91gpioWrite : Nat := iowr 'k' 2 16
def at91gpioRead : Nat := iowr 'k' 3 16

/-- The command words of the header. -/
def commands : List Nat := [at91gpioCtl, at91gpioWrite, at91gpioRead]

inductive Op where
  | pin (a : PinOp)
  | argFromUser
  | argToUser (ctl : Ctl)

/-- The argument, or none when it cannot be read; could it be written. -/
abbrev Reply : Op → Type
  | .pin a => PinReply a
  | .argFromUser => Option Ctl
  | .argToUser _ => Bool

abbrev Driver := Prog Op Reply

def ask (e : Op) : Driver (Reply e) := Prog.perform e

def setInput (pin : Int) : Driver Unit := ask (.pin (.setInput pin))
def setOutput (pin value : Int) : Driver Unit := ask (.pin (.setOutput pin value))
def setValue (pin value : Int) : Driver Unit := ask (.pin (.setValue pin value))
def getValue (pin : Int) : Driver Int := ask (.pin (.getValue pin))
def argFromUser : Driver (Option Ctl) := ask .argFromUser
def argToUser (ctl : Ctl) : Driver Bool := ask (.argToUser ctl)

def getPortPin (pinBase whichPort whichPin : Int) : Int := portPin pinBase whichPort whichPin

def gpioInit (portPin inout : Int) : Driver Int :=
  match inout with
  | 0 => do
      setInput portPin
      return 0
  | 1 => do
      setOutput portPin 0
      return 0
  | _ => return -1

/-- The switch of the ioctl.  The result of `gpio_init` is not looked at. -/
def command (cmd : Nat) (portPin : Int) (ctl : Ctl) : Driver Int :=
  if cmd = at91gpioWrite then do
    setValue portPin ctl.value
    return 0
  else if cmd = at91gpioRead then do
    let value ← getValue portPin
    let written ← argToUser { ctl with value := value }
    return if written then 0 else -EFAULT
  else if cmd = at91gpioCtl then do
    let _ ← gpioInit portPin ctl.inout
    return 0
  else
    return 0

def at91gpioIoctl (pinBase : Int) (cmd : Nat) : Driver Int := do
  match ← argFromUser with
  | none => return -EFAULT
  | some ctl =>
      if getPortPin pinBase ctl.whichPort ctl.whichPin = -1 then
        return -1
      else
        command cmd (getPortPin pinBase ctl.whichPort ctl.whichPin) ctl

/-- The pins, and the argument in the memory of the caller. -/
structure World where
  pins : Pins
  arg : Option Ctl
  argWritable : Bool

def machine : Handler Op Reply World
  | .pin a, w => ((pinBank a w.pins).1, { w with pins := (pinBank a w.pins).2 })
  | .argFromUser, w => (w.arg, w)
  | .argToUser ctl, w =>
      (w.argWritable, { w with arg := if w.argWritable then some ctl else w.arg })

end At91Drivers.Gpio
