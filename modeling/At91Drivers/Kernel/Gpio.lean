import At91Drivers.Arith.CInt
import At91Drivers.Effects.Prog

/-!
# GPIO pins

Pins are numbered from `PIN_BASE` on, 32 to a bank.  A pin has a direction and a
level; the kernel functions set the pin that they are given.
-/

namespace At91Drivers.Kernel

open Arith Effects

structure Pin where
  output : Bool
  level : Bool

/-- The pins by their numbers. -/
abbrev Pins := Int → Pin

inductive PinOp where
  /-- `at91_set_gpio_input(pin, 0)` -/
  | setInput (pin : Int)
  /-- `at91_set_gpio_output(pin, value)` -/
  | setOutput (pin value : Int)
  /-- `at91_set_gpio_value(pin, value)` -/
  | setValue (pin value : Int)
  /-- `at91_get_gpio_value(pin)` -/
  | getValue (pin : Int)
  | mdelay (ms : Nat)

abbrev PinReply : PinOp → Type
  | .setInput _ => Unit
  | .setOutput _ _ => Unit
  | .setValue _ _ => Unit
  | .getValue _ => Int
  | .mdelay _ => Unit

def Pins.set (pins : Pins) (pin : Int) (p : Pin) : Pins := fun n => if n = pin then p else pins n

def pinBank : Handler PinOp PinReply Pins
  | .setInput pin, pins => ((), pins.set pin { pins pin with output := false })
  | .setOutput pin value, pins => ((), pins.set pin ⟨true, value ≠ 0⟩)
  | .setValue pin value, pins => ((), pins.set pin { pins pin with level := value ≠ 0 })
  | .getValue pin, pins => (if (pins pin).level then 1 else 0, pins)
  | .mdelay _, pins => ((), pins)

/-- The number of a pin of the ports PA to PD, or -1: the `get_port_pin` of two
drivers.  `pinBase` is `PIN_BASE`. -/
def portPin (pinBase whichPort whichPin : Int) : Int :=
  match whichPort with
  | 0 => i32 (pinBase + 0x00 + whichPin)
  | 1 => i32 (pinBase + 0x20 + whichPin)
  | 2 => i32 (pinBase + 0x40 + whichPin)
  | 3 => i32 (pinBase + 0x60 + whichPin)
  | _ => -1

end At91Drivers.Kernel
