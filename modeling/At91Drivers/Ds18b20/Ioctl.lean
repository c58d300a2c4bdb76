import At91Drivers.Kernel.Gpio
import At91Drivers.Kernel.Ioctl

/-!
# The ioctl of the DS18B20 driver

It selects the pin that the one-wire line is on.
-/

namespace At91Drivers.Ds18b20

open Kernel

/-- The argument, `at91_ds18b20_ctl_s`. -/
structure Ctl where
  whichPort : Int
  whichPin : Int

def at91Ds18b20Ctl : Nat := iowr 'D' 1 8

/-- The command words of the header. -/
def commands : List Nat := [at91Ds18b20Ctl]

def getPortPin (pinBase whichPort whichPin : Int) : Int := portPin pinBase whichPort whichPin

/-- The result, and `DS18B20_PIN` after the call.  Whether the argument could be
read is not looked at: `arg` is what is in `at91_ds18b20_ctl_arg` after the
copy. -/
def ds18b20Ioctl (pinBase : Int) (cmd : Nat) (arg : Ctl) (ds18b20Pin : Int) : Int × Int :=
  if cmd = at91Ds18b20Ctl then
    if getPortPin pinBase arg.whichPort arg.whichPin = -1 then
      (-1, ds18b20Pin)
    else
      (0, getPortPin pinBase arg.whichPort arg.whichPin)
  else
    (0, ds18b20Pin)

end At91Drivers.Ds18b20
