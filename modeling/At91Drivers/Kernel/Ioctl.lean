import Mathlib.Tactic.Common
import Mathlib.Tactic.Ring

/-!
# Error numbers and command words of the kernel

A command word has the number of the command in its low eight bits, then the
type of the driver, the size of the argument and the direction of the transfer.
-/

namespace At91Drivers.Kernel

def EFAULT : Int := 14

/-- `_IOWR` of a type, a number and the size of the argument. -/
def iowr (magic : Char) (nr size : Nat) : Nat :=
  3 * 2 ^ 30 + size * 2 ^ 16 + magic.toNat * 2 ^ 8 + nr

end At91Drivers.Kernel
