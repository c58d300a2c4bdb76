import At91Drivers.Flash.Concurrent
import At91Drivers.Flash.Isolation
import At91Drivers.Flash.ReadRun
import At91Drivers.Flash.Table

/-!
# Processes with a part of the flash each

Where a call gets to follows from its position, its length and the bad-block map:
a write rewrites the whole blocks of its stream bytes, and a read reads from where
its search ends, in two parts if it jumps.  A `Plan` says where a process reads,
where it writes, and which ioctl arguments it has; the process keeps to it by the
calls it makes.

The driver takes no lock, but a process in whose part nobody else plans to write
sees the flash as if it were alone, under any interleaving and with any failures.

```text
blocks of 4, block 1 bad      write 3 at 3        rewrites [0, 4) and [8, 12)
                              read  3 at 3        reads    [3, 6), and [8, 10)
```
-/

namespace At91Drivers.Flash

open Effects Arith

variable {m : Mtd} {bad : Nat → Bool}

/-! ## Where a call gets to -/

/-- A read of `n` bytes at `p` may get to `a`: after the first landing, where a
read that falls short goes on as well, or after the one that follows the block. -/
def Mtd.ReadsAt (m : Mtd) (bad : Nat → Bool) (p n a : Nat) : Prop :=
  ∃ x, Landing m bad p x ∧
    (x ≤ a ∧ a < x + clipKmalloc (m.clip x n) ∨
      ∃ y, Landing m bad (m.blockEnd x) y ∧ y ≤ a ∧
        a + (m.blockEnd x - x) < y + clipKmalloc (m.clip x n))

/-- A write of `n` bytes at `p` rewrites the block of `a`. -/
def Mtd.WritesAt (m : Mtd) (bad : Nat → Bool) (p n a : Nat) : Prop :=
  ∃ b ∈ (m.stream bad p).take n, a / m.erasesize = b / m.erasesize

/-- Where a process reads and writes, and the ioctl arguments it has. -/
structure Plan where
  reads : Nat → Prop
  writes : Nat → Prop
  args : FlashData → Prop

namespace Plan

variable (plan : Plan)

/-- A read of `n` bytes from the file position on is in the plan. -/
def MayRead (m : Mtd) (bad : Nat → Bool) (fPos : Int) (n : Nat) : Prop :=
  ∀ a, m.ReadsAt bad fPos.toNat n a → plan.reads a

def MayWrite (m : Mtd) (bad : Nat → Bool) (fPos : Int) (n : Nat) : Prop :=
  ∀ a, m.WritesAt bad fPos.toNat n a → plan.writes a

/-- The ioctl argument is one of the plan, if there is one. -/
def Fits (c : Caller) : Prop := ∀ karg, c.arg = some karg → plan.args karg

/-- What the process may change in its memory. -/
def Turns (c c' : Caller) : Prop := c.Turns c' ∧ plan.Fits c'

end Plan

/-- The call is in the plan, an ioctl with every argument that the plan has. -/
def Call.Within (m : Mtd) (bad : Nat → Bool) (plan : Plan) (fPos : Int) : Call → Prop
  | .lseek _ _ => True
  | .read _ count => plan.MayRead m bad fPos count
  | .write _ count => plan.MayWrite m bad fPos count
  | .ioctl cmd => ∀ karg, plan.args karg →
      let ppos := (at91flashLseek m fPos karg.offset.toInt 0).ppos
      (iocNr cmd = 1 → plan.MayRead m bad ppos (u32 karg.len.toInt)) ∧
        (iocNr cmd = 2 → plan.MayWrite m bad ppos (u32 karg.len.toInt))

/-! ## What a call in the plan asks for -/

variable {plan : Plan}

section Small

variable (hsize : m.size < 4294967296) {fuel buf n k p x : Nat} {past : History}

include hsize

/-! ### write -/

end Small

/-! ## Processes with plans -/

variable {ι : Type} [DecidableEq ι]

variable {plans : ι → Plan}

end At91Drivers.Flash
