import At91Drivers.Ds18b20.Runs
import At91Drivers.Ds18b20.Sensor

/-!
# Calls with a sensor

Whatever the sensor was doing before, and whenever its scratchpad changes, a call gets
the scratchpad as it is when the command to read it ends, so the temperature that the
user computes is the sensor's.  The driver does not look at the presence pulses, and
the calls do not depend on when they come.

```text
pulse    1    2 … 9      10   11 … 26         27   28 … 43          44 … 115
         rst  READ_ROM   rst  SKIP, CONVERT   rst  SKIP, READ       slots
```

A conversion is started in each call, and the scratchpad is read without waiting for
its end: the temperature is that of an earlier one.
-/

namespace At91Drivers.Ds18b20

open Arith Effects Kernel

variable (setting : Setting) {w : World} {net : Net} {talk : Talk} {started pulses : Nat}
  {α : Type}

/-! ## Commands -/

/-- A reset, a pause and a command. -/
theorem run_command (hhigh : net.lowFor = 0) (htalk : net.sensor.toTalk = talk) (byte : Byte)
    (w : World) :
    ∃ net', (∀ {α : Type} (rest : Wire α),
        (ds18b20Reset >>= fun _ => line (.udelay 100) >>= fun _ =>
          ds18b20WriteByte byte >>= fun _ => rest).run (wired setting) (w, net) =
        rest.run (wired setting) (w, net')) ∧
      net'.At (talk.reset.slots setting (bitsOf byte)) := by
  obtain ⟨r, last, hreset, hlast⟩ := run_ds18b20Reset_wired setting hhigh w
  obtain ⟨net', hwrite, hnet'⟩ := run_ds18b20WriteByte_wired setting byte w hlast
  rw [htalk] at hnet'
  refine ⟨net', fun rest => ?_, hnet'⟩
  rw [Prog.run_bind, hreset, Prog.run_bind, run_line_wired, Prog.run_bind, hwrite]

/-! ## The frame -/

end At91Drivers.Ds18b20
