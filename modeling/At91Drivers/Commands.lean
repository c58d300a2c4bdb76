import At91Drivers.Ds18b20.Ioctl
import At91Drivers.Flash.Ioctl
import At91Drivers.Gpio.Driver
import At91Drivers.Mc323.Driver

/-!
# Command words that a driver does not know

No handler refuses a command word: each ends in `default: break;` and returns 0.
What it has not declared it does not do, though.  The flash handler looks at the
number of the word only, so that a word of another driver with the number of a
transfer does transfer.

```text
at91flash     _IOC_NR(cmd)   1, 2
at91gpio      cmd            _IOWR('k', 1 … 3, 16 bytes)
ds18b20       cmd            _IOWR('D', 1, 8 bytes)
at91mc323     cmd            0, 1, 3
```
-/

namespace At91Drivers.Commands

open Effects Kernel

/-! ## The handlers -/

/-- A flash word whose number is none of a transfer. -/
theorem flash_undeclared (m : Flash.Mtd) (bad : Nat → Bool) (fuel : Nat) {cmd : Nat} (fPos : Int)
    (w : Flash.World) (hcmd : Flash.iocNr cmd ≠ 1 ∧ Flash.iocNr cmd ≠ 2) :
    (Flash.at91flashIoctl m fuel cmd fPos).run (Flash.device m bad) w =
      (some ⟨if w.arg.isSome then 0 else -EFAULT, fPos⟩, w) := by
  cases harg : w.arg with
  | none => exact Flash.run_ioctl_noArg harg
  | some karg =>
      apply Flash.run_ioctl_other harg
      intro t
      cases t with
      | read => exact hcmd.1
      | write => exact hcmd.2

/-- What the GPIO handler returns for a word that it does not know. -/
def gpioRefusal (pinBase : Int) (arg : Option Gpio.Ctl) : Int :=
  match arg with
  | none => -EFAULT
  | some ctl => if Gpio.getPortPin pinBase ctl.whichPort ctl.whichPin = -1 then -1 else 0

theorem gpio_undeclared (pinBase : Int) {cmd : Nat} (w : Gpio.World)
    (hcmd : cmd ∉ Gpio.commands) :
    (Gpio.at91gpioIoctl pinBase cmd).run Gpio.machine w = (gpioRefusal pinBase w.arg, w) := by
  have hread : Gpio.argFromUser.run Gpio.machine w = (w.arg, w) := rfl
  simp only [Gpio.commands, List.mem_cons, List.not_mem_nil, or_false, not_or] at hcmd
  obtain ⟨hctl, hwrite, hread'⟩ := hcmd
  unfold Gpio.at91gpioIoctl
  rw [Prog.run_bind, hread]
  cases harg : w.arg with
  | none => rfl
  | some ctl =>
      have hcommand (pin : Int) : Gpio.command cmd pin ctl = pure 0 := by
        rw [Gpio.command, if_neg hwrite, if_neg hread', if_neg hctl]
      dsimp only [gpioRefusal]
      rw [Prog.run_ite, hcommand]
      split <;> rfl

theorem ds18b20_undeclared (pinBase : Int) {cmd : Nat} (arg : Ds18b20.Ctl) (pin : Int)
    (hcmd : cmd ∉ Ds18b20.commands) : Ds18b20.ds18b20Ioctl pinBase cmd arg pin = (0, pin) := by
  apply if_neg
  intro h
  exact hcmd (List.mem_singleton.mpr h)

theorem mc323_undeclared (pinBase : Int) {cmd : Nat} (pins : Pins)
    (hcmd : cmd ∉ Mc323.commands) :
    (Mc323.at91mc323Ioctl pinBase cmd).run pinBank pins = (0, pins) := by
  simp only [Mc323.commands, List.mem_cons, List.not_mem_nil, or_false, not_or] at hcmd
  obtain ⟨hon, hoff, hreset⟩ := hcmd
  have hnone : Mc323.at91mc323Ioctl pinBase cmd = pure 0 := by
    unfold Mc323.at91mc323Ioctl
    rw [if_neg hon, if_neg hoff]
    exact if_neg hreset
  rw [hnone]
  rfl

/-! ## All of them -/

/-- The words of the flash header. -/
def flashCommands : List Nat := [iowr 't' 1 12, iowr 't' 2 12, iowr 't' 3 12]

/-- A word that a handler does not know changes nothing, and the call returns 0
if its argument is one that the handler gets past.  A flash word is known by its
number. -/
theorem undeclared_changes_nothing (m : Flash.Mtd) (bad : Nat → Bool) (fuel : Nat)
    (pinBase : Int) :
    (∀ cmd fPos w, Flash.iocNr cmd ≠ 1 ∧ Flash.iocNr cmd ≠ 2 →
      (Flash.at91flashIoctl m fuel cmd fPos).run (Flash.device m bad) w =
        (some ⟨if w.arg.isSome then 0 else -EFAULT, fPos⟩, w)) ∧
    (∀ cmd w, cmd ∉ Gpio.commands →
      (Gpio.at91gpioIoctl pinBase cmd).run Gpio.machine w = (gpioRefusal pinBase w.arg, w)) ∧
    (∀ cmd arg pin, cmd ∉ Ds18b20.commands →
      Ds18b20.ds18b20Ioctl pinBase cmd arg pin = (0, pin)) ∧
    ∀ cmd pins, cmd ∉ Mc323.commands →
      (Mc323.at91mc323Ioctl pinBase cmd).run pinBank pins = (0, pins) :=
  ⟨fun _ fPos w hcmd => flash_undeclared m bad fuel fPos w hcmd,
    fun _ w hcmd => gpio_undeclared pinBase w hcmd,
    fun _ arg pin hcmd => ds18b20_undeclared pinBase arg pin hcmd,
    fun _ pins hcmd => mc323_undeclared pinBase pins hcmd⟩

/-- A flash device and a user with an argument for a transfer. -/
def flashUser : Flash.World :=
  { Flash.quiet (fun _ => 1) (fun _ => 7) (fun _ => 9) with arg := some ⟨3, 4, 0⟩ }

/-- All pins are low, and the argument names a pin of port B. -/
def pinUser : Gpio.World := ⟨fun _ => ⟨false, false⟩, some ⟨1, 8, 1, 1⟩, true⟩

/-- `TIOCGWINSZ` at each of the drivers. -/
theorem undeclared_changes_nothing_tiocgwinsz :
    (Flash.at91flashIoctl Flash.fourBlocks 5 0x5413 6).run
        (Flash.device Flash.fourBlocks fun _ => false) flashUser = (some ⟨0, 6⟩, flashUser) ∧
      (Gpio.at91gpioIoctl 32 0x5413).run Gpio.machine pinUser = (0, pinUser) ∧
      (∀ pin, Ds18b20.ds18b20Ioctl 32 0x5413 ⟨1, 8⟩ pin = (0, pin)) ∧
      (Mc323.at91mc323Ioctl 32 0x5413).run pinBank pinUser.pins = (0, pinUser.pins) := by
  obtain ⟨hflash, hgpio, hds18b20, hmc323⟩ :=
    undeclared_changes_nothing Flash.fourBlocks (fun _ => false) 5 32
  have hpin : gpioRefusal 32 pinUser.arg = 0 := by decide +kernel
  refine ⟨hflash 0x5413 6 flashUser (by decide), ?_, fun pin => hds18b20 0x5413 _ pin (by decide),
    hmc323 0x5413 _ (by decide)⟩
  rw [hgpio 0x5413 pinUser (by decide), hpin]

/-- None of the handlers refuses a word; the modem driver returns 0 for the word
2, between two of its own. -/
theorem undeclared_not_refused :
    ¬ ((∀ m bad fuel cmd fPos w, cmd ∉ flashCommands → ∃ ret < 0,
          (Flash.at91flashIoctl m fuel cmd fPos).run (Flash.device m bad) w =
            (some ⟨ret, fPos⟩, w)) ∧
        (∀ pinBase cmd w, cmd ∉ Gpio.commands → ∃ ret < 0,
          (Gpio.at91gpioIoctl pinBase cmd).run Gpio.machine w = (ret, w)) ∧
        (∀ pinBase cmd arg pin, cmd ∉ Ds18b20.commands → ∃ ret < 0,
          Ds18b20.ds18b20Ioctl pinBase cmd arg pin = (ret, pin)) ∧
        ∀ pinBase cmd pins, cmd ∉ Mc323.commands → ∃ ret < 0,
          (Mc323.at91mc323Ioctl pinBase cmd).run pinBank pins = (ret, pins)) := by
  rintro ⟨-, -, -, h⟩
  obtain ⟨ret, hneg, hrun⟩ := h 32 2 (fun _ => ⟨false, false⟩) (by decide)
  rw [mc323_undeclared 32 _ (by decide)] at hrun
  obtain ⟨rfl, -⟩ := Prod.mk.inj hrun
  exact absurd hneg (lt_irrefl 0)

end At91Drivers.Commands
