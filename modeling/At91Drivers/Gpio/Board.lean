import At91Drivers.Gpio.Driver

/-!
# The GPIO driver as a board of pins

To its users the driver is a map from the pins of four ports to their states.  A
request names a pin and says what to do with it, and it acts on that pin alone;
what names no pin is refused.

The driver adds port and pin up to one number without a look at the pin, and
takes the number -1 for a port that does not exist.  So a pin outside 0..31
reaches into another port, and a direction that does not exist is found by
`gpio_init` but not reported.
-/

namespace At91Drivers.Gpio

open Arith Effects Kernel

/-! ## The board -/

/-- A pin of the ports PA to PD. -/
structure Name where
  port : Fin 4
  pin : Fin 32
deriving DecidableEq

inductive Request where
  | configure (output : Bool)
  | write (level : Bool)
  | read
deriving DecidableEq

/-- A pin after a request.  A pin that becomes an output starts low. -/
def Request.serve (r : Request) (p : Pin) : Pin :=
  match r with
  | .configure false => { p with output := false }
  | .configure true => ⟨true, false⟩
  | .write level => { p with level := level }
  | .read => p

abbrev Board := Name → Pin

def Board.serve (board : Board) (a : Name × Request) : Board :=
  Function.update board a.1 (a.2.serve (board a.1))

/-! ## Calls -/

/-- A call with one of the declared commands. -/
structure Call where
  cmd : Nat
  arg : Option Ctl
  argWritable : Bool
  declared : cmd ∈ commands

/-- The pin that an argument names. -/
def Ctl.name (ctl : Ctl) : Option Name :=
  if h : (0 ≤ ctl.whichPort ∧ ctl.whichPort < 4) ∧ 0 ≤ ctl.whichPin ∧ ctl.whichPin < 32 then
    some ⟨⟨ctl.whichPort.toNat, by omega⟩, ⟨ctl.whichPin.toNat, by omega⟩⟩
  else
    none

/-- What a call asks of a pin, once its argument is read. -/
def Call.request (c : Call) (ctl : Ctl) : Option Request :=
  if c.cmd = at91gpioWrite then
    some (.write (ctl.value ≠ 0))
  else if c.cmd = at91gpioRead then
    if c.argWritable then some .read else none
  else if ctl.inout = 0 then
    some (.configure false)
  else if ctl.inout = 1 then
    some (.configure true)
  else
    none

/-- What a call asks of which pin. -/
def Call.asked (c : Call) : Option (Name × Request) := do
  let ctl ← c.arg
  let name ← ctl.name
  let r ← c.request ctl
  return (name, r)

def Call.world (c : Call) (pins : Pins) : World := ⟨pins, c.arg, c.argWritable⟩

def Call.run (pinBase : Int) (c : Call) (pins : Pins) : Int × World :=
  (at91gpioIoctl pinBase c.cmd).run machine (c.world pins)

/-- Bit `pin` of bank `port` has this number. -/
def Name.number (pinBase : Int) (name : Name) : Int := pinBase + 32 * name.port + name.pin

def board (pinBase : Int) (pins : Pins) : Board := fun name => pins (name.number pinBase)

/-- The argument as a request leaves it: a read stores the level. -/
def Request.answer (r : Request) (p : Pin) (arg : Option Ctl) : Option Ctl :=
  match r with
  | .read => arg.map fun ctl => { ctl with value := if p.level then 1 else 0 }
  | _ => arg

/-- The call returns 0 and does what it is asked to, to the pin that it names and
to no other. -/
structure Serves (pinBase : Int) (c : Call) (pins : Pins) (name : Name) (r : Request) : Prop where
  returns : (c.run pinBase pins).1 = 0
  acts : (c.run pinBase pins).2.pins =
    pins.set (name.number pinBase) (r.serve (board pinBase pins name))
  answers : (c.run pinBase pins).2.arg = r.answer (board pinBase pins name) c.arg

/-- The call returns an error and leaves the pins alone. -/
structure Refuses (pinBase : Int) (c : Call) (pins : Pins) : Prop where
  returns : (c.run pinBase pins).1 < 0
  keeps : (c.run pinBase pins).2.pins = pins

/-- A call serves what it is asked; a call that asks nothing of any pin is
refused. -/
def Acts (pinBase : Int) (c : Call) (pins : Pins) : Prop :=
  match c.asked with
  | some (name, r) => Serves pinBase c pins name r
  | none => Refuses pinBase c pins

/-- The number of the pin is an `int`; for a call that asks nothing of any pin,
the port does not exist, the number of the pin is -1 as an `int`, or the answer
cannot be written. -/
def Call.Met (pinBase : Int) (c : Call) : Prop :=
  ∀ ctl, c.arg = some ctl →
    match c.asked with
    | some (name, _) => name.number pinBase < 2147483648
    | none =>
        ¬ (0 ≤ ctl.whichPort ∧ ctl.whichPort < 4) ∨
          4294967296 ∣ pinBase + 32 * ctl.whichPort + ctl.whichPin + 1 ∨
          c.cmd = at91gpioRead ∧ c.argWritable = false

/-- The pins after a sequence of calls. -/
def pinsAfter (pinBase : Int) (calls : List Call) (pins : Pins) : Pins :=
  calls.foldl (fun pins c => (c.run pinBase pins).2.pins) pins

/-! ## Numbers of pins -/

/-- The bank and the bit of a number. -/
theorem Name.bank_bit (pinBase : Int) (name : Name) :
    (name.number pinBase - pinBase) / 32 = name.port ∧
      (name.number pinBase - pinBase) % 32 = name.pin := by
  unfold Name.number
  omega

theorem Name.number_injective (pinBase : Int) : Function.Injective (Name.number pinBase) := by
  rintro ⟨port, pin⟩ ⟨port', pin'⟩ h
  have hname := Name.bank_bit pinBase ⟨port, pin⟩
  have hname' := Name.bank_bit pinBase ⟨port', pin'⟩
  rw [h] at hname
  obtain rfl : port = port' := by
    apply Fin.ext
    exact_mod_cast hname.1.symm.trans hname'.1
  obtain rfl : pin = pin' := by
    apply Fin.ext
    exact_mod_cast hname.2.symm.trans hname'.2
  rfl

theorem portPin_of_port {pinBase port : Int} (pin : Int) (hlo : 0 ≤ port) (hhi : port < 4) :
    portPin pinBase port pin = i32 (pinBase + 32 * port + pin) := by
  obtain rfl | rfl | rfl | rfl : port = 0 ∨ port = 1 ∨ port = 2 ∨ port = 3 := by omega
  all_goals rfl

theorem portPin_of_not_port {pinBase port : Int} (pin : Int) (h : ¬ (0 ≤ port ∧ port < 4)) :
    portPin pinBase port pin = -1 := by
  unfold portPin
  split
  case h_5 => rfl
  all_goals omega

theorem i32_eq_neg_one {x : Int} : i32 x = -1 ↔ 4294967296 ∣ x + 1 := by
  unfold i32; omega

theorem portPin_eq_neg_one {pinBase port pin : Int} :
    portPin pinBase port pin = -1 ↔
      ¬ (0 ≤ port ∧ port < 4) ∨ 4294967296 ∣ pinBase + 32 * port + pin + 1 := by
  by_cases h : 0 ≤ port ∧ port < 4
  · rw [portPin_of_port pin h.1 h.2, i32_eq_neg_one]
    exact ⟨.inr, fun h' => h'.resolve_left (not_not.mpr h)⟩
  · exact iff_of_true (portPin_of_not_port pin h) (.inl h)

theorem portPin_of_name {pinBase : Int} {ctl : Ctl} {name : Name} (h : ctl.name = some name) :
    portPin pinBase ctl.whichPort ctl.whichPin = i32 (name.number pinBase) := by
  unfold Ctl.name at h
  split at h
  case isTrue hin =>
    obtain rfl := Option.some.inj h
    rw [portPin_of_port _ hin.1.1 hin.1.2, Name.number]
    dsimp only
    rw [Int.toNat_of_nonneg hin.1.1, Int.toNat_of_nonneg hin.2.1]
  case isFalse => cases h

theorem Name.number_lt (pinBase : Int) (name : Name) :
    pinBase ≤ name.number pinBase ∧ name.number pinBase < pinBase + 128 := by
  unfold Name.number
  omega

/-! ## One call -/

@[simp] theorem Pins.set_same (pins : Pins) (n : Int) (p : Pin) : pins.set n p n = p := if_pos rfl

theorem Pins.set_of_ne (pins : Pins) {n k : Int} (p : Pin) (h : k ≠ n) :
    pins.set n p k = pins k :=
  if_neg h

theorem Pins.set_self (pins : Pins) (n : Int) : pins.set n (pins n) = pins := by
  funext k
  unfold Pins.set
  split
  case isTrue h => rw [h]
  case isFalse => rfl

theorem Call.cmd_cases (c : Call) :
    c.cmd = at91gpioCtl ∨ c.cmd = at91gpioWrite ∨ c.cmd = at91gpioRead := by
  simpa [commands] using c.declared

theorem Call.request_ctl {c : Call} (hcmd : c.cmd = at91gpioCtl) (ctl : Ctl) :
    c.request ctl =
      if ctl.inout = 0 then some (.configure false)
      else if ctl.inout = 1 then some (.configure true)
      else none := by
  rw [Call.request, if_neg (by rw [hcmd]; decide), if_neg (by rw [hcmd]; decide)]

theorem Call.request_write {c : Call} (hcmd : c.cmd = at91gpioWrite) (ctl : Ctl) :
    c.request ctl = some (.write (ctl.value ≠ 0)) :=
  if_pos hcmd

theorem Call.request_read {c : Call} (hcmd : c.cmd = at91gpioRead) (ctl : Ctl) :
    c.request ctl = if c.argWritable then some .read else none := by
  rw [Call.request, if_neg (by rw [hcmd]; decide), if_pos hcmd]

theorem command_ctl {cmd : Nat} (hcmd : cmd = at91gpioCtl) (q : Int) (ctl : Ctl) :
    command cmd q ctl = gpioInit q ctl.inout >>= fun _ => pure 0 := by
  rw [command, if_neg (by rw [hcmd]; decide), if_neg (by rw [hcmd]; decide), if_pos hcmd]

theorem command_write {cmd : Nat} (hcmd : cmd = at91gpioWrite) (q : Int) (ctl : Ctl) :
    command cmd q ctl = setValue q ctl.value >>= fun _ => pure 0 :=
  if_pos hcmd

theorem run_command_read {c : Call} (hcmd : c.cmd = at91gpioRead) (q : Int) (ctl : Ctl)
    (pins : Pins) :
    (command c.cmd q ctl).run machine (c.world pins) =
      (if c.argWritable then 0 else -EFAULT,
        ⟨pins, if c.argWritable then some { ctl with value := if (pins q).level then 1 else 0 }
          else c.arg, c.argWritable⟩) := by
  rw [command, if_neg (by rw [hcmd]; decide), if_pos hcmd]
  rfl

/-- A direction that does not exist is found and not reported. -/
theorem gpioInit_none {inout : Int} (q : Int) (h0 : inout ≠ 0) (h1 : inout ≠ 1) :
    gpioInit q inout = pure (-1) := by
  unfold gpioInit
  split
  · exact absurd rfl h0
  · exact absurd rfl h1
  · rfl

/-- A request at the pin `q`, whatever pin that is. -/
theorem run_command {c : Call} {ctl : Ctl} {r : Request} (harg : c.arg = some ctl)
    (h : c.request ctl = some r) (q : Int) (pins : Pins) :
    (command c.cmd q ctl).run machine (c.world pins) =
      (0, ⟨pins.set q (r.serve (pins q)), r.answer (pins q) c.arg, c.argWritable⟩) := by
  rcases c.cmd_cases with hcmd | hcmd | hcmd
  · rw [Call.request_ctl hcmd] at h
    rw [command_ctl hcmd]
    by_cases h0 : ctl.inout = 0
    · rw [if_pos h0] at h
      obtain rfl := Option.some.inj h
      rw [h0]
      rfl
    · rw [if_neg h0] at h
      by_cases h1 : ctl.inout = 1
      · rw [if_pos h1] at h
        obtain rfl := Option.some.inj h
        rw [h1]
        rfl
      · -- neither an output nor an input: no request
        rw [if_neg h1] at h
        cases h
  · rw [Call.request_write hcmd] at h
    obtain rfl := Option.some.inj h
    rw [command_write hcmd]
    rfl
  · rw [Call.request_read hcmd] at h
    cases hwritable : c.argWritable with
    | true =>
        rw [hwritable, if_pos rfl] at h
        obtain rfl := Option.some.inj h
        rw [run_command_read hcmd, hwritable, harg]
        dsimp only [Request.serve]
        rw [Pins.set_self]
        rfl
    | false =>
        rw [hwritable] at h
        cases h

/-- A call that asks for nothing changes nothing, and only a read reports it. -/
theorem run_command_none {c : Call} {ctl : Ctl} (h : c.request ctl = none) (q : Int)
    (pins : Pins) :
    (command c.cmd q ctl).run machine (c.world pins) =
      (if c.cmd = at91gpioRead then -EFAULT else 0, c.world pins) := by
  rcases c.cmd_cases with hcmd | hcmd | hcmd
  · rw [Call.request_ctl hcmd] at h
    have h0 : ctl.inout ≠ 0 := fun h0 => by simp [h0] at h
    have h1 : ctl.inout ≠ 1 := fun h1 => by simp [h1] at h
    rw [command_ctl hcmd, gpioInit_none q h0 h1, if_neg (by rw [hcmd]; decide)]
    rfl
  · rw [Call.request_write hcmd] at h
    cases h
  · rw [Call.request_read hcmd] at h
    have hwritable : c.argWritable = false := by
      cases hwritable : c.argWritable with
      | false => rfl
      | true => simp [hwritable] at h
    rw [run_command_read hcmd, if_pos hcmd, Call.world, hwritable]
    rfl

theorem run_noArg {pinBase : Int} {c : Call} (harg : c.arg = none) (pins : Pins) :
    c.run pinBase pins = (-EFAULT, c.world pins) := by
  unfold Call.run at91gpioIoctl
  have hread : argFromUser.run machine (c.world pins) = (none, c.world pins) := by
    rw [← harg]
    rfl
  rw [Prog.run_bind, hread]
  rfl

theorem run_arg {pinBase : Int} {c : Call} {ctl : Ctl} (harg : c.arg = some ctl) (pins : Pins) :
    c.run pinBase pins =
      if portPin pinBase ctl.whichPort ctl.whichPin = -1 then
        (-1, c.world pins)
      else
        (command c.cmd (portPin pinBase ctl.whichPort ctl.whichPin) ctl).run machine
          (c.world pins) := by
  unfold Call.run at91gpioIoctl
  have hread : argFromUser.run machine (c.world pins) = (some ctl, c.world pins) := by
    rw [← harg]
    rfl
  rw [Prog.run_bind, hread]
  exact Prog.run_ite machine _ _ _ _

/-! ## When a call acts as it should -/

theorem asked_eq_some {c : Call} {name : Name} {r : Request} :
    c.asked = some (name, r) ↔
      ∃ ctl, c.arg = some ctl ∧ ctl.name = some name ∧ c.request ctl = some r := by
  unfold Call.asked
  cases c.arg with
  | none => simp
  | some ctl => cases hname : ctl.name <;> cases hr : c.request ctl <;> simp [hname, hr]

/-- Some pin looks different after a request that is not a read. -/
theorem Request.exists_changed {r : Request} (h : r ≠ .read) : ∃ p : Pin, r.serve p ≠ p := by
  cases r with
  | configure output =>
      refine ⟨⟨!output, true⟩, fun heq => ?_⟩
      cases output <;> simp [Request.serve] at heq
  | write level =>
      refine ⟨⟨false, !level⟩, fun heq => ?_⟩
      simp [Request.serve] at heq
  | read => exact absurd rfl h

section Asked

variable {pinBase : Int} {c : Call} {ctl : Ctl} {name : Name} {r : Request}
  (harg : c.arg = some ctl) (hname : ctl.name = some name) (hr : c.request ctl = some r)

include harg hname hr

theorem serves_of_number (h0 : 0 ≤ pinBase) (h : name.number pinBase < 2147483648) (pins : Pins) :
    Serves pinBase c pins name r := by
  have hlow := (name.number_lt pinBase).1
  have hnumber : portPin pinBase ctl.whichPort ctl.whichPin = name.number pinBase := by
    rw [portPin_of_name hname, i32_eq (by omega) h]
  have hrun : c.run pinBase pins =
      (0, ⟨pins.set (name.number pinBase) (r.serve (pins (name.number pinBase))),
        r.answer (pins (name.number pinBase)) c.arg, c.argWritable⟩) := by
    rw [run_arg harg, hnumber, if_neg (by omega), run_command harg hr]
  exact ⟨congrArg Prod.fst hrun, congrArg (fun x => x.2.pins) hrun,
    congrArg (fun x => x.2.arg) hrun⟩

/-- A number past the last `int` is that of another pin, or the mark of an
error. -/
theorem number_of_serves (h : ∀ pins, Serves pinBase c pins name r) :
    name.number pinBase < 2147483648 := by
  by_contra hlarge
  have hother : i32 (name.number pinBase) ≠ name.number pinBase := by
    unfold i32; omega
  generalize hq : i32 (name.number pinBase) = q at hother
  have hpin : portPin pinBase ctl.whichPort ctl.whichPin = q := by
    rw [portPin_of_name hname, hq]
  by_cases hmark : q = -1
  · have hreturns := (h fun _ => ⟨false, false⟩).returns
    rw [run_arg harg, hpin, if_pos hmark] at hreturns
    exact absurd hreturns (show (-1 : Int) ≠ 0 by decide)
  have hrun (pins : Pins) : c.run pinBase pins =
      (0, ⟨pins.set q (r.serve (pins q)), r.answer (pins q) c.arg, c.argWritable⟩) := by
    rw [run_arg harg, hpin, if_neg hmark, run_command harg hr]
  by_cases hread : r = .read
  · -- only the pin that is read is high
    have hanswer := (h fun n => ⟨false, n = q⟩).answers
    rw [hrun, hread, harg] at hanswer
    simp [Request.answer, board, hother.symm] at hanswer
  · obtain ⟨p, hp⟩ := Request.exists_changed hread
    have hacts := congrFun (h fun _ => p).acts q
    rw [hrun] at hacts
    dsimp only [board] at hacts
    rw [Pins.set_same, Pins.set_of_ne _ _ hother] at hacts
    exact hp hacts

end Asked

theorem refuses_iff {pinBase : Int} {c : Call} {ctl : Ctl} (harg : c.arg = some ctl)
    (pins : Pins) : Refuses pinBase c pins ↔
      portPin pinBase ctl.whichPort ctl.whichPin = -1 ∨
        c.cmd = at91gpioRead ∧ c.argWritable = false := by
  by_cases hmark : portPin pinBase ctl.whichPort ctl.whichPin = -1
  · have hrun : c.run pinBase pins = (-1, c.world pins) := by
      rw [run_arg harg, if_pos hmark]
    refine iff_of_true ⟨?_, ?_⟩ (.inl hmark)
    · rw [hrun]
      exact show (-1 : Int) < 0 by decide
    · rw [hrun]
      rfl
  cases hr : c.request ctl with
  | some r =>
      have hrun : c.run pinBase pins = _ := run_arg harg pins
      rw [if_neg hmark, run_command harg hr] at hrun
      refine iff_of_false (fun h => ?_) ?_
      · exact absurd (congrArg Prod.fst hrun) h.returns.ne
      · rintro (hmark' | ⟨hcmd, hwritable⟩)
        · exact hmark hmark'
        · rw [Call.request_read hcmd, hwritable] at hr
          cases hr
  | none =>
      have hrun : c.run pinBase pins = _ := run_arg harg pins
      rw [if_neg hmark, run_command_none hr] at hrun
      by_cases hcmd : c.cmd = at91gpioRead
      · have hwritable : c.argWritable = false := by
          rw [Call.request_read hcmd] at hr
          cases hwritable : c.argWritable with
          | false => rfl
          | true => simp [hwritable] at hr
        refine iff_of_true ⟨?_, ?_⟩ (.inr ⟨hcmd, hwritable⟩)
        · rw [hrun, if_pos hcmd]
          exact show -EFAULT < 0 by decide
        · rw [hrun]
          rfl
      · rw [if_neg hcmd] at hrun
        refine iff_of_false (fun h => ?_) ?_
        · exact absurd (congrArg Prod.fst hrun) h.returns.ne
        · rintro (hmark' | ⟨hcmd', -⟩)
          · exact hmark hmark'
          · exact hcmd hcmd'

theorem acts_iff_met {pinBase : Int} (h0 : 0 ≤ pinBase) (c : Call) :
    (∀ pins, Acts pinBase c pins) ↔ c.Met pinBase := by
  unfold Acts Call.Met
  cases hasked : c.asked with
  | some a =>
      obtain ⟨name, r⟩ := a
      obtain ⟨ctl, harg, hname, hr⟩ := asked_eq_some.mp hasked
      dsimp only
      constructor
      · exact fun h _ _ => number_of_serves harg hname hr h
      · exact fun h => serves_of_number harg hname hr h0 (h ctl harg)
  | none =>
      dsimp only
      cases harg : c.arg with
      | none =>
          refine iff_of_true (fun pins => ⟨?_, ?_⟩) fun _ h => by cases h
          · rw [run_noArg harg]
            exact show -EFAULT < 0 by decide
          · rw [run_noArg harg]
            rfl
      | some ctl =>
          have hiff (pins : Pins) : Refuses pinBase c pins ↔ _ := refuses_iff harg pins
          rw [portPin_eq_neg_one, or_assoc] at hiff
          constructor
          · rintro h _ ⟨⟩
            exact (hiff fun _ => ⟨false, false⟩).mp (h _)
          · exact fun h pins => (hiff pins).mpr (h ctl rfl)

/-! ## Runs -/

theorem board_set (pinBase : Int) (pins : Pins) (name : Name) (p : Pin) :
    board pinBase (pins.set (name.number pinBase) p) =
      Function.update (board pinBase pins) name p := by
  funext name'
  by_cases h : name' = name
  · rw [h, Function.update_self]
    exact Pins.set_same _ _ _
  · rw [Function.update_of_ne h]
    exact Pins.set_of_ne _ _ fun heq => h (Name.number_injective pinBase heq)

/-- A call that acts as it should serves the board or leaves it alone. -/
theorem Acts.board {pinBase : Int} {c : Call} {pins : Pins} (h : Acts pinBase c pins) :
    board pinBase (c.run pinBase pins).2.pins =
      c.asked.elim (board pinBase pins) (board pinBase pins).serve := by
  unfold Acts at h
  cases hasked : c.asked with
  | none =>
      rw [hasked] at h
      exact congrArg (Gpio.board pinBase) h.keeps
  | some a =>
      rw [hasked] at h
      rw [h.acts, board_set]
      rfl

theorem pinsAfter_cons (pinBase : Int) (c : Call) (calls : List Call) (pins : Pins) :
    pinsAfter pinBase (c :: calls) pins =
      pinsAfter pinBase calls (c.run pinBase pins).2.pins := rfl

/-- When all calls act as they should, the board goes through what they ask. -/
theorem board_pinsAfter {pinBase : Int} {calls : List Call}
    (h : ∀ c ∈ calls, ∀ pins, Acts pinBase c pins) (pins : Pins) :
    board pinBase (pinsAfter pinBase calls pins) =
      (calls.filterMap Call.asked).foldl Board.serve (board pinBase pins) := by
  induction calls generalizing pins with
  | nil => rfl
  | cons c calls ih =>
      have hrest := ih (fun c' hc' => h c' (List.mem_cons_of_mem _ hc'))
        (c.run pinBase pins).2.pins
      rw [pinsAfter_cons, hrest, (h c List.mem_cons_self pins).board]
      cases hasked : c.asked with
      | none => rw [List.filterMap_cons_none hasked]; rfl
      | some a => rw [List.filterMap_cons_some hasked]; rfl

/-- A call acts on the pin that it names and on no other, or is refused, exactly
when it meets the condition; and a run of calls that meet it takes the board
through what they ask. -/
theorem requests_act_iff {pinBase : Int} (h0 : 0 ≤ pinBase) :
    (∀ c : Call, (∀ pins, Acts pinBase c pins) ↔ c.Met pinBase) ∧
      ∀ calls : List Call, (∀ c ∈ calls, c.Met pinBase) → ∀ pins,
        (∀ done c rest, calls = done ++ c :: rest →
          Acts pinBase c (pinsAfter pinBase done pins)) ∧
        board pinBase (pinsAfter pinBase calls pins) =
          (calls.filterMap Call.asked).foldl Board.serve (board pinBase pins) := by
  refine ⟨acts_iff_met h0, fun calls hmet pins => ⟨?_, ?_⟩⟩
  · rintro done c rest rfl
    have hc := hmet c (List.mem_append_right _ List.mem_cons_self)
    exact (acts_iff_met h0 c).mpr hc _
  · exact board_pinsAfter (fun c hc => (acts_iff_met h0 c).mpr (hmet c hc)) pins

/-- A write of 1 to PB8. -/
def pb8High : Call := ⟨at91gpioWrite, some ⟨1, 8, 0, 1⟩, true, by decide⟩

theorem requests_act_iff_pb8 :
    board 32 (pinsAfter 32 [pb8High] fun _ => ⟨true, false⟩) ⟨1, 8⟩ = ⟨true, true⟩ := by
  have hmet : ∀ c ∈ [pb8High], c.Met 32 := by
    intro c hc
    obtain rfl := List.mem_singleton.mp hc
    rintro ctl ⟨⟩
    exact show Name.number 32 ⟨1, 8⟩ < 2147483648 by decide
  have h := ((requests_act_iff (by decide)).2 [pb8High] hmet
    fun _ => ⟨true, false⟩).2
  rw [h]
  rfl

/-- A write of 1 to the pin 40 of PA. -/
def pa40High : Call := ⟨at91gpioWrite, some ⟨0, 40, 0, 1⟩, true, by decide⟩

/-- The write to pin 40 of PA is not refused; the pin that it sets is PB8. -/
theorem pin_reaches_next_port :
    ¬ ∀ (pinBase : Int) (c : Call) (pins : Pins), 0 ≤ pinBase → Acts pinBase c pins := by
  intro h
  have hrefuses : Refuses 32 pa40High fun _ => ⟨true, false⟩ :=
    h 32 pa40High (fun _ => ⟨true, false⟩) (by decide)
  have hpb8 := congrArg Pin.level (congrFun hrefuses.keeps (Name.number 32 ⟨1, 8⟩))
  exact absurd hpb8 (by decide +kernel)

end At91Drivers.Gpio
