import At91Drivers.Ds18b20.Slots
import At91Drivers.Ds18b20.Temperature

/-!
# A sensor on the line

A sensor hears the low pulses of the line: a long one is a reset, and a short one is
a slot, with the bit that the sensor samples 15 to 60 microseconds after its start.
It collects the commands of the driver bit by bit, and in the slots after a
`READ_SCRATCHPAD` it sends its scratchpad: it holds the line low for a zero.  A slot
that starts while the sensor holds the line is lost.

All that is given to the sensor is in `Setting`.  Within it the driver's slots are long
enough to be told apart, its samples are early enough to see a zero that is held for
the shortest time, and the next slot is late enough for one that is held for the
longest.

```text
write 1   ‾|_|‾‾‾‾‾‾‾‾‾‾‾‾‾‾‾‾‾‾‾‾‾‾‾‾      1 low, 66 high
write 0   ‾|____________________|‾          66 low, 1 high
read      ‾|___|‾‾‾‾‾‾‾‾‾‾‾‾‾‾‾‾‾‾‾‾‾‾      3 low, 65 high, the sample after 5
            0     15 …          60
                  the sensor samples, or lets a zero go
```
-/

namespace At91Drivers.Ds18b20

open Arith Effects

/-! ## What the sensor says -/

/-- Nine bytes, the last one the check byte of the others, with a temperature that
the sensor can measure. -/
structure Scratchpad where
  byte : Nat → Byte
  checked : byte 8 = register dallas (wireBits 8 byte) 0#8
  lo : -880 ≤ (byte 1 ++ byte 0).toInt
  hi : (byte 1 ++ byte 0).toInt ≤ 2000

namespace Scratchpad

def bytes (pad : Scratchpad) : List Byte := (List.range 9).map pad.byte

def pair (pad : Scratchpad) : Byte × Byte := (pad.byte 1, pad.byte 0)

instance : Inhabited Scratchpad := ⟨⟨frost, by decide +kernel, by decide, by decide⟩⟩

end Scratchpad

/-- What the sensor does with the pulses to come. -/
inductive Mode where
  /-- nothing, until a reset -/
  | deaf
  /-- the command after a reset, of which these bits were heard -/
  | rom (heard : List Bool)
  /-- the command after that -/
  | function (heard : List Bool)
  /-- these bits are left to send -/
  | sending (left : List Bool)

/-- What is given to the sensor, for each pulse: when it samples the slot, how long it
holds a zero, from when to when after a reset it shows that it is there, and what is in
the scratchpad; and its ROM code. -/
structure Setting where
  sampled : Nat → Nat
  early : ∀ k, 15 ≤ sampled k
  late : ∀ k, sampled k ≤ 60
  held : Nat → Nat
  seen : ∀ k, 15 ≤ held k
  released : ∀ k, held k ≤ 60
  presence : Nat → Nat × Nat
  gone : ∀ k, (presence k).2 ≤ 200
  scratchpad : Nat → Scratchpad
  code : List Bool

/-- The times in the middle. -/
instance : Inhabited Setting where
  default :=
    { sampled := fun _ => 30
      early := fun _ => by decide
      late := fun _ => by decide
      held := fun _ => 30
      seen := fun _ => by decide
      released := fun _ => by decide
      presence := fun _ => (30, 150)
      gone := fun _ => by decide
      scratchpad := fun _ => default
      code := [] }

/-- How far the sensor is. -/
structure Talk where
  mode : Mode
  /-- the conversions that were started -/
  started : Nat
  pulses : Nat

namespace Talk

variable (setting : Setting)

def romCommand (heard : List Bool) : Mode :=
  if heard = bitsOf skipRom then .function []
  else if heard = bitsOf readRom then .sending setting.code
  else .deaf

/-- The command at the end of the given pulse. -/
def functionCommand (heard : List Bool) (pulse : Nat) : Mode :=
  if heard = bitsOf readScratchpad then
    .sending ((setting.scratchpad pulse).bytes.flatMap bitsOf)
  else .deaf

def reset (t : Talk) : Talk := { t with mode := .rom [], pulses := t.pulses + 1 }

def slot (bit : Bool) (t : Talk) : Talk :=
  let t' := { t with pulses := t.pulses + 1 }
  match t.mode with
  | .deaf => t'
  | .rom heard =>
      if heard.length < 7 then { t' with mode := .rom (heard ++ [bit]) }
      else { t' with mode := romCommand setting (heard ++ [bit]) }
  | .function heard =>
      if heard.length < 7 then { t' with mode := .function (heard ++ [bit]) }
      else
        { t' with
          mode := functionCommand setting (heard ++ [bit]) t.pulses
          started := if heard ++ [bit] = bitsOf convertT then t.started + 1 else t.started }
  | .sending left => { t' with mode := .sending left.tail }

/-- The bit to send next: a one leaves the line alone. -/
def bit (t : Talk) : Bool :=
  match t.mode with
  | .sending (b :: _) => b
  | _ => true

/-- The slots of some bits. -/
def slots (bits : List Bool) (t : Talk) : Talk := bits.foldl (fun t bit => t.slot setting bit) t

end Talk

structure Sensor extends Talk where
  /-- It holds the line low from the first time to the second, in microseconds after
  the end of the latest pulse. -/
  pull : Nat × Nat

namespace Sensor

variable (setting : Setting)

/-- Does it hold the line low, so long after the latest pulse. -/
def holds (s : Sensor) (time : Nat) : Bool := decide (s.pull.1 ≤ time ∧ time < s.pull.2)

/-- A low pulse of `us` microseconds. -/
def hear (us : Nat) (s : Sensor) : Sensor :=
  if 480 ≤ us then ⟨s.reset, setting.presence s.pulses⟩
  else
    { toTalk := s.toTalk.slot setting (decide (us ≤ setting.sampled s.pulses))
      pull := (0, if s.bit then 0 else setting.held s.pulses - us) }

end Sensor

/-! ## The line -/

/-- The level that the master drives, how long it has been low, how long it was high
before that, and the sensor. -/
structure Net where
  driven : Bool
  lowFor : Nat
  highFor : Nat
  sensor : Sensor

namespace Net

variable (setting : Setting)

/-- The master lets the line go.  Short pulses are lost while the sensor holds it. -/
def rise (net : Net) : Net :=
  if net.lowFor = 0 then { net with driven := true }
  else
    { driven := true
      lowFor := 0
      highFor := 0
      sensor :=
        if net.lowFor < 480 ∧ net.sensor.holds net.highFor then net.sensor
        else net.sensor.hear setting net.lowFor }

def act (net : Net) : LineOp → Net
  | .output => { net with driven := false }
  | .input => net.rise setting
  | .value high => if high then net.rise setting else { net with driven := false }
  | .udelay us =>
      if net.driven then { net with highFor := net.highFor + us }
      else { net with lowFor := net.lowFor + us }

/-- The line is high when nobody holds it low. -/
def level (net : Net) : Bool := net.driven && !net.sensor.holds net.highFor

end Net

/-- A module on this line: the samples are those of the line. -/
def wired (setting : Setting) : Handler Op Reply (World × Net)
  | .line a, s => ((), s.1, s.2.act setting a)
  | .sample, s => (s.2.level, s)
  | .load c, s => (s.1.memory c, s)
  | .store c v, s => ((), (machine (.store c v) s.1).2, s.2)
  | .move dst src, s => ((), (machine (.move dst src) s.1).2, s.2)
  | .copyToUser, s => ((machine .copyToUser s.1).1, (machine .copyToUser s.1).2, s.2)

/-- Nobody holds the line low, and the sensor is so far. -/
structure Net.At (net : Net) (talk : Talk) : Prop where
  released : net.driven = true
  high : net.lowFor = 0
  free : net.sensor.pull.2 ≤ net.highFor
  talk_eq : net.sensor.toTalk = talk

variable {setting : Setting} {w : World} {net : Net} {talk : Talk}
  {started pulses : Nat}

@[simp] theorem run_line_wired (a : LineOp) (w : World) (net : Net) :
    (line a).run (wired setting) (w, net) = ((), w, net.act setting a) := rfl

@[simp] theorem run_sample_wired (w : World) (net : Net) :
    sample.run (wired setting) (w, net) = (net.level, w, net) := rfl

/-! ## Pulses -/

theorem holds_of_over {s : Sensor} {time : Nat} (h : s.pull.2 ≤ time) : s.holds time = false :=
  decide_eq_false fun hpull => absurd hpull.2 (Nat.not_lt.mpr h)

/-- A pulse that starts when the sensor does not hold the line is heard. -/
theorem rise_of_free {lowFor highFor : Nat} {sensor : Sensor} (hlow : 0 < lowFor)
    (hfree : sensor.pull.2 ≤ highFor) :
    Net.rise setting ⟨false, lowFor, highFor, sensor⟩ =
      ⟨true, 0, 0, sensor.hear setting lowFor⟩ := by
  unfold Net.rise
  rw [if_neg (Nat.pos_iff_ne_zero.mp hlow)]
  dsimp only
  rw [if_neg fun hlost => by rw [holds_of_over hfree] at hlost; cases hlost.2]

/-- The line stays free. -/
theorem Net.At.udelay (h : net.At talk) (us : Nat) : (net.act setting (.udelay us)).At talk := by
  obtain ⟨driven, lowFor, highFor, sensor⟩ := net
  cases driven with
  | true => exact ⟨rfl, h.high, Nat.le_trans h.free (Nat.le_add_right _ _), h.talk_eq⟩
  | false => cases h.released

/-- A long pulse is heard at any time. -/
theorem rise_of_long {lowFor highFor : Nat} {sensor : Sensor} (hlong : 480 ≤ lowFor) :
    Net.rise setting ⟨false, lowFor, highFor, sensor⟩ =
      ⟨true, 0, 0, sensor.reset, setting.presence sensor.pulses⟩ := by
  unfold Net.rise
  rw [if_neg (by dsimp only; omega)]
  dsimp only
  rw [if_neg fun hlost => absurd hlost.1 (Nat.not_lt.mpr hlong), Sensor.hear, if_pos hlong]

/-- What a slot of `us` microseconds does to the sensor. -/
theorem hear_slot {us : Nat} (h : us < 480) (s : Sensor) :
    s.hear setting us =
      ⟨s.toTalk.slot setting (decide (us ≤ setting.sampled s.pulses)), 0,
        if s.bit then 0 else setting.held s.pulses - us⟩ :=
  if_neg (Nat.not_le.mpr h)

/-! ## The driver's signals -/

variable (setting)

/-- A one is heard, and the line is free after it. -/
theorem at_hear_one (h : net.At talk) :
    (⟨true, 0, 66, net.sensor.hear setting 1⟩ : Net).At (talk.slot setting true) := by
  have hearly := setting.early net.sensor.pulses
  have hreleased := setting.released net.sensor.pulses
  have hbit : decide (1 ≤ setting.sampled net.sensor.pulses) = true :=
    decide_eq_true (by omega)
  rw [← h.talk_eq, hear_slot (by decide), hbit]
  refine ⟨rfl, rfl, ?_, rfl⟩
  dsimp only
  split <;> omega

/-- So is a zero. -/
theorem at_hear_zero (h : net.At talk) :
    (⟨true, 0, 1, net.sensor.hear setting 66⟩ : Net).At (talk.slot setting false) := by
  have hlate := setting.late net.sensor.pulses
  have hreleased := setting.released net.sensor.pulses
  have hbit : decide (66 ≤ setting.sampled net.sensor.pulses) = false :=
    decide_eq_false (by omega)
  rw [← h.talk_eq, hear_slot (by decide), hbit]
  refine ⟨rfl, rfl, ?_, rfl⟩
  dsimp only
  split <;> omega

/-- The slot of a bit that is written. -/
theorem run_writeBits_wired_succ (n : Nat) (byte : Byte) (w : World) (h : net.At talk) :
    ∃ net', (writeBits (n + 1) byte).run (wired setting) (w, net) =
        (writeBits n (byte >>> 1)).run (wired setting) (w, net') ∧
      net'.At (talk.slot setting (byte.getLsbD 0)) := by
  have hbit := and_one_ne_zero byte
  have hheard := h
  obtain ⟨driven, lowFor, highFor, sensor⟩ := net
  obtain ⟨-, hhigh, hfree, -⟩ := h
  obtain rfl : lowFor = 0 := hhigh
  rw [writeBits]
  simp only [Prog.run_bind, run_line_wired, Prog.run_ite]
  cases hlow : byte.getLsbD 0 with
  | true =>
      refine ⟨_, ?_, at_hear_one setting hheard⟩
      rw [if_pos (hbit.mpr hlow)]
      have hrise : Net.rise setting ⟨false, 1, highFor, sensor⟩ = _ :=
        rise_of_free (by decide) hfree
      change (writeBits n (byte >>> 1)).run (wired setting)
        (w, (((Net.rise setting ⟨false, 1, highFor, sensor⟩).act setting (.udelay 65)).act setting
          (.value true)).act setting (.udelay 1)) = _
      rw [hrise]
      rfl
  | false =>
      refine ⟨_, ?_, at_hear_zero setting hheard⟩
      rw [if_neg fun hne => Bool.false_ne_true (hlow.symm.trans (hbit.mp hne))]
      have hrise : Net.rise setting ⟨false, 66, highFor, sensor⟩ = _ :=
        rise_of_free (by decide) hfree
      change (writeBits n (byte >>> 1)).run (wired setting)
        (w, (Net.rise setting ⟨false, 66, highFor, sensor⟩).act setting (.udelay 1)) = _
      rw [hrise]
      rfl

theorem run_writeBits_wired (n : Nat) (byte : Byte) (w : World) (h : net.At talk) :
    ∃ net', (writeBits n byte).run (wired setting) (w, net) = ((), w, net') ∧
      net'.At (talk.slots setting ((List.range n).map byte.getLsbD)) := by
  induction n generalizing byte net talk with
  | zero => exact ⟨net, rfl, h⟩
  | succ n ih =>
      obtain ⟨net₁, hslot, hnet₁⟩ := run_writeBits_wired_succ setting n byte w h
      obtain ⟨net', hrest, hnet'⟩ := ih (byte >>> 1) hnet₁
      rw [bits_succ]
      exact ⟨net', hslot.trans hrest, hnet'⟩

/-- A byte is eight slots. -/
theorem run_ds18b20WriteByte_wired (byte : Byte) (w : World) (h : net.At talk) :
    ∃ net', (ds18b20WriteByte byte).run (wired setting) (w, net) = ((), w, net') ∧
      net'.At (talk.slots setting (bitsOf byte)) := by
  -- the line is low from the output on, and the first bit makes it low again
  have hsame : (ds18b20WriteByte byte).run (wired setting) (w, net) =
      (writeBits 8 byte).run (wired setting) (w, net) := rfl
  rw [hsame]
  exact run_writeBits_wired setting 8 byte w h

/-- A reset is heard whatever the sensor is doing, and the sensor has let the line go
a while after it. -/
theorem run_ds18b20Reset_wired (hhigh : net.lowFor = 0) (w : World) :
    ∃ r net', ds18b20Reset.run (wired setting) (w, net) = (r, w, net') ∧
      (net'.act setting (.udelay 100)).At net.sensor.reset := by
  obtain ⟨driven, lowFor, highFor, sensor⟩ := net
  obtain rfl : lowFor = 0 := hhigh
  obtain ⟨last, hlast⟩ : ∃ last, last = (((((((Net.act setting ⟨driven, 0, highFor, sensor⟩
      .output).act setting (.value true)).act setting (.udelay 100)).act setting
      (.value false)).act setting (.udelay 600)).act setting (.value true)).act setting
      (.udelay 100)).act setting .input := ⟨_, rfl⟩
  have hrun : ds18b20Reset.run (wired setting) (w, ⟨driven, 0, highFor, sensor⟩) =
      (if last.level then 1 else 0, w, last) := by
    unfold ds18b20Reset
    simp only [Prog.run_bind, run_line_wired]
    rw [← hlast, run_sample_wired]
    dsimp only
    rw [Prog.run_ite]
    split <;> rfl
  have hrise : Net.rise setting ⟨false, 600, highFor + 100, sensor⟩ = _ :=
    rise_of_long (by decide)
  have hpresence : last = ⟨true, 0, 100, sensor.reset, setting.presence sensor.pulses⟩ := by
    rw [hlast]
    change ((Net.rise setting ⟨false, 600, highFor + 100, sensor⟩).act setting
      (.udelay 100)).act setting .input = _
    rw [hrise]
    rfl
  refine ⟨_, last, hrun, ?_⟩
  rw [hpresence]
  exact ⟨rfl, rfl, setting.gone _, rfl⟩

/-! ## Reading -/

end At91Drivers.Ds18b20
