import At91Drivers.Effects.Crowd
import At91Drivers.Flash.GoodBlocks
import At91Drivers.Flash.Sharing

/-!
# Any number of processes on one flash

Each process has its own open file and makes calls one after the other; the
driver takes no lock, so the operations of all calls interleave.  A process may
change its memory and its ioctl argument at any time, also under a call.

Whatever fails and whatever the order: a call erases and programs only whole
blocks that it was itself told are good, so what lies in a bad block or behind
the last block stays as it is.
-/

namespace At91Drivers.Flash

open Effects Arith

variable {ι : Type} {m : Mtd} {bad : Nat → Bool}

/-! ## The processes -/

structure Machine (ι : Type) where
  caller : ι → Caller
  flash : Nat → Byte

namespace Machine

variable [DecidableEq ι]

def world (i : ι) (s : Machine ι) : World := ⟨s.caller i, s.flash⟩

def put (i : ι) (w : World) (s : Machine ι) : Machine ι :=
  ⟨Function.update s.caller i w.toCaller, w.flash⟩

@[simp] theorem flash_put (i : ι) (w : World) (s : Machine ι) : (s.put i w).flash = w.flash := rfl

end Machine

/-- What a user process may change in its own memory: everything but the
outcomes of the coming requests. -/
def Caller.Turns (c c' : Caller) : Prop :=
  c' = { c with user := c'.user, arg := c'.arg, argWritable := c'.argWritable }

theorem Caller.Turns.faultFree {c c' : Caller} (h : c.Turns c') (hc : c.FaultFree) :
    c'.FaultFree := by
  rw [h]
  exact ⟨hc.reads, hc.erases, hc.writes⟩

variable [DecidableEq ι]

/-- The device as process `i` uses it. -/
def processDevice (m : Mtd) (bad : Nat → Bool) (i : ι) : Handler Op Reply (Machine ι) :=
  (device m bad).within (Machine.world i) (Machine.put i)

/-- A process at a file position makes any call; the position that the call
leaves is the next one's. -/
def processes (ι : Type) [DecidableEq ι] (m : Mtd) :
    Crowd.Rules Op Reply (Option Ret) Int ι (Machine ι) where
  offers _ fPos job := ∃ fuel c, job = Call.body m fuel fPos c
  keeps r fPos := ∃ r', r = some r' ∧ fPos = r'.ppos
  drifts s s' := ∃ i c, (s.caller i).Turns c ∧
    s' = { s with caller := Function.update s.caller i c }

/-- A state that processes with files opened at position 0 can bring about. -/
abbrev Reached (m : Mtd) (bad : Nat → Bool) (s : Machine ι)
    (c : Crowd Op Reply (Option Ret) Int ι (Machine ι)) : Prop :=
  Crowd.Reaches (processDevice m bad) (processes ι m) (fun _ => 0) s c

theorem processDevice_sane (m : Mtd) (bad : Nat → Bool) (i : ι) :
    Prog.Obeys (processDevice m bad i) (Sane m bad) :=
  fun e s => device_sane m bad e (s.world i)

/-- The flash outside the footprint of an operation stays. -/
theorem processDevice_flash (m : Mtd) (bad : Nat → Bool) (i : ι) (e : Op) (s : Machine ι) {a : Nat}
    (ha : ¬ e.Changes a) : (processDevice m bad i e s).2.flash a = s.flash a := by
  obtain ⟨P, stored, hP, hflash⟩ := device_flash m bad e (s.caller i)
  exact (hflash s.flash a).2 fun h => ha (hP a h)

/-! ## Good blocks -/

/-- What every call keeps to: `GoodBlock` for the operations, `Placed` for the
positions. -/
def goodTerms (ι : Type) (m : Mtd) (bad : Nat → Bool) :
    Crowd.Terms Op Reply (Option Ret) Int ι where
  allow _ := Sane m bad
  ask _ := GoodBlock m bad
  post _ _ := LeavesPlaced m
  fits _ := Placed m

theorem goodTerms_hold (hsize : m.size < 4294967296) :
    (goodTerms ι m bad).Hold (processes ι m) where
  job := by
    rintro i fPos job hfits ⟨fuel, c, rfl⟩
    exact call_good hsize bad fuel hfits c
  keeps := by
    rintro i past a fPos hpost ⟨r, rfl, rfl⟩
    exact hpost r rfl

theorem placed_zero : Placed m 0 := ⟨0, rfl, by simp⟩

/-- The byte lies in a bad block, or behind the last block. -/
def OffLimits (m : Mtd) (bad : Nat → Bool) (a : Nat) : Prop :=
  bad (a / m.erasesize) = true ∨ m.blocks ≤ a / m.erasesize

theorem GoodBlock.not_changes {past : History} {e : Op} (h : GoodBlock m bad past e) {a : Nat}
    (ha : OffLimits m bad a) : ¬ e.Changes a := by
  have hrange {addr len : Nat} (hgood : ReportedGood m bad past addr len) :
      ¬ (addr ≤ a ∧ a < addr + len) := by
    obtain ⟨k, hk, rfl, rfl, -, hkgood, -⟩ := hgood
    rintro ⟨hle, hlt⟩
    have hdiv : a / m.erasesize = k :=
      Nat.div_eq_of_lt_le hle (by rw [Nat.succ_mul]; exact hlt)
    rcases ha with hbad | hout
    · rw [hdiv, hkgood] at hbad
      cases hbad
    · omega
  cases e with
  | mtdErase addr len => exact hrange h
  | mtdWrite addr len src => exact hrange h
  | _ => exact id

/-- In every run of any number of processes, whatever fails: every erase and
program is for a whole good block that the same call was told is good, and no
byte of a bad block or behind the last block ever changes. -/
theorem processes_keep_to_good_blocks (hsize : m.size < 4294967296) {s : Machine ι}
    {c : Crowd Op Reply (Option Ret) Int ι (Machine ι)} (hc : Reached m bad s c) :
    (∀ deed ∈ c.log, GoodBlock m bad deed.past deed.event.1) ∧
      ∀ a, OffLimits m bad a → c.state.flash a = s.flash a := by
  -- the invariant of the state: what is off limits is as it was
  let untouched : List (Deed Op Reply ι) → Machine ι → Prop :=
    fun _ s' => ∀ a, OffLimits m bad a → s'.flash a = s.flash a
  have hop : (goodTerms ι m bad).Preserves (processDevice m bad) untouched := by
    intro i past e log s' hflash _ hask
    refine ⟨processDevice_sane m bad i e s', fun a ha => ?_⟩
    rw [processDevice_flash m bad i e s' (GoodBlock.not_changes hask ha)]
    exact hflash a ha
  have hkept : (goodTerms ι m bad).Kept untouched c := by
    refine hc.rule (goodTerms_hold hsize) (fun _ => placed_zero) (fun _ _ => rfl) hop ?_
    rintro log s₁ s₂ hflash ⟨i, caller, -, rfl⟩
    exact hflash
  exact ⟨hkept.asked, hkept.state⟩

/-! ## A small machine -/

/-- Nothing fails, the flash is all 7, and process `i` has only `i` in its memory
and asks for four bytes at position 3. -/
def sevens : Machine Nat where
  caller i :=
    { quiet (fun _ => UInt8.ofNat i) (fun _ => 7) (fun _ => 0) with arg := some ⟨3, 4, 0⟩ }
  flash _ := 7

/-- The second block is bad. -/
def secondBad : Nat → Bool := fun b => b == 1

/-- A write by ioctl of process 2: a byte into the first block, three into the
third. -/
def writeAtThree : Driver (Option Ret) := (Call.ioctl 2).body fourBlocks 8 0

theorem exists_writeAtThree : ∃ c, Reached fourBlocks secondBad sevens c ∧
    c.party 2 = .idle 11 ∧ (∀ deed ∈ c.log, deed.party = 2) ∧
    c.state = (writeAtThree.run (processDevice fourBlocks secondBad 2) sevens).2 ∧
    c.log.map Deed.event = writeAtThree.trace (processDevice fourBlocks secondBad 2) sevens := by
  have hoffer : (processes Nat fourBlocks).offers 2 0 writeAtThree := ⟨8, .ioctl 2, rfl⟩
  have hresult : (writeAtThree.run (processDevice fourBlocks secondBad 2) sevens).1 =
      some ⟨0, 11⟩ := by decide +kernel
  obtain ⟨c, hc, hparty, hstate, -, hdeeds, hlog⟩ :
      ∃ c, Reached fourBlocks secondBad sevens c ∧ _ := Crowd.exists_alone 2 hoffer
  rw [hresult] at hparty
  exact ⟨_, hc.tail (.finish hparty ⟨_, rfl, rfl⟩), by simp [Crowd.close], hdeeds, hstate, hlog⟩

theorem processes_keep_to_good_blocks_at_three :
    ∃ c, Reached fourBlocks secondBad sevens c ∧ c.log.length = 18 ∧ c.state.flash 8 = 2 ∧
      (∀ deed ∈ c.log, GoodBlock fourBlocks secondBad deed.past deed.event.1) ∧
      ∀ a, OffLimits fourBlocks secondBad a → c.state.flash a = 7 := by
  obtain ⟨c, hc, -, -, hstate, hlog⟩ := exists_writeAtThree
  obtain ⟨hgood, hflash⟩ := processes_keep_to_good_blocks (by decide) hc
  refine ⟨c, hc, ?_, ?_, hgood, hflash⟩
  · rw [← List.length_map, hlog]
    decide +kernel
  · rw [hstate]
    decide +kernel

end At91Drivers.Flash
