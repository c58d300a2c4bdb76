import At91Drivers.Ds18b20.Driver
import Mathlib.Data.List.Basic

/-!
# What a read of the sensor does

A call takes 75 samples from the line, three in the resets and eight for each
byte of the frame.  The frame decides by its CRC alone: a good one is saved, a bad
one leaves what was saved, and the user gets the saved pair either way.

```text
samples  0 1 2 | 3 … 10 | 11 … 18 | … | 67 … 74
         reset   byte 0   byte 1        byte 8
```
-/

namespace At91Drivers.Ds18b20

open Effects Kernel

variable {w : World} {n i : Nat}

/-- The machine with the first `n` samples gone. -/
def World.skip (w : World) (n : Nat) : World := { w with samples := fun k => w.samples (k + n) }

/-- The machine with the buffers `mem`. -/
def World.holding (w : World) (mem : Memory) : World := { w with memory := mem }

@[simp] theorem skip_skip (w : World) (a b : Nat) : (w.skip a).skip b = w.skip (b + a) := by
  unfold World.skip
  simp only [Nat.add_assoc]

/-- The byte whose bits are the samples from `k` on. -/
def byteAt (samples : Nat → Bool) (k : Nat) : Byte :=
  ((List.range 8).map fun b => samples (k + b)).foldl shiftIn 0

/-- The frame that a call receives. -/
def frame (samples : Nat → Bool) (i : Nat) : Byte := byteAt samples (3 + 8 * i)

/-- `crc_check(j)` of the bytes `f`. -/
def crcOf (j : Nat) (f : Nat → Byte) : Byte :=
  (List.range j).foldl (fun crc i => crcEntry (crc ^^^ f i)) 0

/-! ## The line -/

@[simp] theorem run_line (a : LineOp) (w : World) : (line a).run machine w = ((), w) := rfl

@[simp] theorem run_sample (w : World) :
    sample.run machine w = (w.samples 0, w.skip 1) := rfl

@[simp] theorem run_load (c : Cell) (w : World) :
    (load c).run machine w = (w.memory c, w) := rfl

@[simp] theorem run_store (c : Cell) (v : Byte) (w : World) :
    (store c v).run machine w = ((), w.holding (w.memory.set c v)) := rfl

@[simp] theorem run_move (dst src : Cell) (w : World) :
    (move dst src).run machine w =
      ((), w.holding (w.memory.set dst (w.memory src))) := rfl

@[simp] theorem run_writeBits (n : Nat) (byte : Byte) (w : World) :
    (writeBits n byte).run machine w = ((), w) := by
  induction n generalizing byte with
  | zero => rfl
  | succ n ih =>
      simp only [writeBits, Prog.run_bind, run_line, Prog.run_ite, ite_self, ih]

@[simp] theorem run_ds18b20WriteByte (byte : Byte) (w : World) :
    (ds18b20WriteByte byte).run machine w = ((), w) := by
  simp only [ds18b20WriteByte, Prog.run_bind, run_line, run_writeBits]

theorem run_readBits (n : Nat) (byte : Byte) (w : World) :
    (readBits n byte).run machine w =
      (((List.range n).map w.samples).foldl shiftIn byte, w.skip n) := by
  induction n generalizing byte w with
  | zero => rfl
  | succ n ih =>
      simp only [readBits, Prog.run_bind, run_line, run_sample, ih, skip_skip,
        List.range_succ_eq_map, List.map_cons, List.map_map, List.foldl_cons]
      rfl

theorem run_ds18b20ReadByte (w : World) :
    ds18b20ReadByte.run machine w = (byteAt w.samples 0, w.skip 8) := by
  rw [ds18b20ReadByte, run_readBits]
  simp only [byteAt, Nat.zero_add]

@[simp] theorem run_ds18b20Reset (w : World) :
    ds18b20Reset.run machine w = (if w.samples 0 then 1 else 0, w.skip 1) := by
  simp only [ds18b20Reset, Prog.run_bind, run_line]
  rw [run_sample]
  dsimp only
  rw [Prog.run_ite]
  split <;> rfl

/-! ## The frame -/

/-- The loop over the bytes stores them from index `i` on. -/
theorem run_receive (n i : Nat) (w : World) :
    ∃ mem : Memory, (receive n i).run machine w = ((), (w.skip (8 * n)).holding mem) ∧
      (∀ j, j < n → mem (.tmpdata (i + j)) = byteAt w.samples (8 * j)) ∧
      ∀ c, (∀ j, j < n → c ≠ .tmpdata (i + j)) → mem c = w.memory c := by
  induction n generalizing i w with
  | zero => exact ⟨w.memory, rfl, fun j hj => absurd hj (Nat.not_lt_zero j), fun _ _ => rfl⟩
  | succ n ih =>
      obtain ⟨first, hfirst⟩ : ∃ first, first = w.memory.set (.tmpdata i) (byteAt w.samples 0) :=
        ⟨_, rfl⟩
      obtain ⟨mem, hrun, hbytes, hrest⟩ := ih (i + 1) ((w.skip 8).holding first)
      have hskip : ((w.skip 8).holding first).skip (8 * n) =
          (w.skip (8 * (n + 1))).holding first := by
        rw [Nat.mul_succ, ← skip_skip]
        rfl
      rw [hskip] at hrun
      refine ⟨mem, ?_, fun j hj => ?_, fun c hc => ?_⟩
      · simp only [receive, Prog.run_bind, run_ds18b20ReadByte, run_store]
        rw [show (w.skip 8).memory = w.memory from rfl, ← hfirst, hrun]
        rfl
      · cases j with
        | zero =>
            -- the later bytes go to later indices
            have hkept := hrest (.tmpdata (i + 0)) fun j _ h => by
              injection h
              omega
            rw [hkept, hfirst]
            exact if_pos rfl
        | succ j =>
            have hbyte := hbytes j (Nat.lt_of_succ_lt_succ hj)
            rw [Nat.add_right_comm, Nat.add_assoc] at hbyte
            rw [hbyte, Nat.mul_succ]
            simp only [byteAt, World.skip, World.holding, Nat.add_right_comm]
      · have hkept := hrest c fun j hj h => hc (j + 1) (Nat.succ_lt_succ hj) (by
          rw [h, Nat.add_right_comm, Nat.add_assoc])
        rw [hkept, hfirst]
        exact if_neg (hc 0 (Nat.succ_pos n))

/-- Reset three times and receive: `tmpdata` is the frame, `lastdata` is kept. -/
theorem run_ds18b20Proc (w : World) :
    ∃ mem : Memory, ds18b20Proc.run machine w = ((), (w.skip 75).holding mem) ∧
      (∀ j, j < 9 → mem (.tmpdata j) = frame w.samples j) ∧ mem.saved = w.memory.saved := by
  obtain ⟨mem, hrun, hbytes, hrest⟩ := run_receive 9 0 (w.skip 3)
  rw [skip_skip] at hrun
  refine ⟨mem, ?_, fun j hj => ?_, ?_⟩
  · simp only [ds18b20Proc, Prog.run_bind, run_ds18b20Reset, run_line, run_ds18b20WriteByte,
      skip_skip, hrun]
  · have hbyte := hbytes j hj
    rw [Nat.zero_add] at hbyte
    rw [hbyte]
    simp only [frame, byteAt, World.skip, Nat.add_comm, Nat.add_left_comm]
  · exact Prod.ext (hrest _ fun _ _ h => by cases h) (hrest _ fun _ _ h => by cases h)

theorem run_crcLoop (n i : Nat) (crc : Byte) (w : World) :
    (crcLoop n i crc).run machine w =
      ((List.range' i n).foldl (fun crc i => crcEntry (crc ^^^ w.memory (.tmpdata i))) crc, w) := by
  induction n generalizing i crc with
  | zero => rfl
  | succ n ih =>
      simp only [crcLoop, Prog.run_bind, run_load, ih, List.range'_succ, List.foldl_cons]

theorem run_crcCheck (j : Nat) (w : World) :
    (crcCheck j).run machine w = (crcOf j fun i => w.memory (.tmpdata i), w) := by
  rw [crcCheck, run_crcLoop, crcOf, List.range_eq_range']

/-- Only the first `j` bytes count. -/
theorem crcOf_congr {j : Nat} {f g : Nat → Byte} (h : ∀ i, i < j → f i = g i) :
    crcOf j f = crcOf j g := by
  unfold crcOf
  apply List.foldl_ext
  intro crc i hi
  rw [h i (List.mem_range.mp hi)]

/-! ## The branches -/

theorem run_keepFrame (w : World) :
    ∃ mem : Memory, keepFrame.run machine w = ((), w.holding mem) ∧
      mem.pair = (w.memory (.tmpdata 1), w.memory (.tmpdata 0)) ∧ mem.saved = mem.pair :=
  ⟨_, rfl, rfl, rfl⟩

theorem run_useSaved (w : World) :
    ∃ mem : Memory, useSaved.run machine w = ((), w.holding mem) ∧
      mem.pair = w.memory.saved ∧ mem.saved = w.memory.saved :=
  ⟨_, rfl, rfl, rfl⟩

theorem run_handOver (w : World) :
    handOver.run machine w =
      (if w.uncopied ≠ 0 then -EFAULT else 0,
        { w with user := if w.uncopied = 0 then w.memory.pair else w.torn }) := by
  have hcopy : copyToUser.run machine w =
      (w.uncopied, { w with user := if w.uncopied = 0 then w.memory.pair else w.torn }) := rfl
  simp only [handOver, Prog.run_bind, hcopy, Prog.run_ite, Prog.run_pure]
  split <;> rfl

/-- The pair that a frame leaves saved. -/
def reading (f : Nat → Byte) (saved : Byte × Byte) : Byte × Byte :=
  if crcOf 9 f = 0 then (f 1, f 0) else saved

/-- After the check the pair that goes to the user is the saved one. -/
theorem run_conclude (crc : Byte) (w : World) :
    ∃ mem : Memory, (conclude crc).run machine w =
        (if w.uncopied ≠ 0 then -EFAULT else 0,
          { w.holding mem with user := if w.uncopied = 0 then mem.saved else w.torn }) ∧
      mem.saved = if crc = 0 then (w.memory (.tmpdata 1), w.memory (.tmpdata 0))
        else w.memory.saved := by
  unfold conclude
  by_cases hgood : crc = 0
  · obtain ⟨mem, hkeep, hpair, hkept⟩ := run_keepFrame w
    refine ⟨mem, ?_, ?_⟩
    · rw [if_pos hgood, Prog.run_bind, hkeep, run_handOver, hkept]
      rfl
    · rw [if_pos hgood, hkept, hpair]
  · obtain ⟨mem, huse, hpair, hkept⟩ := run_useSaved w
    refine ⟨mem, ?_, ?_⟩
    · rw [if_neg hgood, Prog.run_bind, huse, run_handOver, hkept, ← hpair]
      rfl
    · rw [if_neg hgood, hkept]

/-- A call hands over the pair that its frame leaves saved. -/
theorem run_ds18b20Read (w : World) :
    ∃ mem : Memory, ds18b20Read.run machine w =
        (if w.uncopied ≠ 0 then -EFAULT else 0,
          { (w.skip 75).holding mem with
            user := if w.uncopied = 0 then mem.saved else w.torn }) ∧
      mem.saved = reading (frame w.samples) w.memory.saved := by
  obtain ⟨received, hproc, hframe, hsaved⟩ := run_ds18b20Proc w
  have hcrc : (crcOf 9 fun i => ((w.skip 75).holding received).memory (.tmpdata i)) =
      crcOf 9 (frame w.samples) := crcOf_congr hframe
  have hfirst : ((w.skip 75).holding received).memory (.tmpdata 0) = frame w.samples 0 :=
    hframe 0 (by decide)
  have hsecond : ((w.skip 75).holding received).memory (.tmpdata 1) = frame w.samples 1 :=
    hframe 1 (by decide)
  have hkept : ((w.skip 75).holding received).memory.saved = w.memory.saved := hsaved
  obtain ⟨mem, hconclude, hmem⟩ := run_conclude (crcOf 9 (frame w.samples))
    ((w.skip 75).holding received)
  rw [hfirst, hsecond, hkept] at hmem
  refine ⟨mem, ?_, hmem⟩
  unfold ds18b20Read
  rw [Prog.run_bind, hproc, Prog.run_bind, run_crcCheck, hcrc, hconclude]
  rfl

end At91Drivers.Ds18b20
