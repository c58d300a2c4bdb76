import At91Drivers.Arith.Waveform
import At91Drivers.Ds18b20.Checksum
import Mathlib.Data.Real.Basic
import Mathlib.Tactic.Linarith

/-!
# Bytes in the slots of the wire

A written bit is a slot of 67 microseconds, low in the first and high in the
last; between them the line has the level of the bit.  A sensor samples a slot 15
to 60 microseconds after the falling edge at its start.  A read samples the line
itself, once for each bit, and shifts the samples in from the top, so that the
first one ends at the bottom.

```text
us      0    1        66   67
high  ──┐    ┌─────────────
low     └────┴── bit ──┘
```
-/

namespace At91Drivers.Ds18b20

open Arith Arith.Wave Effects

/-! ## The line as the master drives it -/

/-- The level that the master drives, and the line so far. -/
structure Line where
  high : Bool
  wave : Wave

/-- An output starts low, and an input leaves the line to its pull-up. -/
def Line.act (l : Line) : LineOp → Line
  | .output => { l with high := false }
  | .input => { l with high := true }
  | .value high => { l with high := high }
  | .udelay us => { l with wave := l.wave ++ [⟨l.high, us⟩] }

def Line.observe (l : Line) : Op → Line
  | .line a => l.act a
  | _ => l

/-- The machine, and the line beside it. -/
def probe : Handler Op Reply (World × Line) := fun e s =>
  ((machine e s.1).1, (machine e s.1).2, s.2.observe e)

/-- A line that is high. -/
def Line.idle : Line := ⟨true, []⟩

/-- Consecutive calls of `ds18b20_write_byte`. -/
def writeBytes : List Byte → Wire Unit
  | [] => pure ()
  | b :: rest => do
      ds18b20WriteByte b
      writeBytes rest

/-- The line of these calls. -/
def written (w : World) (bytes : List Byte) : Wave :=
  ((writeBytes bytes).run probe (w, Line.idle)).2.2.wave

/-- Consecutive calls of `ds18b20_read_byte`. -/
def readBytes : Nat → Wire (List Byte)
  | 0 => pure []
  | n + 1 => do
      let b ← ds18b20ReadByte
      let rest ← readBytes n
      pure (b :: rest)

/-- What these calls return. -/
def received (w : World) (l : Line) (n : Nat) : List Byte := ((readBytes n).run probe (w, l)).1

variable {w : World} {l : Line} {n : Nat}

/-- The line does not change what the machine does. -/
theorem run_probe {α : Type} (p : Wire α) (w : World) (l : Line) :
    (p.run probe (w, l)).1 = (p.run machine w).1 ∧
      (p.run probe (w, l)).2.1 = (p.run machine w).2 := by
  induction p generalizing w l with
  | pure a => exact ⟨rfl, rfl⟩
  | op e k ih => exact ih _ _ _

/-! ## Writing -/

/-- The slot of a bit. -/
def slot (b : Bool) : Wave := [⟨false, 1⟩, ⟨b, 65⟩, ⟨true, 1⟩]

theorem lineCode_slot : LineCode slot 67 (15 : ℝ) 60 := by
  constructor
  · norm_num
  · norm_num
  · intro b
    rfl
  · intro b
    rfl
  · intro b
    cases b <;> rfl
  · intro b t hlo hhi
    have hfirst : ¬ t < (1 : Nat) := by
      push_cast
      linarith
    have hsecond : t - (1 : Nat) < (65 : Nat) := by
      push_cast
      linarith
    rw [slot, levelAt, if_neg hfirst, levelAt, if_pos hsecond]

theorem and_one_ne_zero (byte : Byte) : byte &&& 0x01 ≠ 0 ↔ byte.getLsbD 0 = true := by
  revert byte
  decide

/-- The lowest bit, then the others. -/
theorem bits_succ (n : Nat) (byte : Byte) :
    (List.range (n + 1)).map byte.getLsbD =
      byte.getLsbD 0 :: (List.range n).map (byte >>> 1).getLsbD := by
  rw [List.range_succ_eq_map, List.map_cons, List.map_map]
  congr 1
  apply List.map_congr_left
  intro i _
  rw [BitVec.getLsbD_ushiftRight, Nat.add_comm]
  rfl

@[simp] theorem run_line_probe (a : LineOp) (w : World) (l : Line) :
    (line a).run probe (w, l) = ((), w, l.act a) := rfl

/-- One round of the loop draws the slot of the lowest bit. -/
theorem run_writeBits_succ (n : Nat) (byte : Byte) (w : World) (l : Line) :
    (writeBits (n + 1) byte).run probe (w, l) =
      (writeBits n (byte >>> 1)).run probe
        (w, ⟨true, l.wave ++ slot (byte.getLsbD 0)⟩) := by
  have hbit := and_one_ne_zero byte
  rw [writeBits]
  simp only [Prog.run_bind, run_line_probe, Prog.run_ite]
  cases hlow : byte.getLsbD 0 with
  | true =>
      rw [if_pos (hbit.mpr hlow)]
      simp [Line.act, slot]
  | false =>
      rw [if_neg fun hne => Bool.false_ne_true (hlow.symm.trans (hbit.mp hne))]
      simp [Line.act, slot]

theorem run_writeBits_probe (n : Nat) (byte : Byte) (w : World) (wave : Wave) :
    (writeBits n byte).run probe (w, ⟨true, wave⟩) =
      ((), w, ⟨true, wave ++ ((List.range n).map byte.getLsbD).flatMap slot⟩) := by
  induction n generalizing byte wave with
  | zero => rw [List.range_zero, List.map_nil, List.flatMap_nil, List.append_nil]; rfl
  | succ n ih =>
      rw [run_writeBits_succ, ih, bits_succ, List.flatMap_cons, List.append_assoc]

/-- The byte starts low for no time at all, and ends high. -/
theorem run_ds18b20WriteByte_probe (byte : Byte) (w : World) (l : Line) :
    (ds18b20WriteByte byte).run probe (w, l) =
      ((), w, ⟨true, l.wave ++ (bitsOf byte).flatMap slot⟩) := by
  unfold ds18b20WriteByte
  rw [Prog.run_bind, run_line_probe, run_writeBits_succ, run_writeBits_probe]
  have hbits : bitsOf byte = byte.getLsbD 0 :: (List.range 7).map (byte >>> 1).getLsbD :=
    bits_succ 7 byte
  rw [hbits, List.flatMap_cons, ← List.append_assoc]
  rfl

theorem run_writeBytes_probe (bytes : List Byte) (w : World) (wave : Wave) :
    (writeBytes bytes).run probe (w, ⟨true, wave⟩) =
      ((), w, ⟨true, wave ++ (bytes.flatMap bitsOf).flatMap slot⟩) := by
  induction bytes generalizing wave with
  | nil =>
      rw [List.flatMap_nil, List.flatMap_nil, List.append_nil]
      rfl
  | cons b rest ih =>
      rw [writeBytes, Prog.run_bind, run_ds18b20WriteByte_probe]
      dsimp only
      rw [ih, List.flatMap_cons, List.flatMap_append, List.append_assoc]

/-- The line of some bytes is the slots of their bits. -/
theorem written_eq (w : World) (bytes : List Byte) :
    written w bytes = (bytes.flatMap bitsOf).flatMap slot := by
  unfold written Line.idle
  rw [run_writeBytes_probe, List.nil_append]

theorem length_flatMap_bitsOf (bytes : List Byte) :
    (bytes.flatMap bitsOf).length = 8 * bytes.length := by
  induction bytes with
  | nil => rfl
  | cons b rest ih =>
      rw [List.flatMap_cons, List.length_append, length_bitsOf, ih, List.length_cons]
      omega

/-! ## Reading -/

/-- The bits of the byte move down by one, and the sample comes in at the top. -/
theorem bitsOf_shiftIn (byte : Byte) (high : Bool) :
    bitsOf (shiftIn byte high) = (bitsOf byte ++ [high]).drop 1 := by
  revert byte high
  decide +kernel

/-- Of the bits of the byte and the samples, the last eight are left. -/
theorem bitsOf_foldl_shiftIn (samples : List Bool) (byte : Byte) :
    bitsOf (samples.foldl shiftIn byte) = (bitsOf byte ++ samples).drop samples.length := by
  induction samples generalizing byte with
  | nil => rw [List.append_nil]; rfl
  | cons high rest ih =>
      rw [List.foldl_cons, ih, bitsOf_shiftIn]
      have hdrop : (bitsOf byte ++ [high]).drop 1 ++ rest =
          (bitsOf byte ++ high :: rest).drop 1 := by
        simp [List.drop_append]
      rw [hdrop, List.drop_drop, Nat.add_comm]
      rfl

theorem bitsOf_byteAt (samples : Nat → Bool) (k : Nat) :
    bitsOf (byteAt samples k) = (List.range 8).map fun b => samples (k + b) := by
  unfold byteAt
  rw [bitsOf_foldl_shiftIn]
  exact List.drop_left

theorem bitsOf_injective : Function.Injective bitsOf := by
  intro a b h
  have hbits := List.map_inj_left.mp h
  apply BitVec.eq_of_getLsbD_eq
  intro i hi
  exact hbits i (List.mem_range.mpr hi)

theorem flatMap_bitsOf_injective {bytes bytes' : List Byte}
    (h : bytes.flatMap bitsOf = bytes'.flatMap bitsOf) : bytes = bytes' := by
  have hlen := congrArg List.length h
  rw [length_flatMap_bitsOf, length_flatMap_bitsOf] at hlen
  induction bytes generalizing bytes' with
  | nil => exact (List.length_eq_zero_iff.mp (by simpa using hlen.symm)).symm
  | cons b rest ih =>
      cases bytes' with
      | nil => cases hlen
      | cons b' rest' =>
          rw [List.flatMap_cons, List.flatMap_cons] at h
          obtain ⟨hfirst, hrest⟩ := List.append_inj h rfl
          have hlen' : 8 * rest.length = 8 * rest'.length := by
            simp only [List.length_cons] at hlen
            omega
          rw [bitsOf_injective hfirst, ih hrest hlen']

theorem byteAt_skip (w : World) (n k : Nat) :
    byteAt (w.skip n).samples k = byteAt w.samples (n + k) := by
  have hsamples (b : Nat) : (w.skip n).samples (k + b) = w.samples (n + k + b) :=
    congrArg w.samples (by omega)
  simp only [byteAt, hsamples]

theorem run_readBytes (n : Nat) (w : World) :
    (readBytes n).run machine w =
      ((List.range n).map fun i => byteAt w.samples (8 * i), w.skip (8 * n)) := by
  induction n generalizing w with
  | zero => rfl
  | succ n ih =>
      have hlater : ((List.range n).map fun i => byteAt (w.skip 8).samples (8 * i)) =
          (List.range n).map fun i => byteAt w.samples (8 * (i + 1)) := by
        apply List.map_congr_left
        intro i _
        rw [byteAt_skip, Nat.mul_succ, Nat.add_comm]
      rw [readBytes, Prog.run_bind, run_ds18b20ReadByte]
      dsimp only
      rw [Prog.run_bind, ih, skip_skip, hlater, List.range_succ_eq_map, List.map_cons, List.map_map]
      rfl

theorem received_eq (w : World) (l : Line) (n : Nat) :
    received w l n = (List.range n).map fun i => byteAt w.samples (8 * i) := by
  rw [received, (run_probe _ w l).1, run_readBytes]

/-- The bits of the bytes are the samples. -/
theorem flatMap_received (w : World) (l : Line) (n : Nat) :
    (received w l n).flatMap bitsOf = (List.range (8 * n)).map w.samples := by
  rw [received_eq]
  induction n with
  | zero => rfl
  | succ n ih =>
      rw [List.range_succ, List.map_append, List.flatMap_append, ih, Nat.mul_succ, List.range_add,
        List.map_append, List.map_map]
      simp [bitsOf_byteAt]

/-! ## There and back -/

/-- The samples to come are these bits. -/
def Sends (w : World) (bits : List Bool) : Prop :=
  ∀ k (hk : k < bits.length), w.samples k = bits[k]

theorem map_samples {bits : List Bool} (h : Sends w bits) :
    (List.range bits.length).map w.samples = bits := by
  apply List.ext_getElem
  · simp
  · intro k hk hk'
    simpa using h k hk'

/-- Samples of written bytes, one in the window of every slot, are their bits;
bits that are read are those of the bytes that they are read as, and of no
others. -/
theorem bytes_survive_slots (w : World) :
    (∀ bytes : List Byte, (falls true 0 (written w bytes)).length = 8 * bytes.length ∧
      ∀ d : Nat → ℝ, (∀ k < 8 * bytes.length, 15 ≤ d k ∧ d k ≤ 60) →
        ((falls true 0 (written w bytes)).mapIdx fun k (t : Nat) =>
          levelAt true (written w bytes) (t + d k)) = bytes.flatMap bitsOf) ∧
    (∀ (bits : List Bool) (n : Nat) (l : Line), bits.length = 8 * n → Sends w bits →
      ∀ bytes, bytes.flatMap bitsOf = bits ↔ bytes = received w l n) ∧
    ∀ (bytes : List Byte) (l : Line), Sends w (bytes.flatMap bitsOf) →
      received w l bytes.length = bytes := by
  have hread (bits : List Bool) (n : Nat) (l : Line) (hlen : bits.length = 8 * n)
      (hbits : Sends w bits) : (received w l n).flatMap bitsOf = bits := by
    rw [flatMap_received, ← hlen, map_samples hbits]
  refine ⟨fun bytes => ⟨?_, fun d hd => ?_⟩, fun bits n l hlen hbits bytes => ?_,
    fun bytes l hbytes => ?_⟩
  · rw [written_eq, lineCode_slot.falls_flatMap, List.length_map, List.length_range,
      length_flatMap_bitsOf]
  · rw [written_eq]
    rw [← length_flatMap_bitsOf] at hd
    exact lineCode_slot.sampled _ hd
  · constructor
    · intro h
      apply flatMap_bitsOf_injective
      calc bytes.flatMap bitsOf = bits := h
        _ = (received w l n).flatMap bitsOf := (hread bits n l hlen hbits).symm
    · rintro rfl
      exact hread bits n l hlen hbits
  · exact flatMap_bitsOf_injective (hread _ _ l (length_flatMap_bitsOf bytes) hbytes)

/-- A command that is sampled 30 microseconds into each slot, and a read of a line
that is stuck low. -/
theorem bytes_survive_slots_scratchpad :
    ((falls true 0 (written stuckLow [readScratchpad])).mapIdx fun _ (t : Nat) =>
        levelAt true (written stuckLow [readScratchpad]) ((t : ℝ) + 30)) =
      [readScratchpad].flatMap bitsOf ∧
    received stuckLow Line.idle 1 = [0] := by
  have hwindow : ∀ k < 8 * [readScratchpad].length, (15 : ℝ) ≤ 30 ∧ (30 : ℝ) ≤ 60 :=
    fun _ _ => ⟨by norm_num, by norm_num⟩
  have hlow : Sends stuckLow ([(0 : Byte)].flatMap bitsOf) := by
    unfold Sends
    decide
  exact ⟨((bytes_survive_slots stuckLow).1 [readScratchpad]).2 (fun _ => 30) hwindow,
    (bytes_survive_slots stuckLow).2.2 [0] Line.idle hlow⟩

end At91Drivers.Ds18b20
