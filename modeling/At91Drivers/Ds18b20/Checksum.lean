import At91Drivers.Ds18b20.Presence
import At91Drivers.Arith.Crc

/-!
# What the CRC of a frame catches

`CrcTable` holds the bit-serial CRC of every byte, for the polynomial
x⁸ + x⁵ + x⁴ + 1.  So `crc_check` is the register of the 72 bits of the frame in
wire order, and an error is missed just when its bits alone leave the register
zero.

* The polynomial has an even number of terms: the register has the parity of
  the message, so an odd number of flipped bits is seen.
* Its order is more than 72: two flipped bits are seen.
* It has degree 8: flipped bits in a window of 8 are seen.
-/

namespace At91Drivers.Ds18b20

open Arith Effects

/-- x⁸ + x⁵ + x⁴ + 1, reflected: bit `7 - i` is the coefficient of xⁱ. -/
def dallas : Byte := 0x8c

/-- The bits of a byte as they come on the wire, the lowest first. -/
def bitsOf (b : Byte) : List Bool := (List.range 8).map b.getLsbD

/-- The bits of the first `n` bytes. -/
def wireBits (n : Nat) (f : Nat → Byte) : List Bool :=
  (List.range n).flatMap fun i => bitsOf (f i)

variable {f e : Nat → Byte}

/-! ## The table -/

@[simp] theorem length_bitsOf (b : Byte) : (bitsOf b).length = 8 := rfl

/-- An entry of the table is its index after eight steps without input. -/
theorem crcEntry_eq (x : Byte) :
    crcEntry x = register dallas (List.replicate 8 false) x := by
  revert x
  decide +kernel

/-- Eight bits from an empty register are eight steps from the byte. -/
theorem register_bitsOf (b : Byte) :
    register dallas (bitsOf b) 0#8 = register dallas (List.replicate 8 false) b := by
  revert b
  decide +kernel

/-- One step of `crc_check` takes in the bits of a byte. -/
theorem crcEntry_xor (crc b : Byte) :
    crcEntry (crc ^^^ b) = register dallas (bitsOf b) crc := by
  calc crcEntry (crc ^^^ b) = register dallas (List.replicate 8 false) (crc ^^^ b) :=
        crcEntry_eq _
    _ = register dallas (List.replicate 8 false) crc ^^^
          register dallas (List.replicate 8 false) b := register_split _ _ _
    _ = register dallas (List.replicate 8 false) crc ^^^ register dallas (bitsOf b) 0#8 := by
        rw [register_bitsOf]
    _ = register dallas (bitsOf b) (crc ^^^ 0#8) := (register_split (bitsOf b) crc 0#8).symm
    _ = register dallas (bitsOf b) crc := by rw [BitVec.xor_zero]

/-! ## The frame -/

theorem wireBits_succ (n : Nat) (f : Nat → Byte) :
    wireBits (n + 1) f = wireBits n f ++ bitsOf (f n) := by
  simp [wireBits, List.range_succ]

@[simp] theorem length_wireBits (n : Nat) (f : Nat → Byte) : (wireBits n f).length = 8 * n := by
  induction n with
  | zero => rfl
  | succ n ih => rw [wireBits_succ, List.length_append, ih, length_bitsOf, Nat.mul_succ]

/-- `crc_check` is the register of the bits on the wire. -/
theorem crcOf_eq (n : Nat) (f : Nat → Byte) : crcOf n f = register dallas (wireBits n f) 0#8 := by
  induction n with
  | zero => rfl
  | succ n ih =>
      have hstep : crcOf (n + 1) f = crcEntry (crcOf n f ^^^ f n) := by
        simp [crcOf, List.range_succ]
      rw [hstep, crcEntry_xor, ih, wireBits_succ, register_append]

theorem bitsOf_xor (a b : Byte) : bitsOf (a ^^^ b) = List.zipWith xor (bitsOf a) (bitsOf b) := by
  simp [bitsOf]

theorem wireBits_xor (n : Nat) (f e : Nat → Byte) :
    (wireBits n fun i => f i ^^^ e i) = List.zipWith xor (wireBits n f) (wireBits n e) := by
  induction n with
  | zero => rfl
  | succ n ih =>
      rw [wireBits_succ, wireBits_succ, wireBits_succ, ih, bitsOf_xor, List.zipWith_append]
      simp

/-- The CRC of a frame with an error is that of the frame and that of the error. -/
theorem crcOf_xor (n : Nat) (f e : Nat → Byte) :
    (crcOf n fun i => f i ^^^ e i) = crcOf n f ^^^ crcOf n e := by
  have hlen : (wireBits n f).length = (wireBits n e).length := by simp
  rw [crcOf_eq, crcOf_eq, crcOf_eq, wireBits_xor, ← register_xor hlen, BitVec.xor_self]

/-! ## The bit-serial check -/

theorem dallas_msb : dallas.msb = true := by decide

/-- The bits of these bytes through the register, the lowest bit of each first. -/
def serialCrc (bytes : List Byte) : Byte := register dallas (bytes.flatMap bitsOf) 0#8

/-- The first `j` bytes of `tmpdata`. -/
def Memory.received (mem : Memory) (j : Nat) : List Byte :=
  (List.range j).map fun i => mem (.tmpdata i)

theorem serialCrc_received (j : Nat) (mem : Memory) :
    serialCrc (mem.received j) = crcOf j fun i => mem (.tmpdata i) := by
  rw [crcOf_eq, serialCrc, Memory.received, List.flatMap_map, wireBits]

/-- A byte brings the register to zero just when the register holds this byte. -/
theorem register_bitsOf_eq_zero_iff (crc b : Byte) :
    register dallas (bitsOf b) crc = 0#8 ↔ b = crc := by
  rw [register_eq_zero_iff dallas_msb (length_bitsOf b)]
  constructor
  · intro hbits
    apply BitVec.eq_of_getLsbD_eq
    intro i hi
    rw [hbits i hi]
    simp [bitsOf]
  · rintro rfl i hi
    simp [bitsOf]

/-- `crc_check` is the bit-serial CRC, and a frame passes just when its last byte
is the CRC of the others. -/
theorem crcCheck_bit_serial (w : World) :
    (∀ j ≤ 9, ((crcCheck j).run machine w).1 = serialCrc (w.memory.received j)) ∧
      (((crcCheck 9).run machine w).1 = 0#8 ↔
        w.memory (.tmpdata 8) = serialCrc (w.memory.received 8)) := by
  refine ⟨fun j _ => ?_, ?_⟩
  · rw [run_crcCheck, serialCrc_received]
  · have hlast : (crcOf 9 fun i => w.memory (.tmpdata i)) =
        register dallas (bitsOf (w.memory (.tmpdata 8))) (serialCrc (w.memory.received 8)) := by
      rw [serialCrc_received, crcOf_eq, crcOf_eq, wireBits_succ, register_append]
    rw [run_crcCheck]
    dsimp only
    rw [hlast, register_bitsOf_eq_zero_iff]

/-- The frame of a line that is stuck low. -/
theorem crcCheck_bit_serial_stuckLow :
    ((crcCheck 9).run machine stuckLow).1 = serialCrc (stuckLow.memory.received 9) :=
  (crcCheck_bit_serial stuckLow).1 9 le_rfl

/-! ## Errors -/

/-- The parity of a register. -/
def parity (r : Byte) : Bool := decide ((bitsOf r).count true % 2 = 1)

theorem parity_feed (r : Byte) (b : Bool) : parity (feed dallas r b) = (parity r ^^ b) := by
  revert r b
  decide +kernel

theorem odd_ne_zero (h : (wireBits 9 e).count true % 2 = 1) : crcOf 9 e ≠ 0#8 := by
  intro hzero
  have hparity := parity_register parity parity_feed (wireBits 9 e) 0#8
  rw [← crcOf_eq, hzero, decide_eq_true h] at hparity
  exact absurd hparity (by decide)

/-- The order of the polynomial is more than the number of bits of a frame. -/
theorem dallas_order : ∀ d < 72, register dallas (List.replicate d false) dallas ≠ 1#8 := by
  decide +kernel

theorem two_ne_zero (h : (wireBits 9 e).count true = 2) : crcOf 9 e ≠ 0#8 := by
  rw [crcOf_eq]
  exact register_pair_ne dallas_msb dallas_order h (Nat.le_of_eq (length_wireBits 9 e))

/-- At most three flipped bits. -/
theorem few_ne_zero (hset : true ∈ wireBits 9 e) (h : (wireBits 9 e).count true ≤ 3) :
    crcOf 9 e ≠ 0#8 := by
  have hpos := List.count_pos_iff.mpr hset
  by_cases htwo : (wireBits 9 e).count true = 2
  · exact two_ne_zero htwo
  · exact odd_ne_zero (by omega)

/-- Flipped bits in a window of eight. -/
theorem burst_ne_zero (hset : true ∈ wireBits 9 e) {start : Nat}
    (h : ∀ i (hi : i < (wireBits 9 e).length), (wireBits 9 e)[i] = true →
      start ≤ i ∧ i < start + 8) : crcOf 9 e ≠ 0#8 := by
  rw [crcOf_eq]
  exact register_burst_ne dallas_msb hset start h

/-- A good frame with such an error is not good, and a call does not accept it. -/
theorem corrupted_frame_rejected (hgood : crcOf 9 f = 0#8) (hset : true ∈ wireBits 9 e)
    (herror : (wireBits 9 e).count true ≤ 3 ∨ (wireBits 9 e).count true % 2 = 1 ∨
      ∃ start, ∀ i (hi : i < (wireBits 9 e).length), (wireBits 9 e)[i] = true →
        start ≤ i ∧ i < start + 8) :
    (∀ w : World, (∀ i, i < 9 → w.memory (.tmpdata i) = f i ^^^ e i) →
      ((crcCheck 9).run machine w).1 ≠ 0#8) ∧
      ∀ w : World, (∀ i, i < 9 → frame w.samples i = f i ^^^ e i) → ¬ Replaces w := by
  have herr : crcOf 9 e ≠ 0#8 := by
    rcases herror with hfew | hodd | ⟨start, hwindow⟩
    · exact few_ne_zero hset hfew
    · exact odd_ne_zero hodd
    · exact burst_ne_zero hset hwindow
  have hbad : (crcOf 9 fun i => f i ^^^ e i) ≠ 0#8 := by
    rwa [crcOf_xor, hgood, BitVec.zero_xor]
  constructor
  · intro w hw
    rw [run_crcCheck, crcOf_congr hw]
    exact hbad
  · intro w hw hreplaces
    apply hbad
    rw [← crcOf_congr hw]
    exact (replaces_iff w).mp hreplaces

/-- The lowest bit of byte 0 of a frame of zeros. -/
theorem corrupted_frame_rejected_zeros :
    (∀ w : World, (∀ i, i < 9 → w.memory (.tmpdata i) = 0#8 ^^^ if i = 0 then 1#8 else 0#8) →
      ((crcCheck 9).run machine w).1 ≠ 0#8) ∧
      ∀ w : World, (∀ i, i < 9 → frame w.samples i = 0#8 ^^^ if i = 0 then 1#8 else 0#8) →
        ¬ Replaces w :=
  corrupted_frame_rejected (by decide) (by decide) (.inl (by decide))

end At91Drivers.Ds18b20
