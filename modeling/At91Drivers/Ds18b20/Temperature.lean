import At91Drivers.Ds18b20.Checksum

/-!
# From the sensor to the decoded temperature

The sensor sends the temperature in sixteenths of a degree, in two's complement,
the low byte first.  The driver hands the pair over with the high byte first, and
`temp_calculate` of the demo turns it into sign, degrees and tenths:

```text
bit 15   bits 14 … 8   bits 7 … 0
sign     degrees       tenths
```

It negates in two bytes.  The carry into the high byte is a case of its own, and
the sign is the bit 3 that the shift by four moves to the top.
-/

namespace At91Drivers.Ds18b20

open Arith Effects

/-! ## The demo -/

/-- `TempX_TAB`. -/
def tempXTab : List Byte :=
  [0x00, 0x01, 0x01, 0x02, 0x03, 0x03, 0x04, 0x04, 0x05, 0x06, 0x06, 0x07, 0x08, 0x08, 0x09, 0x09]

/-- The two bytes as they are after the branch for negative temperatures. -/
def magnitude (tempHigh tempLow : Byte) : Byte × Byte :=
  if tempHigh &&& 0x80 ≠ 0 then
    if ~~~tempLow + 1 = 0 then
      ((~~~tempHigh ||| 0x08) + 1, ~~~tempLow + 1)
    else
      (~~~tempHigh ||| 0x08, ~~~tempLow + 1)
  else
    (tempHigh, tempLow)

/-- Degrees and tenths of these two bytes, in one word. -/
def packed (tempHigh tempLow : Byte) : Int :=
  let whole : Byte := (tempHigh <<< 4) + ((tempLow &&& 0xf0) >>> 4)
  let tenths : Byte := tempXTab.getD (tempLow &&& 0x0f).toNat 0
  (((whole.setWidth 32) <<< 8) ||| tenths.setWidth 32 : BitVec 32).toInt

def tempCalculate (tempHigh tempLow : Byte) : Int :=
  packed (magnitude tempHigh tempLow).1 (magnitude tempHigh tempLow).2

/-! ## What it computes -/

/-- The tenths of `n` sixteenths, rounded half up. -/
def tenthsOf (n : Nat) : Nat := (10 * n + 8) / 16

/-- The word says the temperature `t`. -/
structure Decodes (t v : Int) : Prop where
  sign : v / 32768 % 2 = 1 ↔ t < 0
  degrees : v / 256 % 128 = t.natAbs / 16
  tenths : v % 256 = tenthsOf (t.natAbs % 16)

variable {high low : Byte} {t : Int}

theorem tempXTab_eq (low : Byte) :
    (tempXTab.getD (low &&& 0x0f).toNat 0).toNat = tenthsOf (low.toNat % 16) := by
  revert low
  decide +kernel

theorem whole_eq (high low : Byte) :
    ((high <<< 4) + ((low &&& 0xf0) >>> 4)).toNat = (high.toNat * 16 + low.toNat / 16) % 256 := by
  have hnib : ((low &&& 0xf0) >>> 4).toNat = low.toNat / 16 := by
    revert low
    decide
  rw [BitVec.toNat_add, hnib, BitVec.toNat_shiftLeft, Nat.shiftLeft_eq]
  omega

/-- A byte below a multiple of 256. -/
theorem or_byte (a : Nat) (b : Byte) : a * 2 ^ 8 ||| b.toNat = a * 256 + b.toNat := by
  rw [Nat.mul_comm, ← Nat.two_pow_add_eq_or_of_lt b.isLt, Nat.mul_comm]

theorem word_eq (whole tenths : Byte) :
    (((whole.setWidth 32) <<< 8) ||| tenths.setWidth 32 : BitVec 32).toInt =
      (whole.toNat * 256 + tenths.toNat : Nat) := by
  have hnat : (((whole.setWidth 32) <<< 8) ||| tenths.setWidth 32 : BitVec 32).toNat =
      whole.toNat * 256 + tenths.toNat := by
    rw [BitVec.toNat_or, BitVec.toNat_shiftLeft, BitVec.toNat_setWidth, BitVec.toNat_setWidth,
      Nat.mod_eq_of_lt (by omega), Nat.mod_eq_of_lt (by omega), Nat.shiftLeft_eq,
      Nat.mod_eq_of_lt (by omega), or_byte]
  rw [BitVec.toInt_eq_toNat_of_lt (by omega), hnat]

theorem packed_eq (high low : Byte) :
    packed high low =
      ((high.toNat * 16 + low.toNat / 16) % 256 * 256 + tenthsOf (low.toNat % 16) : Nat) := by
  unfold packed
  rw [word_eq, whole_eq, tempXTab_eq]

theorem tenthsOf_lt (low : Byte) : tenthsOf (low.toNat % 16) < 256 := by
  unfold tenthsOf
  omega

/-- The pair in two's complement. -/
theorem toInt_pair (high low : Byte) :
    (high ++ low).toInt =
      if 128 ≤ high.toNat then (high.toNat * 256 + low.toNat : Int) - 65536
      else high.toNat * 256 + low.toNat := by
  have hnat : (high ++ low).toNat = high.toNat * 256 + low.toNat := by
    rw [BitVec.toNat_append, Nat.shiftLeft_eq, or_byte]
  rw [BitVec.toInt_eq_toNat_cond, hnat]
  split <;> split <;> omega

theorem negative_iff (high : Byte) : high &&& 0x80 ≠ 0 ↔ 128 ≤ high.toNat := by
  revert high
  decide

theorem neg_low (low : Byte) : (~~~low + 1).toNat = (256 - low.toNat) % 256 := by
  revert low
  decide

theorem neg_high (high : Byte) (h : 252 ≤ high.toNat) :
    (~~~high ||| 0x08).toNat = 255 - high.toNat + 8 := by
  revert high
  decide

/-- Down to -1024 sixteenths the negation in two bytes is the magnitude, with
the bit 3 of the high byte set. -/
theorem magnitude_neg (h : 252 ≤ high.toNat) :
    ((magnitude high low).1.toNat * 256 + (magnitude high low).2.toNat : Int) =
      2048 + (high ++ low).toInt.natAbs := by
  have hlow := neg_low low
  have hhigh := neg_high high h
  rw [toInt_pair, if_pos (by omega)]
  unfold magnitude
  rw [if_pos ((negative_iff high).mpr (by omega))]
  by_cases hcarry : ~~~low + 1 = 0
  · rw [if_pos hcarry]
    rw [hcarry] at hlow
    dsimp only
    rw [hcarry, BitVec.toNat_add, hhigh]
    change 0 = _ at hlow
    change (((255 - high.toNat + 8 + 1) % 256 : Nat) : Int) * 256 + (0 : Nat) = _
    omega
  · rw [if_neg hcarry]
    dsimp only
    rw [hlow, hhigh]
    have hne : (~~~low + 1).toNat ≠ 0 := fun h => hcarry (BitVec.eq_of_toNat_eq h)
    omega

theorem magnitude_nonneg (h : high.toNat < 128) : magnitude high low = (high, low) := by
  unfold magnitude
  rw [if_neg]
  rw [negative_iff]
  omega

theorem decodes (hlo : -880 ≤ (high ++ low).toInt) (hhi : (high ++ low).toInt ≤ 2000) :
    Decodes (high ++ low).toInt (tempCalculate high low) := by
  have hpair := toInt_pair high low
  unfold tempCalculate
  rw [packed_eq]
  by_cases hneg : 128 ≤ high.toNat
  · rw [if_pos hneg] at hpair
    have hmag : _ = 2048 + ((high ++ low).toInt.natAbs : Int) := magnitude_neg (by omega)
    have hlt := (magnitude high low).2.isLt
    obtain ⟨m, hm⟩ : ∃ m, m = magnitude high low := ⟨_, rfl⟩
    rw [← hm] at hmag hlt ⊢
    have htenths := tenthsOf_lt m.2
    have hlow : m.2.toNat % 16 = (high ++ low).toInt.natAbs % 16 := by omega
    constructor
    · omega
    · omega
    · rw [← hlow]
      omega
  · rw [if_neg hneg] at hpair
    rw [magnitude_nonneg (by omega)]
    dsimp only
    have htenths := tenthsOf_lt low
    have hlow : low.toNat % 16 = (high ++ low).toInt.natAbs % 16 := by omega
    constructor
    · omega
    · omega
    · rw [← hlow]
      omega

/-! ## The whole way -/

/-- Eight samples make the byte whose bits they are. -/
theorem foldl_bitsOf (b : Byte) : (bitsOf b).foldl shiftIn 0 = b := by
  revert b
  decide +kernel

theorem byteAt_eq {samples : Nat → Bool} {k : Nat} {b : Byte}
    (h : ∀ i < 8, samples (k + i) = b.getLsbD i) : byteAt samples k = b := by
  have hbits : ((List.range 8).map fun i => samples (k + i)) = bitsOf b :=
    List.map_congr_left fun i hi => h i (List.mem_range.mp hi)
  rw [byteAt, hbits, foldl_bitsOf]

/-- The check byte brings the register of the first eight bytes to zero. -/
theorem crcOf_nine {f : Nat → Byte} (h : f 8 = register dallas (wireBits 8 f) 0#8) :
    crcOf 9 f = 0#8 := by
  have hstep : crcOf 9 f = crcEntry (crcOf 8 f ^^^ f 8) := by
    simp [crcOf, List.range_succ]
  rw [hstep, crcOf_eq, h, BitVec.xor_self]
  rfl

/-- A scratchpad that arrives as it was sent is read, swapped and decoded to its
temperature. -/
theorem temperature_survives {w : World} {f : Nat → Byte}
    (hsent : ∀ i < 9, ∀ b < 8, w.samples (3 + 8 * i + b) = (f i).getLsbD b)
    (hcrc : f 8 = register dallas (wireBits 8 f) 0#8)
    (hlo : -880 ≤ (f 1 ++ f 0).toInt) (hhi : (f 1 ++ f 0).toInt ≤ 2000) (hcopy : w.uncopied = 0) :
    ∃ w', ds18b20Read.run machine w = (0, w') ∧
      Decodes (f 1 ++ f 0).toInt (tempCalculate w'.user.1 w'.user.2) := by
  obtain ⟨mem, hrun, hsaved⟩ := run_ds18b20Read w
  have hframe : ∀ i, i < 9 → frame w.samples i = f i := fun i hi => byteAt_eq (hsent i hi)
  have hgood : crcOf 9 (frame w.samples) = 0 := by
    rw [crcOf_congr hframe]
    exact crcOf_nine hcrc
  rw [reading, if_pos hgood, hframe 1 (by decide), hframe 0 (by decide)] at hsaved
  refine ⟨_, hrun.trans (Prod.ext (if_neg (not_not.mpr hcopy)) rfl), ?_⟩
  dsimp only
  rw [if_pos hcopy, hsaved]
  exact decodes hlo hhi

/-- The samples of a call that receives the bytes `f`. -/
def sending (f : Nat → Byte) : Nat → Bool := fun k => (f ((k - 3) / 8)).getLsbD ((k - 3) % 8)

/-- A scratchpad at -10.125 degrees, with its check byte. -/
def frost : Nat → Byte := fun i => [0x5e, 0xff, 0x4b, 0x46, 0x7f, 0xff, 0x02, 0x10, 0xb6].getD i 0

theorem temperature_survives_frost :
    ∃ w', ds18b20Read.run machine ⟨⟨sending frost, (0, 0), 0, (0, 0)⟩, fun _ => 0⟩ = (0, w') ∧
      Decodes (-162) (tempCalculate w'.user.1 w'.user.2) :=
  temperature_survives (f := frost) (by decide) (by decide +kernel) (by decide) (by decide) rfl

end At91Drivers.Ds18b20
