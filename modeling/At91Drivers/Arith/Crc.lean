import Mathlib.Tactic.Common
import Mathlib.Tactic.Ring

/-!
# Cyclic redundancy checks

A check register of `w` bits takes in a message bit by bit, lowest bit first,
and folds the polynomial in whenever the bit that leaves it differs from the one
that comes in.  The register is linear, so an error pattern is seen just when the
pattern alone leaves the register other than zero.  A polynomial with its top bit
set catches every pattern in a window of `w` bits; one with an invariant parity
catches every pattern of odd weight.

```text
bits    0 … 0  e₀ … e₇  0 … 0
from 0  0 … 0  not 0 …  not 0
```
-/

namespace At91Drivers.Arith

variable {w : Nat} (poly : BitVec w)

/-- One bit into the register. -/
def feed (r : BitVec w) (b : Bool) : BitVec w :=
  if r.getLsbD 0 ^^ b then (r >>> 1) ^^^ poly else r >>> 1

/-- A message into the register. -/
def register (bits : List Bool) (r : BitVec w) : BitVec w := bits.foldl (feed poly) r

variable {poly} {bits : List Bool} {r s : BitVec w} {b c : Bool}

@[simp] theorem register_nil : register poly [] r = r := rfl

@[simp] theorem register_cons : register poly (b :: bits) r = register poly bits (feed poly r b) :=
  rfl

theorem register_append (xs ys : List Bool) :
    register poly (xs ++ ys) r = register poly ys (register poly xs r) := List.foldl_append

/-! ## Linearity -/

theorem feed_xor : feed poly (r ^^^ s) (b ^^ c) = feed poly r b ^^^ feed poly s c := by
  have hlow : ((r ^^^ s).getLsbD 0 ^^ (b ^^ c)) = ((r.getLsbD 0 ^^ b) ^^ (s.getLsbD 0 ^^ c)) := by
    rw [BitVec.getLsbD_xor]
    cases r.getLsbD 0 <;> cases s.getLsbD 0 <;> cases b <;> cases c <;> rfl
  unfold feed
  rw [hlow, BitVec.ushiftRight_xor_distrib]
  cases r.getLsbD 0 ^^ b <;> cases s.getLsbD 0 ^^ c
  · rfl
  · exact BitVec.xor_assoc _ _ _
  · change (r >>> 1) ^^^ (s >>> 1) ^^^ poly = (r >>> 1) ^^^ poly ^^^ (s >>> 1)
    rw [BitVec.xor_assoc, BitVec.xor_comm (s >>> 1), ← BitVec.xor_assoc]
  · change (r >>> 1) ^^^ (s >>> 1) = (r >>> 1) ^^^ poly ^^^ ((s >>> 1) ^^^ poly)
    rw [BitVec.xor_comm (s >>> 1) poly, ← BitVec.xor_assoc, BitVec.xor_assoc (r >>> 1) poly poly,
      BitVec.xor_self, BitVec.xor_zero]

theorem register_xor {xs ys : List Bool} (hlen : xs.length = ys.length) :
    register poly (List.zipWith xor xs ys) (r ^^^ s) =
      register poly xs r ^^^ register poly ys s := by
  induction xs generalizing ys r s with
  | nil =>
      cases ys with
      | nil => rfl
      | cons y ys => cases hlen
  | cons x xs ih =>
      cases ys with
      | nil => cases hlen
      | cons y ys =>
          rw [List.zipWith_cons_cons, register_cons, feed_xor, register_cons, register_cons]
          exact ih (Nat.succ.inj hlen)

theorem zipWith_zeros (bits : List Bool) :
    List.zipWith xor (List.replicate bits.length false) bits = bits := by
  induction bits with
  | nil => rfl
  | cons b bits ih =>
      rw [List.length_cons, List.replicate_succ, List.zipWith_cons_cons, ih, Bool.false_xor]

/-- What is in the register and what comes in add up. -/
theorem register_split (bits : List Bool) (r s : BitVec w) :
    register poly bits (r ^^^ s) =
      register poly (List.replicate bits.length false) r ^^^ register poly bits s := by
  rw [← register_xor (List.length_replicate), zipWith_zeros]

/-! ## The way back -/

section Top

variable (hpoly : poly.msb = true)

include hpoly

/-- When the register holds a bit less than all of its bits, the last step only
shifted it. -/
theorem feed_of_msb (hmsb : (feed poly r b).msb = false) :
    r.getLsbD 0 = b ∧ feed poly r b = r >>> 1 := by
  have hpos : 0 < w := by
    rcases Nat.eq_zero_or_pos w with rfl | hpos
    · exact absurd hpoly (by rw [BitVec.eq_nil poly]; decide)
    · exact hpos
  have hshift : (r >>> 1).msb = false := by
    rw [BitVec.msb_ushiftRight]
    rfl
  unfold feed at hmsb ⊢
  cases hfold : r.getLsbD 0 ^^ b with
  | true =>
      rw [hfold, if_pos rfl, BitVec.msb_xor, hshift, hpoly] at hmsb
      cases hmsb
  | false => exact ⟨by simpa using hfold, rfl⟩

/-- A register that at most `w` bits bring to zero held just these bits. -/
theorem eq_of_register_zero (hlen : bits.length ≤ w) (hzero : register poly bits r = 0#w) :
    r.toNat < 2 ^ bits.length ∧ ∀ i (hi : i < bits.length), r.getLsbD i = bits[i] := by
  induction bits generalizing r with
  | nil =>
      rw [register_nil] at hzero
      subst hzero
      exact ⟨by simp, fun i hi => absurd hi (Nat.not_lt_zero i)⟩
  | cons b rest ih =>
      have hlen' : rest.length < w := hlen
      obtain ⟨hlt, hbits⟩ := ih (Nat.le_of_lt hlen') hzero
      have hmsb : (feed poly r b).msb = false := by
        rw [BitVec.msb_eq_false_iff_two_mul_lt]
        have hpow : 2 ^ (rest.length + 1) ≤ 2 ^ w := Nat.pow_le_pow_right (by decide) hlen'
        rw [Nat.pow_succ] at hpow
        omega
      obtain ⟨hfirst, hshift⟩ := feed_of_msb hpoly hmsb
      rw [hshift] at hlt hbits
      constructor
      · rw [BitVec.toNat_ushiftRight, Nat.shiftRight_eq_div_pow, Nat.pow_one] at hlt
        rw [List.length_cons, Nat.pow_succ]
        omega
      · intro i hi
        cases i with
        | zero => exact hfirst
        | succ i =>
            have hbit := hbits i (Nat.lt_of_succ_lt_succ hi)
            rw [BitVec.getLsbD_ushiftRight, Nat.add_comm] at hbit
            exact hbit

omit hpoly in
/-- The bits of the register itself, the lowest first, only shift it. -/
theorem register_own (hbits : ∀ i (hi : i < bits.length), r.getLsbD i = bits[i]) :
    register poly bits r = r >>> bits.length := by
  induction bits generalizing r with
  | nil => rfl
  | cons b rest ih =>
      have hfirst : r.getLsbD 0 = b := hbits 0 (Nat.succ_pos _)
      have hstep : feed poly r b = r >>> 1 := by
        unfold feed
        rw [hfirst, Bool.xor_self, if_neg Bool.false_ne_true]
      have hrest : ∀ i (hi : i < rest.length), (r >>> 1).getLsbD i = rest[i] := by
        intro i hi
        rw [BitVec.getLsbD_ushiftRight, Nat.add_comm]
        exact hbits (i + 1) (Nat.succ_lt_succ hi)
      rw [register_cons, hstep, ih hrest, ← BitVec.shiftRight_add, Nat.add_comm, List.length_cons]

/-- A full width of bits brings the register to zero just when it held them. -/
theorem register_eq_zero_iff (hlen : bits.length = w) :
    register poly bits r = 0#w ↔ ∀ i (hi : i < bits.length), r.getLsbD i = bits[i] := by
  constructor
  · intro hzero
    exact (eq_of_register_zero hpoly hlen.le hzero).2
  · intro hbits
    rw [register_own hbits, hlen]
    exact BitVec.ushiftRight_eq_zero le_rfl

/-- A pattern in a window of the width of the register is seen. -/
theorem register_window_ne (hlen : bits.length ≤ w) (htrue : true ∈ bits) :
    register poly bits 0#w ≠ 0#w := by
  intro hzero
  obtain ⟨i, hi, hbit⟩ := List.getElem_of_mem htrue
  have hheld := (eq_of_register_zero hpoly hlen hzero).2 i hi
  rw [hbit, BitVec.getLsbD_zero] at hheld
  cases hheld

/-- Zeros leave a register zero only if it was. -/
theorem register_zeros_ne (hr : r ≠ 0#w) (n : Nat) :
    register poly (List.replicate n false) r ≠ 0#w := by
  induction n generalizing r with
  | zero => exact hr
  | succ n ih =>
      rw [List.replicate_succ, register_cons]
      apply ih
      intro hzero
      have hpos : 0 < w := Nat.pos_of_ne_zero fun hw => hr (by subst hw; exact BitVec.eq_nil r)
      have hlen : [false].length ≤ w := hpos
      obtain ⟨hlt, hbit⟩ := eq_of_register_zero hpoly hlen hzero
      have hlow := hbit 0 Nat.one_pos
      apply hr
      apply BitVec.eq_of_toNat_eq
      rw [BitVec.getLsbD, Nat.testBit_zero] at hlow
      have hodd : ¬ r.toNat % 2 = 1 := of_decide_eq_false hlow
      have htwo : r.toNat < 2 := hlt
      rw [BitVec.toNat_ofNat, Nat.zero_mod]
      omega

/-- The register that a set bit brings to zero is 1. -/
theorem feed_true_ne (hpos : 0 < w) (hr : r ≠ 1#w) : feed poly r true ≠ 0#w := by
  intro hzero
  have hlen : [true].length ≤ w := hpos
  obtain ⟨hlt, hbit⟩ := eq_of_register_zero hpoly hlen hzero
  have hlow := hbit 0 Nat.one_pos
  apply hr
  apply BitVec.eq_of_toNat_eq
  rw [BitVec.getLsbD, Nat.testBit_zero] at hlow
  have hodd : r.toNat % 2 = 1 := of_decide_eq_true hlow
  have htwo : r.toNat < 2 := hlt
  have hone : 1 < 2 ^ w := Nat.one_lt_two_pow (Nat.ne_of_gt hpos)
  rw [BitVec.toNat_ofNat, Nat.mod_eq_of_lt hone]
  omega

end Top

/-! ## Patterns -/

theorem register_zeros (n : Nat) : register poly (List.replicate n false) 0#w = 0#w := by
  induction n with
  | zero => rfl
  | succ n ih =>
      have hstep : feed poly 0#w false = 0#w := by simp [feed]
      rw [List.replicate_succ, register_cons, hstep, ih]

/-- Zeros before the first set bit do not matter. -/
theorem register_first (n : Nat) (rest : List Bool) :
    register poly (List.replicate n false ++ true :: rest) 0#w = register poly rest poly := by
  have hstep : feed poly 0#w true = poly := by simp [feed]
  rw [register_append, register_zeros, register_cons, hstep]

theorem eq_replicate_of_count (h : bits.count true = 0) :
    bits = List.replicate bits.length false := by
  refine List.eq_replicate_iff.mpr ⟨rfl, fun b hb => ?_⟩
  cases b with
  | false => rfl
  | true => exact absurd hb (List.count_eq_zero.mp h)

/-- The first set bit of a pattern. -/
theorem exists_first {n : Nat} (h : bits.count true = n + 1) :
    ∃ a rest, bits = List.replicate a false ++ true :: rest ∧ rest.count true = n := by
  induction bits with
  | nil => cases h
  | cons b bits ih =>
      cases b with
      | true => exact ⟨0, bits, rfl, by simpa using h⟩
      | false =>
          obtain ⟨a, rest, hbits, hcount⟩ := ih (by simpa using h)
          exact ⟨a + 1, rest, by rw [hbits]; rfl, hcount⟩

theorem eq_replicate_of_getElem (h : ∀ i (hi : i < bits.length), bits[i] ≠ true) :
    bits = List.replicate bits.length false := by
  apply eq_replicate_of_count
  apply List.count_eq_zero.mpr
  intro htrue
  obtain ⟨i, hi, hbit⟩ := List.getElem_of_mem htrue
  exact h i hi hbit

/-- A pattern in a window of the width of the register is seen, wherever it is. -/
theorem register_burst_ne (hpoly : poly.msb = true) (htrue : true ∈ bits) (start : Nat)
    (hwindow : ∀ i (hi : i < bits.length), bits[i] = true → start ≤ i ∧ i < start + w) :
    register poly bits 0#w ≠ 0#w := by
  have hbefore : bits.take start = List.replicate (bits.take start).length false := by
    apply eq_replicate_of_getElem
    intro i hi hbit
    rw [List.getElem_take] at hbit
    rw [List.length_take] at hi
    have hin := hwindow i (by omega) hbit
    omega
  have hbehind : (bits.drop start).drop w =
      List.replicate ((bits.drop start).drop w).length false := by
    apply eq_replicate_of_getElem
    intro i hi hbit
    rw [List.getElem_drop, List.getElem_drop] at hbit
    rw [List.length_drop, List.length_drop] at hi
    have hin := hwindow (start + (w + i)) (by omega) hbit
    omega
  have hsplit : bits =
      bits.take start ++ ((bits.drop start).take w ++ (bits.drop start).drop w) := by
    rw [List.take_append_drop, List.take_append_drop]
  have hmiddle : true ∈ (bits.drop start).take w := by
    rw [hsplit, hbefore, hbehind] at htrue
    rcases List.mem_append.mp htrue with hzero | hrest
    · cases List.eq_of_mem_replicate hzero
    · rcases List.mem_append.mp hrest with hmiddle | hzero
      · exact hmiddle
      · cases List.eq_of_mem_replicate hzero
  rw [hsplit, register_append, register_append, hbefore, register_zeros, hbehind]
  apply register_zeros_ne hpoly
  exact register_window_ne hpoly (List.length_take_le w _) hmiddle

/-- Two set bits are seen when they are closer than the order of the polynomial. -/
theorem register_pair_ne (hpoly : poly.msb = true) {n : Nat}
    (horder : ∀ d < n, register poly (List.replicate d false) poly ≠ 1#w)
    (hcount : bits.count true = 2) (hlen : bits.length ≤ n) : register poly bits 0#w ≠ 0#w := by
  obtain ⟨a, rest, rfl, hrest⟩ := exists_first hcount
  obtain ⟨d, last, rfl, hlast⟩ := exists_first hrest
  have hd : d < n := by
    simp only [List.length_append, List.length_replicate, List.length_cons] at hlen
    omega
  have hpos : 0 < w := Nat.pos_of_ne_zero fun hw => by
    subst hw
    rw [BitVec.eq_nil poly] at hpoly
    exact absurd hpoly (by decide)
  rw [register_first, register_append, register_cons, eq_replicate_of_count hlast]
  exact register_zeros_ne hpoly (feed_true_ne hpoly hpos (horder d hd)) _

/-- A parity that every step keeps: that of the register and the bits together. -/
theorem parity_register (parity : BitVec w → Bool)
    (hparity : ∀ r b, parity (feed poly r b) = (parity r ^^ b)) (bits : List Bool) (r : BitVec w) :
    parity (register poly bits r) = (parity r ^^ decide (bits.count true % 2 = 1)) := by
  induction bits generalizing r with
  | nil => simp
  | cons b bits ih =>
      rw [register_cons, ih, hparity, Bool.xor_assoc]
      cases b with
      | false => simp
      | true =>
          have hflip : decide ((bits.count true + 1) % 2 = 1) =
              !decide (bits.count true % 2 = 1) := by
            by_cases hodd : bits.count true % 2 = 1
            · rw [decide_eq_true hodd, decide_eq_false (by omega)]
              rfl
            · rw [decide_eq_false hodd, decide_eq_true (by omega)]
              rfl
          rw [List.count_cons_self, hflip, Bool.true_xor]

end At91Drivers.Arith
