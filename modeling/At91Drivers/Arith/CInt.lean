import Mathlib.Tactic.Common
import Mathlib.Tactic.Ring

/-!
# C integer conversions

Integer values are `Nat` and `Int`; a conversion to a fixed width of a 32-bit
machine is written out: `u32` and `u64` to the unsigned types (a `Nat` below
the modulus), `i32` and `i64` to the signed ones, in two's complement.  They are
irreducible: a computation runs them in the kernel, a proof uses the lemmas.
-/

namespace At91Drivers.Arith

/-- Conversion to `unsigned int`, `size_t`, `uint32_t`. -/
@[irreducible] def u32 (x : Int) : Nat := (x % 4294967296).toNat

/-- Conversion to `int`, `ssize_t`. -/
@[irreducible] def i32 (x : Int) : Int := (x + 2147483648) % 4294967296 - 2147483648

/-- Conversion to `uint64_t`. -/
@[irreducible] def u64 (x : Int) : Nat := (x % 18446744073709551616).toNat

/-- Conversion to `long long`, `loff_t`. -/
@[irreducible] def i64 (x : Int) : Int :=
  (x + 9223372036854775808) % 18446744073709551616 - 9223372036854775808

theorem u32_natCast {n : Nat} (h : n < 4294967296) : u32 n = n := by
  unfold u32; omega

theorem i32_eq {x : Int} (h₁ : -2147483648 ≤ x) (h₂ : x < 2147483648) : i32 x = x := by
  unfold i32; omega

theorem i32_natCast {n : Nat} (h : n < 2147483648) : i32 n = n :=
  i32_eq (by omega) (by omega)

/-- An unsigned value that is not negative as an `int` is kept. -/
theorem i32_of_nonneg {n : Nat} (h : n < 4294967296) (hn : 0 ≤ i32 n) : i32 n = n := by
  unfold i32 at *; omega

/-- An unsigned value is not negative as an `int` below 2 GiB. -/
theorem i32_nonneg_iff {n : Nat} (h : n < 4294967296) : 0 ≤ i32 n ↔ n < 2147483648 := by
  unfold i32; omega

theorem u64_natCast {n : Nat} (h : n < 18446744073709551616) : u64 n = n := by
  unfold u64; omega

theorem i64_eq {x : Int} (h₁ : -9223372036854775808 ≤ x) (h₂ : x < 9223372036854775808) :
    i64 x = x := by
  unfold i64; omega

theorem i64_natCast {n : Nat} (h : n < 9223372036854775808) : i64 n = n :=
  i64_eq (by omega) (by omega)

theorem u32_lt (x : Int) : u32 x < 4294967296 := by
  unfold u32; omega

theorem u32_natCast_le (n : Nat) : u32 n ≤ n := by
  unfold u32; omega

theorem u64_natCast_le (n : Nat) : u64 n ≤ n := by
  unfold u64; omega

theorem i64_lt (x : Int) : i64 x < 9223372036854775808 := by
  unfold i64; omega

/-- A remainder that went through an `int` is itself again as an unsigned. -/
@[simp] theorem u32_i32 (x : Int) : u32 (i32 x) = u32 x := by
  unfold u32 i32; omega

theorem u32_u32_sub (a x : Int) : u32 (u32 a - x) = u32 (a - x) := by
  unfold u32; omega

theorem u32_sub_i32 (a x : Int) : u32 (a - i32 x) = u32 (a - x) := by
  unfold u32 i32; omega

@[simp] theorem u32_zero : u32 0 = 0 := u32_natCast (n := 0) (by omega)

end At91Drivers.Arith
