import Mathlib.Algebra.Order.Ring.Cast
import Mathlib.Algebra.Order.Group.Nat
import Mathlib.Tactic.Abel

/-!
# Waveforms

A waveform is a list of segments: a level, and for how many ticks a line has it.
A segment of no ticks is no pulse.  Time starts at 0, on a line of a given level,
and a sample may be taken at any time, not only at a tick.

A line code has a slot for each bit.  When a slot falls once, at its start, goes
back to high, and has the level of its bit in a window, then a list of bits makes
one falling edge for each, and one sample in each window gives the bits back.

```text
ticks   0    lo ……… hi    width
high  ──┐    ┌───────┐   ┌──
low     └────┴── b ──┴───┘
```
-/

namespace At91Drivers.Arith

structure Segment where
  high : Bool
  ticks : Nat
deriving DecidableEq

abbrev Wave := List Segment

namespace Wave

def duration : Wave → Nat
  | [] => 0
  | s :: rest => s.ticks + duration rest

/-- The level that a line has after a segment. -/
def after (high : Bool) (s : Segment) : Bool := if s.ticks = 0 then high else s.high

/-- The level that a line has after a waveform. -/
def ending (high : Bool) : Wave → Bool
  | [] => high
  | s :: rest => ending (after high s) rest

/-- The times of the falling edges of a waveform that starts at `t`. -/
def falls (high : Bool) (t : Nat) : Wave → List Nat
  | [] => []
  | s :: rest =>
      if high && !after high s then
        t :: falls (after high s) (t + s.ticks) rest
      else
        falls (after high s) (t + s.ticks) rest

/-- The level at a time. -/
def levelAt {K : Type} [Sub K] [NatCast K] [LT K] [DecidableLT K] (high : Bool) : Wave → K → Bool
  | [], _ => high
  | s :: rest, t => if t < s.ticks then s.high else levelAt (after high s) rest (t - s.ticks)

/-! ## One waveform after another -/

variable {high : Bool} {u v : Wave}

theorem falls_append (high : Bool) (t : Nat) (u v : Wave) :
    falls high t (u ++ v) = falls high t u ++ falls (ending high u) (t + duration u) v := by
  induction u generalizing high t with
  | nil => rfl
  | cons s rest ih =>
      have hrest := ih (after high s) (t + s.ticks)
      rw [Nat.add_assoc] at hrest
      simp only [List.cons_append, falls, ending, duration, hrest]
      split
      · rfl
      · rfl

/-- Later by `t`. -/
theorem falls_shift (high : Bool) (t t' : Nat) (u : Wave) :
    falls high (t + t') u = (falls high t' u).map (t + ·) := by
  induction u generalizing high t' with
  | nil => rfl
  | cons s rest ih =>
      simp only [falls, Nat.add_assoc, ih]
      split
      · rfl
      · rfl

section Time

variable {K : Type} [Ring K] [LinearOrder K] [IsStrictOrderedRing K]

theorem levelAt_append_left {t : K} (hpos : 0 ≤ t) (ht : t < duration u) :
    levelAt high (u ++ v) t = levelAt high u t := by
  induction u generalizing high t with
  | nil =>
      rw [duration, Nat.cast_zero] at ht
      exact absurd hpos (not_le_of_gt ht)
  | cons s rest ih =>
      rw [duration, Nat.cast_add] at ht
      rw [List.cons_append, levelAt, levelAt]
      split
      · rfl
      · rename_i hlater
        exact ih (sub_nonneg_of_le (le_of_not_gt hlater)) (sub_lt_iff_lt_add'.mpr ht)

theorem levelAt_append_right {t : K} (ht : duration u ≤ t) :
    levelAt high (u ++ v) t = levelAt (ending high u) v (t - duration u) := by
  induction u generalizing high t with
  | nil => rw [duration, Nat.cast_zero, sub_zero, List.nil_append, ending]
  | cons s rest ih =>
      rw [duration, Nat.cast_add] at ht
      have hrest : (duration rest : K) ≤ t - s.ticks := le_sub_iff_add_le'.mpr ht
      have hlater : ¬ t < s.ticks :=
        not_lt_of_ge ((le_add_of_nonneg_right (Nat.cast_nonneg _)).trans ht)
      rw [List.cons_append, levelAt, if_neg hlater, ih hrest, duration, ending, Nat.cast_add,
        sub_sub]

end Time

end Wave

/-! ## Line codes -/

open Wave

/-- The slots of a line code: `width` ticks each, from a high line to a high
line, one fall at the start, and the level of the bit from `lo` to `hi`. -/
structure LineCode {K : Type} [Ring K] [LinearOrder K] (slot : Bool → Wave) (width : Nat)
    (lo hi : K) : Prop where
  lo_nonneg : 0 ≤ lo
  hi_lt : hi < width
  slotDuration : ∀ b, duration (slot b) = width
  slotEnding : ∀ b, ending true (slot b) = true
  slotFalls : ∀ b, falls true 0 (slot b) = [0]
  slotLevel : ∀ b t, lo ≤ t → t ≤ hi → levelAt true (slot b) t = b

namespace LineCode

variable {K : Type} [Ring K] [LinearOrder K] [IsStrictOrderedRing K] {slot : Bool → Wave}
  {width : Nat} {lo hi : K}

omit [IsStrictOrderedRing K] in
/-- One falling edge for each bit. -/
theorem falls_flatMap (h : LineCode slot width lo hi) (bits : List Bool) :
    falls true 0 (bits.flatMap slot) = (List.range bits.length).map (width * ·) := by
  induction bits with
  | nil => rfl
  | cons b rest ih =>
      have hlater : falls true width (rest.flatMap slot) =
          (falls true 0 (rest.flatMap slot)).map (width + ·) := falls_shift true width 0 _
      rw [List.flatMap_cons, falls_append, h.slotFalls, h.slotEnding, h.slotDuration, Nat.zero_add,
        hlater, ih, List.length_cons, List.range_succ_eq_map, List.map_cons, List.map_map,
        List.map_map]
      have hshift : (width + ·) ∘ (width * ·) = (width * ·) ∘ Nat.succ := by
        funext k
        exact (Nat.add_comm _ _).trans (Nat.mul_succ width k).symm
      rw [hshift]
      rfl

/-- In the window of a slot the line has the level of its bit. -/
theorem level_flatMap (h : LineCode slot width lo hi) (bits : List Bool) {k : Nat}
    (hk : k < bits.length) {d : K} (hlo : lo ≤ d) (hhi : d ≤ hi) :
    levelAt true (bits.flatMap slot) ((width * k : Nat) + d) = bits[k] := by
  have hd : 0 ≤ d := h.lo_nonneg.trans hlo
  induction bits generalizing k with
  | nil => exact absurd hk (Nat.not_lt_zero k)
  | cons b rest ih =>
      rw [List.flatMap_cons]
      cases k with
      | zero =>
          have hin : d < duration (slot b) := by
            rw [h.slotDuration]
            exact hhi.trans_lt h.hi_lt
          rw [Nat.mul_zero, Nat.cast_zero, zero_add, levelAt_append_left hd hin]
          exact h.slotLevel b d hlo hhi
      | succ k =>
          have hsplit : ((width * (k + 1) : Nat) : K) + d = width + ((width * k : Nat) + d) := by
            rw [Nat.mul_succ, Nat.cast_add]
            abel
          have hnonneg : (0 : K) ≤ (width * k : Nat) + d := add_nonneg (Nat.cast_nonneg _) hd
          have hpast : (duration (slot b) : K) ≤ width + ((width * k : Nat) + d) := by
            rw [h.slotDuration]
            exact le_add_of_nonneg_right hnonneg
          rw [hsplit, levelAt_append_right hpast, h.slotDuration, h.slotEnding, add_sub_cancel_left]
          exact ih (Nat.lt_of_succ_lt_succ hk)

/-- One sample in each window gives the bits back. -/
theorem sampled (h : LineCode slot width lo hi) (bits : List Bool) {d : Nat → K}
    (hd : ∀ k < bits.length, lo ≤ d k ∧ d k ≤ hi) :
    ((falls true 0 (bits.flatMap slot)).mapIdx fun k (t : Nat) =>
      levelAt true (bits.flatMap slot) (t + d k)) = bits := by
  rw [h.falls_flatMap]
  apply List.ext_getElem
  · simp
  · intro k hk hk'
    obtain ⟨hlo, hhi⟩ := hd k hk'
    simpa using h.level_flatMap bits hk' hlo hhi

end LineCode

end At91Drivers.Arith
