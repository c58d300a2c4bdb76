import At91Drivers.Ds18b20.Reading

/-!
# Does a reading come from a sensor

The driver does not look at what its three resets return.  So a call without a
sensor is told from one with a sensor by the CRC of its frame alone, and the
frame of a line that is stuck low, nine zeros, has a good one.
-/

namespace At91Drivers.Ds18b20

open Effects

/-- The call replaces the saved reading: some saved reading does not survive it. -/
def Replaces (w : World) : Prop :=
  ∃ mem : Memory, (ds18b20Read.run machine (w.holding mem)).2.memory.saved ≠ mem.saved

/-- The samples of the three resets are low: each saw a presence pulse. -/
def Present (w : World) : Prop := ∀ k, k < 3 → w.samples k = false

/-- The reading comes from a sensor: it is replaced only after three presence
pulses by a frame with a good CRC, and never when the line stays at one level. -/
structure FromSensor (w : World) : Prop where
  present : Replaces w → Present w ∧ crcOf 9 (frame w.samples) = 0
  level : ∀ high, (∀ k, k < 75 → w.samples k = high) → ¬ Replaces w

/-- Only the CRC decides. -/
theorem replaces_iff (w : World) : Replaces w ↔ crcOf 9 (frame w.samples) = 0 := by
  have hsaved (mem : Memory) : (ds18b20Read.run machine (w.holding mem)).2.memory.saved =
      reading (frame w.samples) mem.saved := by
    obtain ⟨mem', hrun, hmem'⟩ := run_ds18b20Read (w.holding mem)
    rw [hrun]
    exact hmem'
  constructor
  · rintro ⟨mem, hchanged⟩
    by_contra hbad
    apply hchanged
    rw [hsaved, reading, if_neg hbad]
  · intro hgood
    -- a saved reading with another first byte
    refine ⟨fun _ => frame w.samples 1 + 1, ?_⟩
    rw [hsaved, reading, if_pos hgood]
    intro heq
    have hother : ∀ b : Byte, b ≠ b + 1 := by decide
    exact hother _ (congrArg Prod.fst heq)

/-- The reading comes from a sensor just when the CRC of the frame is bad, or the
resets saw presence pulses and some bit of the frame was high. -/
theorem fromSensor_iff (w : World) :
    FromSensor w ↔ crcOf 9 (frame w.samples) ≠ 0 ∨
      Present w ∧ ∃ k, 3 ≤ k ∧ k < 75 ∧ w.samples k = true := by
  constructor
  · intro h
    by_cases hgood : crcOf 9 (frame w.samples) = 0
    · have hreplaces := (replaces_iff w).mpr hgood
      refine .inr ⟨(h.present hreplaces).1, ?_⟩
      by_contra hnone
      refine h.level false (fun k hk => ?_) hreplaces
      by_cases hreset : k < 3
      · exact (h.present hreplaces).1 k hreset
      · by_contra hhigh
        exact hnone ⟨k, Nat.le_of_not_lt hreset, hk, eq_true_of_ne_false hhigh⟩
    · exact .inl hgood
  · intro h
    constructor
    · intro hreplaces
      have hgood := (replaces_iff w).mp hreplaces
      exact ⟨(h.resolve_left (not_not.mpr hgood)).1, hgood⟩
    · intro high hlevel hreplaces
      have hgood := (replaces_iff w).mp hreplaces
      obtain ⟨hpresent, k, -, hk, hhigh⟩ := h.resolve_left (not_not.mpr hgood)
      rw [hlevel k hk, ← hlevel 0 (by decide), hpresent 0 (by decide)] at hhigh
      cases hhigh

/-- A line that is stuck low. -/
def stuckLow : World := ⟨⟨fun _ => false, (0, 0), 0, (0, 0)⟩, fun _ => 0⟩

/-- Its frame of zeros replaces the reading. -/
theorem stuckLow_replaces : ¬ ∀ w, FromSensor w := by
  intro h
  have hgood : crcOf 9 (frame stuckLow.samples) = 0 := by decide
  exact (h stuckLow).level false (fun _ _ => rfl) ((replaces_iff stuckLow).mpr hgood)

end At91Drivers.Ds18b20
