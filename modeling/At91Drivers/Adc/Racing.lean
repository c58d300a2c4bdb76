import At91Drivers.Adc.Average
import Mathlib.Data.Set.Basic

/-!
# A read next to the sampler

Interrupts may come before every addition of a read, as often as they like, so
the cells it adds up need never have been in the rings together.  But each of
them was in its ring when the read began or was stored there during the read,
which is enough for the accumulators and for the bounds of the mean.
-/

namespace At91Drivers.Adc

open Arith Effects Kernel

/-- The values in the ring of channel `k`, and those that the interrupts before
the next `n` operations store there. -/
def Seen (w : World) (n k : Nat) : Set UInt16 :=
  {v | (∃ j < maxAdcSamples, v = w.rings.pbuf k j) ∨
    ∃ i < n, ∃ chr ∈ w.pending i, v = sample chr k}

variable {w : World} {k j n : Nat} {v : UInt16}

/-! ## Interrupts -/

/-- A cell keeps its value or gets a sample. -/
theorem foldl_isr_pbuf (irqs : List Registers) (s : Rings) (k j : Nat) :
    (irqs.foldl at91tc0Isr s).pbuf k j = s.pbuf k j ∨
      ∃ chr ∈ irqs, (irqs.foldl at91tc0Isr s).pbuf k j = sample chr k := by
  induction irqs generalizing s with
  | nil => exact .inl rfl
  | cons chr rest ih =>
      rw [List.foldl_cons]
      rcases ih (at91tc0Isr s chr) with hkept | ⟨chr', hmem, hsample⟩
      · rw [hkept, isr_pbuf]
        by_cases hstore : k ∈ channels ∧ j = s.appidx.toNat
        · exact .inr ⟨chr, List.mem_cons_self, if_pos hstore⟩
        · exact .inl (if_neg hstore)
      · exact .inr ⟨chr', List.mem_cons_of_mem _ hmem, hsample⟩

/-- What the rings hold after the next interrupts was seen. -/
theorem interrupt_cell (hj : j < maxAdcSamples) (w : World) (n k : Nat) :
    w.interrupt.rings.pbuf k j ∈ Seen w (n + 1) k := by
  rcases foldl_isr_pbuf (w.pending 0) w.rings k j with hkept | ⟨chr, hmem, hsample⟩
  · exact .inl ⟨j, hj, hkept⟩
  · exact .inr ⟨0, Nat.succ_pos n, chr, hmem, hsample⟩

theorem seen_interrupt (w : World) (n k : Nat) : Seen w.interrupt n k ⊆ Seen w (n + 1) k := by
  rintro v (⟨j, hj, rfl⟩ | ⟨i, hi, chr, hmem, rfl⟩)
  · exact interrupt_cell hj w n k
  · exact .inr ⟨i + 1, Nat.succ_lt_succ hi, chr, hmem, rfl⟩

/-! ## Additions -/

/-- After some additions nothing is seen that was not seen before. -/
theorem seen_run (cells : List (Nat × Nat)) (sums : Sums) (w : World) (n k : Nat) :
    Seen ((addCells cells sums).run machine w).2 n k ⊆ Seen w (cells.length + n) k := by
  induction cells generalizing sums w with
  | nil => rw [List.length_nil, Nat.zero_add]; exact subset_rfl
  | cons kj rest ih =>
      rw [run_addCells_cons, List.length_cons, Nat.add_right_comm]
      intro v hv
      apply seen_interrupt
      exact ih _ _ hv

/-- Every load is of a value that was seen. -/
theorem loads_seen {cells : List (Nat × Nat)} (hcells : ∀ kj ∈ cells, kj.2 < maxAdcSamples)
    (sums : Sums) (w : World) :
    ∀ v ∈ loads k ((addCells cells sums).trace machine w), v ∈ Seen w cells.length k := by
  induction cells generalizing sums w with
  | nil => intro v hv; exact absurd hv List.not_mem_nil
  | cons kj rest ih =>
      obtain ⟨hfirst, hrest⟩ := List.forall_mem_cons.mp hcells
      intro v hv
      rw [trace_addCells_cons] at hv
      by_cases hk : kj.1 = k
      · subst hk
        rw [loads_cell_same] at hv
        rcases List.mem_cons.mp hv with rfl | hlater
        · exact interrupt_cell hfirst w rest.length kj.1
        · exact seen_interrupt w _ _ (ih hrest _ _ v hlater)
      · rw [loads_cell_other hk] at hv
        exact seen_interrupt w _ _ (ih hrest _ _ v hv)

theorem run_addCells_append {σ : Type} (h : Handler Op Reply σ) (before later : List (Nat × Nat))
    (sums : Sums) (s : σ) :
    (addCells (before ++ later) sums).run h s =
      (addCells later ((addCells before sums).run h s).1).run h
        ((addCells before sums).run h s).2 := by
  induction before generalizing sums s with
  | nil => rfl
  | cons kj rest ih => rw [List.cons_append, run_addCells_cons, ih, ← run_addCells_cons]

/-! ## Ten bits -/

theorem seen_lt {old : Nat → Nat → UInt16} {irqs : List Registers}
    (hw : w.rings = ringsAfter old irqs) (hk : k ∈ channels) (hv : v ∈ Seen w n k) :
    v.toNat < 1024 := by
  rcases hv with ⟨j, hj, rfl⟩ | ⟨i, -, chr, -, rfl⟩
  · rw [hw]
    exact (sampled_ringsAfter old irqs).cell_lt hk hj
  · exact sample_lt chr k

theorem ringCells_lt : ∀ kj ∈ ringCells, kj.2 < maxAdcSamples := fun _ hkj =>
  (mem_ringCells.mp hkj).2

/-- An addition of the loop does not overflow its accumulator. -/
theorem addition_lt {old : Nat → Nat → UInt16} {irqs : List Registers}
    (hw : w.rings = ringsAfter old irqs) {before later : List (Nat × Nat)}
    (hcells : ringCells = before ++ (k, j) :: later) :
    (((addCells before fun _ => 0).run machine w).1 k).toNat +
      ((machine (.cell k j) ((addCells before fun _ => 0).run machine w).2).1).toNat <
        4294967296 := by
  have hmem : (k, j) ∈ ringCells := by
    rw [hcells]
    exact List.mem_append_right _ List.mem_cons_self
  obtain ⟨hk, hj⟩ := mem_ringCells.mp hmem
  have hbefore : ∀ kj ∈ before, kj.2 < maxAdcSamples := fun kj hkj =>
    ringCells_lt kj (hcells ▸ List.mem_append_left _ hkj)
  -- the cells of the ring that come before this one
  have hcount : (before.filter (·.1 == k)).length ≤ 16384 := by
    rw [← maxAdcSamples_eq, ← length_ringCells_filter hk, hcells, List.filter_append,
      List.length_append]
    exact Nat.le_add_right _ _
  have hlen := (length_loads machine (k := k) before (fun _ => 0) w).trans_le hcount
  have hsum := sum_le (fun v hv => seen_lt hw hk (loads_seen hbefore (fun _ => 0) w v hv)) hlen
  have htotal := addCells_sum machine (k := k) before (fun _ => 0) w
  have hzero : (0 : UInt32).toNat = 0 := rfl
  rw [hzero, Nat.zero_add, Nat.mod_eq_of_lt (by omega)] at htotal
  have hcell := seen_lt hw hk (seen_run before (fun _ => 0) w 1 k
    (interrupt_cell hj ((addCells before fun _ => 0).run machine w).2 0 k))
  have hload : (machine (.cell k j) ((addCells before fun _ => 0).run machine w).2).1 =
      ((addCells before fun _ => 0).run machine w).2.interrupt.rings.pbuf k j := rfl
  rw [htotal, hload]
  omega

/-- A machine with the rings as some interrupts left them, and with more to come. -/
def racing (old : Nat → Nat → UInt16) (irqs : List Registers) (caller : Caller)
    (pending : Nat → List Registers) : World :=
  ⟨caller, ringsAfter old irqs, pending⟩

/-- However interrupts come before its additions, no accumulator of a read
overflows, the mask changes nothing, and every slot is between two values that
were in the ring of its channel when the read began or were stored there since. -/
theorem racing_read_bounds (old : Nat → Nat → UInt16) (irqs : List Registers) (caller : Caller)
    (pending : Nat → List Registers) :
    (∀ before k j later, ringCells = before ++ (k, j) :: later →
      ∃ sums w', (addCells before fun _ => 0).run machine (racing old irqs caller pending) =
          (sums, w') ∧
        sumLoop.run machine (racing old irqs caller pending) =
          (addCells ((k, j) :: later) sums).run machine w' ∧
        (sums k).toNat + ((machine (.cell k j) w').1).toNat < 4294967296) ∧
    (∀ k ∈ channels, ∃ total, total = (sumLoop.run machine (racing old irqs caller pending)).1 ∧
      (shifted total k).toNat = (total k).toNat / 16384 ∧
      shifted total k &&& 0x3ff = shifted total k) ∧
    (∃ w' : World, at91adcRead.run machine (racing old irqs caller pending) =
      (if caller.uncopied ≠ 0 then -EFAULT else 0,
        w'.copyOut (reported machine (racing old irqs caller pending)))) ∧
    (reported machine (racing old irqs caller pending)).length = 11 ∧
    ∀ i (hi : i < (reported machine (racing old irqs caller pending)).length),
      ∃ a ∈ Seen (racing old irqs caller pending) ringCells.length (slotChannel i),
        ∃ b ∈ Seen (racing old irqs caller pending) ringCells.length (slotChannel i),
          a ≤ (reported machine (racing old irqs caller pending))[i] ∧
            (reported machine (racing old irqs caller pending))[i] ≤ b := by
  obtain ⟨w, hw⟩ : ∃ w, w = racing old irqs caller pending := ⟨_, rfl⟩
  have hrings : w.rings = ringsAfter old irqs := by rw [hw, racing]
  have hcaller : caller.uncopied = w.uncopied := by rw [hw, racing]
  have hseen (k : Nat) : ∀ v ∈ loads k (sumLoop.trace machine w), v ∈ Seen w ringCells.length k :=
    loads_seen ringCells_lt (fun _ => 0) w
  have hten {k : Nat} (hk : k ∈ channels) (v : UInt16)
      (hv : v ∈ loads k (sumLoop.trace machine w)) : v.toNat < 1024 :=
    seen_lt hrings hk (hseen k v hv)
  rw [← hw, hcaller]
  refine ⟨fun before k j later hcells => ?_, fun k hk => ⟨_, rfl, ?_⟩, ⟨_, run_at91adcRead w⟩,
    length_reported _ _, fun i hi => ?_⟩
  · refine ⟨_, _, rfl, ?_, addition_lt hrings hcells⟩
    rw [sumLoop, hcells, run_addCells_append]
  · exact shifted_of_total (total_of_loads machine w hk (hten hk)).2
  · have hk : slotChannel i ∈ channels := by
      rw [length_reported] at hi
      exact slotChannel_mem hi
    have hmean := reported_mean machine w hi (hten hk)
    have hlen : ((loads (slotChannel i) (sumLoop.trace machine w)).map
        UInt16.toNat).length = 16384 := by
      rw [List.length_map, sumLoop, length_loads, length_ringCells_filter hk, maxAdcSamples_eq]
    have hne := List.ne_nil_of_length_pos (hlen.trans_gt (by decide : 0 < 16384))
    -- a mean is between two of the values that it is the mean of
    obtain ⟨a, ha, hlow⟩ := exists_le_mean hne
    obtain ⟨b, hb, hhigh⟩ := exists_mean_le hne
    rw [hlen, ← hmean] at hlow hhigh
    obtain ⟨v, hv, rfl⟩ := List.mem_map.mp ha
    obtain ⟨u, hu, rfl⟩ := List.mem_map.mp hb
    exact ⟨v, hseen _ v hv, u, hseen _ u hu, UInt16.le_iff_toNat_le.mpr hlow,
      UInt16.le_iff_toNat_le.mpr hhigh⟩

end At91Drivers.Adc
