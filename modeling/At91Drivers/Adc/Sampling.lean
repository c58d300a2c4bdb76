import At91Drivers.Adc.Driver
import At91Drivers.Arith.Window

/-!
# What the rings hold

After any number of interrupts each ring holds the window of the last samples of
its channel, rotated by the append index.  Cell `i` is the latest sample whose
number is `i` modulo the length of the ring.
-/

namespace At91Drivers.Adc

open Arith

variable {s : Rings} {chr : Registers} {k j : Nat}

theorem maxAdcSamples_eq : maxAdcSamples = 16384 := by
  unfold maxAdcSamples
  rfl

theorem maxAdcSamples_pos : 0 < maxAdcSamples := by
  rw [maxAdcSamples_eq]
  decide

theorem channels_nodup : channels.Nodup := by decide

/-- The low ten bits. -/
theorem sample_toNat (chr : Registers) (k : Nat) :
    (sample chr k).toNat = (chr k).toNat % 1024 := by
  have hlow : (chr k).toNat &&& 1023 = (chr k).toNat % 1024 :=
    Nat.and_two_pow_sub_one_eq_mod _ 10
  simp only [sample, UInt32.toNat_toUInt16, UInt32.toNat_and, UInt32.reduceToNat, hlow]
  omega

/-! ## Stores -/

namespace Rings

@[simp] theorem store_appidx (s : Rings) (k j : Nat) (v : UInt16) :
    (s.store k j v).appidx = s.appidx := rfl

theorem store_pbuf (s : Rings) (k j : Nat) (v : UInt16) (k' j' : Nat) :
    (s.store k j v).pbuf k' j' = if k' = k ∧ j' = j then v else s.pbuf k' j' := by
  by_cases hk : k' = k
  · subst hk
    by_cases hj : j' = j
    · subst hj
      simp [store]
    · simp [store, hj]
  · simp [store, hk]

/-- The ring of channel `k`. -/
def ring (s : Rings) (k : Nat) : List UInt16 := (List.range maxAdcSamples).map (s.pbuf k)

@[simp] theorem length_ring (s : Rings) (k : Nat) : (s.ring k).length = maxAdcSamples := by
  simp [ring]

end Rings

theorem mem_ringCells : (k, j) ∈ ringCells ↔ k ∈ channels ∧ j < maxAdcSamples := by
  simp only [ringCells, List.mem_flatMap, List.mem_map, List.mem_range, Prod.mk.injEq]
  constructor
  · rintro ⟨j, hj, k, hk, rfl, rfl⟩
    exact ⟨hk, hj⟩
  · rintro ⟨hk, hj⟩
    exact ⟨j, hj, k, hk, rfl, rfl⟩

theorem clear_appidx (cells : List (Nat × Nat)) (s : Rings) :
    (cells.foldl (fun s kj => s.store kj.1 kj.2 0) s).appidx = s.appidx := by
  induction cells generalizing s with
  | nil => rfl
  | cons kj rest ih => exact ih (s.store kj.1 kj.2 0)

theorem clear_pbuf {cells : List (Nat × Nat)} (s : Rings)
    (hcell : (k, j) ∈ cells ∨ s.pbuf k j = 0) :
    (cells.foldl (fun s kj => s.store kj.1 kj.2 0) s).pbuf k j = 0 := by
  induction cells generalizing s with
  | nil =>
      rcases hcell with hmem | hzero
      · exact absurd hmem List.not_mem_nil
      · exact hzero
  | cons kj rest ih =>
      apply ih
      rw [Rings.store_pbuf]
      by_cases hkj : k = kj.1 ∧ j = kj.2
      · exact .inr (if_pos hkj)
      · rw [if_neg hkj]
        rcases hcell with hmem | hzero
        · rcases List.mem_cons.mp hmem with rfl | hrest
          · exact absurd ⟨rfl, rfl⟩ hkj
          · exact .inl hrest
        · exact .inr hzero

theorem init_pbuf (old : Nat → Nat → UInt16) (hk : k ∈ channels) (hj : j < maxAdcSamples) :
    (at91adcInit old).pbuf k j = 0 := by
  rw [at91adcInit]
  apply clear_pbuf
  exact .inl (mem_ringCells.mpr ⟨hk, hj⟩)

theorem init_appidx (old : Nat → Nat → UInt16) : (at91adcInit old).appidx = 0 := by
  rw [at91adcInit]
  apply clear_appidx

theorem foldl_sample (chr : Registers) (k j : Nat) (ks : List Nat) (s : Rings) :
    (ks.foldl (fun s k => s.store k s.appidx.toNat (sample chr k)) s).appidx = s.appidx ∧
      (ks.foldl (fun s k => s.store k s.appidx.toNat (sample chr k)) s).pbuf k j =
        if k ∈ ks ∧ j = s.appidx.toNat then sample chr k else s.pbuf k j := by
  induction ks generalizing s with
  | nil => simp
  | cons k₁ rest ih =>
      obtain ⟨hindex, hcell⟩ := ih (s.store k₁ s.appidx.toNat (sample chr k₁))
      refine ⟨hindex, hcell.trans ?_⟩
      rw [Rings.store_pbuf, Rings.store_appidx]
      by_cases hrest : k ∈ rest ∧ j = s.appidx.toNat
      · rw [if_pos hrest, if_pos ⟨List.mem_cons_of_mem _ hrest.1, hrest.2⟩]
      · rw [if_neg hrest]
        by_cases hfirst : k = k₁ ∧ j = s.appidx.toNat
        · obtain ⟨rfl, rfl⟩ := hfirst
          simp
        · rw [if_neg hfirst, if_neg]
          rintro ⟨hmem, hj⟩
          rcases List.mem_cons.mp hmem with hk | hmem
          · exact hfirst ⟨hk, hj⟩
          · exact hrest ⟨hmem, hj⟩

/-! ## Interrupts -/

theorem isr_pbuf (s : Rings) (chr : Registers) (k j : Nat) :
    (at91tc0Isr s chr).pbuf k j =
      if k ∈ channels ∧ j = s.appidx.toNat then sample chr k else s.pbuf k j :=
  (foldl_sample chr k j channels s).2

/-- The index is 16 bits wide, and a ring is shorter than that. -/
theorem isr_appidx (chr : Registers) (hs : s.appidx.toNat < maxAdcSamples) :
    (at91tc0Isr s chr).appidx.toNat =
      if s.appidx.toNat + 1 = maxAdcSamples then 0 else s.appidx.toNat + 1 := by
  have hshort : maxAdcSamples < 65536 := by
    rw [maxAdcSamples_eq]
    decide
  have hsucc : (s.appidx + 1).toNat = s.appidx.toNat + 1 := by
    have hone : (1 : UInt16).toNat = 1 := rfl
    rw [UInt16.toNat_add, hone, Nat.mod_eq_of_lt (by omega)]
  have hindex : (at91tc0Isr s chr).appidx =
      if maxAdcSamples ≤ (s.appidx + 1).toNat then 0 else s.appidx + 1 := by
    have hkept := (foldl_sample chr 0 0 channels s).1
    rw [← hkept]
    rfl
  rw [hindex, hsucc]
  by_cases hwrap : s.appidx.toNat + 1 = maxAdcSamples
  · rw [if_pos hwrap.ge, if_pos hwrap]
    rfl
  · rw [if_neg (by omega), if_neg hwrap, hsucc]

/-- The ring of a channel gets its sample at the append index. -/
theorem isr_ring (s : Rings) (chr : Registers) (hk : k ∈ channels) :
    (at91tc0Isr s chr).ring k = (s.ring k).set s.appidx.toNat (sample chr k) := by
  refine List.ext_getElem (by simp) fun j hj _ => ?_
  simp only [Rings.ring, List.getElem_map, List.getElem_range, isr_pbuf, List.getElem_set]
  by_cases hindex : s.appidx.toNat = j
  · rw [if_pos ⟨hk, hindex.symm⟩, if_pos hindex]
  · rw [if_neg fun h => hindex h.2.symm, if_neg hindex]

/-- The samples of channel `k`, oldest first. -/
def samples (irqs : List Registers) (k : Nat) : List UInt16 := irqs.map (sample · k)

/-- The last `maxAdcSamples` of them, with zeros before the first. -/
def window (irqs : List Registers) (k : Nat) : List UInt16 :=
  lastOf maxAdcSamples 0 (samples irqs k)

/-- The rings hold the samples of these interrupts. -/
structure Sampled (s : Rings) (irqs : List Registers) : Prop where
  index_lt : s.appidx.toNat < maxAdcSamples
  ring_eq : ∀ k ∈ channels, (s.ring k).rotate s.appidx.toNat = window irqs k

theorem sampled_init (old : Nat → Nat → UInt16) : Sampled (at91adcInit old) [] := by
  have hindex : (at91adcInit old).appidx.toNat = 0 := by
    rw [init_appidx]
    rfl
  refine ⟨hindex ▸ maxAdcSamples_pos, fun k hk => ?_⟩
  rw [hindex, List.rotate_zero, window, samples, List.map_nil, lastOf_nil]
  refine List.eq_replicate_iff.mpr ⟨Rings.length_ring _ _, fun v hv => ?_⟩
  obtain ⟨j, hj, rfl⟩ := List.mem_map.mp hv
  exact init_pbuf old hk (List.mem_range.mp hj)

/-- An interrupt keeps this, with its own samples added. -/
theorem Sampled.isr {irqs : List Registers} (hs : Sampled s irqs) (chr : Registers) :
    Sampled (at91tc0Isr s chr) (irqs ++ [chr]) := by
  have hindex := isr_appidx chr hs.index_lt
  have hlt := hs.index_lt
  refine ⟨by rw [hindex]; split <;> omega, fun k hk => ?_⟩
  have hwindow : window (irqs ++ [chr]) k = (window irqs k).tail ++ [sample chr k] := by
    rw [window, samples, List.map_append, List.map_singleton, lastOf_concat maxAdcSamples_pos]
    rfl
  have hslide := rotate_set_succ (x := sample chr k) (show s.appidx.toNat < (s.ring k).length by
    rwa [Rings.length_ring])
  rw [hs.ring_eq k hk, ← hwindow, ← isr_ring s chr hk] at hslide
  rw [hindex, ← hslide]
  by_cases hwrap : s.appidx.toNat + 1 = maxAdcSamples
  · -- the index goes back to 0, and a whole turn is no turn
    rw [if_pos hwrap, hwrap, List.rotate_zero, ← Rings.length_ring (at91tc0Isr s chr) k,
      List.rotate_length]
  · rw [if_neg hwrap]

theorem Sampled.run {past : List Registers} (hs : Sampled s past) (irqs : List Registers) :
    Sampled (irqs.foldl at91tc0Isr s) (past ++ irqs) := by
  induction irqs generalizing s past with
  | nil => simpa using hs
  | cons chr rest ih => simpa using ih (hs.isr chr)

theorem sampled_ringsAfter (old : Nat → Nat → UInt16) (irqs : List Registers) :
    Sampled (ringsAfter old irqs) irqs :=
  (sampled_init old).run irqs

/-! ## Ten bits -/

theorem sample_lt (chr : Registers) (k : Nat) : (sample chr k).toNat < 1024 := by
  rw [sample_toNat]
  exact Nat.mod_lt _ (by decide)

/-- Every cell of a ring that was initialized holds ten bits. -/
theorem Sampled.cell_lt {irqs : List Registers} (hs : Sampled s irqs) (hk : k ∈ channels)
    (hj : j < maxAdcSamples) : (s.pbuf k j).toNat < 1024 := by
  have hmem : s.pbuf k j ∈ window irqs k := by
    rw [← hs.ring_eq k hk, List.mem_rotate]
    exact List.mem_map_of_mem (List.mem_range.mpr hj)
  rcases List.mem_append.mp (List.mem_of_mem_drop hmem) with hzero | hsample
  · rw [List.eq_of_mem_replicate hzero]
    decide
  · obtain ⟨chr, -, hv⟩ := List.mem_map.mp hsample
    rw [← hv]
    exact sample_lt chr k

end At91Drivers.Adc
