import At91Drivers.Adc.Sampling

/-!
# What a read reports

A read adds up the cells that it loads.  Eleven rings of ten-bit cells do not
overflow the accumulators, so each slot holds the mean of what was loaded from
its ring; when no interrupt comes in between, that is the ring as it stands.
-/

namespace At91Drivers.Adc

open Arith Effects Kernel

variable {σ α : Type} (h : Handler Op Reply σ)

/-! ## Loads -/

/-- The value that an operation loaded from the ring of channel `k`. -/
def loaded (k : Nat) : Event Op Reply → Option UInt16
  | ⟨.cell k' _, v⟩ => if k' = k then some v else none
  | ⟨.copyToUser _, _⟩ => none

/-- All of them, in order. -/
def loads (k : Nat) (trace : List (Event Op Reply)) : List UInt16 := trace.filterMap (loaded k)

variable {k : Nat}

theorem loads_cell_same (j : Nat) (v : UInt16) (rest : List (Event Op Reply)) :
    loads k (⟨.cell k j, v⟩ :: rest) = v :: loads k rest := by
  simp [loads, loaded]

theorem loads_cell_other {k' : Nat} (hk : k' ≠ k) (j : Nat) (v : UInt16)
    (rest : List (Event Op Reply)) : loads k (⟨.cell k' j, v⟩ :: rest) = loads k rest := by
  simp [loads, loaded, hk]

theorem run_addCells_cons (kj : Nat × Nat) (rest : List (Nat × Nat)) (sums : Sums) (s : σ) :
    (addCells (kj :: rest) sums).run h s =
      (addCells rest (Function.update sums kj.1
        (sums kj.1 + (h (.cell kj.1 kj.2) s).1.toUInt32))).run h (h (.cell kj.1 kj.2) s).2 := rfl

theorem trace_addCells_cons (kj : Nat × Nat) (rest : List (Nat × Nat)) (sums : Sums) (s : σ) :
    (addCells (kj :: rest) sums).trace h s =
      ⟨.cell kj.1 kj.2, (h (.cell kj.1 kj.2) s).1⟩ ::
        (addCells rest (Function.update sums kj.1
          (sums kj.1 + (h (.cell kj.1 kj.2) s).1.toUInt32))).trace h
          (h (.cell kj.1 kj.2) s).2 := rfl

/-- One load for every cell of the ring. -/
theorem length_loads (cells : List (Nat × Nat)) (sums : Sums) (s : σ) :
    (loads k ((addCells cells sums).trace h s)).length =
      (cells.filter (·.1 == k)).length := by
  induction cells generalizing sums s with
  | nil => rfl
  | cons kj rest ih =>
      rw [trace_addCells_cons]
      by_cases hk : kj.1 = k
      · subst hk
        rw [loads_cell_same, List.length_cons, ih]
        simp
      · rw [loads_cell_other hk, ih]
        simp [hk]

/-- An accumulator is the sum of the loads from its ring, in 32 bits. -/
theorem addCells_sum (cells : List (Nat × Nat)) (sums : Sums) (s : σ) :
    (((addCells cells sums).run h s).1 k).toNat =
      ((sums k).toNat + ((loads k ((addCells cells sums).trace h s)).map UInt16.toNat).sum) %
        4294967296 := by
  induction cells generalizing sums s with
  | nil =>
      have hlt := (sums k).toNat_lt
      simp only [addCells, Prog.run_pure, Prog.trace_pure, loads, List.filterMap_nil,
        List.map_nil, List.sum_nil]
      omega
  | cons kj rest ih =>
      rw [run_addCells_cons, trace_addCells_cons, ih]
      by_cases hk : kj.1 = k
      · subst hk
        rw [loads_cell_same, Function.update_self, UInt32.toNat_add, UInt16.toNat_toUInt32,
          List.map_cons, List.sum_cons]
        omega
      · rw [loads_cell_other hk, Function.update_of_ne (Ne.symm hk)]

/-! ## The cells of one ring -/

theorem row_filter (hk : k ∈ channels) (j : Nat) :
    (channels.map fun k => (k, j)).filter (·.1 == k) = [(k, j)] := by
  have hfilter : channels.filter (· == k) = [k] := by
    rw [List.filter_beq, List.count_eq_one_of_mem channels_nodup hk]
    rfl
  rw [List.filter_map]
  exact congrArg (List.map fun k => (k, j)) hfilter

theorem ringCells_filter (hk : k ∈ channels) :
    ringCells.filter (·.1 == k) = (List.range maxAdcSamples).map fun j => (k, j) := by
  rw [ringCells, List.filter_flatMap, List.map_eq_flatMap]
  apply List.flatMap_congr
  intro j _
  exact row_filter hk j

theorem length_ringCells_filter (hk : k ∈ channels) :
    (ringCells.filter (·.1 == k)).length = maxAdcSamples := by
  rw [ringCells_filter hk, List.length_map, List.length_range]

/-! ## Means -/

/-- What at most `n` values of ten bits add up to. -/
theorem sum_le {l : List UInt16} {n : Nat} (hl : ∀ v ∈ l, v.toNat < 1024) (hlen : l.length ≤ n) :
    (l.map UInt16.toNat).sum ≤ n * 1023 := by
  calc (l.map UInt16.toNat).sum ≤ (l.map UInt16.toNat).length * 1023 := by
        apply List.sum_le_card_nsmul
        intro a ha
        obtain ⟨v, hv, rfl⟩ := List.mem_map.mp ha
        exact Nat.le_of_lt_succ (hl v hv)
    _ = l.length * 1023 := by rw [List.length_map]
    _ ≤ n * 1023 := Nat.mul_le_mul_right 1023 hlen

/-- The accumulator of channel `k` after the loop. -/
theorem total_of_loads (s : σ) (hk : k ∈ channels)
    (hl : ∀ v ∈ loads k (sumLoop.trace h s), v.toNat < 1024) :
    ((sumLoop.run h s).1 k).toNat =
        ((loads k (sumLoop.trace h s)).map UInt16.toNat).sum ∧
      ((sumLoop.run h s).1 k).toNat ≤ 16384 * 1023 := by
  rw [sumLoop] at hl ⊢
  have hlen := (length_loads h (k := k) ringCells (fun _ => 0) s).trans
    (length_ringCells_filter hk)
  have hsum := sum_le hl (hlen.trans maxAdcSamples_eq).le
  have htotal := addCells_sum h (k := k) ringCells (fun _ => 0) s
  have hzero : (0 : UInt32).toNat = 0 := rfl
  rw [hzero, Nat.zero_add, Nat.mod_eq_of_lt (by omega)] at htotal
  exact ⟨htotal, htotal ▸ hsum⟩

/-- The shift divides by the length of a ring and leaves ten bits, which the
mask keeps. -/
theorem shifted_of_total {sums : Sums} (hk : (sums k).toNat ≤ 16384 * 1023) :
    (shifted sums k).toNat = (sums k).toNat / 16384 ∧
      shifted sums k &&& 0x3ff = shifted sums k := by
  have hshift : (sums k >>> 14).toNat = (sums k).toNat / 16384 := by
    rw [UInt32.toNat_shiftRight]
    exact Nat.shiftRight_eq_div_pow _ 14
  have hten : (sums k).toNat / 16384 < 1024 := by omega
  have hvalue : (shifted sums k).toNat = (sums k).toNat / 16384 := by
    rw [shifted, UInt32.toNat_toUInt16, hshift]
    omega
  refine ⟨hvalue, UInt16.toNat_inj.mp ?_⟩
  rw [UInt16.toNat_and, hvalue]
  calc (sums k).toNat / 16384 &&& 1023 = (sums k).toNat / 16384 % 2 ^ 10 :=
        Nat.and_two_pow_sub_one_eq_mod _ 10
    _ = (sums k).toNat / 16384 := Nat.mod_eq_of_lt hten

/-! ## Reports -/

/-- The buffer that a read hands to the user. -/
def reported (s : σ) : List UInt16 := at91adcBuf (sumLoop.run h s).1

/-- The channel whose mean is in slot `s`. -/
def slotChannel (s : Nat) : Nat := if s < 5 then s else s + 1

theorem slotChannel_mem {i : Nat} (hi : i < 11) : slotChannel i ∈ channels := by
  revert i
  decide

@[simp] theorem length_at91adcBuf (sums : Sums) : (at91adcBuf sums).length = 11 := by
  rw [at91adcBuf, List.length_map]
  rfl

theorem at91adcBuf_getElem (sums : Sums) {i : Nat} (hi : i < (at91adcBuf sums).length) :
    (at91adcBuf sums)[i] = shifted sums (slotChannel i) &&& 0x3ff := by
  have hchannel : ∀ i, (hi : i < channels.length) → channels[i] = slotChannel i := by decide
  have hlen : i < channels.length := hi
  simp only [at91adcBuf, List.getElem_map, hchannel i hlen]

@[simp] theorem length_reported (s : σ) : (reported h s).length = 11 := by
  rw [reported, length_at91adcBuf]

/-- A slot is the mean of the loads from the ring of its channel. -/
theorem reported_mean (s : σ) {i : Nat} (hi : i < (reported h s).length)
    (hl : ∀ v ∈ loads (slotChannel i) (sumLoop.trace h s),
      v.toNat < 1024) :
    ((reported h s)[i]).toNat =
      ((loads (slotChannel i) (sumLoop.trace h s)).map
        UInt16.toNat).sum / 16384 := by
  have hi' : i < 11 := by rwa [length_reported] at hi
  obtain ⟨htotal, hle⟩ := total_of_loads h s (slotChannel_mem hi') hl
  obtain ⟨hshift, hmask⟩ := shifted_of_total hle
  simp only [reported, at91adcBuf_getElem, hmask, hshift, htotal]

/-- No operation changes how the copy will end. -/
theorem run_uncopied (p : Reader α) (w : World) : (p.run machine w).2.uncopied = w.uncopied := by
  refine Prog.run_preserves (I := fun w' : World => w'.uncopied = w.uncopied) machine ?_ p rfl
  intro e w' hw'
  cases e <;> exact hw'

theorem run_handOver (buf : List UInt16) (w : World) :
    (handOver buf).run machine w =
      (if w.uncopied ≠ 0 then -EFAULT else 0, w.interrupt.copyOut buf) := by
  have hcopy : (ask (.copyToUser buf)).run machine w = (w.uncopied, w.interrupt.copyOut buf) := rfl
  unfold handOver
  rw [Prog.run_bind, hcopy]
  dsimp only
  rw [Prog.run_ite]
  split <;> rfl

/-- A read hands the means to the user as far as the copy goes. -/
theorem run_at91adcRead (w : World) :
    at91adcRead.run machine w =
      (if w.uncopied ≠ 0 then -EFAULT else 0,
        (sumLoop.run machine w).2.interrupt.copyOut
          (reported machine w)) := by
  unfold at91adcRead
  rw [Prog.run_bind, run_handOver, run_uncopied, reported]

/-! ## A read without interrupts -/

/-- A machine with these rings that no interrupt interrupts. -/
def quiet (caller : Caller) (rings : Rings) : World := ⟨caller, rings, fun _ => []⟩

theorem machine_cell_quiet (caller : Caller) (rings : Rings) (k j : Nat) :
    machine (.cell k j) (quiet caller rings) = (rings.pbuf k j, quiet caller rings) := rfl

theorem run_quiet (caller : Caller) (rings : Rings) (cells : List (Nat × Nat)) (sums : Sums) :
    ((addCells cells sums).run machine (quiet caller rings)).2 = quiet caller rings ∧
      loads k ((addCells cells sums).trace machine (quiet caller rings)) =
        (cells.filter (·.1 == k)).map fun kj => rings.pbuf kj.1 kj.2 := by
  induction cells generalizing sums with
  | nil => exact ⟨rfl, rfl⟩
  | cons kj rest ih =>
      rw [run_addCells_cons, trace_addCells_cons, machine_cell_quiet]
      refine ⟨(ih _).1, ?_⟩
      by_cases hk : kj.1 = k
      · subst hk
        rw [loads_cell_same, (ih _).2]
        simp
      · rw [loads_cell_other hk, (ih _).2]
        simp [hk]

/-- It loads every ring as it stands. -/
theorem loads_quiet (caller : Caller) (rings : Rings) (hk : k ∈ channels) :
    loads k (sumLoop.trace machine (quiet caller rings)) =
      rings.ring k := by
  rw [sumLoop, (run_quiet caller rings ringCells fun _ => 0).2, ringCells_filter hk, List.map_map]
  rfl

theorem run_at91adcRead_quiet (caller : Caller) (rings : Rings) :
    at91adcRead.run machine (quiet caller rings) =
      (if caller.uncopied ≠ 0 then -EFAULT else 0,
        (quiet caller rings).copyOut (reported machine (quiet caller rings))) := by
  rw [run_at91adcRead, sumLoop, (run_quiet (k := 0) caller rings ringCells fun _ => 0).1]
  rfl

/-- A slot is the mean of the ring of its channel. -/
theorem reported_quiet {s : Rings} {irqs : List Registers} (hs : Sampled s irqs) (caller : Caller)
    {i : Nat} (hi : i < (reported machine (quiet caller s)).length) :
    ((reported machine (quiet caller s))[i]).toNat =
      ((window irqs (slotChannel i)).map UInt16.toNat).sum / 16384 := by
  have hk : slotChannel i ∈ channels := by
    rw [length_reported] at hi
    exact slotChannel_mem hi
  have hloads := loads_quiet caller s hk
  have hten (v : UInt16) (hv : v ∈ s.ring (slotChannel i)) : v.toNat < 1024 := by
    obtain ⟨j, hj, rfl⟩ := List.mem_map.mp hv
    exact hs.cell_lt hk (List.mem_range.mp hj)
  have hmean := reported_mean machine (quiet caller s) hi (by rwa [hloads])
  have hperm : (s.ring (slotChannel i)).Perm (window irqs (slotChannel i)) := by
    rw [← hs.ring_eq _ hk]
    exact (List.rotate_perm _ _).symm
  rw [hmean, hloads, (hperm.map UInt16.toNat).sum_eq]

/-- The low ten bits of the samples of channel `k`, oldest first. -/
def tenBits (irqs : List Registers) (k : Nat) : List Nat := irqs.map fun chr => (chr k).toNat % 1024

theorem window_toNat (irqs : List Registers) (k : Nat) :
    (window irqs k).map UInt16.toNat = lastOf 16384 0 (tenBits irqs k) := by
  have hsamples : (samples irqs k).map UInt16.toNat = tenBits irqs k := by
    rw [samples, List.map_map]
    exact List.map_congr_left fun chr _ => sample_toNat chr k
  rw [window, map_lastOf, hsamples, maxAdcSamples_eq]
  rfl

/-! ## The sliding mean -/

/-- After any interrupts a read reports for each channel the mean of its last
16384 samples, those before the first counting as 0, and the append index is on
the rings. -/
theorem read_reports_window_mean (old : Nat → Nat → UInt16) (irqs : List Registers)
    (caller : Caller) :
    (ringsAfter old irqs).appidx.toNat < 16384 ∧
      at91adcRead.run machine (quiet caller (ringsAfter old irqs)) =
        (if caller.uncopied ≠ 0 then -EFAULT else 0,
          (quiet caller (ringsAfter old irqs)).copyOut
            (reported machine (quiet caller (ringsAfter old irqs)))) ∧
      (reported machine (quiet caller (ringsAfter old irqs))).length = 11 ∧
      ∀ i (hi : i < (reported machine (quiet caller (ringsAfter old irqs))).length),
        ((reported machine (quiet caller (ringsAfter old irqs)))[i]).toNat =
          (lastOf 16384 0 (tenBits irqs (if i < 5 then i else i + 1))).sum / 16384 := by
  have hs := sampled_ringsAfter old irqs
  refine ⟨maxAdcSamples_eq ▸ hs.index_lt, run_at91adcRead_quiet caller _, length_reported _ _,
    fun i hi => ?_⟩
  rw [reported_quiet hs caller hi, window_toNat]
  rfl

/-! ## Before the rings are full -/

/-- The samples of channel `k` that the rings hold, as numbers. -/
def recent (irqs : List Registers) (k : Nat) : List Nat :=
  (tenBits irqs k).drop (irqs.length - 16384)

theorem reported_recent (old : Nat → Nat → UInt16) (irqs : List Registers) (caller : Caller)
    {i : Nat} (hi : i < (reported machine (quiet caller (ringsAfter old irqs))).length) :
    ((reported machine (quiet caller (ringsAfter old irqs)))[i]).toNat =
      (recent irqs (slotChannel i)).sum / 16384 := by
  rw [reported_quiet (sampled_ringsAfter old irqs) caller hi, window_toNat, sum_lastOf, recent,
    tenBits, List.length_map]

theorem length_recent (irqs : List Registers) (k : Nat) :
    (recent irqs k).length = min irqs.length 16384 := by
  rw [recent, List.length_drop, tenBits, List.length_map]
  omega

/-- A read reports at most the largest of the samples that the rings hold, and at
least the smallest when the rings are full.  The sum is always divided by their
whole length, so before that it reports at least a sample just when the sum of
all is as large as 16384 times this one. -/
theorem report_bounds (old : Nat → Nat → UInt16) {irqs : List Registers} (hirqs : irqs ≠ [])
    (caller : Caller) :
    at91adcRead.run machine (quiet caller (ringsAfter old irqs)) =
        (if caller.uncopied ≠ 0 then -EFAULT else 0,
          (quiet caller (ringsAfter old irqs)).copyOut
            (reported machine (quiet caller (ringsAfter old irqs)))) ∧
      ∀ i (hi : i < (reported machine (quiet caller (ringsAfter old irqs))).length),
        ∃ v, v = ((reported machine (quiet caller (ringsAfter old irqs)))[i]).toNat ∧
          v = (recent irqs (slotChannel i)).sum / 16384 ∧
          (∃ b ∈ recent irqs (slotChannel i), v ≤ b) ∧
          (16384 ≤ irqs.length → ∃ a ∈ recent irqs (slotChannel i), a ≤ v) ∧
          ∀ a, a ≤ v ↔ a * 16384 ≤ (recent irqs (slotChannel i)).sum := by
  refine ⟨run_at91adcRead_quiet caller _, fun i hi => ⟨_, rfl, ?_⟩⟩
  rw [reported_recent old irqs caller hi]
  have hlen := length_recent irqs (slotChannel i)
  have hpos := List.length_pos_of_ne_nil hirqs
  have hne : recent irqs (slotChannel i) ≠ [] := List.ne_nil_of_length_pos (by omega)
  refine ⟨rfl, ?_, fun hfull => ?_, fun a => Nat.le_div_iff_mul_le (by decide)⟩
  · obtain ⟨b, hb, hmean⟩ := exists_mean_le hne
    refine ⟨b, hb, le_trans ?_ hmean⟩
    exact Nat.div_le_div_left (by omega) (by omega)
  · obtain ⟨a, ha, hmean⟩ := exists_le_mean hne
    rw [hlen, Nat.min_eq_right hfull] at hmean
    exact ⟨a, ha, hmean⟩

/-- One interrupt that reads 1000 from every register. -/
def oneThousand : List Registers := [fun _ => 1000]

/-- A read after it. -/
def afterOne : World := quiet ⟨fun _ => 0, 0, fun _ => 0⟩ (ringsAfter (fun _ _ => 7) oneThousand)

theorem report_bounds_oneThousand :
    at91adcRead.run machine afterOne = (0, afterOne.copyOut (reported machine afterOne)) ∧
      ∀ i (hi : i < (reported machine afterOne).length),
        ∃ v, v = ((reported machine afterOne)[i]).toNat ∧
          v = (recent oneThousand (slotChannel i)).sum / 16384 ∧
          (∃ b ∈ recent oneThousand (slotChannel i), v ≤ b) ∧
          (16384 ≤ oneThousand.length → ∃ a ∈ recent oneThousand (slotChannel i), a ≤ v) ∧
          ∀ a, a ≤ v ↔ a * 16384 ≤ (recent oneThousand (slotChannel i)).sum :=
  report_bounds (fun _ _ => 7) (by decide) ⟨fun _ => 0, 0, fun _ => 0⟩

/-- Every slot is 0 then. -/
theorem report_below_samples :
    ¬ ∀ (old : Nat → Nat → UInt16) (irqs : List Registers) (caller : Caller), irqs ≠ [] →
      ∀ i (hi : i < (reported machine (quiet caller (ringsAfter old irqs))).length),
        ∃ a ∈ recent irqs (slotChannel i), ∃ b ∈ recent irqs (slotChannel i),
          a ≤ ((reported machine (quiet caller (ringsAfter old irqs)))[i]).toNat ∧
            ((reported machine (quiet caller (ringsAfter old irqs)))[i]).toNat ≤ b := by
  intro h
  obtain ⟨a, ha, b, -, hle, -⟩ := h (fun _ _ => 7) oneThousand ⟨fun _ => 0, 0, fun _ => 0⟩
    (by decide) 0 (by rw [length_reported]; decide)
  have hrecent : recent oneThousand (slotChannel 0) = [1000] := by decide
  rw [reported_recent, hrecent] at hle
  rw [hrecent, List.mem_singleton] at ha
  rw [ha] at hle
  exact absurd hle (by decide)

end At91Drivers.Adc
