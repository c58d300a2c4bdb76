import At91Drivers.Adc.Module

/-!
# What the ADC module holds

A load takes either everything or nothing: each label of the ladder releases
what was taken before it.  An unload releases everything but the rings.
-/

namespace At91Drivers.Adc.Life

open Effects Kernel

variable {w : World} {L : Ledger Resource} {s : Multiset Resource} {ret : Int}

/-! ## What is held at the stages of a load -/

def bufOf (w : World) (k : Nat) : Multiset Resource := (w.pbuf k).elim 0 fun a => {.buffer a}

def bufs (ks : List Nat) (w : World) : Multiset Resource := (ks.map (bufOf w)).sum

def mapped (w : World) (p : Peripheral) : Multiset Resource :=
  (w.base p).elim 0 fun a => {.mapping a}

/-- At `exit_3`. -/
def ringsHeld (w : World) : Multiset Resource := bufs channels w + {.misc}

/-- With the converter mapped. -/
def adcHeld (w : World) : Multiset Resource := mapped w .adc + ({.clock .adc} + ringsHeld w)

/-- With the timer mapped, at `exit_6`. -/
def timerHeld (w : World) : Multiset Resource := mapped w .tc1 + ({.clock .tc1} + adcHeld w)

/-- Everything. -/
def allHeld (w : World) : Multiset Resource := {.irq} + timerHeld w

/-! ## Operations -/

theorem ledger_acquire (r : Resource) (h : w.ledger = L.add s) :
    (w.acquire r).ledger = L.add ({r} + s) :=
  Ledger.acquire_of_eq r h

theorem ledger_release {r : Resource} (h : w.ledger = L.add ({r} + s)) :
    (w.release r).ledger = L.add s :=
  Ledger.release_of_eq h

theorem ledger_freeBuf {k : Nat} (h : w.ledger = L.add (bufOf w k + s)) :
    (w.freeBuf k).ledger = L.add s := by
  unfold World.freeBuf
  unfold bufOf at h
  cases hk : w.pbuf k with
  | some a =>
      rw [hk] at h
      exact ledger_release h
  | none =>
      rw [hk] at h
      simpa using h

theorem ledger_unmapBase {p : Peripheral} (h : w.ledger = L.add (mapped w p + s)) :
    (w.unmapBase p).ledger = L.add s := by
  unfold World.unmapBase
  unfold mapped at h
  cases hp : w.base p with
  | some a =>
      rw [hp] at h
      exact ledger_release h
  | none =>
      rw [hp] at h
      simpa using h

@[simp] theorem pbuf_freeBuf (w : World) (k : Nat) : (w.freeBuf k).pbuf = w.pbuf := by
  unfold World.freeBuf
  split <;> rfl

@[simp] theorem pbuf_unmapBase (w : World) (p : Peripheral) : (w.unmapBase p).pbuf = w.pbuf := by
  unfold World.unmapBase
  split <;> rfl

@[simp] theorem base_unmapBase (w : World) (p : Peripheral) : (w.unmapBase p).base = w.base := by
  unfold World.unmapBase
  split <;> rfl

theorem bufs_congr {w' : World} (ks : List Nat) (h : ∀ k ∈ ks, w'.pbuf k = w.pbuf k) :
    bufs ks w' = bufs ks w := by
  unfold bufs
  congr 1
  refine List.map_congr_left fun k hk => ?_
  rw [bufOf, bufOf, h k hk]

/-! ## The ladder -/

theorem run_freeBufs {ks : List Nat} (h : w.ledger = L.add (bufs ks w + s)) :
    ((freeBufs ks).run machine w).2.ledger = L.add s := by
  induction ks generalizing w with
  | nil => simpa [bufs, freeBufs] using h
  | cons k ks ih =>
      have hbufs : bufs ks (w.freeBuf k) = bufs ks w :=
        bufs_congr ks fun k' _ => congrFun (pbuf_freeBuf w k) k'
      change ((freeBufs ks).run machine (w.freeBuf k)).2.ledger = L.add s
      apply ih
      rw [hbufs]
      apply ledger_freeBuf
      rw [h, bufs, List.map_cons, List.sum_cons, add_assoc]
      rfl

theorem run_exit3 (ret : Int) (h : w.ledger = L.add (ringsHeld w)) :
    ((exit3 ret).run machine w).1 = ret ∧ ((exit3 ret).run machine w).2.ledger = L := by
  refine ⟨by simp [exit3], ?_⟩
  have hfreed := run_freeBufs h
  have hall : ((freeBufs channels).run machine w).2.ledger = L.add ({.misc} + 0) := by
    rw [hfreed, add_zero]
  unfold exit3
  rw [Prog.run_bind]
  exact (ledger_release hall).trans L.add_zero

theorem run_exit4 (ret : Int) (h : w.ledger = L.add ({.clock .adc} + ringsHeld w)) :
    ((exit4 ret).run machine w).1 = ret ∧ ((exit4 ret).run machine w).2.ledger = L :=
  run_exit3 ret (w := w.release (.clock .adc)) (ledger_release h)

theorem run_exit5 (ret : Int) (h : w.ledger = L.add ({.clock .tc1} + adcHeld w)) :
    ((exit5 ret).run machine w).1 = ret ∧ ((exit5 ret).run machine w).2.ledger = L := by
  have hclock : (w.release (.clock .tc1)).ledger = L.add (mapped _ .adc + _) := ledger_release h
  have hbase := ledger_unmapBase hclock
  refine run_exit4 ret (w := (w.release (.clock .tc1)).unmapBase .adc) (hbase.trans ?_)
  rw [ringsHeld, ringsHeld, bufs_congr channels fun k _ => ?_]
  exact (congrFun (pbuf_unmapBase (w.release (.clock .tc1)) .adc) k).symm

theorem run_exit6 (ret : Int) (h : w.ledger = L.add (timerHeld w)) :
    ((exit6 ret).run machine w).1 = ret ∧ ((exit6 ret).run machine w).2.ledger = L := by
  have hbase := ledger_unmapBase h
  refine run_exit5 ret (w := w.unmapBase .tc1) (hbase.trans ?_)
  rw [adcHeld, adcHeld, mapped, mapped, base_unmapBase, ringsHeld, ringsHeld,
    bufs_congr channels fun k _ => ?_]
  exact (congrFun (pbuf_unmapBase w .tc1) k).symm

/-! ## A load -/

/-- A load, or the rest of one, takes everything when `ok`, and nothing when
not. -/
structure AllOrNothing (L : Ledger Resource) (ok : Prop) (r : Int × World) : Prop where
  returns : r.1 = 0 ↔ ok
  takes : ok → r.2.ledger = L.add (allHeld r.2) ∧ ∀ k ∈ channels, (r.2.pbuf k).isSome
  keeps : ¬ ok → r.2.ledger = L

theorem AllOrNothing.of_failed {ok : Prop} {r : Int × World} (hok : ¬ ok) (hret : ret ≠ 0)
    (h : r.1 = ret ∧ r.2.ledger = L) : AllOrNothing L ok r :=
  ⟨iff_of_false (h.1 ▸ hret) hok, fun h' => absurd h' hok, fun _ => h.2⟩

theorem base_mapBase (w : World) (p : Peripheral) :
    (w.mapBase p).base p = if w.coming.maps p then some w.next else none := by
  unfold World.mapBase
  split
  · exact Function.update_self _ _ _
  · exact Function.update_self _ _ _

theorem ledger_mapBase (p : Peripheral) (h : w.ledger = L.add s) :
    (w.mapBase p).ledger = L.add (mapped (w.mapBase p) p + s) := by
  rw [mapped, base_mapBase]
  unfold World.mapBase
  by_cases hmap : w.coming.maps p
  · rw [if_pos hmap, if_pos hmap]
    exact ledger_acquire (.mapping w.next) h
  · rw [if_neg hmap, if_neg hmap]
    simpa using h

theorem baseIsNull_mapBase (w : World) (p : Peripheral) :
    ((w.mapBase p).base p).isNone = !w.coming.maps p := by
  rw [base_mapBase]
  cases w.coming.maps p <;> rfl

theorem mapped_mapBase_of_none {p : Peripheral} (h : ¬ w.coming.maps p) :
    mapped (w.mapBase p) p = 0 := by
  rw [mapped, base_mapBase, if_neg h]
  rfl

theorem pbuf_mapBase (w : World) (p : Peripheral) : (w.mapBase p).pbuf = w.pbuf := by
  unfold World.mapBase
  split <;> rfl

theorem coming_mapBase (w : World) (p : Peripheral) : (w.mapBase p).coming = w.coming := by
  unfold World.mapBase
  split <;> rfl

theorem ringsHeld_congr {w' : World} (h : w'.pbuf = w.pbuf) : ringsHeld w' = ringsHeld w := by
  rw [ringsHeld, ringsHeld, bufs_congr channels fun k _ => congrFun h k]

theorem startTimer_right (h : w.ledger = L.add (adcHeld w))
    (hbufs : ∀ k ∈ channels, (w.pbuf k).isSome) :
    AllOrNothing L (w.coming.maps .tc1 ∧ w.coming.irq = 0) (startTimer.run machine w) := by
  -- the clock and the mapping of the timer come before its checks
  have hclock : (w.acquire (.clock .tc1)).ledger = L.add ({.clock .tc1} + adcHeld w) :=
    ledger_acquire _ h
  have hbase := ledger_mapBase .tc1 hclock
  obtain ⟨w', hw'⟩ : ∃ w', w' = (w.acquire (.clock .tc1)).mapBase .tc1 := ⟨_, rfl⟩
  have hpbuf : w'.pbuf = w.pbuf := hw' ▸ pbuf_mapBase _ _
  have hcoming : w'.coming = w.coming := hw' ▸ coming_mapBase _ _
  have hadc : mapped w' .adc = mapped w .adc := by
    rw [hw', mapped, mapped, World.mapBase]
    split <;> rfl
  have hheld : adcHeld w' = adcHeld w := by
    rw [adcHeld, adcHeld, hadc, ringsHeld_congr hpbuf]
  have hnull := baseIsNull_mapBase (w.acquire (.clock .tc1)) .tc1
  rw [← hw'] at hbase hnull
  have hrun : startTimer.run machine w =
      (if (w'.base .tc1).isNone then exit5 (-EACCES) else do
        let ret ← (ask .requestIrq : Driver Int)
        if ret ≠ 0 then exit6 (-EBUSY) else return 0).run machine w' := hw' ▸ rfl
  rw [hrun, hnull]
  by_cases hmap : w.coming.maps .tc1
  · rw [show (w.acquire (.clock .tc1)).coming.maps .tc1 = true from hmap]
    have hirq : (ask .requestIrq : Driver Int).run machine w' =
        (-(w'.coming.irq : Int), if w'.coming.irq = 0 then w'.acquire .irq else w') := rfl
    rw [if_neg (by decide), Prog.run_bind, hirq, hcoming]
    have htimer : w'.ledger = L.add (timerHeld w') := by
      rw [hbase, timerHeld, hheld]
    -- all that is left is the interrupt; a refusal goes to exit_6
    by_cases hzero : w.coming.irq = 0
    · rw [if_pos hzero, hzero]
      refine ⟨iff_of_true rfl ⟨hmap, rfl⟩, fun _ => ⟨ledger_acquire _ htimer, ?_⟩, ?_⟩
      · intro k hk
        change (w'.pbuf k).isSome
        rw [hpbuf]
        exact hbufs k hk
      · exact fun hnot => absurd ⟨hmap, rfl⟩ hnot
    · have hne : -(w.coming.irq : Int) ≠ 0 := by omega
      rw [if_neg hzero]
      dsimp only
      rw [if_pos hne]
      exact .of_failed (fun h => hzero h.2) (by decide) (run_exit6 (-EBUSY) htimer)
  · rw [show (w.acquire (.clock .tc1)).coming.maps .tc1 = false from Bool.eq_false_iff.mpr hmap,
      if_pos (by decide)]
    refine .of_failed (fun h => hmap h.1) (by decide) (run_exit5 (-EACCES) ?_)
    have hnone : mapped w' .tc1 = 0 := by
      rw [hw']
      exact mapped_mapBase_of_none hmap
    rw [hbase, hnone, zero_add, hheld]

theorem startAdc_right (h : w.ledger = L.add (ringsHeld w))
    (hbufs : ∀ k ∈ channels, (w.pbuf k).isSome) :
    AllOrNothing L (w.coming.maps .adc ∧ w.coming.maps .tc1 ∧ w.coming.irq = 0)
      (startAdc.run machine w) := by
  have hclock : (w.acquire (.clock .adc)).ledger = L.add ({.clock .adc} + ringsHeld w) :=
    ledger_acquire _ h
  have hbase := ledger_mapBase .adc hclock
  obtain ⟨w', hw'⟩ : ∃ w', w' = (w.acquire (.clock .adc)).mapBase .adc := ⟨_, rfl⟩
  have hpbuf : w'.pbuf = w.pbuf := hw' ▸ pbuf_mapBase _ _
  have hcoming : w'.coming = w.coming := hw' ▸ coming_mapBase _ _
  have hnull := baseIsNull_mapBase (w.acquire (.clock .adc)) .adc
  rw [← hw'] at hbase hnull
  have hrun : startAdc.run machine w =
      (if (w'.base .adc).isNone then exit4 (-EACCES) else startTimer).run machine w' := hw' ▸ rfl
  rw [hrun, hnull]
  by_cases hmap : w.coming.maps .adc
  · rw [show (w.acquire (.clock .adc)).coming.maps .adc = true from hmap, if_neg (by decide)]
    have hrest := startTimer_right (w := w') (L := L)
      (by rw [hbase, adcHeld, ringsHeld_congr hpbuf]) (hpbuf ▸ hbufs)
    rw [hcoming] at hrest
    rwa [and_iff_right hmap]
  · rw [show (w.acquire (.clock .adc)).coming.maps .adc = false from Bool.eq_false_iff.mpr hmap,
      if_pos (by decide)]
    refine .of_failed (fun h => hmap h.1) (by decide) (run_exit4 (-EACCES) ?_)
    have hnone : mapped w' .adc = 0 := by
      rw [hw']
      exact mapped_mapBase_of_none hmap
    rw [hbase, hnone, zero_add, ringsHeld_congr hpbuf]

/-! ### The rings -/

theorem pbuf_allocBuf (w : World) (k : Nat) :
    (w.allocBuf k).pbuf k = if w.coming.buffers k then some w.next else none := by
  unfold World.allocBuf
  split
  · exact Function.update_self _ _ _
  · exact Function.update_self _ _ _

theorem pbuf_allocBuf_of_ne {k k' : Nat} (w : World) (h : k' ≠ k) :
    (w.allocBuf k).pbuf k' = w.pbuf k' := by
  unfold World.allocBuf
  split
  · exact Function.update_of_ne h _ _
  · exact Function.update_of_ne h _ _

theorem coming_allocBuf (w : World) (k : Nat) : (w.allocBuf k).coming = w.coming := by
  unfold World.allocBuf
  split <;> rfl

theorem ledger_allocBuf (k : Nat) (h : w.ledger = L.add s) :
    (w.allocBuf k).ledger = L.add (bufOf (w.allocBuf k) k + s) := by
  rw [bufOf, pbuf_allocBuf]
  unfold World.allocBuf
  by_cases hbuf : w.coming.buffers k
  · rw [if_pos hbuf, if_pos hbuf]
    exact ledger_acquire (.buffer w.next) h
  · rw [if_neg hbuf, if_neg hbuf]
    simpa using h

/-- The rings as they are allocated, one after the other. -/
structure Allocated (ks : List Nat) (w w' : World) : Prop where
  ledger : ∀ (L : Ledger Resource) (s : Multiset Resource),
    w.ledger = L.add s → w'.ledger = L.add (bufs ks w' + s)
  pbuf : ∀ k ∈ ks, (w'.pbuf k).isSome = w.coming.buffers k
  others : ∀ k ∉ ks, w'.pbuf k = w.pbuf k
  coming : w'.coming = w.coming

theorem allocated_allocBufs {ks : List Nat} (hnodup : ks.Nodup) (w : World) :
    Allocated ks w ((allocBufs ks).run machine w).2 := by
  induction ks generalizing w with
  | nil => exact ⟨fun L s h => by simpa [bufs, allocBufs] using h, by simp, fun _ _ => rfl, rfl⟩
  | cons k ks ih =>
      obtain ⟨hk, hnodup'⟩ := List.nodup_cons.mp hnodup
      obtain ⟨w', hw'⟩ : ∃ w', w' = ((allocBufs ks).run machine (w.allocBuf k)).2 := ⟨_, rfl⟩
      have hrest := ih hnodup' (w.allocBuf k)
      rw [← hw'] at hrest
      change Allocated (k :: ks) w ((allocBufs ks).run machine (w.allocBuf k)).2
      rw [← hw']
      refine ⟨fun L s h => ?_, ?_, fun k' hk' => ?_, hrest.coming.trans (coming_allocBuf w k)⟩
      · have hfirst := hrest.ledger L _ (ledger_allocBuf k h)
        have hsame : bufOf (w.allocBuf k) k = bufOf w' k := by
          rw [bufOf, bufOf, hrest.others k hk]
        rw [hfirst, hsame, bufs, bufs, List.map_cons, List.sum_cons]
        congr 1
        abel
      · rintro k' hk'
        rcases List.mem_cons.mp hk' with rfl | hmem
        · rw [hrest.others k' hk, pbuf_allocBuf]
          cases w.coming.buffers k' <;> rfl
        · rw [hrest.pbuf k' hmem, coming_allocBuf]
      · obtain ⟨hne, hmem⟩ := not_or.mp (mt List.mem_cons.mpr hk')
        rw [hrest.others k' hmem, pbuf_allocBuf_of_ne w hne]

theorem run_anyNull (ks : List Nat) (w : World) :
    (anyNull ks).run machine w = (ks.any fun k => (w.pbuf k).isNone, w) := by
  induction ks with
  | nil => rfl
  | cons k ks ih =>
      have hnull : (ask (.bufIsNull k)).run machine w = ((w.pbuf k).isNone, w) := rfl
      unfold anyNull
      rw [Prog.run_bind, hnull, List.any_cons]
      cases (w.pbuf k).isNone with
      | true => rfl
      | false => exact ih

/-- What clearing the rings leaves as it is. -/
structure Cleared (w w' : World) : Prop where
  pbuf : w'.pbuf = w.pbuf
  ledger : w'.ledger = w.ledger
  coming : w'.coming = w.coming

theorem cleared_clearCell (w : World) (k j : Nat) : Cleared w (w.clearCell k j) := by
  unfold World.clearCell
  split <;> exact ⟨rfl, rfl, rfl⟩

theorem cleared_clearCells (cells : List (Nat × Nat)) (w : World) :
    Cleared w ((clearCells cells).run machine w).2 := by
  induction cells generalizing w with
  | nil => exact ⟨rfl, rfl, rfl⟩
  | cons kj rest ih =>
      have hfirst := cleared_clearCell w kj.1 kj.2
      have hrest := ih (w.clearCell kj.1 kj.2)
      exact ⟨hrest.pbuf.trans hfirst.pbuf, hrest.ledger.trans hfirst.ledger,
        hrest.coming.trans hfirst.coming⟩

theorem run_clear (cells : List (Nat × Nat)) (next : Driver Int) (w : World) :
    ∃ w', Cleared w w' ∧
      (do ask .clearIndex; clearCells cells; next : Driver Int).run machine w =
        next.run machine w' := by
  have hcells := cleared_clearCells cells { w with appidx := 0 }
  refine ⟨_, ⟨hcells.pbuf, hcells.ledger, hcells.coming⟩, ?_⟩
  rw [Prog.run_bind, Prog.run_bind]
  rfl

/-- Nothing that a load asks for is refused. -/
def Outcomes.Granted (o : Outcomes) : Prop :=
  o.misc = 0 ∧ (∀ k ∈ channels, o.buffers k) ∧ o.maps .adc ∧ o.maps .tc1 ∧ o.irq = 0

theorem at91adcInit_right (w : World) :
    AllOrNothing w.ledger w.coming.Granted (at91adcInit.run machine w) := by
  have hmisc : (ask .miscRegister : Driver Int).run machine w =
      (-(w.coming.misc : Int), if w.coming.misc = 0 then w.acquire .misc else w) := rfl
  unfold at91adcInit
  rw [Prog.run_bind, hmisc]
  by_cases hzero : w.coming.misc = 0
  · have hheld : (w.acquire .misc).ledger = w.ledger.add {.misc} := w.ledger.acquire_eq .misc
    have halloc := allocated_allocBufs (by decide : channels.Nodup) (w.acquire .misc)
    obtain ⟨w₁, hw₁⟩ : ∃ w₁, w₁ = ((allocBufs channels).run machine (w.acquire .misc)).2 := ⟨_, rfl⟩
    rw [← hw₁] at halloc
    have hledger : w₁.ledger = w.ledger.add (ringsHeld w₁) := halloc.ledger _ _ hheld
    have hcoming : w₁.coming = w.coming := halloc.coming
    rw [if_pos hzero, hzero]
    change AllOrNothing _ _ (Prog.run machine (allocBufs channels >>= _) (w.acquire .misc))
    rw [Prog.run_bind, ← hw₁, Prog.run_bind, run_anyNull]
    dsimp only
    by_cases hnull : (channels.any fun k => (w₁.pbuf k).isNone) = true
    · rw [if_pos hnull]
      refine .of_failed (fun h => ?_) (by decide) (run_exit3 (-ECANCELED) hledger)
      obtain ⟨k, hk, hnone⟩ := List.any_eq_true.mp hnull
      have hsome := halloc.pbuf k hk
      rw [show (w.acquire .misc).coming.buffers k = true from h.2.1 k hk] at hsome
      rw [Option.isNone_iff_eq_none.mp hnone] at hsome
      cases hsome
    · rw [if_neg hnull]
      have hsome : ∀ k ∈ channels, (w₁.pbuf k).isSome := by
        intro k hk
        by_contra hnone
        exact hnull (List.any_eq_true.mpr ⟨k, hk, by simpa using hnone⟩)
      have hgranted : ∀ k ∈ channels, w.coming.buffers k := fun k hk =>
        (halloc.pbuf k hk).symm.trans (hsome k hk)
      -- clearing the rings changes nothing that is held
      obtain ⟨w₂, hrings, hrun⟩ := run_clear ringCells startAdc w₁
      have hledger₂ : w₂.ledger = w.ledger.add (ringsHeld w₂) := by
        rw [hrings.ledger, hledger, ringsHeld_congr hrings.pbuf]
      have hsome₂ : ∀ k ∈ channels, (w₂.pbuf k).isSome := by
        rw [hrings.pbuf]
        exact hsome
      have hrest := startAdc_right hledger₂ hsome₂
      rw [hrings.coming.trans hcoming] at hrest
      rw [hrun]
      rwa [Outcomes.Granted, and_iff_right hzero, and_iff_right hgranted]
  · have hne : -(w.coming.misc : Int) ≠ 0 := by omega
    rw [if_neg hzero]
    dsimp only
    rw [if_pos hne]
    exact .of_failed (fun h => hzero h.1) hne ⟨rfl, rfl⟩

/-! ## An unload -/

/-- What an unload leaves behind is the rings. -/
theorem run_at91adcExit (h : w.ledger = L.add (allHeld w)) :
    (at91adcExit.run machine w).2.ledger = L.add (bufs channels w) := by
  have hall : w.ledger = L.add ({.clock .adc} + ({.clock .tc1} + ({.irq} + (mapped w .adc +
      (mapped w .tc1 + ({.misc} + bufs channels w)))))) := by
    rw [h, allHeld, timerHeld, adcHeld, ringsHeld]
    congr 1
    abel
  have hclocks := ledger_release (ledger_release hall)
  have hirq := ledger_release hclocks
  have hadc := ledger_unmapBase (p := .adc) hirq
  have htc1 := ledger_unmapBase (p := .tc1)
    (w := (((w.release (.clock .adc)).release (.clock .tc1)).release .irq).unmapBase .adc)
    (s := {.misc} + bufs channels w) (by rw [hadc, mapped, mapped, base_unmapBase]; rfl)
  exact ledger_release htc1

theorem card_bufs {ks : List Nat} (h : ∀ k ∈ ks, (w.pbuf k).isSome) :
    (bufs ks w).card = ks.length := by
  induction ks with
  | nil => rfl
  | cons k ks ih =>
      obtain ⟨a, ha⟩ := Option.isSome_iff_exists.mp (h k List.mem_cons_self)
      have hrest := ih fun k' hk' => h k' (List.mem_cons_of_mem k hk')
      rw [bufs, List.map_cons, List.sum_cons, Multiset.card_add, ← bufs, hrest, bufOf, ha,
        List.length_cons, add_comm]
      rfl

/-! ## Loads and unloads -/

/-- What the module holds besides the rings `left` that earlier unloads left
behind: everything when it is loaded, and nothing when it is not. -/
structure Sound (left : Multiset Resource) (st : Module.State World) : Prop where
  loaded : st.loaded = true →
    st.world.ledger = Ledger.add ⟨left, 0⟩ (allHeld st.world) ∧
      ∀ k ∈ channels, (st.world.pbuf k).isSome
  unloaded : st.loaded = false → st.world.ledger = ⟨left, 0⟩

variable {left : Multiset Resource} {st : Module.State World}

theorem Sound.stray (h : Sound left st) : st.world.ledger.stray = 0 := by
  cases hloaded : st.loaded with
  | true => rw [(h.loaded hloaded).1, Ledger.stray_add]
  | false => rw [h.unloaded hloaded]

/-- A load that the kernel runs. -/
theorem Sound.load (h : Sound left st) (hst : st.loaded = false) (o : Outcomes) :
    Sound left (adcModule.step st (.load o)) ∧
      ((adcModule.step st (.load o)).loaded = true ↔ o.Granted) := by
  have hledger : (st.world.fresh o).ledger = ⟨left, 0⟩ := h.unloaded hst
  have hinit := at91adcInit_right (st.world.fresh o)
  rw [hledger] at hinit
  have hgranted : (adcModule.step st (.load o)).loaded = true ↔ o.Granted := by
    rw [adcModule.step_load o hst]
    exact decide_eq_true_iff.trans hinit.returns
  refine ⟨⟨fun hloaded => ?_, fun hnot => ?_⟩, hgranted⟩
  · rw [adcModule.step_load o hst]
    exact hinit.takes (hgranted.mp hloaded)
  · have hrefused : ¬ o.Granted := fun ho => Bool.false_ne_true (hnot.symm.trans (hgranted.mpr ho))
    rw [adcModule.step_load o hst]
    exact hinit.keeps hrefused

/-- An unload of the loaded module leaves eleven rings behind. -/
theorem Sound.unload (h : Sound left st) (hst : st.loaded = true) :
    ∃ rings : Multiset Resource, rings.card = 11 ∧
      Sound (rings + left) (adcModule.step st .unload) := by
  obtain ⟨hledger, hsome⟩ := h.loaded hst
  refine ⟨bufs channels st.world, card_bufs hsome, ?_⟩
  rw [adcModule.step_unload hst]
  exact ⟨fun hloaded => absurd hloaded Bool.false_ne_true, fun _ => run_at91adcExit hledger⟩

/-- No load that is granted everything is followed by an unload. -/
def Installed (requests : List (Request Outcomes)) : Prop :=
  requests.Pairwise fun r r' => ∀ o, r = .load o → o.Granted → r' ≠ .unload

theorem installed_load {done : List (Request Outcomes)} {o : Outcomes} :
    Installed (done ++ [.load o]) ↔ Installed done := by
  simp [Installed, List.pairwise_append]

theorem installed_unload {done : List (Request Outcomes)} :
    Installed (done ++ [.unload]) ↔
      Installed done ∧ ¬ ∃ o : Outcomes, .load o ∈ done ∧ o.Granted := by
  rw [Installed, List.pairwise_append, and_iff_right (List.pairwise_singleton _ _)]
  refine and_congr_right fun _ => ⟨fun h => ?_, fun h r hr r' hr' o ho hgranted => ?_⟩
  · rintro ⟨o, hmem, hgranted⟩
    exact h (.load o) hmem .unload (List.mem_singleton_self _) o rfl hgranted rfl
  · exact absurd ⟨o, ho ▸ hr, hgranted⟩ h

theorem exists_granted_load {done : List (Request Outcomes)} {o : Outcomes} :
    (∃ o' : Outcomes, .load o' ∈ done ++ [.load o] ∧ o'.Granted) ↔
      (∃ o' : Outcomes, .load o' ∈ done ∧ o'.Granted) ∨ o.Granted := by
  simp [or_and_right, exists_or]

theorem exists_granted_unload {done : List (Request Outcomes)} :
    (∃ o : Outcomes, .load o ∈ done ++ [.unload] ∧ o.Granted) ↔
      ∃ o : Outcomes, .load o ∈ done ∧ o.Granted := by
  simp

/-- The rings left behind, and when the module is loaded as long as there are
none. -/
theorem sound_run (w : World) (done : List (Request Outcomes)) :
    ∃ left, Sound left (adcModule.run w.boot done) ∧ (left = 0 ↔ Installed done) ∧
      (Installed done →
        ((adcModule.run w.boot done).loaded = true ↔
          ∃ o : Outcomes, .load o ∈ done ∧ o.Granted)) := by
  induction done using List.reverseRecOn with
  | nil =>
      refine ⟨0, ⟨fun h => absurd h Bool.false_ne_true, fun _ => rfl⟩, ?_, fun _ => ?_⟩
      · exact iff_of_true rfl List.Pairwise.nil
      · exact iff_of_false Bool.false_ne_true fun ⟨o, hmem, _⟩ => List.not_mem_nil hmem
  | append_singleton done r ih =>
      obtain ⟨left, hsound, hleft, hloaded⟩ := ih
      rw [adcModule.run_concat]
      cases hst : (adcModule.run w.boot done).loaded with
      | true =>
          cases r with
          | load o =>
              rw [adcModule.step_refused hst, installed_load, exists_granted_load]
              exact ⟨left, hsound, hleft, fun h => iff_of_true hst (.inl ((hloaded h).mp hst))⟩
          | unload =>
              -- an unload leaves its eleven rings behind
              obtain ⟨rings, hcard, hsound'⟩ := hsound.unload hst
              have hnot : ¬ Installed (done ++ [.unload]) := by
                rw [installed_unload]
                exact fun h => h.2 ((hloaded h.1).mp hst)
              have hne : rings + left ≠ 0 := by
                intro hzero
                have hcards := congrArg Multiset.card hzero
                rw [Multiset.card_add, hcard, Multiset.card_zero] at hcards
                omega
              exact ⟨rings + left, hsound', iff_of_false hne hnot, fun h => absurd h hnot⟩
      | false =>
          have hnone (h : Installed done) : ¬ ∃ o : Outcomes, .load o ∈ done ∧ o.Granted :=
            fun hex => Bool.false_ne_true (hst.symm.trans ((hloaded h).mpr hex))
          cases r with
          | load o =>
              obtain ⟨hsound', hgranted⟩ := hsound.load hst o
              rw [installed_load, exists_granted_load]
              refine ⟨left, hsound', hleft, fun h => ?_⟩
              rw [or_iff_right (hnone h)]
              exact hgranted
          | unload =>
              -- a module that is not loaded stays so, and no load was granted everything
              rw [adcModule.step_refused hst, installed_unload, exists_granted_unload]
              exact ⟨left, hsound, hleft.trans ⟨fun h => ⟨h, hnone h⟩, And.left⟩,
                fun h => iff_of_false (hst ▸ Bool.false_ne_true) h.2⟩

/-- At every moment of a life, nothing was released that was not held, and the
module holds nothing when it is not loaded. -/
def Balanced (w : World) (requests : List (Request Outcomes)) : Prop :=
  ∀ done, done <+: requests →
    (adcModule.run w.boot done).world.ledger.stray = 0 ∧
      ((adcModule.run w.boot done).loaded = false →
        (adcModule.run w.boot done).world.ledger.held = 0)

theorem installed_of_balanced {w : World} {requests : List (Request Outcomes)}
    (h : Balanced w requests) : Installed requests := by
  induction requests using List.reverseRecOn with
  | nil => exact List.Pairwise.nil
  | append_singleton done r ih =>
      have hdone := ih fun before hbefore => h before (hbefore.trans (List.prefix_append done [r]))
      cases r with
      | load o => exact installed_load.mpr hdone
      | unload =>
          obtain ⟨left, hsound, hleft, -⟩ := sound_run w (done ++ [.unload])
          have hunloaded : (adcModule.run w.boot (done ++ [.unload])).loaded = false := by
            rw [adcModule.run_concat]
            cases hst : (adcModule.run w.boot done).loaded with
            | true => rw [adcModule.step_unload hst]
            | false => rw [adcModule.step_refused hst, hst]
          have hheld := (h _ (List.prefix_refl _)).2 hunloaded
          rw [hsound.unloaded hunloaded] at hheld
          exact hleft.mp hheld

/-- The module gives back what it took exactly as long as it stays loaded. -/
theorem balanced_iff_installed (w : World) (requests : List (Request Outcomes)) :
    Balanced w requests ↔ Installed requests := by
  refine ⟨installed_of_balanced, fun h done hdone => ?_⟩
  obtain ⟨left, hsound, hleft, -⟩ := sound_run w done
  have hzero : left = 0 := hleft.mpr (List.Pairwise.sublist hdone.sublist h)
  refine ⟨hsound.stray, fun hunloaded => ?_⟩
  rw [hsound.unloaded hunloaded, hzero]

/-- A load that is granted everything, into a fresh memory. -/
def granted : Outcomes := ⟨0, fun _ => true, fun _ => true, 0⟩

def World.blank : World := ⟨fun _ => none, 0, fun _ => none, fun _ _ => none, 0, .empty, granted⟩

/-- Loaded and unloaded once, the module still holds its rings. -/
theorem unload_keeps_rings : ¬ Balanced World.blank [.load granted, .unload] := by
  intro h
  have hsequence := installed_of_balanced h
  have hunload := (List.pairwise_cons.mp hsequence).1 .unload (List.mem_singleton_self _)
  exact hunload granted rfl ⟨rfl, fun _ _ => rfl, rfl, rfl, rfl⟩ rfl

end At91Drivers.Adc.Life
