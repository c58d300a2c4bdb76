import At91Drivers.Adc.Average
import At91Drivers.Adc.Opening
import At91Drivers.Effects.Life

/-!
# Interrupts over the life of the ADC module

The interrupt of the timer may come as soon as `request_irq` has granted it and until
`free_irq`.  It stores through the globals of the module, so its rings have to be
there, apart from each other, and the registers mapped, at every moment between the
two.  They are, over any loads and unloads: the interrupt is the last thing that a
load asks for, and an unload gives the registers back only after it.  The rings hold
the samples since the latest load.

An unload stops the clocks before the interrupt, though.
-/

namespace At91Drivers.Adc.Life

open Arith Effects Kernel

/-! ## Interrupts -/

namespace World

/-- `at91adc_pbuf<k>[at91adc_appidx] = v`. -/
def storeSample (w : World) (k : Nat) (v : UInt16) : World :=
  match w.pbuf k with
  | some a =>
      { w with
        cells := Function.update w.cells a (Function.update (w.cells a) w.appidx.toNat (some v)) }
  | none => w

/-- `at91tc0_isr` on the memory of the module. -/
def isr (w : World) (chr : Registers) : World :=
  let w := channels.foldl (fun w k => w.storeSample k (sample chr k)) w
  let appidx := w.appidx + 1
  { w with appidx := if maxAdcSamples ≤ appidx.toNat then 0 else appidx }

/-- The rings that the globals of the module point to. -/
def rings (w : World) : Rings where
  pbuf k j := (w.pbuf k).elim 0 fun a => (w.cells a j).getD 0
  appidx := w.appidx

end World

/-- The ADC module next to its interrupts. -/
def adcLife : Lifecycle Op Reply Outcomes Registers World where
  machine := machine
  fresh o w := w.fresh o
  init := at91adcInit
  exit := at91adcExit
  enabled w := .irq ∈ w.ledger.held
  interrupt chr w := w.isr chr

/-- What an interrupt relies on. -/
structure Ready (w : World) : Prop where
  rings : ∀ k ∈ channels, ∃ a, w.pbuf k = some a ∧ .buffer a ∈ w.ledger.held ∧
    ∀ j < maxAdcSamples, (w.cells a j).isSome
  separate : ∀ k k' a, w.pbuf k = some a → w.pbuf k' = some a → k = k'
  index_lt : w.appidx.toNat < maxAdcSamples
  mapped : ∀ p, ∃ a, w.base p = some a ∧ .mapping a ∈ w.ledger.held

/-- The interrupt was granted once, and the rings hold these samples. -/
structure Running (w : World) (came : List Registers) : Prop where
  ready : Ready w
  once : w.ledger.held.count .irq = 1
  sampled : Sampled w.rings came

variable {w : World} {past : List (Event Op Reply)} {came : List Registers} {e : Op}

/-! ### What an interrupt changes -/

/-- Only cells change, and none of them is lost. -/
structure Stored (w w' : World) : Prop where
  pbuf : w'.pbuf = w.pbuf
  base : w'.base = w.base
  ledger : w'.ledger = w.ledger
  next : w'.next = w.next
  cells : ∀ a j, (w.cells a j).isSome → (w'.cells a j).isSome

theorem stored_storeSample (w : World) (k : Nat) (v : UInt16) : Stored w (w.storeSample k v) := by
  unfold World.storeSample
  split
  · rename_i a' _
    refine ⟨rfl, rfl, rfl, rfl, fun a j hsome => ?_⟩
    dsimp only
    by_cases haddr : a = a'
    · rw [haddr, Function.update_self]
      by_cases hj : j = w.appidx.toNat
      · rw [hj, Function.update_self]
        rfl
      · rw [Function.update_of_ne hj, ← haddr]
        exact hsome
    · rw [Function.update_of_ne haddr]
      exact hsome
  · exact ⟨rfl, rfl, rfl, rfl, fun _ _ h => h⟩

theorem appidx_storeSample (w : World) (k : Nat) (v : UInt16) :
    (w.storeSample k v).appidx = w.appidx := by
  unfold World.storeSample
  split <;> rfl

theorem stored_foldl (chr : Registers) (ks : List Nat) (w : World) :
    Stored w (ks.foldl (fun w k => w.storeSample k (sample chr k)) w) := by
  induction ks generalizing w with
  | nil => exact ⟨rfl, rfl, rfl, rfl, fun _ _ h => h⟩
  | cons k rest ih =>
      have hfirst := stored_storeSample w k (sample chr k)
      have hrest := ih (w.storeSample k (sample chr k))
      exact ⟨hrest.pbuf.trans hfirst.pbuf, hrest.base.trans hfirst.base,
        hrest.ledger.trans hfirst.ledger, hrest.next.trans hfirst.next,
        fun a j h => hrest.cells a j (hfirst.cells a j h)⟩

theorem stored_isr (w : World) (chr : Registers) : Stored w (w.isr chr) := by
  have h := stored_foldl chr channels w
  exact ⟨h.pbuf, h.base, h.ledger, h.next, h.cells⟩

theorem rings_ext {s t : Rings} (hpbuf : ∀ k j, s.pbuf k j = t.pbuf k j)
    (hindex : s.appidx = t.appidx) : s = t := by
  obtain ⟨pbuf, appidx⟩ := s
  obtain rfl : pbuf = t.pbuf := funext fun k => funext (hpbuf k)
  obtain rfl : appidx = t.appidx := hindex
  rfl

/-- A store through the global of a channel is a store to its ring: the rings are
apart from each other. -/
theorem rings_storeSample {k a : Nat} (ha : w.pbuf k = some a)
    (hseparate : ∀ k k' a, w.pbuf k = some a → w.pbuf k' = some a → k = k') (v : UInt16) :
    (w.storeSample k v).rings = w.rings.store k w.appidx.toNat v := by
  have hstore : w.storeSample k v = { w with
      cells := Function.update w.cells a
        (Function.update (w.cells a) w.appidx.toNat (some v)) } := by
    unfold World.storeSample
    rw [ha]
  refine rings_ext (fun k' j => ?_) (appidx_storeSample w k v)
  rw [Rings.store_pbuf, hstore]
  change (w.pbuf k').elim 0 _ =
    if k' = k ∧ j = w.appidx.toNat then v else (w.pbuf k').elim 0 _
  by_cases hk : k' = k
  · subst hk
    simp only [ha, Option.elim_some, Function.update_self, true_and]
    by_cases hj : j = w.appidx.toNat
    · rw [if_pos hj, hj, Function.update_self]
      rfl
    · rw [if_neg hj, Function.update_of_ne hj]
  · rw [if_neg fun h => hk h.1]
    cases hother : w.pbuf k' with
    | none => rfl
    | some a' =>
        have hne : a' ≠ a := fun heq => hk (hseparate k' k a (heq ▸ hother) ha)
        simp only [Option.elim_some, Function.update_of_ne hne]

theorem rings_foldl (chr : Registers) {ks : List Nat}
    (hks : ∀ k ∈ ks, ∃ a, w.pbuf k = some a)
    (hseparate : ∀ k k' a, w.pbuf k = some a → w.pbuf k' = some a → k = k') :
    (ks.foldl (fun w k => w.storeSample k (sample chr k)) w).rings =
      ks.foldl (fun s k => s.store k s.appidx.toNat (sample chr k)) w.rings := by
  induction ks generalizing w with
  | nil => rfl
  | cons k rest ih =>
      obtain ⟨a, ha⟩ := hks k List.mem_cons_self
      have hpbuf := (stored_storeSample w k (sample chr k)).pbuf
      have hrest := ih (w := w.storeSample k (sample chr k))
        (by rw [hpbuf]; exact fun k' hk' => hks k' (List.mem_cons_of_mem k hk'))
        (by rw [hpbuf]; exact hseparate)
      rw [List.foldl_cons, List.foldl_cons, hrest, rings_storeSample ha hseparate]
      rfl

/-- On rings that are ready an interrupt of the module is one of the sampler. -/
theorem rings_isr (h : Ready w) (chr : Registers) :
    (w.isr chr).rings = at91tc0Isr w.rings chr := by
  have hks : ∀ k ∈ channels, ∃ a, w.pbuf k = some a := fun k hk =>
    (h.rings k hk).imp fun a ha => ha.1
  have hfold := rings_foldl chr hks h.separate
  obtain ⟨w', hw'⟩ : ∃ w', w' =
      channels.foldl (fun w k => w.storeSample k (sample chr k)) w := ⟨_, rfl⟩
  have hisr : w.isr chr = { w' with
      appidx := if maxAdcSamples ≤ (w'.appidx + 1).toNat then 0 else w'.appidx + 1 } := by
    rw [hw']
    rfl
  rw [← hw'] at hfold
  have hrings : at91tc0Isr w.rings chr = { w'.rings with
      appidx := if maxAdcSamples ≤ (w'.rings.appidx + 1).toNat then 0
        else w'.rings.appidx + 1 } := by
    rw [hfold]
    rfl
  rw [hisr, hrings]
  rfl

/-- An interrupt that finds the rings leaves them as it needs them. -/
theorem Running.isr (h : Running w came) (chr : Registers) :
    Running (w.isr chr) (came ++ [chr]) := by
  obtain ⟨hpbuf, hbase, hledger, -, hcells⟩ := stored_isr w chr
  have hsampled := h.sampled.isr chr
  rw [← rings_isr h.ready chr] at hsampled
  refine ⟨⟨fun k hk => ?_, ?_, hsampled.index_lt, fun p => ?_⟩, ?_, hsampled⟩
  · obtain ⟨a, ha, hheld, hsome⟩ := h.ready.rings k hk
    rw [hpbuf, hledger]
    exact ⟨a, ha, hheld, fun j hj => hcells a j (hsome j hj)⟩
  · rw [hpbuf]
    exact h.ready.separate
  · rw [hbase, hledger]
    exact h.ready.mapped p
  · rw [hledger]
    exact h.once

theorem Orderly.isr (h : Orderly w) (chr : Registers) : Orderly (w.isr chr) := by
  obtain ⟨-, -, hledger, hnext, -⟩ := stored_isr w chr
  unfold Orderly
  rw [hledger, hnext]
  exact h

/-! ## What a load asks for -/

/-- The interrupt was granted. -/
def Granted (past : List (Event Op Reply)) : Prop :=
  (⟨.requestIrq, (0 : Int)⟩ : Event Op Reply) ∈ past

/-- The operations that give nothing back. -/
def Op.Forward : Op → Prop
  | .miscDeregister | .freeBuf _ | .clkDisable _ | .unmapBase _ | .freeIrq => False
  | _ => True

/-- The rings were cleared, the peripherals `ps` were found mapped, their clocks run,
and nothing was given back. -/
structure Upto (past : List (Event Op Reply)) (cells : List (Nat × Nat)) (ps : List Peripheral) :
    Prop where
  forward : ∀ event ∈ past, event.1.Forward
  notGranted : ¬ Granted past
  cleared : ∀ kj ∈ cells, Did past (.clearCell kj.1 kj.2)
  mapped : ∀ p ∈ ps, (⟨.baseIsNull p, false⟩ : Event Op Reply) ∈ past
  clocked : ∀ p ∈ ps, Did past (.clkEnable p)
  unchecked : ∀ p ∉ ps, ¬ Did past (.baseIsNull p)

/-- A block of registers is mapped before the driver looks at its address, and the
interrupt is requested when everything else is done.  Nothing comes after it. -/
def InTurn (past : List (Event Op Reply)) (e : Op) : Prop :=
  ¬ Granted past ∧
    match e with
    | .mapBase p => ¬ Did past (.baseIsNull p)
    | .requestIrq => Upto past ringCells [.adc, .tc1]
    | _ => True

/-- The load succeeds just when the interrupt is granted. -/
def Returns (past : List (Event Op Reply)) (ret : Int) : Prop := ret = 0 ↔ Granted past

/-- The operations on the rings and the registration. -/
def Op.Plain : Op → Prop
  | .miscRegister | .allocBuf _ | .bufIsNull _ | .clearIndex | .clearCell _ _ => True
  | _ => False

variable {cells : List (Nat × Nat)} {ps : List Peripheral} {α : Type}

theorem granted_concat {r : Reply e} (hne : e ≠ .requestIrq) :
    Granted (past ++ [⟨e, r⟩]) ↔ Granted past := by
  unfold Granted
  rw [List.mem_append, or_iff_left]
  intro hmem
  exact hne (congrArg Sigma.fst (List.mem_singleton.mp hmem)).symm

theorem Upto.concat (h : Upto past cells ps) (he : e.Forward) (hirq : e ≠ .requestIrq)
    (hbase : ∀ p, e ≠ .baseIsNull p) (r : Reply e) : Upto (past ++ [⟨e, r⟩]) cells ps := by
  refine ⟨fun event hevent => ?_, ?_, fun kj hkj => ?_, fun p hp => ?_, fun p hp => ?_,
    fun p hp => ?_⟩
  · rcases List.mem_append.mp hevent with hevent | hevent
    · exact h.forward event hevent
    · obtain rfl := List.mem_singleton.mp hevent
      exact he
  · rw [granted_concat hirq]
    exact h.notGranted
  · exact did_concat.mpr (.inl (h.cleared kj hkj))
  · exact List.mem_append_left _ (h.mapped p hp)
  · exact did_concat.mpr (.inl (h.clocked p hp))
  · rw [did_concat, or_iff_left (hbase p)]
    exact h.unchecked p hp

theorem Op.Plain.forward (he : e.Plain) : e.Forward := by
  cases e <;> trivial

/-- The operations on the rings may come at any time before the interrupt. -/
theorem inTurn_plain (he : e.Plain) (h : ¬ Granted past) : InTurn past e := by
  refine ⟨h, ?_⟩
  cases e with
  | mapBase p => exact he.elim
  | requestIrq => exact he.elim
  | _ => trivial

theorem Op.Plain.concat (he : e.Plain) (h : Upto past cells ps) (r : Reply e) :
    Upto (past ++ [⟨e, r⟩]) cells ps := by
  refine h.concat he.forward ?_ (fun p => ?_) r
  · rintro rfl
    exact he
  · rintro rfl
    exact he

theorem meets_plain {p : Driver α} (hp : p.Asks Op.Plain) (h : Upto past cells ps) :
    p.Meets (fun _ _ => True) InTurn (fun past _ => Upto past cells ps) past := by
  induction p generalizing past with
  | pure a => exact h
  | op e k ih => exact ⟨inTurn_plain hp.1 h.notGranted, fun r _ => ih r (hp.2 r) (hp.1.concat h r)⟩

theorem plain_allocBufs (ks : List Nat) : (allocBufs ks).Asks Op.Plain := by
  induction ks with
  | nil => trivial
  | cons k ks ih => exact ⟨trivial, fun _ => ih⟩

theorem plain_anyNull (ks : List Nat) : (anyNull ks).Asks Op.Plain := by
  induction ks with
  | nil => trivial
  | cons k ks ih =>
      refine ⟨trivial, fun failed => ?_⟩
      change Prog.Asks _ (if failed = true then _ else _)
      split
      · trivial
      · exact ih

/-- The loop clears one cell after the other. -/
theorem meets_clearing {done : List (Nat × Nat)} (rest : List (Nat × Nat))
    (h : Upto past done ps) :
    (clearCells rest).Meets (fun _ _ => True) InTurn (fun past _ => Upto past (done ++ rest) ps)
      past := by
  induction rest generalizing past done with
  | nil =>
      rw [List.append_nil]
      exact h
  | cons kj rest ih =>
      have hplain : (Op.clearCell kj.1 kj.2).Plain := trivial
      refine ⟨inTurn_plain hplain h.notGranted, fun r _ => ?_⟩
      have hnext := hplain.concat h r
      have hcleared : Upto (past ++ [⟨.clearCell kj.1 kj.2, r⟩]) (done ++ [kj]) ps := by
        refine { hnext with cleared := fun kj' hkj' => ?_ }
        rcases List.mem_append.mp hkj' with hmem | hmem
        · exact hnext.cleared kj' hmem
        · obtain rfl := List.mem_singleton.mp hmem
          exact did_concat.mpr (.inr rfl)
      have hrest := ih hcleared
      rw [List.append_assoc] at hrest
      exact hrest

/-! ### The ladder -/

theorem meets_unwinding {p : Driver α}
    (hp : p.Asks fun e => ¬ e.Forward) (h : ¬ Granted past) :
    p.Meets (fun _ _ => True) InTurn (fun past _ => ¬ Granted past) past := by
  induction p generalizing past with
  | pure a => exact h
  | op e k ih =>
      obtain ⟨he, hk⟩ := hp
      have hne : e ≠ .requestIrq := by
        rintro rfl
        exact he trivial
      refine ⟨⟨h, ?_⟩, fun r _ => ih r (hk r) (by rwa [granted_concat hne])⟩
      cases e with
      | mapBase p => exact absurd trivial he
      | requestIrq => exact absurd trivial he
      | _ => trivial

theorem unwinding_freeBufs (ks : List Nat) : (freeBufs ks).Asks fun e => ¬ e.Forward := by
  induction ks with
  | nil => trivial
  | cons k ks ih => exact ⟨id, fun _ => ih⟩

theorem meets_failed {ret : Int} (hret : ret ≠ 0) (h : ¬ Granted past) :
    (pure ret : Driver Int).Meets (fun _ _ => True) InTurn Returns past :=
  iff_of_false hret h

theorem meets_undo {next : Driver Int} (he : ¬ e.Forward) (h : ¬ Granted past)
    (hnext : ∀ past, ¬ Granted past → next.Meets (fun _ _ => True) InTurn Returns past) :
    (do let _ ← ask e; next : Driver Int).Meets (fun _ _ => True) InTurn Returns past := by
  have hundo : (ask e : Driver (Reply e)).Asks fun e => ¬ e.Forward := ⟨he, fun _ => trivial⟩
  rw [Prog.meets_bind]
  exact (meets_unwinding hundo h).mono fun _ _ hlater => hnext _ hlater

/-- A failed load returns an error. -/
theorem meets_exit3 {ret : Int} (hret : ret ≠ 0) (h : ¬ Granted past) :
    (exit3 ret).Meets (fun _ _ => True) InTurn Returns past := by
  unfold exit3
  rw [Prog.meets_bind]
  refine (meets_unwinding (unwinding_freeBufs channels) h).mono fun later _ hlater => ?_
  exact meets_undo id hlater fun _ hlast => meets_failed hret hlast

theorem meets_exit4 {ret : Int} (hret : ret ≠ 0) (h : ¬ Granted past) :
    (exit4 ret).Meets (fun _ _ => True) InTurn Returns past :=
  meets_undo id h fun _ hlater => meets_exit3 hret hlater

theorem meets_exit5 {ret : Int} (hret : ret ≠ 0) (h : ¬ Granted past) :
    (exit5 ret).Meets (fun _ _ => True) InTurn Returns past :=
  meets_undo id h fun _ hclk => meets_undo id hclk fun _ hlater => meets_exit4 hret hlater

theorem meets_exit6 {ret : Int} (hret : ret ≠ 0) (h : ¬ Granted past) :
    (exit6 ret).Meets (fun _ _ => True) InTurn Returns past :=
  meets_undo id h fun _ hlater => meets_exit5 hret hlater

/-! ### The way up -/

/-- A peripheral that is started and found mapped. -/
theorem Upto.start {p : Peripheral} (h : Upto past cells ps) :
    Upto (past ++ [⟨.clkEnable p, ()⟩] ++ [⟨.mapBase p, ()⟩] ++ [⟨.baseIsNull p, false⟩]) cells
      (ps ++ [p]) := by
  have hclk := h.concat (e := .clkEnable p) trivial (by simp) (by simp) ()
  have hmap := hclk.concat (e := .mapBase p) trivial (by simp) (by simp) ()
  refine ⟨fun event hevent => ?_, ?_, fun kj hkj => ?_, fun p' hp' => ?_, fun p' hp' => ?_,
    fun p' hp' => ?_⟩
  · rcases List.mem_append.mp hevent with hevent | hevent
    · exact hmap.forward event hevent
    · obtain rfl := List.mem_singleton.mp hevent
      trivial
  · rw [granted_concat (by simp)]
    exact hmap.notGranted
  · exact did_concat.mpr (.inl (hmap.cleared kj hkj))
  · rcases List.mem_append.mp hp' with hmem | hmem
    · exact List.mem_append_left _ (hmap.mapped p' hmem)
    · obtain rfl := List.mem_singleton.mp hmem
      exact List.mem_append_right _ List.mem_cons_self
  · rcases List.mem_append.mp hp' with hmem | hmem
    · exact did_concat.mpr (.inl (hmap.clocked p' hmem))
    · obtain rfl := List.mem_singleton.mp hmem
      exact did_concat.mpr (.inl (did_concat.mpr (.inl (did_concat.mpr (.inr rfl)))))
  · obtain ⟨hps, hne⟩ := not_or.mp (mt List.mem_append.mpr hp')
    have hother : p ≠ p' := fun heq => hne (List.mem_singleton.mpr heq.symm)
    rw [did_concat, or_iff_left (by simpa using hother)]
    exact hmap.unchecked p' hps

theorem meets_start {p : Peripheral} {failed next : Driver Int} (h : Upto past cells ps)
    (hp : p ∉ ps)
    (hfailed : ∀ past, ¬ Granted past → failed.Meets (fun _ _ => True) InTurn Returns past)
    (hnext : ∀ past, Upto past cells (ps ++ [p]) →
      next.Meets (fun _ _ => True) InTurn Returns past) :
    (do
      ask (.clkEnable p)
      ask (.mapBase p)
      if ← ask (.baseIsNull p) then failed else next : Driver Int).Meets (fun _ _ => True) InTurn
        Returns past := by
  have hclk := h.concat (e := .clkEnable p) trivial (by simp) (by simp) ()
  have hmap := hclk.concat (e := .mapBase p) trivial (by simp) (by simp) ()
  refine ⟨⟨h.notGranted, trivial⟩, fun _ _ => ⟨⟨hclk.notGranted, hclk.unchecked p hp⟩, fun _ _ =>
    ⟨⟨hmap.notGranted, trivial⟩, fun null _ => ?_⟩⟩⟩
  change Prog.Meets _ _ _ (if null = true then _ else _) _
  cases null with
  | true =>
      apply hfailed
      rw [granted_concat (by simp)]
      exact hmap.notGranted
  | false => exact hnext _ h.start

theorem meets_requestIrq (h : Upto past ringCells [.adc, .tc1]) :
    (do
      let ret ← (ask .requestIrq : Driver Int)
      if ret ≠ 0 then exit6 (-EBUSY) else return 0 : Driver Int).Meets (fun _ _ => True) InTurn
        Returns past := by
  refine ⟨⟨h.notGranted, h⟩, fun ret _ => ?_⟩
  change Prog.Meets _ _ _ (if ret ≠ (0 : Int) then _ else _) _
  split
  · rename_i hret
    apply meets_exit6 (by decide)
    intro hgranted
    rcases List.mem_append.mp hgranted with hmem | hmem
    · exact h.notGranted hmem
    · have hreply := List.mem_singleton.mp hmem
      simp only [Sigma.mk.injEq, heq_eq_eq, true_and] at hreply
      exact hret hreply.symm
  · rename_i hret
    obtain rfl : ret = (0 : Int) := not_not.mp hret
    exact iff_of_true rfl (List.mem_append_right _ List.mem_cons_self)

theorem meets_startTimer (h : Upto past ringCells [.adc]) :
    startTimer.Meets (fun _ _ => True) InTurn Returns past := by
  unfold startTimer
  exact meets_start h (by decide) (fun _ => meets_exit5 (by decide)) fun _ => meets_requestIrq

theorem meets_startAdc (h : Upto past ringCells []) :
    startAdc.Meets (fun _ _ => True) InTurn Returns past := by
  unfold startAdc
  exact meets_start h List.not_mem_nil (fun _ => meets_exit4 (by decide)) fun _ => meets_startTimer

/-- The rings are cleared, and then the rest is done. -/
theorem meets_clear {next : Driver Int} (h : Upto past [] ps)
    (hnext : ∀ past, Upto past cells ps → next.Meets (fun _ _ => True) InTurn Returns past) :
    (do ask .clearIndex; clearCells cells; next : Driver Int).Meets (fun _ _ => True) InTurn
      Returns past := by
  have hindex : Op.clearIndex.Plain := trivial
  refine ⟨inTurn_plain hindex h.notGranted, fun r _ => ?_⟩
  change Prog.Meets _ _ _ (clearCells cells >>= fun _ => next) _
  rw [Prog.meets_bind]
  have hclearing := meets_clearing cells (hindex.concat h r)
  rw [List.nil_append] at hclearing
  exact hclearing.mono fun _ _ hcleared => hnext _ hcleared

theorem upto_nil : Upto [] [] [] :=
  ⟨fun _ h => absurd h List.not_mem_nil, List.not_mem_nil,
    fun _ h => absurd h List.not_mem_nil, fun _ h => absurd h List.not_mem_nil,
    fun _ h => absurd h List.not_mem_nil, fun _ _ => not_did_nil _⟩

theorem meets_inTurn : at91adcInit.Meets (fun _ _ => True) InTurn Returns [] := by
  have hmisc : Op.miscRegister.Plain := trivial
  refine ⟨inTurn_plain hmisc List.not_mem_nil, fun ret _ => ?_⟩
  have hregistered := hmisc.concat upto_nil ret
  change Prog.Meets _ _ _ (if ret ≠ (0 : Int) then _ else _) _
  split
  · rename_i hret
    exact meets_failed hret hregistered.notGranted
  · rw [Prog.meets_bind]
    refine (meets_plain (plain_allocBufs channels) hregistered).mono fun later _ halloc => ?_
    rw [Prog.meets_bind]
    refine (meets_plain (plain_anyNull channels) halloc).mono fun later' null hnull => ?_
    split
    · exact meets_exit3 (by decide) hnull.notGranted
    · exact meets_clear hnull fun _ => meets_startAdc

/-! ## What a load has done -/

/-- The cells of the rings that are written hold zeros. -/
def Zeroed (w : World) : Prop :=
  ∀ k a j v, w.pbuf k = some a → w.cells a j = some v → v = 0

/-- Before the interrupt is granted the index is 0 and the rings hold zeros as far as
they are cleared, and as long as nothing is given back what was taken is held. -/
structure Loading (past : List (Event Op Reply)) (w : World) : Prop where
  kept : Kept past w
  index : w.appidx = 0
  zeroed : Zeroed w
  quiet : .irq ∉ w.ledger.held
  checked : ∀ p, (⟨.baseIsNull p, false⟩ : Event Op Reply) ∈ past → (w.base p).isSome
  based : (∀ event ∈ past, event.1.Forward) → ∀ p a, w.base p = some a →
    .mapping a ∈ w.ledger.held
  clocked : (∀ event ∈ past, event.1.Forward) → ∀ p, Did past (.clkEnable p) →
    .clock p ∈ w.ledger.held

theorem appidx_machine (e : Op) (h : w.appidx = 0) : (machine e w).2.appidx = 0 := by
  cases e with
  | miscRegister =>
      change (if _ then _ else w : World).appidx = 0
      split <;> exact h
  | allocBuf k =>
      change (w.allocBuf k).appidx = 0
      unfold World.allocBuf
      split <;> exact h
  | freeBuf k =>
      change (w.freeBuf k).appidx = 0
      unfold World.freeBuf
      split <;> exact h
  | clearIndex => rfl
  | clearCell k j =>
      change (w.clearCell k j).appidx = 0
      unfold World.clearCell
      split <;> exact h
  | mapBase p =>
      change (w.mapBase p).appidx = 0
      unfold World.mapBase
      split <;> exact h
  | unmapBase p =>
      change (w.unmapBase p).appidx = 0
      unfold World.unmapBase
      split <;> exact h
  | requestIrq =>
      change (if _ then _ else w : World).appidx = 0
      split <;> exact h
  | _ => exact h

theorem SameRings.zeroed {w' : World} (hsame : SameRings w w') (h : Zeroed w) : Zeroed w' := by
  intro k a j v ha hv
  rw [hsame.pbuf] at ha
  rw [hsame.cells] at hv
  exact h k a j v ha hv

theorem zeroed_machine (hkept : Kept past w) (h : Zeroed w) (e : Op) :
    Zeroed (machine e w).2 := by
  intro k a j v ha hv
  cases e with
  | allocBuf k₀ =>
      change (w.allocBuf k₀).pbuf k = some a at ha
      change (w.allocBuf k₀).cells a j = some v at hv
      rcases buffer_allocBuf ha with hold | ⟨-, -, -, -, hnone⟩
      · rw [cells_allocBuf (hkept.addr_lt k a hold)] at hv
        exact h k a j v hold hv
      · rw [hnone] at hv
        cases hv
  | bufIsNull k₀ => exact h k a j v ha hv
  | freeBuf k₀ =>
      change (w.freeBuf k₀).pbuf k = some a at ha
      change (w.freeBuf k₀).cells a j = some v at hv
      have hcells : (w.freeBuf k₀).cells = w.cells := by
        unfold World.freeBuf
        split <;> rfl
      rw [pbuf_freeBuf] at ha
      rw [hcells] at hv
      exact h k a j v ha hv
  | clearCell k₀ j₀ =>
      change (w.clearCell k₀ j₀).pbuf k = some a at ha
      change (w.clearCell k₀ j₀).cells a j = some v at hv
      rw [(cleared_clearCell w k₀ j₀).pbuf] at ha
      cases hk : w.pbuf k₀ with
      | none =>
          unfold World.clearCell at hv
          rw [hk] at hv
          exact h k a j v ha hv
      | some a₀ =>
          unfold World.clearCell at hv
          rw [hk] at hv
          dsimp only at hv
          by_cases haddr : a = a₀
          · rw [haddr, Function.update_self] at hv
            by_cases hj : j = j₀
            · rw [hj, Function.update_self] at hv
              exact (Option.some.inj hv).symm
            · rw [Function.update_of_ne hj, ← haddr] at hv
              exact h k a j v ha hv
          · rw [Function.update_of_ne haddr] at hv
            exact h k a j v ha hv
  | _ =>
      refine SameRings.zeroed (sameRings_machine ?_ w) h k a j v ha hv
      trivial

/-- An operation that gives nothing back. -/
theorem held_machine (he : e.Forward) {r : Resource} (hr : r ∈ w.ledger.held) :
    r ∈ (machine e w).2.ledger.held := by
  cases e with
  | miscRegister =>
      change r ∈ (if _ then _ else w : World).ledger.held
      split
      · exact Multiset.mem_cons_of_mem hr
      · exact hr
  | allocBuf k => exact held_allocBuf hr k
  | clearCell k j =>
      change r ∈ (w.clearCell k j).ledger.held
      rw [(cleared_clearCell w k j).ledger]
      exact hr
  | clkEnable p => exact Multiset.mem_cons_of_mem hr
  | mapBase p =>
      change r ∈ (w.mapBase p).ledger.held
      unfold World.mapBase
      split
      · exact Multiset.mem_cons_of_mem hr
      · exact hr
  | requestIrq =>
      change r ∈ (if _ then _ else w : World).ledger.held
      split
      · exact Multiset.mem_cons_of_mem hr
      · exact hr
  | bufIsNull k => exact hr
  | clearIndex => exact hr
  | baseIsNull p => exact hr
  | _ => exact he.elim

theorem notMem_acquire {r r' : Resource} (h : r ∉ w.ledger.held) (hne : r ≠ r') :
    r ∉ (w.acquire r').ledger.held := by
  intro hmem
  rcases Multiset.mem_cons.mp hmem with heq | hmem
  · exact hne heq
  · exact h hmem

theorem notMem_release {r : Resource} (h : r ∉ w.ledger.held) (r' : Resource) :
    r ∉ (w.release r').ledger.held := by
  change r ∉ (w.ledger.release r').held
  unfold Ledger.release
  split
  · exact fun hmem => h (Multiset.mem_of_mem_erase hmem)
  · exact h

/-- Only `request_irq` takes the interrupt, and only when it returns 0. -/
theorem quiet_machine (h : .irq ∉ w.ledger.held)
    (hnot : ¬ Granted (past ++ [⟨e, (machine e w).1⟩])) :
    .irq ∉ (machine e w).2.ledger.held := by
  cases e with
  | miscRegister =>
      change _ ∉ (if _ then _ else w : World).ledger.held
      split
      · exact notMem_acquire h (by simp)
      · exact h
  | miscDeregister => exact notMem_release h _
  | allocBuf k =>
      change _ ∉ (w.allocBuf k).ledger.held
      unfold World.allocBuf
      split
      · exact notMem_acquire h (by simp)
      · exact h
  | freeBuf k =>
      change _ ∉ (w.freeBuf k).ledger.held
      unfold World.freeBuf
      split
      · exact notMem_release h _
      · exact h
  | clearCell k j =>
      change _ ∉ (w.clearCell k j).ledger.held
      rw [(cleared_clearCell w k j).ledger]
      exact h
  | clkEnable p => exact notMem_acquire h (by simp)
  | clkDisable p => exact notMem_release h _
  | mapBase p =>
      change _ ∉ (w.mapBase p).ledger.held
      unfold World.mapBase
      split
      · exact notMem_acquire h (by simp)
      · exact h
  | unmapBase p =>
      change _ ∉ (w.unmapBase p).ledger.held
      unfold World.unmapBase
      split
      · exact notMem_release h _
      · exact h
  | requestIrq =>
      change _ ∉ (if _ then _ else w : World).ledger.held
      split
      · rename_i hzero
        refine absurd ?_ hnot
        have hreply : (machine .requestIrq w).1 = (0 : Int) := by
          change -(w.coming.irq : Int) = 0
          rw [hzero]
          rfl
        rw [hreply]
        exact List.mem_append_right _ List.mem_cons_self
      · exact h
  | freeIrq => exact notMem_release h _
  | _ => exact h

theorem base_machine (he : ∀ p, e ≠ .mapBase p) (w : World) : (machine e w).2.base = w.base := by
  cases e with
  | mapBase p => exact absurd rfl (he p)
  | miscRegister =>
      change (if _ then _ else w : World).base = _
      split <;> rfl
  | allocBuf k =>
      change (w.allocBuf k).base = _
      unfold World.allocBuf
      split <;> rfl
  | freeBuf k =>
      change (w.freeBuf k).base = _
      unfold World.freeBuf
      split <;> rfl
  | clearCell k j =>
      change (w.clearCell k j).base = _
      unfold World.clearCell
      split <;> rfl
  | unmapBase p => exact base_unmapBase w p
  | requestIrq =>
      change (if _ then _ else w : World).base = _
      split <;> rfl
  | _ => rfl

/-- The mapping of a block is new and held, or there is none. -/
theorem mapping_mapBase {p p' : Peripheral} {a : Nat} (ha : (w.mapBase p).base p' = some a) :
    w.base p' = some a ∨ .mapping a ∈ (w.mapBase p).ledger.held := by
  by_cases hp : p' = p
  · subst hp
    rw [base_mapBase] at ha
    split at ha
    · rename_i hmap
      obtain rfl := Option.some.inj ha
      unfold World.mapBase
      rw [if_pos hmap]
      exact .inr (Multiset.mem_cons_self _ _)
    · cases ha
  · left
    unfold World.mapBase at ha
    split at ha
    · exact (Function.update_of_ne hp _ w.base).symm.trans ha
    · exact (Function.update_of_ne hp _ w.base).symm.trans ha

theorem onward_of_concat {r : Reply e}
    (h : ∀ event ∈ past ++ [⟨e, r⟩], event.1.Forward) :
    (∀ event ∈ past, event.1.Forward) ∧ e.Forward :=
  ⟨fun event hevent => h event (List.mem_append_left _ hevent),
    h ⟨e, r⟩ (List.mem_append_right _ List.mem_cons_self)⟩

/-- An operation of a load, as long as the interrupt is not granted. -/
theorem Loading.step (h : Loading past w) (hask : InOrder past e ∧ InTurn past e)
    (hnot : ¬ Granted (past ++ [⟨e, (machine e w).1⟩])) :
    Loading (past ++ [⟨e, (machine e w).1⟩]) (machine e w).2 := by
  refine ⟨h.kept.step hask.1, appidx_machine e h.index, zeroed_machine h.kept h.zeroed e,
    quiet_machine h.quiet hnot, fun p hp => ?_, fun honward p a ha => ?_,
    fun honward p hp => ?_⟩
  · rcases List.mem_append.mp hp with hmem | hmem
    · have hsome := h.checked p hmem
      by_cases hmap : ∃ p', e = .mapBase p'
      · obtain ⟨p', rfl⟩ := hmap
        -- a block is not mapped again after it was looked at
        have hne : p ≠ p' := by
          rintro rfl
          exact hask.2.2 ⟨_, hmem, rfl⟩
        have hbase : (w.mapBase p').base p = w.base p := by
          unfold World.mapBase
          split <;> exact Function.update_of_ne hne _ _
        change ((w.mapBase p').base p).isSome
        rw [hbase]
        exact hsome
      · rw [base_machine (not_exists.mp hmap)]
        exact hsome
    · have hevent := List.mem_singleton.mp hmem
      rw [Sigma.mk.injEq] at hevent
      obtain ⟨rfl, hreply⟩ := hevent
      have hnull : (w.base p).isNone = false := (eq_of_heq hreply).symm
      change (w.base p).isSome
      simpa using hnull
  · obtain ⟨hpast, he⟩ := onward_of_concat honward
    by_cases hmap : ∃ p', e = .mapBase p'
    · obtain ⟨p', rfl⟩ := hmap
      rcases mapping_mapBase ha with hold | hnew
      · exact held_machine he (h.based hpast p a hold)
      · exact hnew
    · rw [base_machine (not_exists.mp hmap)] at ha
      exact held_machine he (h.based hpast p a ha)
  · obtain ⟨hpast, he⟩ := onward_of_concat honward
    rcases did_concat.mp hp with hold | rfl
    · exact held_machine he (h.clocked hpast p hold)
    · exact Multiset.mem_cons_self _ _

theorem loading_fresh (h : Orderly w) (hquiet : .irq ∉ w.ledger.held) (o : Outcomes) :
    Loading [] (w.fresh o) := by
  have hnone (k a : Nat) : (w.fresh o).pbuf k ≠ some a := fun ha => by cases ha
  refine ⟨⟨h, fun k a ha => absurd ha (hnone k a), fun k _ a ha => absurd ha (hnone k a),
    fun k a ha => absurd ha (hnone k a), fun k a _ ha => absurd ha (hnone k a),
    fun _ hk => absurd hk List.not_mem_nil, fun _ _ hk => absurd hk (not_did_nil _)⟩, rfl,
    fun k a _ _ ha => absurd ha (hnone k a), hquiet, fun _ hp => absurd hp List.not_mem_nil,
    fun _ p a ha => (by cases ha), fun _ _ hp => absurd hp (not_did_nil _)⟩

/-! ## The interrupt is granted -/

theorem sampled_zero {s : Rings} (hindex : s.appidx = 0)
    (hzero : ∀ k ∈ channels, ∀ j < maxAdcSamples, s.pbuf k j = 0) : Sampled s [] := by
  have hindex' : s.appidx.toNat = 0 := by
    rw [hindex]
    rfl
  refine ⟨hindex' ▸ maxAdcSamples_pos, fun k hk => ?_⟩
  rw [hindex', List.rotate_zero, window, samples, List.map_nil, lastOf_nil]
  refine List.eq_replicate_iff.mpr ⟨Rings.length_ring _ _, fun v hv => ?_⟩
  obtain ⟨j, hj, rfl⟩ := List.mem_map.mp hv
  exact hzero k hk j (List.mem_range.mp hj)

/-- When the load comes to the interrupt, everything is ready. -/
theorem Loading.ready (h : Loading past w) (hupto : Upto past ringCells [.adc, .tc1]) :
    Ready w := by
  refine ⟨fun k hk => ?_, h.kept.unique, ?_, fun p => ?_⟩
  · have hcleared (j : Nat) (hj : j < maxAdcSamples) : Did past (.clearCell k j) :=
      hupto.cleared (k, j) (mem_ringCells.mpr ⟨hk, hj⟩)
    have hchecked := h.kept.cleared k 0 (hcleared 0 maxAdcSamples_pos)
    obtain ⟨a, ha⟩ := Option.isSome_iff_exists.mp (h.kept.checked k hchecked)
    have hkept : ¬ Did past (.freeBuf k) := by
      rintro ⟨event, hevent, heq⟩
      have hforward := hupto.forward event hevent
      rw [heq] at hforward
      exact hforward
    exact ⟨a, ha, (h.kept.live k a ha).mpr hkept,
      fun j hj => (h.kept.written k a j ha).mpr (hcleared j hj)⟩
  · rw [h.index]
    exact maxAdcSamples_pos
  · have hmem : p ∈ [Peripheral.adc, .tc1] := by
      cases p with
      | adc => exact List.mem_cons_self
      | tc1 => exact List.mem_cons_of_mem _ List.mem_cons_self
    obtain ⟨a, ha⟩ := Option.isSome_iff_exists.mp (h.checked p (hupto.mapped p hmem))
    exact ⟨a, ha, h.based hupto.forward p a ha⟩

/-- The clocks of both peripherals run. -/
def Clocked (w : World) : Prop := ∀ p, .clock p ∈ w.ledger.held

theorem Ready.acquire (h : Ready w) (r : Resource) : Ready (w.acquire r) := by
  refine ⟨fun k hk => ?_, h.separate, h.index_lt, fun p => ?_⟩
  · obtain ⟨a, ha, hheld, hsome⟩ := h.rings k hk
    exact ⟨a, ha, Multiset.mem_cons_of_mem hheld, hsome⟩
  · obtain ⟨a, ha, hheld⟩ := h.mapped p
    exact ⟨a, ha, Multiset.mem_cons_of_mem hheld⟩

theorem Loading.granted (h : Loading past w) (hask : InTurn past .requestIrq)
    (hgranted : Granted (past ++ [⟨.requestIrq, (machine .requestIrq w).1⟩])) :
    Running (machine .requestIrq w).2 [] ∧ Clocked (machine .requestIrq w).2 := by
  have hupto : Upto past ringCells [.adc, .tc1] := hask.2
  have hready := h.ready hupto
  have hirq : w.coming.irq = 0 := by
    rcases List.mem_append.mp hgranted with hmem | hmem
    · exact absurd hmem hask.1
    · have hevent := List.mem_singleton.mp hmem
      rw [Sigma.mk.injEq] at hevent
      have hreply : (0 : Int) = -(w.coming.irq : Int) := eq_of_heq hevent.2
      omega
  have hworld : (machine .requestIrq w).2 = w.acquire .irq := if_pos hirq
  rw [hworld]
  refine ⟨⟨hready.acquire .irq, ?_, ?_⟩, fun p => ?_⟩
  · have hzero := Multiset.count_eq_zero_of_notMem h.quiet
    change (w.ledger.acquire .irq).held.count .irq = 1
    rw [Ledger.count_acquire, hzero, if_pos rfl]
  · refine sampled_zero h.index fun k hk j hj => ?_
    obtain ⟨a, ha, -, hsome⟩ := hready.rings k hk
    obtain ⟨v, hv⟩ := Option.isSome_iff_exists.mp (hsome j hj)
    change (w.pbuf k).elim 0 (fun a => (w.cells a j).getD 0) = 0
    rw [ha]
    change (w.cells a j).getD 0 = 0
    rw [hv]
    exact h.zeroed k a j v ha hv
  · have hmem : p ∈ [Peripheral.adc, .tc1] := by
      cases p with
      | adc => exact List.mem_cons_self
      | tc1 => exact List.mem_cons_of_mem _ List.mem_cons_self
    exact Multiset.mem_cons_of_mem (h.clocked hupto.forward p (hupto.clocked p hmem))

theorem Clocked.isr (h : Clocked w) (chr : Registers) : Clocked (w.isr chr) := by
  intro p
  rw [(stored_isr w chr).ledger]
  exact h p

/-! ## An unload -/

/-- The clocks may be stopped at any time, and the rest comes after the interrupt. -/
def ExitTurn (past : List (Event Op Reply)) : Op → Prop
  | .clkDisable _ | .freeIrq => True
  | .unmapBase _ | .miscDeregister => Did past .freeIrq
  | _ => False

theorem meets_at91adcExit :
    at91adcExit.Meets (fun _ _ => True) ExitTurn (fun past _ => Did past .freeIrq) [] := by
  refine ⟨trivial, fun _ _ => ⟨trivial, fun _ _ => ⟨trivial, fun _ _ => ?_⟩⟩⟩
  have hfreed : Did ([] ++ [⟨.clkDisable .adc, ()⟩] ++ [⟨.clkDisable .tc1, ()⟩] ++
      [⟨.freeIrq, ()⟩] : List (Event Op Reply)) .freeIrq := did_concat.mpr (.inr rfl)
  refine ⟨hfreed, fun _ _ => ⟨did_concat.mpr (.inl hfreed), fun _ _ =>
    ⟨did_concat.mpr (.inl (did_concat.mpr (.inl hfreed))), fun _ _ => ?_⟩⟩⟩
  exact did_concat.mpr (.inl (did_concat.mpr (.inl (did_concat.mpr (.inl hfreed)))))

theorem Running.stopClock (h : Running w came) (p : Peripheral) :
    Running (w.release (.clock p)) came := by
  have hheld {r : Resource} (hne : r ≠ .clock p) (hr : r ∈ w.ledger.held) :
      r ∈ (w.release (.clock p)).ledger.held := (w.ledger.mem_release_of_ne hne).mpr hr
  refine ⟨⟨fun k hk => ?_, h.ready.separate, h.ready.index_lt, fun p' => ?_⟩, ?_, h.sampled⟩
  · obtain ⟨a, ha, hbuf, hsome⟩ := h.ready.rings k hk
    exact ⟨a, ha, hheld (by simp) hbuf, hsome⟩
  · obtain ⟨a, ha, hmap⟩ := h.ready.mapped p'
    exact ⟨a, ha, hheld (by simp) hmap⟩
  · change (w.ledger.release (.clock p)).held.count .irq = 1
    rw [w.ledger.count_release_of_ne (by simp)]
    exact h.once

theorem Running.freeIrq (h : Running w came) : .irq ∉ (w.release .irq).ledger.held := by
  rw [← Multiset.count_eq_zero]
  change (w.ledger.release .irq).held.count .irq = 0
  rw [w.ledger.count_release_self, h.once]

/-! ## The whole life -/

/-- What holds in the phases of a life. -/
def adcInvariants : Life.Invariants adcLife where
  unloaded w := Orderly w ∧ .irq ∉ w.ledger.held
  loading past came w := Orderly w ∧ (¬ Granted past → came = [] ∧ Loading past w) ∧
    (Granted past → Running w came ∧ Clocked w)
  loaded came w := Orderly w ∧ Running w came ∧ Clocked w
  unloading past came w := Orderly w ∧ (¬ Did past .freeIrq → Running w came) ∧
    (Did past .freeIrq → .irq ∉ w.ledger.held)
  initAsks past e := InOrder past e ∧ InTurn past e
  returns := Returns
  exitAsks := ExitTurn
  ends past := Did past .freeIrq
  init_meets := (meets_at91adcInit.and meets_inTurn).mono fun _ _ h => h.2
  exit_meets := meets_at91adcExit
  load o w h := ⟨h.1, fun _ => ⟨rfl, loading_fresh h.1 h.2 o⟩,
    fun hgranted => absurd hgranted List.not_mem_nil⟩
  init_op := by
    rintro past came w e ⟨horderly, hloading, -⟩ hask
    obtain ⟨rfl, hload⟩ := hloading hask.2.1
    refine ⟨orderly_machine e w horderly, fun hnot => ⟨rfl, hload.step hask hnot⟩,
      fun hgranted => ?_⟩
    by_cases hirq : e = .requestIrq
    · subst hirq
      exact hload.granted hask.2 hgranted
    · exact absurd ((granted_concat hirq).mp hgranted) hask.2.1
  init_end := by
    rintro past came w ret ⟨horderly, hloading, hrunning⟩ hret
    by_cases hzero : ret = 0
    · rw [if_pos hzero]
      exact ⟨horderly, hrunning (hret.mp hzero)⟩
    · rw [if_neg hzero]
      obtain ⟨-, hload⟩ := hloading fun hgranted => hzero (hret.mpr hgranted)
      exact ⟨horderly, hload.quiet⟩
  unload came w h := ⟨h.1, fun _ => h.2.1, fun hfreed => absurd hfreed (not_did_nil _)⟩
  exit_op := by
    rintro past came w e ⟨horderly, hrunning, hfreed⟩ hask
    refine ⟨orderly_machine e w horderly, fun hnot => ?_, fun hdid => ?_⟩
    · rw [did_concat, not_or] at hnot
      cases e with
      | clkDisable p => exact (hrunning hnot.1).stopClock p
      | freeIrq => exact absurd rfl hnot.2
      | unmapBase p => exact absurd hask hnot.1
      | miscDeregister => exact absurd hask hnot.1
      | _ => exact hask.elim
    · by_cases hbefore : Did past .freeIrq
      · have hquiet := hfreed hbefore
        cases e with
        | clkDisable p => exact notMem_release hquiet _
        | freeIrq => exact notMem_release hquiet _
        | miscDeregister => exact notMem_release hquiet _
        | unmapBase p =>
            change _ ∉ (w.unmapBase p).ledger.held
            unfold World.unmapBase
            split
            · exact notMem_release hquiet _
            · exact hquiet
        | _ => exact hask.elim
      · rcases did_concat.mp hdid with hdid | rfl
        · exact absurd hdid hbefore
        · exact (hrunning hbefore).freeIrq
  exit_end past came w h hends := ⟨h.1, h.2.2 hends⟩
  interrupt_unloaded w chr henabled h := absurd henabled h.2
  interrupt_loading := by
    rintro past came w chr henabled ⟨horderly, hloading, hrunning⟩
    refine ⟨horderly.isr chr, fun hnot => ?_, fun hgranted => ?_⟩
    · exact absurd henabled (hloading hnot).2.quiet
    · obtain ⟨hrun, hclocks⟩ := hrunning hgranted
      exact ⟨hrun.isr chr, hclocks.isr chr⟩
  interrupt_loaded := by
    rintro came w chr henabled ⟨horderly, hrun, hclocks⟩
    exact ⟨horderly.isr chr, hrun.isr chr, hclocks.isr chr⟩
  interrupt_unloading := by
    rintro past came w chr henabled ⟨horderly, hrunning, hfreed⟩
    refine ⟨horderly.isr chr, fun hnot => (hrunning hnot).isr chr, fun hdid => ?_⟩
    exact absurd henabled (hfreed hdid)

/-- A load that is granted everything ends with the interrupt. -/
theorem exists_loaded (w : World) :
    ∃ l : Life Op Reply Registers World, l.phase = .loaded ∧ Life.Reaches adcLife w.boot l ∧
      .irq ∈ l.state.ledger.held := by
  have hinit := at91adcInit_right (w.boot.fresh granted)
  have hgranted : (w.boot.fresh granted).coming.Granted := ⟨rfl, fun _ _ => rfl, rfl, rfl, rfl⟩
  obtain ⟨r, hr⟩ : ∃ r, r = at91adcInit.run machine (w.boot.fresh granted) := ⟨_, rfl⟩
  rw [← hr] at hinit
  have hrun : adcLife.init.run adcLife.machine (adcLife.fresh granted w.boot) = r := hr.symm
  have hreached := Life.reaches_loaded adcLife w.boot granted
    (hrun ▸ hinit.returns.mpr hgranted)
  rw [hrun] at hreached
  refine ⟨_, rfl, hreached, ?_⟩
  dsimp only
  rw [(hinit.takes hgranted).1, Ledger.held_add, allHeld, add_assoc]
  exact Multiset.mem_add.mpr (.inl (Multiset.mem_singleton_self _))

/-- At every moment of any life of the module at which an interrupt may come, whatever
was refused in its loads and whenever interrupts came before: the eleven rings are
allocated, written and apart from each other, the index is inside them, both blocks of
registers are mapped, and the clocks run unless the module is being unloaded.  The rings
hold the window of the samples since the latest load, and a read that the interrupts
leave alone reports its mean. -/
theorem interrupts_find_rings (w : World) {l : Life Op Reply Registers World}
    (hl : Life.Reaches adcLife w.boot l) (hirq : .irq ∈ l.state.ledger.held) :
    Ready l.state ∧
      ((∀ left past, l.phase ≠ .unloading left past) → Clocked l.state) ∧
      Sampled l.state.rings l.came ∧
      ∀ (caller : Caller) (i : Nat)
        (hi : i < (reported Adc.machine (quiet caller l.state.rings)).length),
        ((reported Adc.machine (quiet caller l.state.rings))[i]).toNat =
          (lastOf 16384 0 (tenBits l.came (slotChannel i))).sum / 16384 := by
  have hstart : adcInvariants.unloaded w.boot :=
    ⟨Ledger.orderly_empty, Multiset.notMem_zero _⟩
  have hholds := hl.invariant adcInvariants hstart
  obtain ⟨phase, state, came⟩ := l
  have hrunning : Running state came ∧
      ((∀ left past, phase ≠ .unloading left past) → Clocked state) := by
    cases phase with
    | unloaded => exact absurd hirq hholds.2
    | loading left past =>
        obtain ⟨-, -, hloading, hgranted⟩ := hholds
        by_cases h : Granted past
        · exact ⟨(hgranted h).1, fun _ => (hgranted h).2⟩
        · exact absurd hirq (hloading h).2.quiet
    | loaded => exact ⟨hholds.2.1, fun _ => hholds.2.2⟩
    | unloading left past =>
        obtain ⟨-, -, hrunning, hfreed⟩ := hholds
        refine ⟨hrunning fun h => hfreed h hirq, fun h => absurd rfl (h left past)⟩
  refine ⟨hrunning.1.ready, hrunning.2, hrunning.1.sampled, fun caller i hi => ?_⟩
  rw [reported_quiet hrunning.1.sampled caller hi, window_toNat]

/-- After a load that is granted everything and an interrupt with 1000 in every
register. -/
theorem interrupts_find_rings_granted :
    ∃ l : Life Op Reply Registers World, l.phase = .loaded ∧ (fun _ => 1000) ∈ l.came ∧
      Ready l.state ∧
      ((∀ left past, l.phase ≠ .unloading left past) → Clocked l.state) ∧
      Sampled l.state.rings l.came ∧
      ∀ (caller : Caller) (i : Nat)
        (hi : i < (reported Adc.machine (quiet caller l.state.rings)).length),
        ((reported Adc.machine (quiet caller l.state.rings))[i]).toNat =
          (lastOf 16384 0 (tenBits l.came (slotChannel i))).sum / 16384 := by
  obtain ⟨⟨phase, state, came⟩, hphase, hreached, hirq⟩ := exists_loaded World.blank
  have hinterrupted := hreached.tail (.interrupt (fun _ => 1000) hirq)
  have hstill : .irq ∈ (state.isr fun _ => 1000).ledger.held := by
    rw [(stored_isr state _).ledger]
    exact hirq
  refine ⟨⟨phase, state.isr fun _ => 1000, came ++ [fun _ => 1000]⟩, hphase, ?_,
    interrupts_find_rings World.blank hinterrupted hstill⟩
  exact List.mem_append_right _ (List.mem_singleton_self _)

end At91Drivers.Adc.Life
