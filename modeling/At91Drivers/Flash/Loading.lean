import At91Drivers.Flash.Module

/-!
# When a loaded flash module is usable

The label `out` of `at91flash_init` gives everything back and returns 0, so the
kernel keeps a module that holds nothing, and its unload gives everything back
once more.

```text
misc_register fails        returns the error      holds nothing
get_mtd_device fails       returns the error      holds nothing
not NAND, or no table      returns 0              holds nothing
otherwise                  returns 0              holds device, reference and table
```

The table has one entry per erase block when their number fits in 32 bits.
-/

namespace At91Drivers.Flash.Life

open Effects Kernel Arith

variable {w : World} {L : Ledger Resource} {s : Multiset Resource} {o : Outcomes}
  {mtd : MtdInfo}

/-! ## What is held -/

def tableOf (w : World) : Multiset Resource := w.bbt.elim 0 fun a => {.table a}

/-- What a load takes, in the order in which an unload gives it back. -/
def allHeld (w : World) : Multiset Resource := {.misc} + ({.mtd} + tableOf w)

/-- The device is registered, the MTD reference held, and `bbt` has one entry
per erase block. -/
structure Usable (w : World) : Prop where
  registered : .misc ∈ w.ledger.held
  referenced : .mtd ∈ w.ledger.held
  table : ∃ mtd a, w.mtd = some mtd ∧ w.bbt = some a ∧ .table a ∈ w.ledger.held ∧
    (w.tables a).length = mtd.blocks

theorem ledger_freeBbt (h : w.ledger = L.add (tableOf w + s)) : w.freeBbt.ledger = L.add s := by
  unfold World.freeBbt
  unfold tableOf at h
  cases hbbt : w.bbt with
  | some a =>
      rw [hbbt] at h
      exact Ledger.release_of_eq h
  | none =>
      rw [hbbt] at h
      simpa using h

theorem run_out (h : w.ledger = L.add (allHeld w)) :
    (out.run machine w).1 = 0 ∧ (out.run machine w).2.ledger = L := by
  have hall : w.ledger = L.add (tableOf w + ({.mtd} + ({.misc} + 0))) := by
    rw [h, allHeld]
    congr 1
    abel
  have hfreed := ledger_freeBbt hall
  have hput := Ledger.release_of_eq hfreed
  exact ⟨rfl, (Ledger.release_of_eq hput).trans L.add_zero⟩

/-- An unload of a module that holds everything. -/
theorem run_at91flashExit (h : w.ledger = L.add (allHeld w)) :
    (at91flashExit.run machine w).2.ledger = L := by
  have hderegistered := Ledger.release_of_eq h
  have hput : ((w.release .misc).release .mtd).ledger =
      L.add (tableOf ((w.release .misc).release .mtd) + 0) := by
    rw [add_zero]
    exact Ledger.release_of_eq hderegistered
  exact (ledger_freeBbt hput).trans L.add_zero

/-! ## The scan -/

/-- What the scan of the blocks leaves as it is. -/
structure Scanned (w w' : World) : Prop where
  bbt : w'.bbt = w.bbt
  mtd : w'.mtd = w.mtd
  ledger : w'.ledger = w.ledger
  length : ∀ a, (w'.tables a).length = (w.tables a).length

theorem Scanned.refl (w : World) : Scanned w w := ⟨rfl, rfl, rfl, fun _ => rfl⟩

theorem Scanned.trans {w₁ w₂ w₃ : World} (h : Scanned w₁ w₂) (h' : Scanned w₂ w₃) :
    Scanned w₁ w₃ :=
  ⟨h'.bbt.trans h.bbt, h'.mtd.trans h.mtd, h'.ledger.trans h.ledger,
    fun a => (h'.length a).trans (h.length a)⟩

theorem scanned_bbtStore (w : World) (i : Nat) (v : UInt8) : Scanned w (w.bbtStore i v) := by
  unfold World.bbtStore
  split
  · rename_i a hbbt
    refine ⟨rfl, rfl, rfl, fun a' => ?_⟩
    dsimp only
    by_cases haddr : a' = a
    · rw [haddr, Function.update_self, List.length_set]
    · rw [Function.update_of_ne haddr]
  · exact Scanned.refl w

theorem scanned_scanBlocks (mtd : MtdInfo) (blocks : List Nat) (w : World) :
    Scanned w ((scanBlocks mtd blocks).run machine w).2 := by
  induction blocks generalizing w with
  | nil => exact Scanned.refl w
  | cons i rest ih =>
      have hfirst := scanned_bbtStore w i
        (if ((isBlockBad mtd i).run machine w).1 ≠ 0 then 1 else 0)
      exact hfirst.trans (ih _)

/-- A table that was allocated for `mtd`, besides what was held before. -/
structure Tabled (L : Ledger Resource) (s : Multiset Resource) (mtd : MtdInfo) (w w' : World) :
    Prop where
  ledger : w'.ledger = L.add (tableOf w' + s)
  device : w'.mtd = w.mtd
  table : ∃ a, w'.bbt = some a ∧ (w'.tables a).length = u32 mtd.ebcnt

theorem Tabled.scanned {w' w'' : World} (h : Tabled L s mtd w w') (h' : Scanned w' w'') :
    Tabled L s mtd w w'' := by
  obtain ⟨a, hbbt, hlength⟩ := h.table
  refine ⟨?_, h'.mtd.trans h.device, a, h'.bbt.trans hbbt, (h'.length a).trans hlength⟩
  rw [h'.ledger, h.ledger, tableOf, tableOf, h'.bbt]

theorem tabled_allocBbt (mtd : MtdInfo) (h : w.ledger = L.add s) (htable : w.coming.table = true) :
    Tabled L s mtd w (w.allocBbt (u32 mtd.ebcnt)) := by
  unfold World.allocBbt
  rw [if_pos htable]
  refine ⟨Ledger.acquire_of_eq (.table w.next) h, rfl, w.next, rfl, ?_⟩
  dsimp only
  rw [Function.update_self, List.length_replicate]

/-- The rest of `scan_for_bad_eraseblocks`, for any list of blocks. -/
theorem Tabled.run_scan {w' : World} (h : Tabled L s mtd w w') (blocks : List Nat) :
    ((if mtd.blockIsbad.isNone then return 0 else do scanBlocks mtd blocks; return 0 :
        Driver Int).run machine w').1 = 0 ∧
      Tabled L s mtd w ((if mtd.blockIsbad.isNone then return 0 else do
        scanBlocks mtd blocks; return 0 : Driver Int).run machine w').2 := by
  rw [Prog.run_ite]
  split
  · exact ⟨rfl, h⟩
  · rw [Prog.run_bind]
    exact ⟨rfl, h.scanned (scanned_scanBlocks mtd blocks w')⟩

theorem scan_tabled (mtd : MtdInfo) (h : w.ledger = L.add s) (htable : w.coming.table = true) :
    ((scanForBadEraseblocks mtd).run machine w).1 = 0 ∧
      Tabled L s mtd w ((scanForBadEraseblocks mtd).run machine w).2 := by
  have halloc := tabled_allocBbt mtd h htable
  obtain ⟨w', hw'⟩ : ∃ w', w' = w.allocBbt (u32 mtd.ebcnt) := ⟨_, rfl⟩
  rw [← hw'] at halloc
  obtain ⟨a, hbbt, -⟩ := halloc.table
  have hnull : (ask .bbtIsNull).run machine w' = (false, w') := by
    change (Option.isNone w'.bbt, w') = (false, w')
    rw [hbbt]
    rfl
  have hstep : (ask (.allocBbt (u32 mtd.ebcnt))).run machine w = ((), w') := hw' ▸ rfl
  unfold scanForBadEraseblocks
  rw [Prog.run_bind, hstep, Prog.run_bind, hnull]
  dsimp only
  rw [if_neg Bool.false_ne_true]
  exact halloc.run_scan _

theorem scan_noTable (mtd : MtdInfo) (h : w.ledger = L.add s) (htable : ¬ w.coming.table = true) :
    ((scanForBadEraseblocks mtd).run machine w).1 = -ENOMEM ∧
      ((scanForBadEraseblocks mtd).run machine w).2.ledger =
        L.add (tableOf ((scanForBadEraseblocks mtd).run machine w).2 + s) := by
  have hnone : w.allocBbt (u32 mtd.ebcnt) = { w with bbt := none } := if_neg htable
  have hrun : (scanForBadEraseblocks mtd).run machine w = (-ENOMEM, { w with bbt := none }) := by
    unfold scanForBadEraseblocks
    change Prog.run machine (ask .bbtIsNull >>= _) (w.allocBbt (u32 mtd.ebcnt)) = _
    rw [hnone]
    rfl
  rw [hrun]
  exact ⟨rfl, by simpa [tableOf] using h⟩

/-! ## A load -/

/-- The device is of the kind that the driver wants, and there is memory for
its table. -/
def Outcomes.Suits (o : Outcomes) (mtd : MtdInfo) : Prop :=
  mtd.type = mtdNandflash ∧ o.table = true

/-- A load of a device that is found returns 0, whether or not it holds
anything then. -/
structure SetsUp (L : Ledger Resource) (mtd : MtdInfo) (ok : Prop) (r : Int × World) : Prop where
  returns : r.1 = 0
  takes : ok → r.2.ledger = L.add (allHeld r.2) ∧ r.2.mtd = some mtd ∧
    ∃ a, r.2.bbt = some a ∧ (r.2.tables a).length = u32 mtd.ebcnt
  keeps : ¬ ok → r.2.ledger = L

theorem SetsUp.of_out {ok : Prop} (hok : ¬ ok) (h : w.ledger = L.add (allHeld w)) :
    SetsUp L mtd ok (out.run machine w) :=
  ⟨(run_out h).1, fun h' => absurd h' hok, fun _ => (run_out h).2⟩

theorem setUp_right (h : w.ledger = L.add ({.misc} + {.mtd})) (hmtd : w.mtd = some mtd)
    (hbbt : w.bbt = none) :
    SetsUp L mtd (w.coming.Suits mtd) ((setUp mtd).run machine w) := by
  unfold setUp
  by_cases htype : mtd.type = mtdNandflash
  · rw [if_neg (not_not.mpr htype)]
    obtain ⟨w₁, hw₁⟩ : ∃ w₁, w₁ = { w with ebcnt := mtd.ebcnt } := ⟨_, rfl⟩
    have hstep : (ask (.setEbcnt mtd.ebcnt)).run machine w = ((), w₁) := hw₁ ▸ rfl
    have hledger : w₁.ledger = L.add ({.misc} + {.mtd}) := hw₁ ▸ h
    have hcoming : w₁.coming = w.coming := hw₁ ▸ rfl
    have hdevice : w₁.mtd = some mtd := hw₁ ▸ hmtd
    rw [Prog.run_bind, hstep, Prog.run_bind]
    by_cases htable : w.coming.table = true
    · obtain ⟨hret, htabled⟩ := scan_tabled mtd hledger (hcoming ▸ htable)
      dsimp only
      rw [hret, if_neg (not_not.mpr rfl)]
      refine ⟨rfl, fun _ => ⟨?_, htabled.device.trans hdevice, htabled.table⟩, ?_⟩
      · change World.ledger (Prog.run machine (scanForBadEraseblocks mtd) w₁).2 = _
        rw [htabled.ledger]
        congr 1
        rw [add_comm, add_assoc]
        rfl
      · exact fun hnot => absurd ⟨htype, htable⟩ hnot
    · -- `kzalloc` refused
      obtain ⟨hret, hleft⟩ := scan_noTable mtd hledger (hcoming ▸ htable)
      dsimp only
      rw [hret, if_pos (by decide)]
      refine .of_out (fun hok => htable hok.2) ?_
      rw [hleft]
      congr 1
      rw [add_comm, add_assoc]
      rfl
  · rw [if_pos htype]
    refine .of_out (fun hok => htype hok.1) ?_
    rw [h, allHeld, tableOf, hbbt]
    rfl

theorem getMtdDevice_ok (h : w.coming.lookup = .ok mtd) :
    w.getMtdDevice = (.ok mtd, { w.acquire .mtd with mtd := some mtd }) := by
  rw [World.getMtdDevice, h]

theorem getMtdDevice_error {e : ℕ+} (h : w.coming.lookup = .error e) :
    w.getMtdDevice = (.error (-(e : Int)), { w with mtd := none }) := by
  rw [World.getMtdDevice, h]

/-- The device is registered and the lookup finds `mtd`. -/
def Outcomes.Found (o : Outcomes) (mtd : MtdInfo) : Prop := o.misc = 0 ∧ o.lookup = .ok mtd

theorem at91flashInit_found (hbbt : w.bbt = none) (h : w.coming.Found mtd) :
    SetsUp w.ledger mtd (w.coming.Suits mtd) (at91flashInit.run machine w) := by
  obtain ⟨w₁, hw₁⟩ : ∃ w₁, w₁ = { (w.acquire .misc).acquire .mtd with mtd := some mtd } :=
    ⟨_, rfl⟩
  have hmisc : (ask .miscRegister : Driver Int).run machine w = (0, w.acquire .misc) := by
    change (-(w.coming.misc : Int), if w.coming.misc = 0 then w.acquire .misc else w) = _
    rw [h.1, if_pos rfl]
    rfl
  have hlookup : (ask .getMtdDevice : Driver _).run machine (w.acquire .misc) = (.ok mtd, w₁) := by
    rw [hw₁]
    exact getMtdDevice_ok (w := w.acquire .misc) h.2
  unfold at91flashInit
  rw [Prog.run_bind, hmisc]
  dsimp only
  rw [if_neg (not_not.mpr rfl), Prog.run_bind, hlookup]
  have hledger : w₁.ledger = w.ledger.add ({.misc} + {.mtd}) := by
    have htaken := Ledger.acquire_of_eq Resource.mtd (w.ledger.acquire_eq .misc)
    rw [add_comm, hw₁]
    exact htaken
  have hcoming : w₁.coming = w.coming := by rw [hw₁]; rfl
  have hdevice : w₁.mtd = some mtd := by rw [hw₁]
  have hnone : w₁.bbt = none := by rw [hw₁]; exact hbbt
  have hset := setUp_right hledger hdevice hnone
  rwa [hcoming] at hset

theorem at91flashInit_notFound (h : ∀ mtd, ¬ w.coming.Found mtd) :
    (at91flashInit.run machine w).1 ≠ 0 ∧ (at91flashInit.run machine w).2.ledger = w.ledger := by
  have hmisc : (ask .miscRegister : Driver Int).run machine w =
      (-(w.coming.misc : Int), if w.coming.misc = 0 then w.acquire .misc else w) := rfl
  unfold at91flashInit
  rw [Prog.run_bind, hmisc]
  by_cases hzero : w.coming.misc = 0
  · rw [if_pos hzero, hzero]
    cases hfound : w.coming.lookup with
    | ok mtd => exact absurd ⟨hzero, hfound⟩ (h mtd)
    | error e =>
        have hlookup : (ask .getMtdDevice : Driver _).run machine (w.acquire .misc) =
            (.error (-(e : Int)), { w.acquire .misc with mtd := none }) :=
          getMtdDevice_error (w := w.acquire .misc) hfound
        have hpos := e.pos
        dsimp only
        rw [if_neg (by decide), Prog.run_bind, hlookup]
        refine ⟨show -(e : Int) ≠ 0 by omega, ?_⟩
        have htaken := w.ledger.acquire_eq .misc
        rw [← add_zero ({.misc} : Multiset Resource)] at htaken
        exact (Ledger.release_of_eq htaken).trans w.ledger.add_zero
  · have hne : -(w.coming.misc : Int) ≠ 0 := by omega
    rw [if_neg hzero]
    dsimp only
    rw [if_pos hne]
    exact ⟨hne, rfl⟩

/-! ## Loads and unloads -/

/-- A device that is found is of the right kind, there is memory for its table,
and its number of blocks fits in 32 bits. -/
def Outcomes.Met (o : Outcomes) : Prop :=
  ∀ mtd, o.Found mtd → o.Suits mtd ∧ mtd.blocks < 4294967296

/-- A load returns 0 exactly when it leaves a usable driver. -/
def Returns (r : Int × World) : Prop := r.1 = 0 ↔ Usable r.2

theorem u32_ebcnt (mtd : MtdInfo) : u32 mtd.ebcnt = mtd.blocks ↔ mtd.blocks < 4294967296 := by
  rw [MtdInfo.ebcnt, u32_i32]
  exact ⟨fun h => h ▸ u32_lt mtd.blocks, u32_natCast⟩

theorem not_usable (h : w.ledger = .empty) : ¬ Usable w := by
  intro husable
  have hmem := husable.registered
  rw [h] at hmem
  exact Multiset.notMem_zero _ hmem

theorem usable_iff (hledger : w.ledger = Ledger.empty.add (allHeld w)) (hmtd : w.mtd = some mtd)
    {a : Nat} (hbbt : w.bbt = some a) (hlength : (w.tables a).length = u32 mtd.ebcnt) :
    Usable w ↔ mtd.blocks < 4294967296 := by
  have hheld : w.ledger.held = {.misc} + ({.mtd} + {.table a}) := by
    rw [hledger, Ledger.held_add, allHeld, tableOf, hbbt]
    exact add_zero _
  rw [← u32_ebcnt, ← hlength]
  constructor
  · intro husable
    obtain ⟨mtd', a', hmtd', hbbt', -, hlength'⟩ := husable.table
    cases hmtd.symm.trans hmtd'
    cases hbbt.symm.trans hbbt'
    exact hlength'
  · intro hall
    refine ⟨?_, ?_, mtd, a, hmtd, hbbt, ?_, hall⟩ <;> rw [hheld] <;> simp

theorem returns_iff_met (hledger : w.ledger = .empty) (hbbt : w.bbt = none) :
    Returns (at91flashInit.run machine w) ↔ w.coming.Met := by
  by_cases hfound : ∃ mtd, w.coming.Found mtd
  · obtain ⟨mtd, hmtd⟩ := hfound
    have hmet : w.coming.Met ↔ w.coming.Suits mtd ∧ mtd.blocks < 4294967296 := by
      refine ⟨fun h => h mtd hmtd, fun h mtd' hmtd' => ?_⟩
      cases hmtd.2.symm.trans hmtd'.2
      exact h
    have hset := at91flashInit_found hbbt hmtd
    rw [hledger] at hset
    rw [hmet, Returns, iff_true_left hset.returns]
    by_cases hok : w.coming.Suits mtd
    · obtain ⟨hheld, hdevice, a, htable, hlength⟩ := hset.takes hok
      rw [usable_iff hheld hdevice htable hlength, and_iff_right hok]
    · exact iff_of_false (not_usable (hset.keeps hok)) fun h => hok h.1
  · have hnot := not_exists.mp hfound
    obtain ⟨hret, hkept⟩ := at91flashInit_notFound hnot
    refine iff_of_true ?_ fun mtd hmtd => absurd hmtd (hnot mtd)
    exact iff_of_false hret (not_usable (hkept.trans hledger))

/-- What the module holds as long as every load is met. -/
structure Sound (st : Module.State World) : Prop where
  loaded : st.loaded = true → st.world.ledger = Ledger.empty.add (allHeld st.world)
  unloaded : st.loaded = false → st.world.ledger = .empty

variable {st : Module.State World}

theorem Sound.load (h : Sound st) (hst : st.loaded = false) (hmet : o.Met) :
    Sound (flashModule.step st (.load o)) := by
  have hledger : (st.world.fresh o).ledger = .empty := h.unloaded hst
  rw [flashModule.step_load o hst]
  by_cases hfound : ∃ mtd, o.Found mtd
  · obtain ⟨mtd, hmtd⟩ := hfound
    have hset := at91flashInit_found (w := st.world.fresh o) rfl hmtd
    rw [hledger] at hset
    refine ⟨fun _ => (hset.takes (hmet mtd hmtd).1).1, fun hnot => ?_⟩
    exact absurd hset.returns (of_decide_eq_false hnot)
  · obtain ⟨hret, hkept⟩ := at91flashInit_notFound (w := st.world.fresh o) (not_exists.mp hfound)
    refine ⟨fun hloaded => ?_, fun _ => hkept.trans hledger⟩
    exact absurd (of_decide_eq_true hloaded) hret

theorem Sound.unload (h : Sound st) (hst : st.loaded = true) :
    Sound (flashModule.step st .unload) := by
  rw [flashModule.step_unload hst]
  exact ⟨fun hloaded => absurd hloaded Bool.false_ne_true,
    fun _ => run_at91flashExit (h.loaded hst)⟩

theorem sound_run {requests : List (Request Outcomes)}
    (h : flashModule.Loads w.boot Outcomes.Met requests) :
    Sound (flashModule.run w.boot requests) := by
  apply h.run
  · exact ⟨fun hloaded => absurd hloaded Bool.false_ne_true, fun _ => rfl⟩
  · intro st o hst hunloaded hmet
    exact hst.load hunloaded hmet
  · intro st hst hloaded
    exact hst.unload hloaded

/-- Over a life of the module: every load that the kernel runs returns 0
exactly when it leaves a usable driver, nothing is released that is not held,
and the module holds nothing when it is not loaded. -/
structure Balanced (w : World) (requests : List (Request Outcomes)) : Prop where
  returns : ∀ done o, done ++ [.load o] <+: requests →
    (flashModule.run w.boot done).loaded = false →
      Returns (flashModule.init o (flashModule.run w.boot done).world)
  releases : ∀ done, done <+: requests →
    (flashModule.run w.boot done).world.ledger.stray = 0 ∧
      ((flashModule.run w.boot done).loaded = false →
        (flashModule.run w.boot done).world.ledger.held = 0)

/-- The flash module is loaded exactly when it is usable, and gives back what
it took, as long as every load finds a device that it can use. -/
theorem balanced_iff_met (w : World) (requests : List (Request Outcomes)) :
    Balanced w requests ↔ flashModule.Loads w.boot Outcomes.Met requests := by
  constructor
  · intro h done o hdone hunloaded
    obtain ⟨hstray, hheld⟩ := h.releases done ((List.prefix_append done [.load o]).trans hdone)
    have hempty : (flashModule.run w.boot done).world.ledger = .empty :=
      Ledger.ext (hheld hunloaded) hstray
    have hreturns := h.returns done o hdone hunloaded
    have hiff := returns_iff_met (w := (flashModule.run w.boot done).world.fresh o) hempty rfl
    exact hiff.mp hreturns
  · intro h
    refine ⟨fun done o hdone hunloaded => ?_, fun done hdone => ?_⟩
    · have hsound := sound_run (h.of_prefix ((List.prefix_append done [.load o]).trans hdone))
      exact (returns_iff_met (w := (flashModule.run w.boot done).world.fresh o)
        (hsound.unloaded hunloaded) rfl).mpr (h done o hdone hunloaded)
    · have hsound := sound_run (h.of_prefix hdone)
      refine ⟨?_, fun hunloaded => by rw [hsound.unloaded hunloaded]; rfl⟩
      cases hst : (flashModule.run w.boot done).loaded with
      | true => rw [hsound.loaded hst, Ledger.stray_add]; rfl
      | false => rw [hsound.unloaded hst]; rfl

/-- A NOR device of sixty-four blocks. -/
def norDevice : MtdInfo where
  type := 3
  size := 4194304
  erasesize := 65536
  blockIsbad := none
  size_lt := by decide
  erasesize_pos := by decide
  erasesize_lt := by decide

def norLoad : Outcomes := ⟨0, .ok norDevice, true⟩

def World.blank : World := ⟨none, 0, none, fun _ => [], 0, .empty, norLoad⟩

/-- The load of a NOR device returns 0 and leaves a driver that is not usable. -/
theorem load_returns_unusable : ¬ Balanced World.blank [.load norLoad] := by
  intro h
  have hreturns := h.returns [] norLoad (List.prefix_refl _) rfl
  have hmet := (returns_iff_met (w := World.blank.boot.fresh norLoad) rfl rfl).mp hreturns
  have htype := (hmet norDevice ⟨rfl, rfl⟩).1.1
  exact absurd htype (by decide)

end At91Drivers.Flash.Life
