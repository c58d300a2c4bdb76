import At91Drivers.Effects.Clients
import At91Drivers.Flash.FaultFree
import At91Drivers.Flash.Globals
import At91Drivers.Flash.Loading

/-!
# Calls during a load of the flash driver

The device is registered before `mtd`, `ebcnt` and `bbt` are set, and
deregistered, on the path through `out`, after they are released.  A call finds
a global as it should be exactly in the window between.
-/

namespace At91Drivers.Flash.Life

open Effects Kernel

/-! ## Calls next to a load -/

/-- A call may start as soon as the device is registered, until it is
deregistered. -/
def callRules : Pool.Rules Op Reply GlobalOp GlobalReply (Option Ret) where
  calls p := ∃ fuel fPos c, p = Client.body fuel fPos c
  opens := Between .miscRegister (0 : Int) .miscDeregister

abbrev LoadPool := Pool Op Reply Int World GlobalOp GlobalReply (Option Ret)

/-- A load next to calls, after some other loads and unloads. -/
structure Opening (w : World) (requests : List (Request Outcomes)) (o : Outcomes)
    (P : LoadPool) : Prop where
  unloaded : (flashModule.run w.boot requests).loaded = false
  reached : Pool.Reaches machine callRules at91flashInit
    ((flashModule.run w.boot requests).world.fresh o) P

/-- The global is set, and what it refers to is held. -/
def Ready (past : List (Event Op Reply)) (w : World) : Global → Prop
  | .mtd => (∃ mtd, w.mtd = some mtd) ∧ .mtd ∈ w.ledger.held
  | .ebcnt => ∃ mtd, w.mtd = some mtd ∧ Did past (.setEbcnt mtd.ebcnt) ∧ w.ebcnt = mtd.ebcnt
  | .bbt => ∃ a, w.bbt = some a ∧ .table a ∈ w.ledger.held

def Prepared (past : List (Event Op Reply)) (w : World) (c : GlobalOp) : Prop :=
  ∀ g ∈ c.uses, Ready past w g

/-- The lookup found the device. -/
def FoundBy (past : List (Event Op Reply)) (mtd : MtdInfo) : Prop :=
  (⟨.getMtdDevice, .ok mtd⟩ : Event Op Reply) ∈ past

/-- The global was set by then, and not released. -/
def Window (o : Outcomes) (past : List (Event Op Reply)) : Global → Prop
  | .mtd => (∃ mtd, FoundBy past mtd) ∧ ¬ Did past .putMtdDevice
  | .ebcnt => ∃ n, Did past (.setEbcnt n)
  | .bbt => (o.table = true ∧ ∃ len, Did past (.allocBbt len)) ∧ ¬ Did past .freeBbt

def InTime (o : Outcomes) (past : List (Event Op Reply)) (c : GlobalOp) : Prop :=
  ∀ g ∈ c.uses, Window o past g

/-! ## What a load does to its globals -/

variable {w w' : World} {past : List (Event Op Reply)} {e : Op} {o : Outcomes}

theorem table_injective : Function.Injective Resource.table := fun _ _ h => Resource.table.inj h

/-- What the operations that are not about the globals leave as it is. -/
structure SameGlobals (w w' : World) : Prop where
  coming : w'.coming = w.coming
  mtd : w'.mtd = w.mtd
  ebcnt : w'.ebcnt = w.ebcnt
  bbt : w'.bbt = w.bbt
  next : w'.next = w.next
  count : ∀ r, r ≠ .misc → w'.ledger.held.count r = w.ledger.held.count r

theorem SameGlobals.refl (w : World) : SameGlobals w w :=
  ⟨rfl, rfl, rfl, rfl, rfl, fun _ _ => rfl⟩

/-- The operations that are not about the globals. -/
def Op.Aside : Op → Prop
  | .getMtdDevice | .putMtdDevice | .setEbcnt _ | .allocBbt _ | .freeBbt => False
  | _ => True

theorem sameGlobals_machine (he : e.Aside) (w : World) : SameGlobals w (machine e w).2 := by
  cases e with
  | miscRegister =>
      change SameGlobals w (if w.coming.misc = 0 then w.acquire .misc else w)
      split
      · refine ⟨rfl, rfl, rfl, rfl, rfl, fun r hr => ?_⟩
        change (w.ledger.acquire _).held.count _ = _
        rw [Ledger.count_acquire, if_neg hr, Nat.add_zero]
      · exact SameGlobals.refl w
  | miscDeregister =>
      exact ⟨rfl, rfl, rfl, rfl, rfl, fun r hr => w.ledger.count_release_of_ne hr⟩
  | getMtdDevice => exact he.elim
  | putMtdDevice => exact he.elim
  | setEbcnt n => exact he.elim
  | allocBbt len => exact he.elim
  | bbtIsNull => exact SameGlobals.refl w
  | freeBbt => exact he.elim
  | blockIsbad addr => exact SameGlobals.refl w
  | bbtStore i v =>
      change SameGlobals w (w.bbtStore i v)
      unfold World.bbtStore
      split
      · exact ⟨rfl, rfl, rfl, rfl, rfl, fun _ _ => rfl⟩
      · exact SameGlobals.refl w

/-- What a load asks for, and when: one lookup, before anything is released, the
number of the device that it found, and a table that was not freed. -/
def InOrder (past : List (Event Op Reply)) : Op → Prop
  | .getMtdDevice => ¬ Did past .getMtdDevice ∧ ¬ Did past .putMtdDevice
  | .setEbcnt n => ∃ mtd, FoundBy past mtd ∧ mtd.ebcnt = n
  | .allocBbt _ => ¬ Did past .freeBbt
  | _ => True

/-- The globals as the history has them. -/
structure Kept (o : Outcomes) (past : List (Event Op Reply)) (w : World) : Prop where
  coming : w.coming = o
  orderly : w.ledger.Orderly .table w.next
  once : w.ledger.held.count .mtd ≤ 1
  device : ∀ mtd, w.mtd = some mtd ↔ FoundBy past mtd
  reference : .mtd ∈ w.ledger.held ↔ (∃ mtd, FoundBy past mtd) ∧ ¬ Did past .putMtdDevice
  number : ∀ n, Did past (.setEbcnt n) → w.ebcnt = n ∧ ∃ mtd, FoundBy past mtd ∧ mtd.ebcnt = n
  table : w.bbt.isSome ↔ o.table = true ∧ ∃ len, Did past (.allocBbt len)
  live : ∀ a, w.bbt = some a → (.table a ∈ w.ledger.held ↔ ¬ Did past .freeBbt)

theorem did_of_foundBy {mtd : MtdInfo} (h : FoundBy past mtd) : Did past .getMtdDevice :=
  ⟨_, h, rfl⟩

/-- An event that is no lookup. -/
theorem foundBy_concat (past : List (Event Op Reply)) {event : Event Op Reply}
    (he : event.1 ≠ .getMtdDevice) (mtd : MtdInfo) :
    FoundBy (past ++ [event]) mtd ↔ FoundBy past mtd := by
  unfold FoundBy
  rw [List.mem_append, or_iff_left]
  intro hmem
  rw [← List.mem_singleton.mp hmem] at he
  exact he rfl

/-! ### Each operation -/

theorem Kept.aside (h : Kept o past w) (he : e.Aside) (r : Reply e) :
    Kept o (past ++ [⟨e, r⟩]) (machine e w).2 := by
  have hsame := sameGlobals_machine he w
  have hne {b : Op} (hb : ¬ b.Aside) : e ≠ b := fun heq => hb (heq ▸ he)
  have hdid {b : Op} (hb : ¬ b.Aside) : Did (past ++ [⟨e, r⟩]) b ↔ Did past b := by
    rw [did_concat, or_iff_left (hne hb)]
  have hget : (⟨e, r⟩ : Event Op Reply).1 ≠ .getMtdDevice := hne not_false
  have hfound := foundBy_concat past hget
  have hheld (r : Resource) (hr : r ≠ .misc) :
      r ∈ (machine e w).2.ledger.held ↔ r ∈ w.ledger.held := by
    rw [← Multiset.count_pos, ← Multiset.count_pos, hsame.count r hr]
  refine ⟨hsame.coming.trans h.coming, ?_, ?_, fun mtd => ?_, ?_, fun n hn => ?_, ?_,
    fun a ha => ?_⟩
  · exact h.orderly.of_count hsame.next.ge fun a => hsame.count _ (by simp)
  · rw [hsame.count _ (by simp)]
    exact h.once
  · rw [hsame.mtd, hfound]
    exact h.device mtd
  · simp only [hheld .mtd (by simp), hfound, hdid (b := .putMtdDevice) not_false]
    exact h.reference
  · rw [hdid (b := .setEbcnt n) not_false] at hn
    simp only [hfound]
    rw [hsame.ebcnt]
    exact h.number n hn
  · simp only [hsame.bbt, hdid (b := .allocBbt _) not_false]
    exact h.table
  · rw [hsame.bbt] at ha
    rw [hheld _ (by simp), hdid (b := .freeBbt) not_false]
    exact h.live a ha

theorem Kept.setEbcnt (h : Kept o past w) {n : Int} (hn : InOrder past (.setEbcnt n)) :
    Kept o (past ++ [⟨.setEbcnt n, ()⟩]) { w with ebcnt := n } := by
  have hne : (⟨.setEbcnt n, ()⟩ : Event Op Reply).1 ≠ .getMtdDevice := by simp
  have hfound := foundBy_concat past hne
  refine ⟨h.coming, h.orderly, h.once, fun mtd => ?_, ?_, fun n' hn' => ?_, ?_, fun a ha => ?_⟩
  · rw [hfound]
    exact h.device mtd
  · simp only [hfound, did_concat, reduceCtorEq, or_false]
    exact h.reference
  · simp only [hfound]
    obtain ⟨mtd, hmtd, hblocks⟩ := hn
    rcases did_concat.mp hn' with hn' | heq
    · -- the number of the same device
      obtain ⟨-, mtd', hmtd', hblocks'⟩ := h.number n' hn'
      have hdevice := ((h.device mtd).mpr hmtd).symm.trans ((h.device mtd').mpr hmtd')
      cases hdevice
      exact ⟨hblocks.symm.trans hblocks', mtd, hmtd, hblocks'⟩
    · cases heq
      exact ⟨rfl, mtd, hmtd, hblocks⟩
  · simp only [did_concat, reduceCtorEq, or_false]
    exact h.table
  · rw [did_concat, or_iff_left (by simp)]
    exact h.live a ha

theorem Kept.putMtdDevice (h : Kept o past w) :
    Kept o (past ++ [⟨.putMtdDevice, ()⟩]) (w.release .mtd) := by
  have hne : (⟨.putMtdDevice, ()⟩ : Event Op Reply).1 ≠ .getMtdDevice := by simp
  have hfound := foundBy_concat past hne
  have hcount : (w.ledger.release .mtd).held.count .mtd = 0 := by
    have honce := h.once
    rw [Ledger.count_release_self]
    omega
  refine ⟨h.coming, h.orderly.release _, ?_, fun mtd => ?_, ?_, fun n hn => ?_, ?_, fun a ha => ?_⟩
  · exact hcount.le.trans (Nat.zero_le 1)
  · rw [hfound]
    exact h.device mtd
  · refine iff_of_false (Multiset.count_eq_zero.mp hcount) fun hand => hand.2 ?_
    exact did_concat.mpr (.inr rfl)
  · simp only [hfound]
    rw [did_concat, or_iff_left (by simp)] at hn
    exact h.number n hn
  · simp only [did_concat, reduceCtorEq, or_false]
    exact h.table
  · rw [did_concat, or_iff_left (by simp), ← h.live a ha]
    exact w.ledger.mem_release_of_ne (by simp)

theorem Kept.freeBbt (h : Kept o past w) : Kept o (past ++ [⟨.freeBbt, ()⟩]) w.freeBbt := by
  have hne : (⟨.freeBbt, ()⟩ : Event Op Reply).1 ≠ .getMtdDevice := by simp
  have hfound := foundBy_concat past hne
  have hmem (a : Nat) : Resource.mtd ∈ (w.ledger.release (.table a)).held ↔ .mtd ∈ w.ledger.held :=
    w.ledger.mem_release_of_ne (by simp)
  have hheld : .mtd ∈ w.freeBbt.ledger.held ↔ .mtd ∈ w.ledger.held := by
    unfold World.freeBbt
    split
    · exact hmem _
    · exact Iff.rfl
  have hsame : w.freeBbt = { w with ledger := w.freeBbt.ledger } := by
    unfold World.freeBbt
    split <;> rfl
  rw [hsame]
  refine ⟨h.coming, ?_, ?_, fun mtd => ?_, ?_, fun n hn => ?_, ?_, fun a ha => ?_⟩
  · unfold World.freeBbt
    split
    · exact h.orderly.release _
    · exact h.orderly
  · unfold World.freeBbt
    split
    · exact (w.ledger.count_release_of_ne (by simp)).le.trans h.once
    · exact h.once
  · rw [hfound]
    exact h.device mtd
  · simp only [hheld, hfound, did_concat, reduceCtorEq, or_false]
    exact h.reference
  · simp only [hfound]
    rw [did_concat, or_iff_left (by simp)] at hn
    exact h.number n hn
  · simp only [did_concat, reduceCtorEq, or_false]
    exact h.table
  · have hbbt : w.bbt = some a := ha
    refine iff_of_false ?_ (not_not.mpr (did_concat.mpr (.inr rfl)))
    unfold World.freeBbt
    rw [hbbt]
    exact h.orderly.notMem_release a

theorem Kept.allocBbt (h : Kept o past w) {len : Nat} (hlen : InOrder past (.allocBbt len)) :
    Kept o (past ++ [⟨.allocBbt len, ()⟩]) (w.allocBbt len) := by
  have hne : (⟨.allocBbt len, ()⟩ : Event Op Reply).1 ≠ .getMtdDevice := by simp
  have hfound := foundBy_concat past hne
  have hfree : ¬ Did (past ++ [⟨.allocBbt len, ()⟩] : List (Event Op Reply)) .freeBbt := by
    rw [did_concat, or_iff_left (by simp)]
    exact hlen
  have hcoming := h.coming
  unfold World.allocBbt
  split
  · rename_i htable
    refine ⟨h.coming, h.orderly.take table_injective, ?_, fun mtd => ?_, ?_, fun n hn => ?_, ?_,
      fun a ha => iff_of_true ?_ hfree⟩
    · change (w.ledger.acquire _).held.count .mtd ≤ 1
      rw [Ledger.count_acquire, if_neg (by simp), Nat.add_zero]
      exact h.once
    · rw [hfound]
      exact h.device mtd
    · simp only [hfound, did_concat, reduceCtorEq, or_false]
      rw [← h.reference]
      exact Multiset.mem_cons.trans (or_iff_right (by simp))
    · simp only [hfound]
      rw [did_concat, or_iff_left (by simp)] at hn
      exact h.number n hn
    · rw [hcoming] at htable
      exact iff_of_true rfl ⟨htable, len, did_concat.mpr (.inr rfl)⟩
    · cases ha
      exact Multiset.mem_cons_self _ _
  · rename_i htable
    rw [hcoming] at htable
    refine ⟨h.coming, h.orderly, h.once, fun mtd => ?_, ?_, fun n hn => ?_, ?_, fun a ha => ?_⟩
    · rw [hfound]
      exact h.device mtd
    · simp only [hfound, did_concat, reduceCtorEq, or_false]
      exact h.reference
    · simp only [hfound]
      rw [did_concat, or_iff_left (by simp)] at hn
      exact h.number n hn
    · exact iff_of_false Bool.false_ne_true fun hand => htable hand.1
    · cases ha

theorem Kept.getMtdDevice (h : Kept o past w) (hget : InOrder past .getMtdDevice) :
    Kept o (past ++ [⟨.getMtdDevice, w.getMtdDevice.1⟩]) w.getMtdDevice.2 := by
  obtain ⟨hnotGet, hnotPut⟩ := hget
  -- the device is asked for once, so nothing was found before
  have hnotFound (mtd : MtdInfo) : ¬ FoundBy past mtd := fun hfound =>
    hnotGet (did_of_foundBy hfound)
  have hfound (mtd : MtdInfo) :
      FoundBy (past ++ [⟨.getMtdDevice, w.getMtdDevice.1⟩]) mtd ↔ w.getMtdDevice.1 = .ok mtd := by
    have hnot := hnotFound mtd
    unfold FoundBy at hnot ⊢
    rw [List.mem_append, or_iff_right hnot]
    simp [eq_comm]
  have hnumber (n : Int) : ¬ Did (past ++ [⟨.getMtdDevice, w.getMtdDevice.1⟩]) (.setEbcnt n) := by
    rw [did_concat, or_iff_left (by simp)]
    intro hdid
    obtain ⟨-, mtd, hmtd, -⟩ := h.number n hdid
    exact hnotFound mtd hmtd
  have hput : ¬ Did (past ++ [⟨.getMtdDevice, w.getMtdDevice.1⟩]) .putMtdDevice := by
    rw [did_concat, or_iff_left (by simp)]
    exact hnotPut
  have hmtd : .mtd ∉ w.ledger.held := by
    rw [h.reference]
    rintro ⟨⟨mtd, hmtd⟩, -⟩
    exact hnotFound mtd hmtd
  have htable : w.bbt.isSome ↔ o.table = true ∧
      ∃ len, Did (past ++ [⟨.getMtdDevice, w.getMtdDevice.1⟩]) (.allocBbt len) := by
    simp only [did_concat, reduceCtorEq, or_false]
    exact h.table
  have hlive (a : Nat) (ha : w.bbt = some a) : .table a ∈ w.ledger.held ↔
      ¬ Did (past ++ [⟨.getMtdDevice, w.getMtdDevice.1⟩]) .freeBbt := by
    rw [did_concat, or_iff_left (by simp)]
    exact h.live a ha
  cases hlookup : w.coming.lookup with
  | ok found =>
      have hget : w.getMtdDevice = (.ok found, { w.acquire .mtd with mtd := some found }) :=
        getMtdDevice_ok hlookup
      rw [hget] at hfound hnumber hput htable hlive ⊢
      refine ⟨h.coming, h.orderly.acquire_of_ne (by simp), ?_, fun mtd => ?_, ?_,
        fun n hn => absurd hn (hnumber n), htable, fun a ha => ?_⟩
      · change (w.ledger.acquire _).held.count _ ≤ 1
        rw [Ledger.count_acquire, Multiset.count_eq_zero.mpr hmtd]
        simp
      · rw [hfound]
        simp
      · exact iff_of_true (Multiset.mem_cons_self _ _) ⟨⟨found, (hfound found).mpr rfl⟩, hput⟩
      · exact (Multiset.mem_cons.trans (or_iff_right (by simp))).trans (hlive a ha)
  | error err =>
      have hget : w.getMtdDevice = (.error (-(err : Int)), { w with mtd := none }) :=
        getMtdDevice_error hlookup
      rw [hget] at hfound hnumber hput htable hlive ⊢
      refine ⟨h.coming, h.orderly, h.once, fun mtd => ?_, iff_of_false hmtd ?_,
        fun n hn => absurd hn (hnumber n), htable, hlive⟩
      · rw [hfound]
        simp
      · rintro ⟨⟨mtd, hmtd⟩, -⟩
        exact absurd ((hfound mtd).mp hmtd) (by simp)

theorem Kept.step (h : Kept o past w) (he : InOrder past e) :
    Kept o (past ++ [⟨e, (machine e w).1⟩]) (machine e w).2 := by
  cases e with
  | getMtdDevice => exact h.getMtdDevice he
  | putMtdDevice => exact h.putMtdDevice
  | setEbcnt n => exact h.setEbcnt he
  | allocBbt len => exact h.allocBbt he
  | freeBbt => exact h.freeBbt
  | _ => exact h.aside (by trivial) _

/-! ## The order of a load -/

/-- The operations that may be asked for at any time. -/
def Op.Unordered : Op → Prop
  | .getMtdDevice | .setEbcnt _ | .allocBbt _ => False
  | _ => True

theorem inOrder_of_unordered (past : List (Event Op Reply)) (e : Op) (he : e.Unordered) :
    InOrder past e := by
  cases e with
  | getMtdDevice => exact he.elim
  | setEbcnt n => exact he.elim
  | allocBbt len => exact he.elim
  | _ => trivial

theorem unordered_out : out.Asks Op.Unordered :=
  ⟨trivial, fun _ => ⟨trivial, fun _ => ⟨trivial, fun _ => trivial⟩⟩⟩

theorem unordered_scanBlocks (mtd : MtdInfo) (blocks : List Nat) :
    (scanBlocks mtd blocks).Asks Op.Unordered := by
  induction blocks with
  | nil => trivial
  | cons i rest ih => exact ⟨trivial, fun ret => ⟨trivial, fun _ => ih⟩⟩

/-- The rest of a load after the allocation of the table, for any list of
blocks. -/
theorem unordered_scan (mtd : MtdInfo) (blocks : List Nat) :
    (do let failed ← (ask .bbtIsNull : Driver Bool)
        let err ← (if failed then return -ENOMEM
          else if mtd.blockIsbad.isNone then return 0
          else do scanBlocks mtd blocks; return 0 : Driver Int)
        if err ≠ 0 then out else return 0 : Driver Int).Asks Op.Unordered := by
  refine ⟨trivial, fun failed => ?_⟩
  have hscan : (if failed then return -ENOMEM
      else if mtd.blockIsbad.isNone then return 0
      else do scanBlocks mtd blocks; return 0 : Driver Int).Asks Op.Unordered := by
    split
    · trivial
    · split
      · trivial
      · exact (unordered_scanBlocks mtd blocks).bind fun _ => trivial
  refine hscan.bind fun err => ?_
  split
  · exact unordered_out
  · trivial

/-- The number is set when the device was found, and the table allocated before
anything is released. -/
theorem meets_setUp (mtd : MtdInfo) (hfound : FoundBy past mtd) (hfree : ¬ Did past .freeBbt) :
    (setUp mtd).Meets (fun _ _ => True) InOrder (fun _ _ => True) past := by
  unfold setUp
  split
  · exact unordered_out.meets inOrder_of_unordered past
  · refine ⟨⟨mtd, hfound, rfl⟩, fun _ _ => ?_⟩
    refine ⟨fun hdid => hfree ((did_concat.mp hdid).resolve_right (by simp)), fun _ _ => ?_⟩
    exact (unordered_scan mtd _).meets inOrder_of_unordered _

theorem meets_at91flashInit :
    at91flashInit.Meets (fun _ _ => True) InOrder (fun _ _ => True) [] := by
  refine ⟨trivial, fun ret _ => ?_⟩
  change Prog.Meets _ _ _ (if _ then _ else _) _
  split
  · trivial
  · refine ⟨⟨?_, ?_⟩, fun found _ => ?_⟩
    · rw [List.nil_append]
      rintro ⟨event, hevent, heq⟩
      rw [List.mem_singleton.mp hevent] at heq
      cases heq
    · rw [List.nil_append]
      rintro ⟨event, hevent, heq⟩
      rw [List.mem_singleton.mp hevent] at heq
      cases heq
    · cases found with
      | error err => exact ⟨trivial, fun _ _ => trivial⟩
      | ok mtd =>
          apply meets_setUp
          · exact List.mem_append_right _ (List.mem_singleton_self _)
          · simp [Did]

/-! ## The kernel before a load -/

theorem orderly_aside (he : e.Aside) (h : w.ledger.Orderly .table w.next) :
    (machine e w).2.ledger.Orderly .table (machine e w).2.next := by
  have hsame := sameGlobals_machine he w
  exact h.of_count hsame.next.ge fun a => hsame.count _ (by simp)

theorem orderly_machine (e : Op) (w : World) (h : w.ledger.Orderly .table w.next) :
    (machine e w).2.ledger.Orderly .table (machine e w).2.next := by
  cases e with
  | putMtdDevice => exact h.release _
  | setEbcnt n => exact h
  | getMtdDevice =>
      change w.getMtdDevice.2.ledger.Orderly .table w.getMtdDevice.2.next
      unfold World.getMtdDevice
      split
      · exact h.acquire_of_ne (by simp)
      · exact h
  | allocBbt len =>
      change (w.allocBbt len).ledger.Orderly .table (w.allocBbt len).next
      unfold World.allocBbt
      split
      · exact h.take table_injective
      · exact h
  | freeBbt =>
      change w.freeBbt.ledger.Orderly .table w.freeBbt.next
      unfold World.freeBbt
      split
      · exact h.release _
      · exact h
  | _ => exact orderly_aside (by trivial) h

/-- After any loads and unloads. -/
theorem orderly_run (w : World) (requests : List (Request Outcomes)) :
    (flashModule.run w.boot requests).world.ledger.Orderly .table
      (flashModule.run w.boot requests).world.next := by
  have hall : flashModule.Loads w.boot (fun _ => True) requests := fun _ _ _ _ => trivial
  apply hall.run (I := fun st => st.world.ledger.Orderly .table st.world.next)
  · exact Ledger.orderly_empty
  · intro st o hst hunloaded _
    have hfresh : (st.world.fresh o).ledger.Orderly .table (st.world.fresh o).next := hst
    rw [flashModule.step_load o hunloaded]
    exact Prog.run_preserves machine orderly_machine at91flashInit hfresh
  · intro st hst hloaded
    rw [flashModule.step_unload hloaded]
    exact Prog.run_preserves machine orderly_machine at91flashExit hst

/-- A load takes at most one reference, and none that it keeps when it fails. -/
theorem reference_init {w : World} (hbbt : w.bbt = none) (hnone : w.ledger.held.count .mtd = 0) :
    (at91flashInit.run machine w).2.ledger.held.count .mtd ≤ 1 ∧
      ((at91flashInit.run machine w).1 ≠ 0 →
        (at91flashInit.run machine w).2.ledger.held.count .mtd = 0) := by
  by_cases hfound : ∃ mtd, w.coming.Found mtd
  · obtain ⟨mtd, hmtd⟩ := hfound
    have hset := at91flashInit_found hbbt hmtd
    refine ⟨?_, fun hne => absurd hset.returns hne⟩
    by_cases hok : w.coming.Suits mtd
    · rw [(hset.takes hok).1, Ledger.held_add, Multiset.count_add, hnone, allHeld, tableOf]
      cases (at91flashInit.run machine w).2.bbt with
      | none => simp
      | some a => simp
    · rw [hset.keeps hok, hnone]
      exact Nat.zero_le 1
  · obtain ⟨-, hkept⟩ := at91flashInit_notFound (not_exists.mp hfound)
    rw [hkept, hnone]
    exact ⟨Nat.zero_le 1, fun _ => rfl⟩

theorem reference_exit (w : World) (honce : w.ledger.held.count .mtd ≤ 1) :
    (at91flashExit.run machine w).2.ledger.held.count .mtd = 0 := by
  have hput : ((w.release .misc).release .mtd).ledger.held.count .mtd = 0 := by
    change ((w.ledger.release .misc).release .mtd).held.count .mtd = 0
    rw [Ledger.count_release_self, Ledger.count_release_of_ne _ (by simp)]
    omega
  change ((w.release .misc).release .mtd).freeBbt.ledger.held.count .mtd = 0
  unfold World.freeBbt
  split
  · exact (Ledger.count_release_of_ne _ (by simp)).trans hput
  · exact hput

/-- No reference is held when the module is not loaded. -/
theorem reference_run (w : World) (requests : List (Request Outcomes)) :
    (flashModule.run w.boot requests).world.ledger.held.count .mtd ≤ 1 ∧
      ((flashModule.run w.boot requests).loaded = false →
        (flashModule.run w.boot requests).world.ledger.held.count .mtd = 0) := by
  have hall : flashModule.Loads w.boot (fun _ => True) requests := fun _ _ _ _ => trivial
  apply hall.run (I := fun st => st.world.ledger.held.count .mtd ≤ 1 ∧
    (st.loaded = false → st.world.ledger.held.count .mtd = 0))
  · exact ⟨Nat.zero_le 1, fun _ => rfl⟩
  · intro st o hst hunloaded _
    obtain ⟨honce, hfailed⟩ :=
      reference_init (w := st.world.fresh o) rfl (hst.2 hunloaded)
    rw [flashModule.step_load o hunloaded]
    exact ⟨honce, fun hnot => hfailed (of_decide_eq_false hnot)⟩
  · intro st hst hloaded
    have hnone := reference_exit st.world hst.1
    rw [flashModule.step_unload hloaded]
    exact ⟨hnone.le.trans (Nat.zero_le 1), fun _ => hnone⟩

/-! ## When a call finds its globals -/

theorem kept_fresh {requests : List (Request Outcomes)} (o : Outcomes)
    (hunloaded : (flashModule.run w.boot requests).loaded = false) :
    Kept o [] ((flashModule.run w.boot requests).world.fresh o) := by
  obtain ⟨honce, hnone⟩ := reference_run w requests
  refine ⟨rfl, orderly_run w requests, honce, fun mtd => ?_, ?_, fun n hn => ?_, ?_, fun a ha => ?_⟩
  · exact iff_of_false (fun h => by cases h) List.not_mem_nil
  · refine iff_of_false (Multiset.count_eq_zero.mp (hnone hunloaded)) ?_
    rintro ⟨⟨mtd, hmtd⟩, -⟩
    exact absurd hmtd List.not_mem_nil
  · exact absurd hn (not_did_nil _)
  · refine iff_of_false Bool.false_ne_true ?_
    rintro ⟨-, len, hdid⟩
    exact not_did_nil _ hdid
  · cases ha

/-- A global is as it should be just when the history says so. -/
theorem ready_iff_window (h : Kept o past w) (g : Global) : Ready past w g ↔ Window o past g := by
  cases g with
  | mtd =>
      change (∃ mtd, w.mtd = some mtd) ∧ _ ↔ (∃ mtd, FoundBy past mtd) ∧ ¬ Did past .putMtdDevice
      rw [exists_congr h.device, h.reference, and_self_left]
  | ebcnt =>
      constructor
      · rintro ⟨mtd, -, hdid, -⟩
        exact ⟨mtd.ebcnt, hdid⟩
      · rintro ⟨n, hdid⟩
        obtain ⟨hebcnt, mtd, hmtd, rfl⟩ := h.number n hdid
        exact ⟨mtd, (h.device mtd).mpr hmtd, hdid, hebcnt⟩
  | bbt =>
      constructor
      · rintro ⟨a, hbbt, hheld⟩
        exact ⟨h.table.mp (by rw [hbbt]; rfl), (h.live a hbbt).mp hheld⟩
      · rintro ⟨htable, hfree⟩
        obtain ⟨a, hbbt⟩ := Option.isSome_iff_exists.mp (h.table.mpr htable)
        exact ⟨a, hbbt, (h.live a hbbt).mpr hfree⟩

/-- The calls of a load find the globals prepared just when each use of one
comes in its window. -/
theorem opening_prepared_iff {requests : List (Request Outcomes)} {P : LoadPool}
    (hP : Opening w requests o P) :
    (∀ u ∈ P.moments, Prepared u.past u.state u.op) ↔ ∀ u ∈ P.moments, InTime o u.past u.op := by
  have hkept := Pool.Reaches.invariant meets_at91flashInit (kept_fresh o hP.unloaded)
    (fun past e s hs he => hs.step he) hP.reached
  exact forall₂_congr fun u hu => forall₂_congr fun g _ => ready_iff_window (hkept u hu) g

/-! ## All interleavings of a load -/

/-- The registration is the first step, and the last one when it fails. -/
theorem trace_at91flashInit (hmisc : w.coming.misc ≠ 0) :
    at91flashInit.trace machine w = [⟨.miscRegister, -(w.coming.misc : Int)⟩] := by
  have hne : -(w.coming.misc : Int) ≠ 0 := by omega
  change _ :: Prog.trace machine (if -(w.coming.misc : Int) ≠ 0 then _ else _) _ = _
  rw [if_pos hne]
  rfl

/-- A read begins with the load of `mtd`. -/
theorem exists_first_load (fuel buf count : Nat) (fPos : Int) :
    ∃ next, Client.body (fuel + 1) fPos (.read buf count) = .op .loadMtd next := by
  have hload {α β : Type} (f : Mtd → Client α) (g : α → Client β) :
      ∃ next, (Client.loadMtd >>= f) >>= g = .op .loadMtd next := ⟨fun m => f m >>= g, rfl⟩
  unfold Client.body Client.at91flashRead Client.skipBadBlocks
  exact hload _ _

/-- A read goes through `mtd` before it is looked up, as soon as the device is
registered. -/
theorem exists_unprepared {requests : List (Request Outcomes)}
    (hunloaded : (flashModule.run w.boot requests).loaded = false) (hmisc : o.misc = 0) :
    ∃ P, Opening w requests o P ∧ ∃ u ∈ P.moments, ¬ Prepared u.past u.state u.op := by
  obtain ⟨next, hread⟩ := exists_first_load 0 0 0 0
  obtain ⟨rest, hinit⟩ : ∃ rest, at91flashInit = .op .miscRegister rest := ⟨_, rfl⟩
  let start := (flashModule.run w.boot requests).world.fresh o
  have hzero : (machine .miscRegister start).1 = (0 : Int) := by
    change -((o.misc : Nat) : Int) = 0
    rw [hmisc]
    rfl
  have hopen : callRules.opens [⟨.miscRegister, (machine .miscRegister start).1⟩] := by
    rw [hzero]
    exact between_singleton _ (by simp)
  obtain ⟨P, hP, hmoment⟩ : ∃ P, Pool.Reaches machine callRules (.op .miscRegister rest) start P ∧
      _ ∈ P.moments := Pool.exists_moment_first ⟨_, _, _, hread.symm⟩ hopen fourBlocks
  refine ⟨P, ⟨hunloaded, hinit ▸ hP⟩, _, hmoment, fun hprepared => ?_⟩
  obtain ⟨⟨mtd, hmtd⟩, -⟩ := hprepared .mtd (List.mem_singleton_self _)
  have hnone : (machine .miscRegister start).2.mtd = none := by
    change (if _ then _ else _ : World).mtd = none
    split <;> rfl
  exact absurd (hnone.symm.trans hmtd) (by simp)

/-- Every interleaving of a load with calls finds the globals prepared just when
the device is not registered at all. -/
theorem opening_always_prepared_iff {requests : List (Request Outcomes)}
    (hunloaded : (flashModule.run w.boot requests).loaded = false) :
    (∀ P, Opening w requests o P → ∀ u ∈ P.moments, Prepared u.past u.state u.op) ↔
      o.misc ≠ 0 := by
  constructor
  · intro h hmisc
    obtain ⟨P, hP, u, hu, hnot⟩ := exists_unprepared hunloaded hmisc
    exact hnot (h P hP u hu)
  · intro hmisc P hP u hu
    have hnone : P.moments = [] := by
      apply hP.reached.moments_eq_nil
      rintro before hbefore ⟨hopen, -⟩
      rw [trace_at91flashInit hmisc] at hbefore
      have hzero := List.mem_singleton.mp (hbefore.subset hopen)
      have hregistered : ((flashModule.run w.boot requests).world.fresh o).coming.misc = 0 := by
        simpa using hzero.symm
      exact hmisc hregistered
    rw [hnone] at hu
    exact absurd hu List.not_mem_nil

end At91Drivers.Flash.Life
