import At91Drivers.Flash.Loading
import At91Drivers.Flash.Provenance
import At91Drivers.Flash.Search
import At91Drivers.Flash.TableBounds

/-!
# The bad-block table from the load on

`scan_for_bad_eraseblocks` enters every block at the load.  Each call enters again
what it is told of a block before it looks the entry up, and takes no lock.  As
the answers do not change, a call stores what is there: the table is the one of
the scan at all times, and no call finds an entry that another one put there
instead.
-/

namespace At91Drivers.Flash

open Effects Arith

/-! ## The scan -/

/-- Entries stored one after the other. -/
theorem foldl_set_range {V : Type} (g : Nat → V) (l : List V) {n : Nat} (hn : n ≤ l.length) :
    (List.range n).foldl (fun t i => t.set i (g i)) l = (List.range n).map g ++ l.drop n := by
  induction n with
  | zero => simp
  | succ n ih =>
      have hdrop : l.drop n = l[n] :: l.drop (n + 1) := List.drop_eq_getElem_cons hn
      rw [List.range_succ, List.foldl_append, ih (Nat.le_of_succ_le hn)]
      simp only [List.foldl_cons, List.foldl_nil, List.map_append, List.map_cons, List.map_nil]
      rw [List.set_append_right _ _ (by simp), hdrop, List.length_map, List.length_range,
        Nat.sub_self, List.set_cons_zero, List.append_assoc, List.singleton_append]

namespace Life

variable {w : World} {mtd : MtdInfo} {isbad : Nat → Int} {a : Nat}

/-- The entry of block `i`. -/
def MtdInfo.entry (mtd : MtdInfo) (isbad : Nat → Int) (i : Nat) : UInt8 :=
  if isbad (u32 (i * mtd.erasesize : Nat)) ≠ 0 then 1 else 0

theorem run_scanBlocks (hmtd : w.mtd = some mtd) (hisbad : mtd.blockIsbad = some isbad)
    (hbbt : w.bbt = some a) (blocks : List Nat) :
    ((scanBlocks mtd blocks).run machine w).2.bbt = some a ∧
      ((scanBlocks mtd blocks).run machine w).2.tables a =
        blocks.foldl (fun t i => t.set i (mtd.entry isbad i)) (w.tables a) := by
  induction blocks generalizing w with
  | nil => exact ⟨hbbt, rfl⟩
  | cons i rest ih =>
      have hret : ((isBlockBad mtd i).run machine w).1 = isbad (u32 (i * mtd.erasesize : Nat)) := by
        change (((w.mtd.bind (·.blockIsbad)).map _).getD 0) = _
        rw [hmtd, Option.bind_some, hisbad]
        rfl
      have hstored : w.bbtStore i (mtd.entry isbad i) =
          { w with
            tables := Function.update w.tables a ((w.tables a).set i (mtd.entry isbad i)) } := by
        rw [World.bbtStore, hbbt]
      have hrun : (scanBlocks mtd (i :: rest)).run machine w =
          (scanBlocks mtd rest).run machine (w.bbtStore i (mtd.entry isbad i)) := by
        rw [MtdInfo.entry, ← hret]
        rfl
      rw [hrun, hstored]
      obtain ⟨hbbt', htable⟩ := ih
        (w := { w with
          tables := Function.update w.tables a ((w.tables a).set i (mtd.entry isbad i)) })
        hmtd hbbt
      refine ⟨hbbt', ?_⟩
      rw [htable]
      simp

/-- `scan_for_bad_eraseblocks` with memory for the table. -/
theorem run_scanForBadEraseblocks (htable : w.coming.table = true)
    (hisbad : mtd.blockIsbad = some isbad) :
    (scanForBadEraseblocks mtd).run machine w =
      (0, ((scanBlocks mtd (List.range mtd.ebcnt.toNat)).run machine
        (w.allocBbt (u32 mtd.ebcnt))).2) := by
  obtain ⟨w', hw'⟩ : ∃ w', w' = w.allocBbt (u32 mtd.ebcnt) := ⟨_, rfl⟩
  have halloc : (ask (.allocBbt (u32 mtd.ebcnt))).run machine w = ((), w') := hw' ▸ rfl
  have hnull : (ask .bbtIsNull).run machine w' = (false, w') := by
    change (Option.isNone w'.bbt, w') = (false, w')
    rw [hw', World.allocBbt, if_pos htable]
    rfl
  unfold scanForBadEraseblocks
  rw [Prog.run_bind, halloc, Prog.run_bind, hnull]
  dsimp only
  rw [if_neg Bool.false_ne_true, if_neg (by simp [hisbad]), Prog.run_bind, ← hw']
  rfl

/-- The world in which a load scans the blocks. -/
def World.beforeScan (w : World) (mtd : MtdInfo) : World :=
  ({ (w.acquire .misc).acquire .mtd with mtd := some mtd, ebcnt := mtd.ebcnt } :
    World).allocBbt (u32 mtd.ebcnt)

theorem World.beforeScan_table (w : World) (mtd : MtdInfo) (htable : w.coming.table = true) :
    (w.beforeScan mtd).mtd = some mtd ∧ (w.beforeScan mtd).bbt = some w.next ∧
      (w.beforeScan mtd).tables w.next = List.replicate (u32 mtd.ebcnt) 0 := by
  have halloc (w : World) (len : Nat) (htable : w.coming.table = true) :
      (w.allocBbt len).mtd = w.mtd ∧ (w.allocBbt len).bbt = some w.next ∧
        (w.allocBbt len).tables w.next = List.replicate len 0 := by
    rw [World.allocBbt, if_pos htable]
    exact ⟨rfl, rfl, Function.update_self _ _ _⟩
  exact halloc { (w.acquire .misc).acquire .mtd with mtd := some mtd, ebcnt := mtd.ebcnt } _ htable

theorem run_at91flashInit (hfound : w.coming.Found mtd) (hsuits : w.coming.Suits mtd)
    (hisbad : mtd.blockIsbad = some isbad) :
    (at91flashInit.run machine w).2 =
      ((scanBlocks mtd (List.range mtd.ebcnt.toNat)).run machine (w.beforeScan mtd)).2 := by
  obtain ⟨w₁, hw₁⟩ : ∃ w₁, w₁ = { (w.acquire .misc).acquire .mtd with mtd := some mtd } :=
    ⟨_, rfl⟩
  obtain ⟨w₂, hw₂⟩ : ∃ w₂, w₂ = { w₁ with ebcnt := mtd.ebcnt } := ⟨_, rfl⟩
  have hmisc : (ask .miscRegister : Driver Int).run machine w = (0, w.acquire .misc) := by
    change (-(w.coming.misc : Int), if w.coming.misc = 0 then w.acquire .misc else w) = _
    rw [hfound.1, if_pos rfl]
    rfl
  have hlookup : (ask .getMtdDevice : Driver _).run machine (w.acquire .misc) = (.ok mtd, w₁) := by
    rw [hw₁]
    exact getMtdDevice_ok (w := w.acquire .misc) hfound.2
  have hebcnt : (ask (.setEbcnt mtd.ebcnt)).run machine w₁ = ((), w₂) := hw₂ ▸ rfl
  have htable : w₂.coming.table = true := by
    rw [hw₂, hw₁]
    exact hsuits.2
  have hbefore : w.beforeScan mtd = w₂.allocBbt (u32 mtd.ebcnt) := by rw [hw₂, hw₁]; rfl
  obtain ⟨w₃, hw₃⟩ : ∃ w₃, w₃ = ((scanBlocks mtd (List.range mtd.ebcnt.toNat)).run machine
    (w₂.allocBbt (u32 mtd.ebcnt))).2 := ⟨_, rfl⟩
  have hscan : (scanForBadEraseblocks mtd).run machine w₂ = (0, w₃) := by
    rw [run_scanForBadEraseblocks htable hisbad, hw₃]
  rw [hbefore, ← hw₃]
  unfold at91flashInit
  rw [Prog.run_bind, hmisc]
  dsimp only
  rw [if_neg (not_not.mpr rfl), Prog.run_bind, hlookup]
  dsimp only
  unfold setUp
  rw [if_neg (not_not.mpr hsuits.1), Prog.run_bind, hebcnt, Prog.run_bind, hscan]
  rfl

/-- A load that sets up the table leaves the entries of all blocks in it. -/
theorem table_of_load (hfound : w.coming.Found mtd) (hsuits : w.coming.Suits mtd)
    (hisbad : mtd.blockIsbad = some isbad) (hblocks : mtd.blocks < 2147483648) :
    ∃ a, (at91flashInit.run machine w).2.bbt = some a ∧
      (at91flashInit.run machine w).2.tables a =
        (List.range mtd.blocks).map (mtd.entry isbad) := by
  have hebcnt : mtd.ebcnt = mtd.blocks := i32_natCast hblocks
  obtain ⟨hdevice, hfresh, hzeroed⟩ := World.beforeScan_table w mtd hsuits.2
  obtain ⟨hbbt, htables⟩ := run_scanBlocks hdevice hisbad hfresh (List.range mtd.ebcnt.toNat)
  rw [hebcnt, u32_natCast (by omega)] at hzeroed
  rw [run_at91flashInit hfound hsuits hisbad]
  refine ⟨w.next, hbbt, ?_⟩
  rw [htables, hzeroed, hebcnt, Int.toNat_natCast, foldl_set_range _ _ (by simp)]
  simp

end Life

/-! ## The calls -/

variable {m : Mtd} {bad : Nat → Bool}

/-- A store is inside the table. -/
def InTable (m : Mtd) (_ : History) : Op → Prop
  | .bbtStore b _ => 0 ≤ b ∧ b < m.ebcnt
  | _ => True

theorem IndexOk.inTable {p : Int} {past : History} {e : Op} (h : IndexOk m p past e) :
    InTable m past e := by
  cases e with
  | bbtStore b v => exact h.1
  | _ => trivial

section Small

variable (hsize : m.size < 4294967296) {fuel buf count : Nat} {fPos : Int} {past : History}

include hsize

omit hsize in
theorem position_argFromUser {p : Int} {karg : Option FlashData} :
    m.position p (past ++ [⟨.argFromUser, karg⟩]) = m.position p past :=
  position_concat _ _

/-- The position of the events is the one that the part starts from. -/
theorem read_inTable (hpos : Placed m fPos) (hpast : m.position fPos past = fPos) :
    (at91flashRead m fuel buf count fPos).Meets (Sane m bad) (InTable m) (fun _ _ => True)
      past := by
  obtain ⟨k, rfl, hk⟩ := hpos
  have hblocks := m.blocks_lt
  have hint : k / m.erasesize < 2147483648 := hk.trans_lt hblocks
  have hbound : k < 18446744073709551616 := by
    have hes := m.erasesize_lt
    have hlt : k < 2147483648 * m.erasesize := (Nat.div_lt_iff_lt_mul m.erasesize_pos).mp hint
    omega
  exact ((indexed_read_from hsize hint hbound hpast).weaken fun _ _ => IndexOk.inTable).mono
    fun _ _ _ => trivial

theorem write_inTable (hpos : Placed m fPos) (hpast : m.position fPos past = fPos) :
    (at91flashWrite m fuel buf count fPos).Meets (Sane m bad) (InTable m) (fun _ _ => True)
      past := by
  obtain ⟨k, rfl, hk⟩ := hpos
  have hblocks := m.blocks_lt
  have hint : k / m.erasesize < 2147483648 := hk.trans_lt hblocks
  have hbound : k < 18446744073709551616 := by
    have hes := m.erasesize_lt
    have hlt : k < 2147483648 * m.erasesize := (Nat.div_lt_iff_lt_mul m.erasesize_pos).mp hint
    omega
  have hcount (count : Nat) : (writeCount m fuel buf count k).Meets (Sane m bad) (InTable m)
      (fun _ _ => True) past :=
    (indexed_writeCount_from hsize hint hbound hpast).weaken fun _ _ => IndexOk.inTable
  unfold at91flashWrite
  split
  · exact hcount _
  · split
    · trivial
    · exact hcount _

theorem call_inTable (hpos : Placed m fPos) (c : Call) :
    (c.body m fuel fPos).Meets (Sane m bad) (InTable m) (fun _ _ => True) [] := by
  have hreturn (karg : FlashData) (fPos : Int) (past : History) :
      (ioctlReturn karg fPos).Meets (Sane m bad) (InTable m) (fun _ _ => True) past := by
    refine ⟨trivial, fun ok _ => ?_⟩
    cases ok <;> trivial
  cases c with
  | lseek offset orig => trivial
  | read buf count => exact read_inTable hsize hpos rfl
  | write buf count => exact write_inTable hsize hpos rfl
  | ioctl cmd =>
      unfold Call.body at91flashIoctl
      rw [Prog.meets_bind, Prog.meets_perform]
      refine ⟨trivial, fun karg _ => ?_⟩
      cases karg with
      | none => trivial
      | some karg =>
          have hseek := lseek_placed hpos karg.offset.toInt 0
          dsimp only
          split
          · rw [Prog.meets_bind]
            refine (read_inTable hsize hseek position_argFromUser).mono fun later r _ => ?_
            cases r with
            | none => trivial
            | some r => exact hreturn karg r.ppos _
          · rw [Prog.meets_bind]
            refine (write_inTable hsize hseek position_argFromUser).mono fun later r _ => ?_
            cases r with
            | none => trivial
            | some r => exact hreturn karg r.ppos _
          · trivial

end Small

/-! ## The table at all times -/

variable {ι : Type}

/-- The table after an operation. -/
def storeEntry (t : List UInt8) (deed : Deed Op Reply ι) : List UInt8 :=
  match deed.event.1 with
  | .bbtStore b v => t.set b.toNat (if v then 1 else 0)
  | _ => t

/-- The table after the operations of a log. -/
def tableAfter (t : List UInt8) (log : Log ι) : List UInt8 := log.foldl storeEntry t

/-- The operation stores what is there. -/
def Restores (t : List UInt8) (deed : Deed Op Reply ι) : Prop :=
  ∀ b v, deed.event.1 = .bbtStore b v → ∃ k : Nat, b = k ∧ t[k]? = some (if v then 1 else 0)

theorem storeEntry_of_restores {t : List UInt8} {deed : Deed Op Reply ι} (h : Restores t deed) :
    storeEntry t deed = t := by
  unfold storeEntry
  split
  · rename_i b v hevent
    obtain ⟨k, rfl, hentry⟩ := h b v hevent
    obtain ⟨hk, hentry⟩ := List.getElem?_eq_some_iff.mp hentry
    rw [Int.toNat_natCast, ← hentry, List.set_getElem_self]
  · rfl

theorem tableAfter_of_restores {t : List UInt8} {log : Log ι} (h : ∀ deed ∈ log, Restores t deed) :
    tableAfter t log = t := by
  induction log with
  | nil => rfl
  | cons deed rest ih =>
      obtain ⟨hfirst, hrest⟩ := List.forall_mem_cons.mp h
      calc tableAfter t (deed :: rest) = tableAfter (storeEntry t deed) rest := rfl
        _ = tableAfter t rest := by rw [storeEntry_of_restores hfirst]
        _ = t := ih hrest

/-- `mtd` is the device `m` with the bad-block map `bad`. -/
structure Life.MtdInfo.Serves (mtd : Life.MtdInfo) (isbad : Nat → Int) (m : Mtd)
    (bad : Nat → Bool) : Prop where
  size : mtd.size = m.size
  erasesize : mtd.erasesize = m.erasesize
  method : mtd.blockIsbad = some isbad
  map : ∀ k < m.blocks, isbad (k * m.erasesize) ≠ 0 ↔ bad k = true

theorem Life.MtdInfo.Serves.entry {mtd : Life.MtdInfo} {isbad : Nat → Int}
    (h : mtd.Serves isbad m bad) (hsize : m.size < 4294967296) {k : Nat} (hk : k < m.blocks) :
    mtd.entry isbad k = if bad k then 1 else 0 := by
  have hstart : k * m.erasesize < 4294967296 := (mul_lt_size hk).trans hsize
  rw [Life.MtdInfo.entry, h.erasesize, u32_natCast hstart]
  exact if_congr (h.map k hk) rfl rfl

/-- The table says of every block what the map says. -/
def TableOf (m : Mtd) (bad : Nat → Bool) (t : List UInt8) : Prop :=
  ∀ k < m.blocks, t[k]? = some (if bad k then 1 else 0)

theorem Reached.restores [DecidableEq ι] (hsize : m.size < 4294967296) {t : List UInt8}
    (ht : TableOf m bad t) {s : Machine ι} {c : Crowd Op Reply (Option Ret) Int ι (Machine ι)}
    (hc : Reached m bad s c) : ∀ deed ∈ c.log, Restores t deed := by
  have hterms : (((goodTerms ι m bad).also fun _ => SourceAsk m).also fun _ => InTable m).Hold
      (processes ι m) := by
    refine Crowd.Terms.Hold.also (Crowd.Terms.Hold.also (goodTerms_hold hsize) ?_) ?_
    · rintro i fPos job - ⟨fuel, call, rfl⟩
      exact call_traceable fuel fPos call []
    · rintro i fPos job hfits ⟨fuel, call, rfl⟩
      exact call_inTable hsize hfits call
  have hkept := hc.keeps hterms (fun _ => placed_zero) fun i => processDevice_sane m bad i
  intro deed hdeed b v hevent
  have hask := hkept.asked deed hdeed
  rw [hevent] at hask
  obtain ⟨⟨-, ret, hprobe, rfl⟩, hb, hlt⟩ := hask
  obtain ⟨k, rfl⟩ := Int.eq_ofNat_of_zero_le hb
  rw [m.ebcnt_eq] at hlt
  have hk : k < m.blocks := by exact_mod_cast hlt
  -- the answer that is stored is the one of the map
  obtain ⟨probe, hmem, -, hanswer⟩ := hkept.logged deed hdeed _ hprobe
  have hsane := hkept.allowed probe hmem
  rw [hanswer] at hsane
  have hmap : ret ≠ 0 ↔ bad k = true := by
    have hdiv : m.ebAddr k / m.erasesize = k := by
      rw [ebAddr_of_lt hsize hk, Nat.mul_div_cancel _ m.erasesize_pos]
    have hsane' : ret ≠ 0 ↔ bad (m.ebAddr k / m.erasesize) = true := hsane
    rwa [hdiv] at hsane'
  refine ⟨k, rfl, ?_⟩
  rw [ht k hk]
  simp [hmap]

/-- After a load that finds the NAND device and has memory, and in every run of any
number of processes, whatever fails: the table is as the load left it, and what a
call stores in an entry is what everybody finds there. -/
theorem table_stays [DecidableEq ι] (hsize : m.size < 4294967296) {w : Life.World}
    {mtd : Life.MtdInfo} {isbad : Nat → Int} (hfound : w.coming.Found mtd)
    (hsuits : w.coming.Suits mtd) (hserves : mtd.Serves isbad m bad) (s : Machine ι) :
    ∃ a t, (Life.at91flashInit.run Life.machine w).2.bbt = some a ∧
      (Life.at91flashInit.run Life.machine w).2.tables a = t ∧
      ∀ c, Reached m bad s c → tableAfter t c.log = t ∧ ∀ deed ∈ c.log, Restores t deed := by
  have hblocks : mtd.blocks = m.blocks := by
    rw [Life.MtdInfo.blocks, hserves.size, hserves.erasesize]
    rfl
  obtain ⟨a, hbbt, htable⟩ :=
    Life.table_of_load hfound hsuits hserves.method (by rw [hblocks]; exact m.blocks_lt)
  have hentries : TableOf m bad ((List.range mtd.blocks).map (mtd.entry isbad)) := by
    intro k hk
    rw [List.getElem?_map, List.getElem?_range (hblocks ▸ hk), Option.map_some,
      hserves.entry hsize hk]
  refine ⟨a, _, hbbt, htable, fun c hc => ?_⟩
  exact ⟨tableAfter_of_restores (hc.restores hsize hentries), hc.restores hsize hentries⟩

/-- `fourBlocks` with the second block bad, as the load finds it. -/
def nandDevice : Life.MtdInfo where
  type := Life.mtdNandflash
  size := fourBlocks.size
  erasesize := fourBlocks.erasesize
  blockIsbad := some fun addr => if addr / 4 = 1 then 1 else 0
  size_lt := fourBlocks.size_lt
  erasesize_pos := fourBlocks.erasesize_pos
  erasesize_lt := fourBlocks.erasesize_lt

def nandLoad : Life.World := { Life.World.blank with coming := ⟨0, .ok nandDevice, true⟩ }

theorem table_stays_at_three :
    ∃ a c, (Life.at91flashInit.run Life.machine nandLoad).2.bbt = some a ∧
      Reached fourBlocks secondBad sevens c ∧ c.log.length = 18 ∧
      tableAfter ((Life.at91flashInit.run Life.machine nandLoad).2.tables a) c.log =
        (Life.at91flashInit.run Life.machine nandLoad).2.tables a := by
  have hmap : ∀ k < fourBlocks.blocks,
      (if k * fourBlocks.erasesize / 4 = 1 then (1 : Int) else 0) ≠ 0 ↔ secondBad k = true := by
    decide
  obtain ⟨c, hc, -, -, -, hlog⟩ := exists_writeAtThree
  obtain ⟨a, t, hbbt, htable, hstays⟩ := table_stays (m := fourBlocks) (w := nandLoad) (by decide)
    ⟨rfl, rfl⟩ ⟨rfl, rfl⟩ ⟨rfl, rfl, rfl, hmap⟩ sevens
  refine ⟨a, c, hbbt, hc, ?_, ?_⟩
  · rw [← List.length_map, hlog]
    decide +kernel
  · rw [htable]
    exact (hstays c hc).1

end At91Drivers.Flash
