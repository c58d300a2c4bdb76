import At91Drivers.Flash.Buffers

/-!
# A program follows its erase

NAND flash is erased block by block, and an erased block is programmed once.  The
driver erases a block and programs the same block next, at most twice in a call
and the second time a later block, on every path and whatever fails.  Any number of
processes may run; two programs of one block with no erase in between are then of
two processes that both had erased it.
-/

namespace At91Drivers.Flash

open Effects Arith

/-! ## Cycles -/

/-- An erase or a program. -/
def Op.isCommit : Op → Bool
  | .mtdErase _ _ | .mtdWrite _ _ _ => true
  | _ => false

/-- An operation that leaves the flash as it is. -/
def Op.Quiet (e : Op) : Prop := e.isCommit = false

/-- The erases and programs among the events. -/
def commits (past : History) : History := past.filter fun event => event.1.isCommit

@[simp] theorem commits_nil : commits [] = [] := rfl

theorem commits_concat (past : History) (event : Event Op Reply) :
    commits (past ++ [event]) =
      if event.1.isCommit then commits past ++ [event] else commits past := by
  unfold commits
  rw [List.filter_append]
  cases h : event.1.isCommit <;> simp [h]

theorem commits_quiet {e : Op} (he : e.Quiet) (past : History) (r : Reply e) :
    commits (past ++ [⟨e, r⟩]) = commits past := by
  rw [commits_concat, if_neg (Bool.eq_false_iff.mp he)]

/-- The range is erased and then programmed. -/
inductive Cycle (addr len : Nat) : History → Prop
  | intro {ei : EraseReply} {src : Nat → Byte} {r : WriteReply} (hok : ei.Ok) :
      Cycle addr len [⟨.mtdErase addr len, ei⟩, ⟨.mtdWrite addr len src, r⟩]

/-- A call erases a range before all its programs, or after one cycle on an earlier
range, and programs what it has erased last. -/
def InCycle (past : History) : Op → Prop
  | .mtdErase addr len =>
      commits past = [] ∨ ∃ first, Cycle first len (commits past) ∧ first + len ≤ addr
  | .mtdWrite addr len _ =>
      ∃ done ei, commits past = done ++ [⟨.mtdErase addr len, ei⟩] ∧ EraseReply.Ok ei
  | _ => True

theorem inCycle_quiet {e : Op} (he : e.Quiet) (past : History) : InCycle past e := by
  cases e with
  | mtdErase addr len => cases he
  | mtdWrite addr len src => cases he
  | _ => trivial

/-! ## Parts of a call -/

variable {allow : (e : Op) → Reply e → Prop} {m : Mtd} {fuel buf count : Nat}

/-- From the commits `done` on, the program keeps to the cycles. -/
def Cycles (allow : (e : Op) → Reply e → Prop) (done : History) (p : Driver (Option Ret)) : Prop :=
  ∀ past : History, commits past = done → p.Meets allow InCycle (fun _ _ => True) past

theorem quiet_meets {β : Type} {p : Driver β} (hp : p.Asks Op.Quiet) (past : History) :
    p.Meets allow InCycle (fun past' _ => commits past' = commits past) past := by
  apply hp.meets_same
  · exact fun past' e _ he => inCycle_quiet he past'
  · exact fun past' e r he => commits_quiet he past' r

theorem cycles_quiet {done : History} {p : Driver (Option Ret)} (hp : p.Asks Op.Quiet) :
    Cycles allow done p :=
  fun past _ => (quiet_meets hp past).mono fun _ _ _ => trivial

/-- A quiet part comes first. -/
theorem cycles_bind {β : Type} {done : History} {p : Driver β} {f : β → Driver (Option Ret)}
    (hp : p.Asks Op.Quiet) (hf : ∀ b, Cycles allow done (f b)) : Cycles allow done (p >>= f) := by
  intro past hpast
  rw [Prog.meets_bind]
  apply (quiet_meets hp past).mono
  exact fun later b hsame => hf b _ (hsame.trans hpast)

theorem ask_quiet {e : Op} (he : e.Quiet) : (ask e).Asks Op.Quiet := ⟨he, fun _ => trivial⟩

theorem freeFail_quiet (code ppos : Int) : (freeFail code ppos).Asks Op.Quiet :=
  ⟨rfl, fun _ => trivial⟩

theorem kfree_quiet (r : Option Ret) :
    (do ask .kfree; pure r : Driver (Option Ret)).Asks Op.Quiet := ⟨rfl, fun _ => trivial⟩

theorem skip_quiet (m : Mtd) (fuel : Nat) (x : Int) : (skipBadBlocks m fuel x).Asks Op.Quiet :=
  skipBadBlocks_asks _ (fun _ => rfl) (fun _ _ => rfl) m fuel x

theorem readBlock_quiet (m : Mtd) (b : Int) (kbuf : Nat → Byte) :
    (readBlock m b kbuf).Asks Op.Quiet := by
  refine ⟨rfl, fun r => ?_⟩
  change (if _ then _ else _ : Driver (Option (Nat → Byte))).Asks _
  split <;> trivial

/-! ## read -/

theorem deliver_quiet (buf : Nat) (x : Int) (readlen : Nat) (readbuf : Nat → Byte) :
    (deliver buf x readlen readbuf).Asks Op.Quiet := by
  unfold deliver
  split
  · exact ⟨rfl, fun _ => trivial⟩
  · trivial

/-- The last part of a read. -/
theorem last_quiet (buf addr len : Nat) (x : Int) :
    (do
      let r ← ask (.mtdRead addr len)
      let (ok, x) ← deliver buf x r.retlen r.data
      if ok then do ask .kfree; pure (some ⟨i32 r.retlen, x⟩) else freeFail EFAULT x :
        Driver (Option Ret)).Asks Op.Quiet := by
  refine ⟨rfl, fun r => (deliver_quiet buf x r.retlen r.data).bind fun ⟨ok, x⟩ => ?_⟩
  cases ok with
  | true => exact kfree_quiet _
  | false => exact freeFail_quiet _ _

theorem readSecond_quiet (x : Int) (readlen readtmplen : Nat) :
    (readSecond m fuel buf count x readlen readtmplen).Asks Op.Quiet := by
  refine (skip_quiet m fuel x).bind fun skip => ?_
  cases skip with
  | spinning => trivial
  | noBlock q => exact kfree_quiet _
  | endOfFile q => exact freeFail_quiet _ _
  | good y b o => exact last_quiet _ _ _ _

theorem readBlocks_quiet (x b : Int) : (readBlocks m fuel buf count x b).Asks Op.Quiet := by
  unfold readBlocks
  split
  · refine ⟨rfl, fun r => (deliver_quiet buf x r.retlen r.data).bind fun ⟨ok, x⟩ => ?_⟩
    cases ok with
    | true => exact readSecond_quiet _ _ _
    | false => exact freeFail_quiet _ _
  · split
    · exact last_quiet _ _ _ _
    · exact freeFail_quiet _ _

theorem read_quiet (m : Mtd) (fuel buf count : Nat) (x : Int) :
    (at91flashRead m fuel buf count x).Asks Op.Quiet := by
  refine (skip_quiet m fuel x).bind fun skip => ?_
  cases skip with
  | spinning => trivial
  | noBlock q => trivial
  | endOfFile q => trivial
  | good y b o =>
      dsimp only
      split
      · trivial
      · refine ⟨rfl, fun buffer => ?_⟩
        cases buffer with
        | none => trivial
        | some readbuf => exact readBlocks_quiet _ _

theorem ioctlReturn_quiet (karg : FlashData) (fPos : Int) :
    (ioctlReturn karg fPos).Asks Op.Quiet := by
  refine ⟨rfl, fun ok => ?_⟩
  cases ok <;> trivial

/-! ## write -/

/-- The erase of a block, and 0 only if it succeeded. -/
theorem erase_meets {b : Int} {past : History}
    (herase : InCycle past (.mtdErase (m.ebAddr b) m.erasesize)) :
    (eraseEraseblock m b).Meets allow InCycle
      (fun past' err => ∃ ei, past' = past ++ [⟨.mtdErase (m.ebAddr b) m.erasesize, ei⟩] ∧
        (err = 0 → EraseReply.Ok ei)) past := by
  refine ⟨herase, fun ei _ => ?_⟩
  change (if ei.ret ≠ 0 then pure ei.ret else if ei.failed then pure (- EIO) else pure 0 :
    Driver Int).Meets _ _ _ _
  by_cases hret : ei.ret = 0
  · rw [if_neg (not_not.mpr hret)]
    cases hfailed : ei.failed with
    | true => exact ⟨ei, rfl, fun h => absurd h (by decide)⟩
    | false => exact ⟨ei, rfl, fun _ => ⟨hret, hfailed⟩⟩
  · rw [if_pos hret]
    exact ⟨ei, rfl, fun h => absurd h hret⟩

/-- An erase and a program of the block are one more cycle. -/
theorem cycles_commit {done : History} {b : Int} {kbuf : Nat → Byte}
    {f : Except Int WriteReply → Driver (Option Ret)}
    (herase : done = [] ∨
      ∃ first, Cycle first m.erasesize done ∧ first + m.erasesize ≤ m.ebAddr b)
    (herror : ∀ err, (f (.error err)).Asks Op.Quiet)
    (hok : ∀ r cycle, Cycle (m.ebAddr b) m.erasesize cycle →
      Cycles allow (done ++ cycle) (f (.ok r))) :
    Cycles allow done (commit m b kbuf >>= f) := by
  rintro past rfl
  unfold commit
  rw [Prog.meets_bind, Prog.meets_bind]
  apply (erase_meets herase).mono
  rintro later err ⟨ei, hpast, hzero⟩
  rw [hpast]
  have herased : commits (past ++ [⟨.mtdErase (m.ebAddr b) m.erasesize, ei⟩]) =
      commits past ++ [⟨.mtdErase (m.ebAddr b) m.erasesize, ei⟩] := commits_concat _ _
  by_cases herr : err = 0
  · rw [if_neg (not_not.mpr herr)]
    refine ⟨⟨commits past, ei, herased, hzero herr⟩, fun r _ => ?_⟩
    have hcycle : Cycle (m.ebAddr b) m.erasesize
        [⟨.mtdErase (m.ebAddr b) m.erasesize, ei⟩, ⟨.mtdWrite (m.ebAddr b) m.erasesize kbuf, r⟩] :=
      .intro (hzero herr)
    refine hok r _ hcycle _ ?_
    rw [commits_concat, herased, List.append_assoc]
    rfl
  · rw [if_pos herr]
    exact cycles_quiet (herror err) _ rfl

theorem cycles_eraseAction {x b : Int} {kbuf : Nat → Byte} :
    Cycles allow [] (eraseAction m x b kbuf) := by
  apply cycles_commit (.inl rfl)
  · exact fun err => freeFail_quiet _ _
  · exact fun r cycle _ => cycles_quiet (kfree_quiet _)

section Small

variable (hsize : m.size < 4294967296)

include hsize

/-- A search that comes first, and what it establishes. -/
theorem cycles_search {done : History} {p : Nat} (hp : p / m.erasesize ≤ m.blocks)
    {f : Skip → Driver (Option Ret)}
    (hf : ∀ past s, Found m allow p past s → Cycles allow done (f s)) :
    Cycles allow done (skipBadBlocks m fuel p >>= f) := by
  intro past hpast
  rw [Prog.meets_bind]
  have hfound : (skipBadBlocks m fuel p).Meets allow (fun _ _ => True) (Found m allow p) past :=
    meets_skip_found hsize ⟨fun _ _ => trivial, fun _ => trivial⟩ hp
  have hboth := hfound.and (quiet_meets (skip_quiet m fuel p) past)
  apply (hboth.weaken fun _ _ h => h.2).mono
  rintro later s ⟨hs, hsame⟩
  exact hf _ s hs _ (hsame.trans hpast)

/-- The second block is a later one. -/
theorem cycles_writeSecond {k first : Nat} {kbuf : Nat → Byte} {done : History}
    (hk : k / m.erasesize < m.blocks)
    (hdone : Cycle (m.ebAddr (k / m.erasesize : Nat)) m.erasesize done) :
    Cycles allow done (writeSecond m fuel buf count first (m.blockEnd k) kbuf) := by
  have hend : m.blockEnd k / m.erasesize ≤ m.blocks := by
    rw [m.blockEnd_div]
    exact hk
  apply cycles_search hsize hend
  intro past s hs
  cases s with
  | spinning => exact cycles_quiet trivial
  | noBlock q => exact cycles_quiet (freeFail_quiet _ _)
  | endOfFile q => exact cycles_quiet (freeFail_quiet _ _)
  | good y b o =>
      obtain ⟨k', rfl, rfl, rfl, hlt, hle, -⟩ := hs
      have hlater : m.ebAddr (k / m.erasesize : Nat) + m.erasesize ≤
          m.ebAddr (k' / m.erasesize : Nat) := by
        have hblocks : k / m.erasesize + 1 ≤ k' / m.erasesize := by
          rw [← m.blockEnd_div]
          exact Nat.div_le_div_right hle
        rw [ebAddr_of_lt hsize hk, ebAddr_of_lt hsize hlt, ← Nat.succ_mul]
        exact Nat.mul_le_mul_right _ hblocks
      apply cycles_bind (readBlock_quiet m _ kbuf)
      intro block
      cases block with
      | none => exact cycles_quiet (freeFail_quiet _ _)
      | some kbuf =>
          refine cycles_bind (ask_quiet rfl) fun data => ?_
          cases data with
          | none => exact cycles_quiet (freeFail_quiet _ _)
          | some data =>
              apply cycles_commit (.inr ⟨_, hdone, hlater⟩)
              · exact fun err => freeFail_quiet _ _
              · exact fun r cycle _ => cycles_quiet (kfree_quiet _)

theorem cycles_writeJump {k : Nat} {kbuf : Nat → Byte} (hk : k / m.erasesize < m.blocks) :
    Cycles allow []
      (writeJump m fuel buf count k (k / m.erasesize : Nat) (m.blockoffset k) kbuf) := by
  have hext := m.lt_extent_iff.mpr hk
  have hsizeLe := m.extent_le_size
  have hendLe := m.blockEnd_le_extent hk
  have hnext : i64 ((k : Int) + u32 (m.erasesize - m.blockoffset k)) = m.blockEnd k := by
    rw [Mtd.u32_sub_blockoffset (by omega), ← Nat.cast_add, ← m.blockEnd_eq,
      i64_natCast (by omega)]
  unfold writeJump
  refine cycles_bind (ask_quiet rfl) fun data => ?_
  cases data with
  | none => exact cycles_quiet (freeFail_quiet _ _)
  | some data =>
      apply cycles_commit (.inl rfl)
      · exact fun err => freeFail_quiet _ _
      · intro r cycle hcycle
        dsimp only
        rw [hnext, List.nil_append]
        exact cycles_writeSecond hsize hk hcycle

theorem cycles_writeBlocks {k : Nat} {kbuf : Nat → Byte} (hk : k / m.erasesize < m.blocks) :
    Cycles allow []
      (writeBlocks m fuel buf count k (k / m.erasesize : Nat) (m.blockoffset k) kbuf) := by
  unfold writeBlocks
  split
  · -- the first block of the device
    refine cycles_bind (ask_quiet rfl) fun data => ?_
    cases data with
    | none => exact cycles_quiet (freeFail_quiet _ _)
    | some data => exact cycles_eraseAction
  · apply cycles_bind (readBlock_quiet m _ kbuf)
    intro block
    cases block with
    | none => exact cycles_quiet (freeFail_quiet _ _)
    | some kbuf =>
        dsimp only
        split
        · refine cycles_bind (ask_quiet rfl) fun data => ?_
          cases data with
          | none => exact cycles_quiet (freeFail_quiet _ _)
          | some data => exact cycles_eraseAction
        · split
          · exact cycles_writeJump hsize hk
          · exact cycles_quiet (freeFail_quiet _ _)

theorem cycles_writeCount {p : Nat} (hp : p / m.erasesize ≤ m.blocks) :
    Cycles allow [] (writeCount m fuel buf count p) := by
  unfold writeCount
  split
  · exact cycles_quiet trivial
  · apply cycles_search hsize hp
    intro past s hs
    cases s with
    | spinning => exact cycles_quiet trivial
    | noBlock q => exact cycles_quiet trivial
    | endOfFile q => exact cycles_quiet trivial
    | good x b o =>
        obtain ⟨k, rfl, rfl, rfl, hlt, -⟩ := hs
        refine cycles_bind (ask_quiet rfl) fun buffer => ?_
        cases buffer with
        | none => exact cycles_quiet trivial
        | some kbuf => exact cycles_writeBlocks hsize hlt

theorem cycles_write {p : Nat} (hp : p / m.erasesize ≤ m.blocks) :
    Cycles allow [] (at91flashWrite m fuel buf count p) := by
  unfold at91flashWrite
  split
  · exact cycles_writeCount hsize hp
  · split
    · exact cycles_quiet trivial
    · exact cycles_writeCount hsize hp

/-! ## Whole calls -/

theorem call_cycles (fuel : Nat) {fPos : Int} (hpos : Placed m fPos) (c : Call) :
    Cycles allow [] (c.body m fuel fPos) := by
  cases c with
  | lseek offset orig => exact cycles_quiet trivial
  | read buf count => exact cycles_quiet (read_quiet m fuel buf count fPos)
  | write buf count =>
      obtain ⟨p, rfl, hp⟩ := hpos
      exact cycles_write hsize hp
  | ioctl cmd =>
      unfold Call.body at91flashIoctl
      refine cycles_bind (ask_quiet rfl) fun karg => ?_
      cases karg with
      | none => exact cycles_quiet trivial
      | some karg =>
          obtain ⟨p, hp, hp'⟩ := lseek_placed hpos karg.offset.toInt 0
          dsimp only
          split
          · apply cycles_bind (read_quiet m fuel _ _ _)
            intro r
            cases r with
            | none => exact cycles_quiet trivial
            | some r => exact cycles_quiet (ioctlReturn_quiet karg _)
          · rw [hp]
            intro past hpast
            rw [Prog.meets_bind]
            apply (cycles_write hsize hp' past hpast).mono
            intro later r _
            cases r with
            | none => trivial
            | some r => exact cycles_quiet (ioctlReturn_quiet karg _) _ rfl
          · exact cycles_quiet trivial

end Small

/-! ## Any number of processes -/

/-- The block at `addr` was erased. -/
def Erased (addr : Nat) : Event Op Reply → Prop
  | ⟨.mtdErase a _, ei⟩ => a = addr ∧ EraseReply.Ok ei
  | _ => False

/-- The block at `addr` was programmed. -/
def Programmed (addr : Nat) : Event Op Reply → Prop
  | ⟨.mtdWrite a _ _, _⟩ => a = addr
  | _ => False

/-- A program has an erase before it, with no other program by the same call
since. -/
theorem InCycle.last_erase {past : History} {event : Event Op Reply} {addr : Nat}
    (h : InCycle past event.1) (hprogram : Programmed addr event) :
    ∃ done erase, commits past = done ++ [erase] ∧ Erased addr erase ∧
      ¬ Programmed addr erase := by
  obtain ⟨e, r⟩ := event
  cases e with
  | mtdWrite a len src =>
      obtain rfl : a = addr := hprogram
      obtain ⟨done, ei, hdone, hok⟩ := h
      exact ⟨done, _, hdone, ⟨rfl, hok⟩, id⟩
  | _ => exact hprogram.elim

theorem Programmed.isCommit {addr : Nat} {event : Event Op Reply} (h : Programmed addr event) :
    event.1.isCommit = true := by
  obtain ⟨e, r⟩ := event
  cases e with
  | mtdWrite a len src => rfl
  | _ => exact h.elim

/-- The last erase is after any program of the same call. -/
theorem mem_of_last_erase {earlier later done : History} {program erase : Event Op Reply}
    {addr : Nat} (hprogram : Programmed addr program) (hnot : ¬ Programmed addr erase)
    (hlast : commits (earlier ++ program :: later) = done ++ [erase]) : erase ∈ later := by
  unfold commits at hlast
  rw [List.filter_append, List.filter_cons, if_pos hprogram.isCommit] at hlast
  rcases List.eq_nil_or_concat (later.filter fun event => event.1.isCommit) with
    hnone | ⟨front, last, hfront⟩
  · rw [hnone] at hlast
    obtain rfl := List.singleton_inj.mp (List.append_inj' hlast rfl).2
    exact absurd hprogram hnot
  · rw [hfront, List.concat_eq_append, ← List.cons_append, ← List.append_assoc] at hlast
    obtain rfl := List.singleton_inj.mp (List.append_inj' hlast rfl).2
    have hmem : last ∈ later.filter fun event => event.1.isCommit := by simp [hfront]
    exact (List.mem_filter.mp hmem).1

variable {ι : Type} [DecidableEq ι] {bad : Nat → Bool}

/-- In every run of any number of processes, whatever fails: an erase is the first
of its call or follows one whole cycle on an earlier block, a program follows the
successful erase of the same block with nothing of the call in between, and between
two programs of one block by one process the process has erased it again. -/
theorem program_follows_erase (hsize : m.size < 4294967296) {s : Machine ι}
    {c : Crowd Op Reply (Option Ret) Int ι (Machine ι)} (hc : Reached m bad s c) :
    (∀ deed ∈ c.log, InCycle deed.past deed.event.1) ∧
      ∀ {before between after d₁ d₂ addr}, c.log = before ++ d₁ :: between ++ d₂ :: after →
        d₁.party = d₂.party → Programmed addr d₁.event → Programmed addr d₂.event →
        ∃ d ∈ between, d.party = d₂.party ∧ Erased addr d.event := by
  have hterms : ((goodTerms ι m bad).also fun _ => InCycle).Hold (processes ι m) := by
    refine (goodTerms_hold hsize).also ?_
    rintro i fPos job hfits ⟨fuel, call, rfl⟩
    exact call_cycles hsize fuel hfits call [] rfl
  have hkept := hc.keeps hterms (fun _ => placed_zero) fun i => processDevice_sane m bad i
  refine ⟨fun deed hdeed => (hkept.asked deed hdeed).2, ?_⟩
  intro before between after d₁ d₂ addr hlog hsame hfirst hsecond
  have hd₂ : d₂ ∈ c.log := by simp [hlog]
  obtain ⟨done, erase, hlast, herased, hnot⟩ := (hkept.asked d₂ hd₂).2.last_erase hsecond
  have hmem : erase ∈ Crowd.own between d₂.party := by
    rcases hc.past_split hlog hsame with hbetween | ⟨earlier, hpast⟩
    · have herase : erase ∈ commits d₂.past := by simp [hlast]
      exact hbetween.subset (List.mem_filter.mp herase).1
    · rw [hpast] at hlast
      exact mem_of_last_erase hfirst hnot hlast
  obtain ⟨d, hd, rfl⟩ := List.mem_map.mp hmem
  obtain ⟨hd, hparty⟩ := List.mem_filter.mp hd
  exact ⟨d, hd, of_decide_eq_true hparty, herased⟩

theorem program_follows_erase_at_three :
    ∃ c, Reached fourBlocks secondBad sevens c ∧ c.log.length = 18 ∧
      ∀ deed ∈ c.log, InCycle deed.past deed.event.1 := by
  obtain ⟨c, hc, -, -, -, hlog⟩ := exists_writeAtThree
  refine ⟨c, hc, ?_, (program_follows_erase (by decide) hc).1⟩
  rw [← List.length_map, hlog]
  decide +kernel

end At91Drivers.Flash
