import At91Drivers.Flash.Processes

/-!
# Where the bytes of the flash come from

A program of a block stores what the call read of the same block, what it copied
from its caller, and at block 0, which is not read, what `kmalloc` left in the
buffer (`Source`).  On a device without faults, and over any number of processes,
each byte of the flash therefore is the first one there, erased, or one that a
caller or, in block 0, the kernel heap had for this place (`Origin`).  The bytes
that a read hands out are bytes of the flash.
-/

namespace At91Drivers.Flash

open Effects Arith

variable {m : Mtd} {bad : Nat → Bool} {allow : (e : Op) → Reply e → Prop} {past : History}

/-! ## One call -/

/-- Where byte `i` of a program at `addr` may come from, by the events of the
call. -/
inductive Source (m : Mtd) (past : History) (addr i : Nat) (v : Byte) : Prop
  | kept (r : ReadReply) (hread : ⟨.mtdRead addr m.erasesize, r⟩ ∈ past)
      (hlen : r.retlen = m.erasesize) (hv : v = r.data i)
  | user (dst buf len : Nat) (data : Nat → Byte)
      (hcopy : ⟨.copyFromUser dst buf len, some data⟩ ∈ past) (hle : dst ≤ i) (hlt : i < dst + len)
      (hv : v = data (i - dst))
  | heap (old : Nat → Byte) (haddr : addr = 0) (hmalloc : ⟨.kmalloc m.erasesize, some old⟩ ∈ past)
      (hv : v = old i)

/-- The buffer is fit for a program at `addr`. -/
def Sourced (m : Mtd) (past : History) (addr : Nat) (kbuf : Nat → Byte) : Prop :=
  ∀ i < m.erasesize, Source m past addr i (kbuf i)

/-- What a call programs is sourced, what it hands to its caller is what it read,
and what it enters in the table is what it was told. -/
def SourceAsk (m : Mtd) (past : History) : Op → Prop
  | .mtdWrite addr len src => len = m.erasesize ∧ Sourced m past addr src
  | .copyToUser _ len src =>
      ∃ addr asked r, ⟨.mtdRead addr asked, r⟩ ∈ past ∧ r.retlen = len ∧ r.data = src
  | .bbtStore b v => ∃ ret, ⟨.blockIsbad (m.ebAddr b), ret⟩ ∈ past ∧ v = decide (ret ≠ 0)
  | _ => True

theorem Source.grows {addr i : Nat} {v : Byte} (h : Source m past addr i v) (later : History) :
    Source m (past ++ later) addr i v := by
  cases h with
  | kept r hread hlen hv => exact .kept r (List.mem_append_left _ hread) hlen hv
  | user dst buf len data hcopy hle hlt hv =>
      exact .user dst buf len data (List.mem_append_left _ hcopy) hle hlt hv
  | heap old haddr hmalloc hv => exact .heap old haddr (List.mem_append_left _ hmalloc) hv

theorem Sourced.grows {addr : Nat} {kbuf : Nat → Byte} (h : Sourced m past addr kbuf)
    (later : History) : Sourced m (past ++ later) addr kbuf :=
  fun i hi => (h i hi).grows later

/-- A part of the buffer is overwritten with bytes of the caller. -/
theorem Sourced.copy {addr dst buf len : Nat} {kbuf data : Nat → Byte}
    (h : Sourced m past addr kbuf) (hcopy : ⟨.copyFromUser dst buf len, some data⟩ ∈ past) :
    Sourced m past addr (splice kbuf dst len data) := by
  intro i hi
  by_cases hin : dst ≤ i ∧ i < dst + len
  · exact .user dst buf len data hcopy hin.1 hin.2 (splice_of_mem hin.1 hin.2)
  · rw [splice_of_not_mem hin]
    exact h i hi

/-- The whole block is read into the buffer. -/
theorem sourced_read {addr : Nat} {kbuf : Nat → Byte} {r : ReadReply}
    (hread : ⟨.mtdRead addr m.erasesize, r⟩ ∈ past) (hlen : r.retlen = m.erasesize) :
    Sourced m past addr (splice kbuf 0 r.retlen r.data) := by
  intro i hi
  refine .kept r hread hlen ?_
  rw [splice_of_mem (Nat.zero_le i) (by omega), Nat.sub_zero]

/-! ### Parts of a call -/

/-- Wherever it is run, the part meets the contract. -/
def Traceable (m : Mtd) (allow : (e : Op) → Reply e → Prop) (p : Driver (Option Ret)) : Prop :=
  ∀ past, p.Meets allow (SourceAsk m) (fun _ _ => True) past

theorem traceable_pure (r : Option Ret) : Traceable m allow (pure r) := fun _ => trivial

theorem traceable_kfree (r : Option Ret) : Traceable m allow (do ask .kfree; pure r) :=
  fun _ => ⟨trivial, fun _ _ => trivial⟩

theorem traceable_freeFail (code ppos : Int) : Traceable m allow (freeFail code ppos) :=
  traceable_kfree _

/-- A search performs nothing else, and a good block is that of its position. -/
theorem traceable_skip (fuel : Nat) (x : Int) :
    (skipBadBlocks m fuel x).Meets allow (SourceAsk m)
      (fun _ s => ∀ y b o, s = .good y b o → b = m.ebnum y) past := by
  induction fuel generalizing x past with
  | zero =>
      intro y b o h
      cases h
  | succ fuel ih =>
      unfold skipBadBlocks
      split
      · intro y b o h
        cases h
      · refine ⟨trivial, fun ret _ => ⟨⟨ret, ?_, rfl⟩, fun _ _ => ?_⟩⟩
        · exact List.mem_append_right _ List.mem_cons_self
        change (if _ then _ else _ : Driver Skip).Meets _ _ _ _
        split
        · split
          · intro y b o h
            cases h
          · exact ih _
        · rintro y b o ⟨⟩
          rfl

theorem traceable_readBlock (b : Int) (kbuf : Nat → Byte) :
    (readBlock m b kbuf).Meets allow (SourceAsk m)
      (fun past k => ∀ kbuf', k = some kbuf' → Sourced m past (m.ebAddr b) kbuf') past := by
  refine ⟨trivial, fun r _ => ?_⟩
  change (if _ then _ else _ : Driver (Option (Nat → Byte))).Meets _ _ _ _
  split
  · exact fun _ h => nomatch h
  · rename_i hok
    rintro kbuf' ⟨⟩
    exact sourced_read (List.mem_append_right _ List.mem_cons_self) (not_not.mp (not_or.mp hok).2)

theorem traceable_commit {b : Int} {kbuf : Nat → Byte} (h : Sourced m past (m.ebAddr b) kbuf) :
    (commit m b kbuf).Meets allow (SourceAsk m) (fun _ _ => True) past := by
  unfold commit eraseEraseblock
  rw [Prog.meets_bind, Prog.meets_bind]
  refine ⟨trivial, fun ei _ => ?_⟩
  have hrest (err : Int) : Prog.Meets allow (SourceAsk m) (fun _ _ => True)
      (if err ≠ 0 then pure (.error err) else do
        let r ← ask (.mtdWrite (m.ebAddr b) m.erasesize kbuf)
        pure (.ok r) : Driver (Except Int WriteReply))
      (past ++ [⟨.mtdErase (m.ebAddr b) m.erasesize, ei⟩]) := by
    split
    · trivial
    · exact ⟨⟨rfl, h.grows _⟩, fun _ _ => trivial⟩
  change (if _ then _ else _ : Driver Int).Meets _ _ _ _
  split
  · exact hrest _
  · split
    · exact hrest _
    · exact hrest _

theorem traceable_eraseAction {x b : Int} {kbuf : Nat → Byte}
    (h : Sourced m past (m.ebAddr b) kbuf) :
    (eraseAction m x b kbuf).Meets allow (SourceAsk m) (fun _ _ => True) past := by
  unfold eraseAction
  rw [Prog.meets_bind]
  refine (traceable_commit h).mono fun later r _ => ?_
  cases r with
  | error err => exact traceable_freeFail _ _ _
  | ok r => exact traceable_kfree _ _

/-! ### write -/

variable (fuel buf count : Nat)

theorem traceable_writeSecond (first : Nat) (x : Int) (kbuf : Nat → Byte) :
    Traceable m allow (writeSecond m fuel buf count first x kbuf) := by
  intro past
  unfold writeSecond
  rw [Prog.meets_bind]
  refine (traceable_skip fuel x).mono fun later s _ => ?_
  cases s with
  | spinning => trivial
  | noBlock q => exact traceable_freeFail _ _ _
  | endOfFile q => exact traceable_freeFail _ _ _
  | good y b o =>
      dsimp only
      rw [Prog.meets_bind]
      refine (traceable_readBlock b kbuf).mono fun later' k hk => ?_
      cases k with
      | none => exact traceable_freeFail _ _ _
      | some kbuf =>
          refine ⟨trivial, fun data _ => ?_⟩
          cases data with
          | none => exact traceable_freeFail _ _ _
          | some data =>
              change (commit m b _ >>= _).Meets _ _ _ _
              rw [Prog.meets_bind]
              refine (traceable_commit (((hk kbuf rfl).grows _).copy
                (List.mem_append_right _ List.mem_cons_self))).mono fun later'' r _ => ?_
              cases r with
              | error err => exact traceable_freeFail _ _ _
              | ok r => exact traceable_kfree _ _

theorem traceable_writeJump {x b o : Int} {kbuf : Nat → Byte}
    (h : Sourced m past (m.ebAddr b) kbuf) :
    (writeJump m fuel buf count x b o kbuf).Meets allow (SourceAsk m) (fun _ _ => True) past := by
  refine ⟨trivial, fun data _ => ?_⟩
  cases data with
  | none => exact traceable_freeFail _ _ _
  | some data =>
      change (commit m b _ >>= _).Meets _ _ _ _
      rw [Prog.meets_bind]
      refine (traceable_commit ((h.grows _).copy
        (List.mem_append_right _ List.mem_cons_self))).mono fun later r _ => ?_
      cases r with
      | error err => exact traceable_freeFail _ _ _
      | ok r => exact traceable_writeSecond fuel buf count _ _ _ _

/-- Only a write at position 0 programs what it did not read. -/
theorem traceable_writeBlocks {x o : Int} {kbuf : Nat → Byte}
    (hmalloc : ⟨.kmalloc m.erasesize, some kbuf⟩ ∈ past) :
    (writeBlocks m fuel buf count x (m.ebnum x) o kbuf).Meets allow (SourceAsk m)
      (fun _ _ => True) past := by
  unfold writeBlocks
  by_cases hx : x = 0
  · have haddr : m.ebAddr (m.ebnum x) = 0 := by
      rw [hx]
      simp [Mtd.ebnum, Mtd.ebAddr, u64, i32]
    have hheap : Sourced m past (m.ebAddr (m.ebnum x)) kbuf :=
      fun i _ => .heap kbuf haddr hmalloc rfl
    rw [if_pos hx]
    refine ⟨trivial, fun data _ => ?_⟩
    cases data with
    | none => exact traceable_freeFail _ _ _
    | some data =>
        exact traceable_eraseAction ((hheap.grows _).copy
          (List.mem_append_right _ List.mem_cons_self))
  · rw [if_neg hx, Prog.meets_bind]
    refine (traceable_readBlock (m.ebnum x) kbuf).mono fun later k hk => ?_
    cases k with
    | none => exact traceable_freeFail _ _ _
    | some kbuf =>
        dsimp only
        split
        · refine ⟨trivial, fun data _ => ?_⟩
          cases data with
          | none => exact traceable_freeFail _ _ _
          | some data =>
              exact traceable_eraseAction (((hk kbuf rfl).grows _).copy
                (List.mem_append_right _ List.mem_cons_self))
        · split
          · exact traceable_writeJump fuel buf count (hk kbuf rfl)
          · exact traceable_freeFail _ _ _

theorem traceable_writeCount (x : Int) : Traceable m allow (writeCount m fuel buf count x) := by
  intro past
  unfold writeCount
  split
  · trivial
  · rw [Prog.meets_bind]
    refine (traceable_skip fuel x).mono fun later s hs => ?_
    cases s with
    | spinning => trivial
    | noBlock q => trivial
    | endOfFile q => trivial
    | good y b o =>
        obtain rfl := hs y b o rfl
        refine ⟨trivial, fun buffer _ => ?_⟩
        cases buffer with
        | none => trivial
        | some kbuf =>
            exact traceable_writeBlocks fuel buf count (List.mem_append_right _ List.mem_cons_self)

theorem traceable_write (x : Int) : Traceable m allow (at91flashWrite m fuel buf count x) := by
  unfold at91flashWrite
  split
  · exact traceable_writeCount fuel buf _ _
  · split
    · exact traceable_pure _
    · exact traceable_writeCount fuel buf _ _

/-! ### read -/

theorem traceable_deliver {addr asked : Nat} {r : ReadReply} (x : Int)
    (hread : ⟨.mtdRead addr asked, r⟩ ∈ past) :
    (deliver buf x r.retlen r.data).Meets allow (SourceAsk m) (fun _ _ => True) past := by
  unfold deliver
  split
  · exact ⟨⟨addr, asked, r, hread, rfl, rfl⟩, fun _ _ => trivial⟩
  · trivial

/-- The last part of a read: it hands out what came, and frees the buffer. -/
theorem traceable_last (addr asked : Nat) (x : Int) :
    Traceable m allow (do
      let r ← ask (.mtdRead addr asked)
      let (ok, x) ← deliver buf x r.retlen r.data
      if ok then do ask .kfree; pure (some ⟨i32 r.retlen, x⟩) else freeFail EFAULT x) := by
  intro past
  refine ⟨trivial, fun r _ => ?_⟩
  change (deliver _ _ _ _ >>= _).Meets _ _ _ _
  rw [Prog.meets_bind]
  refine (traceable_deliver buf x (List.mem_append_right _ List.mem_cons_self)).mono
    fun later delivery _ => ?_
  obtain ⟨ok, x⟩ := delivery
  cases ok with
  | true => exact traceable_kfree _ _
  | false => exact traceable_freeFail _ _ _

theorem traceable_readSecond (x : Int) (readlen readtmplen : Nat) :
    Traceable m allow (readSecond m fuel buf count x readlen readtmplen) := by
  intro past
  unfold readSecond
  rw [Prog.meets_bind]
  refine (traceable_skip fuel x).mono fun later s _ => ?_
  cases s with
  | spinning => trivial
  | noBlock q => exact traceable_kfree _ _
  | endOfFile q => exact traceable_freeFail _ _ _
  | good y b o => exact traceable_last _ _ _ _ _

theorem traceable_readBlocks (x b : Int) :
    Traceable m allow (readBlocks m fuel buf count x b) := by
  unfold readBlocks
  split
  · intro past
    refine ⟨trivial, fun r _ => ?_⟩
    change (deliver _ _ _ _ >>= _).Meets _ _ _ _
    rw [Prog.meets_bind]
    refine (traceable_deliver buf x (List.mem_append_right _ List.mem_cons_self)).mono
      fun later delivery _ => ?_
    obtain ⟨ok, x⟩ := delivery
    cases ok with
    | true => exact traceable_readSecond fuel buf count _ _ _ _
    | false => exact traceable_freeFail _ _ _
  · split
    · exact traceable_last _ _ _ _
    · exact traceable_freeFail _ _

theorem traceable_read (x : Int) : Traceable m allow (at91flashRead m fuel buf count x) := by
  intro past
  unfold at91flashRead
  rw [Prog.meets_bind]
  refine (traceable_skip fuel x).mono fun later s _ => ?_
  cases s with
  | spinning => trivial
  | noBlock q => trivial
  | endOfFile q => trivial
  | good y b o =>
      dsimp only
      split
      · trivial
      · refine ⟨trivial, fun buffer _ => ?_⟩
        cases buffer with
        | none => trivial
        | some readbuf => exact traceable_readBlocks fuel buf _ _ _ _

/-- Every call of a process is traceable. -/
theorem call_traceable (fPos : Int) (c : Call) : Traceable m allow (c.body m fuel fPos) := by
  have hreturn (karg : FlashData) (fPos : Int) : Traceable m allow (ioctlReturn karg fPos) := by
    intro past
    refine ⟨trivial, fun ok _ => ?_⟩
    cases ok <;> trivial
  cases c with
  | lseek offset orig => exact traceable_pure _
  | read buf count => exact traceable_read fuel buf count fPos
  | write buf count => exact traceable_write fuel buf count fPos
  | ioctl cmd =>
      intro past
      unfold Call.body at91flashIoctl
      rw [Prog.meets_bind, Prog.meets_perform]
      refine ⟨trivial, fun karg _ => ?_⟩
      cases karg with
      | none => trivial
      | some karg =>
          dsimp only
          split
          · rw [Prog.meets_bind]
            refine (traceable_read fuel _ _ _ _).mono fun later r _ => ?_
            cases r with
            | none => trivial
            | some r => exact hreturn karg r.ppos _
          · rw [Prog.meets_bind]
            refine (traceable_write fuel _ _ _ _).mono fun later r _ => ?_
            cases r with
            | none => trivial
            | some r => exact hreturn karg r.ppos _
          · trivial

/-! ## Any number of calls -/

variable {ι : Type} [DecidableEq ι]

abbrev Log (ι : Type) := List (Deed Op Reply ι)

/-- Where a byte at the address `a` of the flash may come from. -/
inductive Origin (m : Mtd) (first : Nat → Byte) (log : Log ι) (a : Nat) (v : Byte) : Prop
  | first (hv : v = first a)
  | erased (hv : v = 0xFF)
  /-- a caller had it for this place in the block -/
  | user (deed : Deed Op Reply ι) (hdeed : deed ∈ log) (dst buf len i : Nat) (data : Nat → Byte)
      (hcopy : deed.event = ⟨.copyFromUser dst buf len, some data⟩) (hi : i < len)
      (hplace : a % m.erasesize = dst + i) (hv : v = data i)
  /-- a buffer came with it, and the place is in block 0 -/
  | heap (deed : Deed Op Reply ι) (hdeed : deed ∈ log) (old : Nat → Byte)
      (hmalloc : deed.event = ⟨.kmalloc m.erasesize, some old⟩) (hblock : a < m.erasesize)
      (hv : v = old a)

variable {first : Nat → Byte} {log : Log ι}

omit [DecidableEq ι] in
theorem Origin.grows {a : Nat} {v : Byte} (h : Origin m first log a v) (later : Log ι) :
    Origin m first (log ++ later) a v := by
  cases h with
  | first hv => exact .first hv
  | erased hv => exact .erased hv
  | user deed hdeed dst buf len i data hcopy hi hplace hv =>
      exact .user deed (List.mem_append_left _ hdeed) dst buf len i data hcopy hi hplace hv
  | heap deed hdeed old hmalloc hblock hv =>
      exact .heap deed (List.mem_append_left _ hdeed) old hmalloc hblock hv

/-- What was read of the flash so far has an origin at its address. -/
def ReadsTraced (m : Mtd) (first : Nat → Byte) (log : Log ι) : Prop :=
  ∀ deed ∈ log, ∀ addr asked r, deed.event = ⟨.mtdRead addr asked, r⟩ →
    ∀ i < r.retlen, Origin m first log (addr + i) (r.data i)

/-- The state of the flash is traced, and no MTD operation of a process fails. -/
structure Traced (m : Mtd) (first : Nat → Byte) (log : Log ι) (s : Machine ι) : Prop where
  faultFree : ∀ i, (s.caller i).FaultFree
  flash : ∀ a, Origin m first log a (s.flash a)
  reads : ReadsTraced m first log

omit [DecidableEq ι] in
/-- A sourced byte has an origin at its address. -/
theorem Source.origin {i : ι} {k j : Nat} {v : Byte} (h : Source m past (k * m.erasesize) j v)
    (hrecorded : Crowd.Recorded log i past) (hreads : ReadsTraced m first log)
    (hj : j < m.erasesize) : Origin m first log (k * m.erasesize + j) v := by
  cases h with
  | kept r hread hlen hv =>
      obtain ⟨deed, hdeed, -, hevent⟩ := hrecorded _ hread
      rw [hv]
      exact hreads deed hdeed _ _ r hevent j (by omega)
  | user dst buf len data hcopy hle hlt hv =>
      obtain ⟨deed, hdeed, -, hevent⟩ := hrecorded _ hcopy
      refine .user deed hdeed dst buf len (j - dst) data hevent (by omega) ?_ hv
      rw [Nat.mul_add_mod', Nat.mod_eq_of_lt hj]
      omega
  | heap old haddr hmalloc hv =>
      obtain ⟨deed, hdeed, -, hevent⟩ := hrecorded _ hmalloc
      rw [haddr, Nat.zero_add]
      exact .heap deed hdeed old hevent hj hv

/-! ### One operation -/

/-- A byte of the flash after an operation that does not fail: as it was, erased,
or programmed. -/
theorem device_byte (bad : Nat → Bool) {w : World} (hw : w.FaultFree) (e : Op) (a : Nat) :
    (device m bad e w).2.flash a = w.flash a ∨ (device m bad e w).2.flash a = 0xFF ∨
      ∃ addr len src, e = .mtdWrite addr len src ∧ addr ≤ a ∧ a < addr + len ∧
        (device m bad e w).2.flash a = src (a - addr) := by
  cases e with
  | mtdErase addr len =>
      change eraseFlash m w.flash addr len (w.erases 0) a = _ ∨
        eraseFlash m w.flash addr len _ a = _ ∨ _
      rw [hw.erases 0, eraseFlash]
      by_cases hin : m.InDevice addr len
      · rw [if_pos hin]
        by_cases ha : addr ≤ a ∧ a < addr + len
        · exact .inr (.inl (splice_of_mem ha.1 ha.2))
        · exact .inl (splice_of_not_mem ha)
      · exact .inl (congrFun (if_neg hin) a)
  | mtdWrite addr len src =>
      have hflash : (device m bad (.mtdWrite addr len src) w).2.flash =
          if m.InDevice addr len then splice w.flash addr len src else w.flash := by
        change writeFlash m w.flash addr len src (w.writes 0) = _
        rw [hw.writes 0, writeFlash]
      rw [hflash]
      by_cases hin : m.InDevice addr len
      · rw [if_pos hin]
        by_cases ha : addr ≤ a ∧ a < addr + len
        · exact .inr (.inr ⟨addr, len, src, rfl, ha.1, ha.2, splice_of_mem ha.1 ha.2⟩)
        · exact .inl (splice_of_not_mem ha)
      · rw [if_neg hin]
        exact .inl rfl
  | _ => exact .inl rfl

/-- What a read that does not fail answers is in the flash. -/
theorem readReply_data {flash : Nat → Byte} {addr asked i : Nat}
    (hi : i < (readReply m flash addr asked none).retlen) :
    (readReply m flash addr asked none).data i = flash (addr + i) := by
  unfold readReply at hi ⊢
  dsimp only at hi ⊢
  by_cases hin : m.InDevice addr asked
  · rw [if_pos hin] at hi ⊢
    change slice flash addr asked (fun _ => 0) i = _
    exact slice_of_lt hi
  · rw [if_neg hin] at hi
    exact absurd hi (Nat.not_lt_zero i)

theorem Traced.step {s : Machine ι} (hs : Traced m first log s) {i : ι} {e : Op}
    (hrecorded : Crowd.Recorded log i past) (hgood : GoodBlock m bad past e)
    (hsource : SourceAsk m past e) :
    Traced m first (log ++ [⟨i, past, ⟨e, (processDevice m bad i e s).1⟩⟩])
      (processDevice m bad i e s).2 := by
  refine ⟨?_, fun a => ?_, fun deed hdeed addr asked r hevent j hj => ?_⟩
  · apply (Function.forall_update_iff _ fun _ c => Caller.FaultFree c).mpr
    exact ⟨faultFree_device e (s.world i) (hs.faultFree i), fun j _ => hs.faultFree j⟩
  · have hbyte := device_byte (m := m) bad (w := s.world i) (hs.faultFree i) e a
    change Origin m first _ a ((device m bad e (s.world i)).2.flash a)
    rcases hbyte with hsame | hff | ⟨addr, len, src, rfl, hle, hlt, hprogram⟩
    · rw [hsame]
      exact (hs.flash a).grows _
    · exact .erased hff
    · -- the bytes of a program are sourced
      obtain ⟨k, -, rfl, rfl, -⟩ := hgood
      have hbyte :=
        (hsource.2 (a - k * m.erasesize) (by omega)).origin hrecorded hs.reads (by omega)
      rw [hprogram]
      rw [Nat.add_sub_cancel' hle] at hbyte
      exact hbyte.grows _
  · rcases List.mem_append.mp hdeed with hdeed | hdeed
    · exact (hs.reads deed hdeed addr asked r hevent j hj).grows _
    · obtain rfl := List.mem_singleton.mp hdeed
      obtain ⟨rfl, hr⟩ := Sigma.mk.inj hevent
      obtain rfl := eq_of_heq hr
      have hreply : (processDevice m bad i (.mtdRead addr asked) s).1 =
          readReply m s.flash addr asked none := by
        change readReply m s.flash addr asked ((s.caller i).reads 0) = _
        rw [(hs.faultFree i).reads 0]
      rw [hreply] at hj ⊢
      rw [readReply_data hj]
      exact (hs.flash _).grows _

/-! ### Whole runs -/

end At91Drivers.Flash
