import At91Drivers.Effects.Contract
import At91Drivers.Flash.ReadStages

/-!
# One rule for each function of the driver

What the driver asks of an environment that may answer anything within `allow`;
`Sane` is what is documented of the real one.
Each rule reduces a function to the operations it performs itself: the caller
of the rule says why they may be asked (`may`), which results are acceptable
(`post`), and what a search for a good block establishes.
-/

namespace At91Drivers.Flash

open Effects Arith

abbrev History := List (Event Op Reply)

/-! ## The environment -/

/-- What is documented of the environment: `block_isbad` answers as the map
`bad` says, a read stays inside the device, and no transfer is longer than
asked for.  Everything else may fail in any way. -/
def Sane (m : Mtd) (bad : Nat → Bool) : (e : Op) → Reply e → Prop
  | .blockIsbad addr, ret => ret ≠ 0 ↔ bad (addr / m.erasesize) = true
  | .mtdRead addr len, r => r.retlen ≤ len ∧ (r.retlen = 0 ∨ addr + r.retlen ≤ m.size)
  | .mtdWrite _ len _, r => r.retlen ≤ len
  | _, _ => True

theorem device_sane (m : Mtd) (bad : Nat → Bool) : Prog.Obeys (device m bad) (Sane m bad) := by
  intro e w
  cases e with
  | blockIsbad addr =>
      change (if bad (addr / m.erasesize) then (1 : Int) else 0) ≠ 0 ↔ _
      cases bad (addr / m.erasesize) <;> decide
  | mtdRead addr len =>
      change (readReply m w.flash addr len (w.reads 0)).retlen ≤ len ∧ _
      change _ ∧ ((readReply m w.flash addr len (w.reads 0)).retlen = 0 ∨
        addr + (readReply m w.flash addr len (w.reads 0)).retlen ≤ m.size)
      cases w.reads 0 with
      | none =>
          by_cases hin : m.InDevice addr len
          · rw [readReply, if_pos hin]
            exact ⟨le_rfl, .inr hin⟩
          · rw [readReply, if_neg hin]
            exact ⟨Nat.zero_le _, .inl rfl⟩
      | some f =>
          dsimp only [readReply]
          omega
  | mtdWrite addr len src =>
      change (writeReply m addr len (w.writes 0)).retlen ≤ len
      cases w.writes 0 with
      | none =>
          by_cases hin : m.InDevice addr len
          · rw [writeReply, if_pos hin]
          · rw [writeReply, if_neg hin]
            exact Nat.zero_le _
      | some f => exact Nat.min_le_right _ _
  | _ => trivial

/-! ## Policies -/

/-- The operations that touch neither the flash, nor a kernel buffer, nor the
ioctl argument. -/
def Op.Harmless : Op → Prop
  | .copyFromUser _ _ _ | .mtdRead _ _ | .mtdErase _ _ | .mtdWrite _ _ _ => False
  | .argFromUser | .argToUser _ => False
  | _ => True

/-- What may be asked stays so, and the harmless operations always may. -/
structure Policy (may : History → Op → Prop) : Prop where
  grows : ∀ {past e}, may past e → ∀ later, may (past ++ later) e
  harmless : ∀ {past e}, e.Harmless → may past e

/-- The read, the erase and the programs of one whole block may be asked. -/
structure BlockMay (m : Mtd) (may : History → Op → Prop) (past : History) (ebnum : Int) :
    Prop where
  read : may past (.mtdRead (m.ebAddr ebnum) m.erasesize)
  erase : may past (.mtdErase (m.ebAddr ebnum) m.erasesize)
  write : ∀ src, may past (.mtdWrite (m.ebAddr ebnum) m.erasesize src)

variable {m : Mtd} {allow : (e : Op) → Reply e → Prop} {may : History → Op → Prop}
  {past : History}

theorem BlockMay.grows (hp : Policy may) {b : Int} (h : BlockMay m may past b)
    (later : History) : BlockMay m may (past ++ later) b :=
  ⟨hp.grows h.read _, hp.grows h.erase _, fun src => hp.grows (h.write src) _⟩

variable (hp : Policy may)

include hp

/-! ## Helpers -/

theorem meets_freeFail {post : Option Ret → Prop} {code ppos : Int}
    (hpost : post (some ⟨-code, ppos⟩)) :
    (freeFail code ppos).Meets allow may (fun _ => post) past :=
  ⟨hp.harmless trivial, fun _ _ => hpost⟩

/-- `kfree` and a return. -/
theorem meets_freeReturn {post : Option Ret → Prop} {r : Ret} (hpost : post (some r)) :
    (do ask .kfree; pure (some r) : Driver (Option Ret)).Meets allow may (fun _ => post) past :=
  ⟨hp.harmless trivial, fun _ _ => hpost⟩

omit hp in
theorem meets_readBlock {post : History → Option (Nat → Byte) → Prop} {b : Int}
    {kbuf : Nat → Byte} (hread : may past (.mtdRead (m.ebAddr b) m.erasesize))
    (hpost : ∀ later k, post (past ++ later) k) :
    (readBlock m b kbuf).Meets allow may post past := by
  unfold readBlock
  rw [Prog.meets_bind]
  refine ⟨hread, fun r _ => ?_⟩
  change (if _ then _ else _ : Driver (Option (Nat → Byte))).Meets _ _ _ _
  split <;> exact hpost _ _

/-- An erase and a program of the block; the answer of the program is one the
environment may give. -/
theorem meets_commit {post : History → Except Int WriteReply → Prop} {b : Int}
    {kbuf : Nat → Byte} (hblock : BlockMay m may past b)
    (herror : ∀ later err, post (past ++ later) (.error err))
    (hok : ∀ later r, allow (.mtdWrite (m.ebAddr b) m.erasesize kbuf) r →
      post (past ++ later) (.ok r)) :
    (commit m b kbuf).Meets allow may post past := by
  unfold commit
  rw [Prog.meets_bind]
  unfold eraseEraseblock
  rw [Prog.meets_bind]
  refine ⟨hblock.erase, fun ei _ => ?_⟩
  have hrest (err : Int) : Prog.Meets allow may post (if err ≠ 0 then pure (.error err) else do
      let r ← ask (.mtdWrite (m.ebAddr b) m.erasesize kbuf)
      pure (.ok r) : Driver (Except Int WriteReply))
      (past ++ [⟨.mtdErase (m.ebAddr b) m.erasesize, ei⟩]) := by
    split
    · exact herror _ _
    · refine ⟨hp.grows (hblock.write kbuf) _, fun r hr => ?_⟩
      rw [List.append_assoc]
      exact hok _ r hr
  change (if _ then _ else _ : Driver Int).Meets _ _ _ _
  split
  · exact hrest _
  · split
    · exact hrest _
    · exact hrest _

/-! ## The bad-block loop -/

omit hp in
/-- One round of the loop: the answer of `block_isbad` decides. -/
theorem meets_skipBadBlocks_succ (hp : Policy may) {post : History → Skip → Prop} {fuel : Nat}
    {x : Int}
    (hend : m.ebcnt ≤ m.ebnum x → post past (.noBlock x))
    (hprobe : m.ebnum x < m.ebcnt → ∀ ret, allow (.blockIsbad (m.ebAddr (m.ebnum x))) ret →
      ∀ store, let later := [⟨.blockIsbad (m.ebAddr (m.ebnum x)), ret⟩, store]
        (ret = 0 → post (past ++ later) (.good x (m.ebnum x) (m.blockoffset x))) ∧
        (ret ≠ 0 → m.size ≤ u64 (jump m x) → post (past ++ later) (.endOfFile (jump m x))) ∧
        (ret ≠ 0 → u64 (jump m x) < m.size →
          (skipBadBlocks m fuel (jump m x)).Meets allow may post (past ++ later))) :
    (skipBadBlocks m (fuel + 1) x).Meets allow may post past := by
  unfold skipBadBlocks
  by_cases hx : m.ebcnt ≤ m.ebnum x
  · rw [if_pos hx]
    exact hend hx
  · rw [if_neg hx]
    refine ⟨hp.harmless trivial, fun ret hret => ⟨hp.harmless trivial, fun store _ => ?_⟩⟩
    rw [List.append_assoc]
    obtain ⟨hgood, heof, hnext⟩ := hprobe (not_le.mp hx) ret hret ⟨.bbtStore _ _, store⟩
    change (if _ then _ else _ : Driver Skip).Meets _ _ _ _
    by_cases hzero : ret = 0
    · rw [if_neg (not_not.mpr hzero)]
      exact hgood hzero
    · rw [if_pos hzero]
      by_cases hsize : m.size ≤ u64 (m.ebAddr (m.ebnum x + 1))
      · rw [if_pos hsize]
        exact heof hzero hsize
      · rw [if_neg hsize]
        exact hnext hzero (not_le.mp hsize)

/-- With a bad-block map that does not change the loop ends as `walk` says. -/
theorem meets_skipBadBlocks_walk {bad : Nat → Bool}
    (hmap : ∀ addr ret, allow (.blockIsbad addr) ret → (ret ≠ 0 ↔ bad (addr / m.erasesize) = true))
    {fuel : Nat} {x : Int} :
    (skipBadBlocks m fuel x).Meets allow may (fun _ s => s = walk m bad fuel x) past := by
  induction fuel generalizing x past with
  | zero => exact rfl
  | succ fuel ih =>
      refine meets_skipBadBlocks_succ hp (fun hend => ?_) fun hin ret hret store => ?_
      · rw [walk, if_pos hend]
      · have hbad := hmap _ ret hret
        rw [walk, if_neg (not_le.mpr hin)]
        refine ⟨fun hzero => ?_, fun hne heof => ?_, fun hne hlt => ?_⟩
        · rw [if_neg]
          simpa [probe, hzero] using hbad
        · rw [if_pos (c := probe m bad x = true) (hbad.mp hne), if_pos heof]
        · rw [if_pos (c := probe m bad x = true) (hbad.mp hne), if_neg (not_le.mpr hlt)]
          exact ih

/-- What the loop establishes below 4 GiB, whatever `block_isbad` answers: a
block inside the device that was reported good, at the position itself or at
the start of a later block. -/
def Found (m : Mtd) (allow : (e : Op) → Reply e → Prop) (p : Nat) (past : History) : Skip → Prop
  | .spinning => True
  | .noBlock q => ∃ k : Nat, q = k ∧ (k = p ∨ k ≤ m.extent)
  | .endOfFile q => ∃ k : Nat, q = k ∧ k ≤ m.extent
  | .good x b o =>
      ∃ k : Nat, x = k ∧ b = (k / m.erasesize : Nat) ∧ o = m.blockoffset k ∧
        k / m.erasesize < m.blocks ∧ p ≤ k ∧ (k = p ∨ k % m.erasesize = 0) ∧
        ⟨.blockIsbad (k / m.erasesize * m.erasesize), (0 : Int)⟩ ∈ past ∧
        allow (.blockIsbad (k / m.erasesize * m.erasesize)) (0 : Int)

theorem meets_skipBadBlocks_found (hsize : m.size < 4294967296) {fuel p : Nat}
    (hq : p / m.erasesize < 2147483648) (hbound : p < 18446744073709551616) :
    (skipBadBlocks m fuel p).Meets allow may (Found m allow p) past := by
  induction fuel generalizing p past with
  | zero => exact trivial
  | succ fuel ih =>
      have hblocks := m.blocks_lt
      have hext := m.extent_le_size
      refine meets_skipBadBlocks_succ hp (fun _ => ⟨p, rfl, .inl rfl⟩) fun hin ret hret store => ?_
      rw [m.ebcnt_eq, Mtd.ebnum_natCast hq hbound] at hin
      have hblock : p / m.erasesize < m.blocks := by exact_mod_cast hin
      have hlt := m.lt_extent_iff.mpr hblock
      have hend := m.blockEnd_le_extent hblock
      have hstart : p / m.erasesize * m.erasesize ≤ p := Nat.div_mul_le_self _ _
      rw [Mtd.ebnum_natCast hq hbound, Mtd.ebAddr_natCast (by omega)] at hret ⊢
      rw [jump_natCast hsize hblock]
      refine ⟨fun hzero => ?_, fun _ _ => ⟨_, rfl, hend⟩, fun _ _ => ?_⟩
      · subst hzero
        exact ⟨p, rfl, rfl, rfl, hblock, le_rfl, .inl rfl, by simp, hret⟩
      · rw [Mtd.blocks] at hblock
        refine (ih (p := m.blockEnd p) (by rw [m.blockEnd_div]; omega) (by omega)).mono
          fun later s hs => ?_
        cases s with
        | spinning => exact hs
        | noBlock q =>
            obtain ⟨k, hk, hk'⟩ := hs
            exact ⟨k, hk, .inr (hk'.elim (fun h => h ▸ hend) id)⟩
        | endOfFile q => exact hs
        | good x b o =>
            obtain ⟨k, hx, hb, ho, hlt', hle, halign, hmem⟩ := hs
            refine ⟨k, hx, hb, ho, hlt', (m.lt_blockEnd p).le.trans hle, ?_, hmem⟩
            exact .inr (halign.elim (fun h => h ▸ m.blockEnd_mod p) id)

/-! ## write -/

theorem meets_eraseAction {post : Option Ret → Prop} {x b : Int} {kbuf : Nat → Byte}
    (hblock : BlockMay m may past b) (hfail : post (some ⟨-EFAULT, x⟩))
    (hdone : ∀ r, allow (.mtdWrite (m.ebAddr b) m.erasesize kbuf) r →
      post (some ⟨i32 r.retlen, i64 (x + r.retlen)⟩)) :
    (eraseAction m x b kbuf).Meets allow may (fun _ => post) past := by
  unfold eraseAction
  rw [Prog.meets_bind]
  refine meets_commit hp hblock (fun _ _ => ?_) fun _ r hr => ?_
  · exact meets_freeFail hp hfail
  · exact meets_freeReturn hp (hdone r hr)

/-- What a search for the second block has to establish; the second program is
one the environment may answer. -/
def SecondMay (m : Mtd) (allow : (e : Op) → Reply e → Prop) (may : History → Op → Prop)
    (post : Option Ret → Prop) (buf count first : Nat) (past : History) : Skip → Prop
  | .spinning => post none
  | .noBlock q => post (some ⟨-EFAULT, q⟩)
  | .endOfFile q => post (some ⟨-EFAULT, q⟩)
  | .good y b _ =>
      BlockMay m may past b ∧
        may past (.copyFromUser 0 (buf + first) (u32 (count - first))) ∧
        post (some ⟨-EFAULT, y⟩) ∧
        ∀ src r, allow (.mtdWrite (m.ebAddr b) m.erasesize src) r →
          post (some ⟨i32 count, i64 (y + u32 (count - first))⟩)

theorem meets_writeSecond {post : Option Ret → Prop} {fuel buf count first : Nat} {x : Int}
    {kbuf : Nat → Byte}
    (hskip : (skipBadBlocks m fuel x).Meets allow may
      (SecondMay m allow may post buf count first) past) :
    (writeSecond m fuel buf count first x kbuf).Meets allow may (fun _ => post) past := by
  unfold writeSecond
  rw [Prog.meets_bind]
  refine hskip.mono fun later s hs => ?_
  cases s with
  | spinning => exact hs
  | noBlock q => exact meets_freeFail hp hs
  | endOfFile q => exact meets_freeFail hp hs
  | good y b o =>
      obtain ⟨hblock, hcopy, hfail, hdone⟩ := hs
      dsimp only
      rw [Prog.meets_bind]
      refine meets_readBlock hblock.read fun later' k => ?_
      cases k with
      | none => exact meets_freeFail hp hfail
      | some kbuf =>
          refine ⟨hp.grows hcopy _, fun data _ => ?_⟩
          cases data with
          | none => exact meets_freeFail hp hfail
          | some data =>
              change (commit m b _ >>= _).Meets _ _ _ _
              rw [Prog.meets_bind]
              refine meets_commit hp ((hblock.grows hp _).grows hp _) (fun _ _ => ?_)
                fun _ r hr => ?_
              · exact meets_freeFail hp hfail
              · exact meets_freeReturn hp (hdone _ r hr)

theorem meets_writeJump {post : Option Ret → Prop} {fuel buf count : Nat} {x b o : Int}
    {kbuf : Nat → Byte} (hblock : BlockMay m may past b)
    (hcopy : may past (.copyFromUser (u32 o) buf (u32 (m.erasesize - o))))
    (hfail : post (some ⟨-EFAULT, x⟩))
    (hsecond : ∀ src r, allow (.mtdWrite (m.ebAddr b) m.erasesize src) r → ∀ later,
      (skipBadBlocks m fuel (i64 (x + u32 (m.erasesize - o)))).Meets allow may
        (SecondMay m allow may post buf count (u32 (m.erasesize - o))) (past ++ later)) :
    (writeJump m fuel buf count x b o kbuf).Meets allow may (fun _ => post) past := by
  refine ⟨hcopy, fun data _ => ?_⟩
  cases data with
  | none => exact meets_freeFail hp hfail
  | some data =>
      change (commit m b _ >>= _).Meets _ _ _ _
      rw [Prog.meets_bind]
      refine meets_commit hp (hblock.grows hp _) (fun _ _ => ?_) fun _ r hr => ?_
      · exact meets_freeFail hp hfail
      · dsimp only
        rw [List.append_assoc]
        exact meets_writeSecond hp (hsecond _ r hr _)

/-- What a write from a landing has to establish, path by path. -/
structure WriteMay (m : Mtd) (allow : (e : Op) → Reply e → Prop) (may : History → Op → Prop)
    (post : Option Ret → Prop) (fuel buf count : Nat) (x b o : Int) (past : History) : Prop where
  block : BlockMay m may past b
  atZero : x = 0 → may past (.copyFromUser 0 buf count)
  within : x ≠ 0 → i64 (x + count) ≤ m.ebAddr (b + 1) →
    may past (.copyFromUser (u32 o) buf count)
  jump : x ≠ 0 → ¬ i64 (x + count) ≤ m.ebAddr (b + 1) → i64 (x + count) ≤ m.ebAddr (b + 2) →
    may past (.copyFromUser (u32 o) buf (u32 (m.erasesize - o))) ∧
      ∀ src r, allow (.mtdWrite (m.ebAddr b) m.erasesize src) r → ∀ later,
        (skipBadBlocks m fuel (i64 (x + u32 (m.erasesize - o)))).Meets allow may
          (SecondMay m allow may post buf count (u32 (m.erasesize - o))) (past ++ later)
  failed : post (some ⟨-EFAULT, x⟩)
  done : ∀ src r, allow (.mtdWrite (m.ebAddr b) m.erasesize src) r →
    post (some ⟨i32 r.retlen, i64 (x + r.retlen)⟩)

theorem meets_writeBlocks {post : Option Ret → Prop} {fuel buf count : Nat} {x b o : Int}
    {kbuf : Nat → Byte} (h : WriteMay m allow may post fuel buf count x b o past) :
    (writeBlocks m fuel buf count x b o kbuf).Meets allow may (fun _ => post) past := by
  unfold writeBlocks
  by_cases hx : x = 0
  · rw [if_pos hx]
    refine ⟨h.atZero hx, fun data _ => ?_⟩
    cases data with
    | none => exact meets_freeFail hp h.failed
    | some data => exact meets_eraseAction hp (h.block.grows hp _) h.failed (h.done _)
  · rw [if_neg hx, Prog.meets_bind]
    refine meets_readBlock h.block.read fun later k => ?_
    cases k with
    | none => exact meets_freeFail hp h.failed
    | some kbuf =>
        dsimp only
        by_cases hfit : i64 (x + count) ≤ m.ebAddr (b + 1)
        · rw [if_pos hfit]
          refine ⟨hp.grows (h.within hx hfit) _, fun data _ => ?_⟩
          cases data with
          | none => exact meets_freeFail hp h.failed
          | some data =>
              exact meets_eraseAction hp ((h.block.grows hp _).grows hp _) h.failed (h.done _)
        · rw [if_neg hfit]
          by_cases hguard : i64 (x + count) ≤ m.ebAddr (b + 2)
          · -- two blocks: the second one is searched for after the first is done
            obtain ⟨hcopy, hsecond⟩ := h.jump hx hfit hguard
            rw [if_pos hguard]
            refine meets_writeJump hp (h.block.grows hp _) (hp.grows hcopy _) h.failed
              fun src r hr later' => ?_
            rw [List.append_assoc]
            exact hsecond src r hr _
          · rw [if_neg hguard]
            exact meets_freeFail hp h.failed

/-- What the search for the first block has to establish. -/
def FirstMay (m : Mtd) (allow : (e : Op) → Reply e → Prop) (may : History → Op → Prop)
    (post : Option Ret → Prop) (fuel buf count : Nat) (past : History) : Skip → Prop
  | .spinning => post none
  | .noBlock q => post (some ⟨-EFAULT, q⟩)
  | .endOfFile q => post (some ⟨-EFAULT, q⟩)
  | .good x b o =>
      post (some ⟨-ENOMEM, x⟩) ∧
        ∀ kbuf, WriteMay m allow may post fuel buf count x b o
          (past ++ [⟨.kmalloc m.erasesize, some kbuf⟩])

theorem meets_writeCount {post : Option Ret → Prop} {fuel buf count : Nat} {x : Int}
    (hzero : post (some ⟨0, x⟩))
    (hskip : (skipBadBlocks m fuel x).Meets allow may (FirstMay m allow may post fuel buf count)
      past) :
    (writeCount m fuel buf count x).Meets allow may (fun _ => post) past := by
  unfold writeCount
  by_cases hcount : count = 0
  · rw [if_pos hcount]
    exact hzero
  · rw [if_neg hcount, Prog.meets_bind]
    refine hskip.mono fun later s hs => ?_
    cases s with
    | spinning => exact hs
    | noBlock q => exact hs
    | endOfFile q => exact hs
    | good x b o =>
        refine ⟨hp.harmless trivial, fun kbuf _ => ?_⟩
        cases kbuf with
        | none => exact hs.1
        | some kbuf => exact meets_writeBlocks hp (hs.2 kbuf)

/-! ## read -/

omit hp in
theorem meets_deliver (hp : Policy may) {post : History → Bool × Int → Prop} {buf readlen : Nat}
    {x : Int} {readbuf : Nat → Byte}
    (hpost : ∀ later ok, post (past ++ later) (ok, delivered x readlen)) :
    (deliver buf x readlen readbuf).Meets allow may post past := by
  unfold deliver
  unfold delivered at hpost
  by_cases hlen : readlen ≠ 0
  · rw [if_pos hlen] at hpost ⊢
    exact ⟨hp.harmless trivial, fun ok _ => hpost _ ok⟩
  · rw [if_neg hlen] at hpost ⊢
    simpa using hpost [] true

/-- A part of a read may be asked, and any position it leaves is acceptable. -/
def PartMay (allow : (e : Op) → Reply e → Prop) (may : History → Op → Prop)
    (post : Option Ret → Prop) (past : History) (x : Int) (len : Nat) : Prop :=
  may past (.mtdRead (u64 x) len) ∧
    ∀ r, allow (.mtdRead (u64 x) len) r → ∀ ret, post (some ⟨ret, delivered x r.retlen⟩)

def ReadSecondMay (allow : (e : Op) → Reply e → Prop) (may : History → Op → Prop)
    (post : Option Ret → Prop) (count readlen readtmplen : Nat) (past : History) : Skip → Prop
  | .spinning => post none
  | .noBlock q => post (some ⟨i32 readlen, q⟩)
  | .endOfFile q => post (some ⟨-EFAULT, q⟩)
  | .good y _ _ => PartMay allow may post past y (u32 (count - readtmplen))

theorem meets_readSecond {post : Option Ret → Prop} {fuel buf count readlen readtmplen : Nat}
    {x : Int}
    (hskip : (skipBadBlocks m fuel x).Meets allow may
      (ReadSecondMay allow may post count readlen readtmplen) past) :
    (readSecond m fuel buf count x readlen readtmplen).Meets allow may (fun _ => post) past := by
  unfold readSecond
  rw [Prog.meets_bind]
  refine hskip.mono fun later s hs => ?_
  cases s with
  | spinning => exact hs
  | noBlock q => exact meets_freeReturn hp hs
  | endOfFile q => exact meets_freeFail hp hs
  | good y b o =>
      refine ⟨hs.1, fun r hr => ?_⟩
      change (deliver _ _ _ _ >>= _).Meets _ _ _ _
      rw [Prog.meets_bind]
      refine meets_deliver hp fun later' ok => ?_
      cases ok with
      | true => exact meets_freeReturn hp (hs.2 r hr _)
      | false => exact meets_freeFail hp (hs.2 r hr _)

/-- What a read from a landing has to establish, path by path. -/
structure ReadMay (m : Mtd) (allow : (e : Op) → Reply e → Prop) (may : History → Op → Prop)
    (post : Option Ret → Prop) (fuel count : Nat) (x b : Int) (past : History) : Prop where
  within : ¬ (m.ebAddr (b + 1) : Int) < i64 (x + count) → PartMay allow may post past x count
  jump : (m.ebAddr (b + 1) : Int) < i64 (x + count) →
    PartMay allow may post past x (u32 (m.ebAddr (b + 1) - x)) ∧
      ∀ r, allow (.mtdRead (u64 x) (u32 (m.ebAddr (b + 1) - x))) r → ∀ later,
        (skipBadBlocks m fuel (delivered x r.retlen)).Meets allow may
          (ReadSecondMay allow may post count r.retlen r.retlen) (past ++ later)

theorem meets_readBlocks {post : Option Ret → Prop} {fuel buf count : Nat} {x b : Int}
    (h : ReadMay m allow may post fuel count x b past) :
    (readBlocks m fuel buf count x b).Meets allow may (fun _ => post) past := by
  unfold readBlocks
  by_cases hjump : (m.ebAddr (b + 1) : Int) < i64 (x + count)
  · obtain ⟨hfirst, hsecond⟩ := h.jump hjump
    rw [if_pos hjump]
    refine ⟨hfirst.1, fun r hr => ?_⟩
    change (deliver _ _ _ _ >>= _).Meets _ _ _ _
    rw [Prog.meets_bind]
    refine meets_deliver hp fun later ok => ?_
    cases ok with
    | false => exact meets_freeFail hp (hfirst.2 r hr _)
    | true =>
        rw [List.append_assoc]
        exact meets_readSecond hp (hsecond r hr _)
  · obtain ⟨hread, hdone⟩ := h.within hjump
    rw [if_neg hjump, if_pos (not_lt.mp hjump)]
    refine ⟨hread, fun r hr => ?_⟩
    change (deliver _ _ _ _ >>= _).Meets _ _ _ _
    rw [Prog.meets_bind]
    refine meets_deliver hp fun later ok => ?_
    cases ok with
    | true => exact meets_freeReturn hp (hdone r hr _)
    | false => exact meets_freeFail hp (hdone r hr _)

def ReadFirstMay (m : Mtd) (allow : (e : Op) → Reply e → Prop) (may : History → Op → Prop)
    (post : Option Ret → Prop) (fuel count : Nat) (past : History) : Skip → Prop
  | .spinning => post none
  | .noBlock q => post (some ⟨-EFAULT, q⟩)
  | .endOfFile q => post (some ⟨-EFAULT, q⟩)
  | .good x b _ =>
      (∀ ret, post (some ⟨ret, x⟩)) ∧
        (m.clip x count ≠ 0 → ∀ readbuf,
          ReadMay m allow may post fuel (clipKmalloc (m.clip x count)) x b
            (past ++ [⟨.kmalloc (clipKmalloc (m.clip x count)), some readbuf⟩]))

theorem meets_at91flashRead {post : Option Ret → Prop} {fuel buf count : Nat} {x : Int}
    (hskip : (skipBadBlocks m fuel x).Meets allow may (ReadFirstMay m allow may post fuel count)
      past) :
    (at91flashRead m fuel buf count x).Meets allow may (fun _ => post) past := by
  unfold at91flashRead
  rw [Prog.meets_bind]
  refine hskip.mono fun later s hs => ?_
  cases s with
  | spinning => exact hs
  | noBlock q => exact hs
  | endOfFile q => exact hs
  | good x b o =>
      dsimp only
      by_cases hclip : m.clip x count = 0
      · rw [if_pos hclip]
        exact hs.1 0
      · rw [if_neg hclip]
        refine ⟨hp.harmless trivial, fun readbuf _ => ?_⟩
        cases readbuf with
        | none => exact hs.1 _
        | some readbuf => exact meets_readBlocks hp (hs.2 hclip readbuf)

end At91Drivers.Flash
