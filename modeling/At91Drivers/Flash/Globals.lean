import At91Drivers.Flash.Driver

/-!
# The functions of `at91flash.c`, with the loads of the globals

The functions again, as they find the device: `mtd`, `ebcnt` and `bbt` are
globals, loaded each time they are used.  With the globals of a usable driver,
`withGlobals m`, they are the functions over the device `m`.
-/

namespace At91Drivers.Flash

open Effects Arith

/-- The globals of the module that its calls use. -/
inductive Global where
  | mtd
  | ebcnt
  | bbt
deriving DecidableEq

/-- The operations of a call, the loads of `mtd` and `ebcnt` among them. -/
inductive GlobalOp where
  | loadMtd
  | loadEbcnt
  | other (e : Op)

abbrev GlobalReply : GlobalOp → Type
  | .loadMtd => Mtd
  | .loadEbcnt => Int
  | .other e => Reply e

/-- The globals that an operation goes through: the methods are `mtd`'s, and a
store into the table is through `bbt`. -/
def GlobalOp.uses : GlobalOp → List Global
  | .loadMtd => [.mtd]
  | .loadEbcnt => [.ebcnt]
  | .other (.blockIsbad _) => [.mtd]
  | .other (.bbtStore _ _) => [.bbt]
  | .other (.mtdRead _ _) => [.mtd]
  | .other (.mtdErase _ _) => [.mtd]
  | .other (.mtdWrite _ _ _) => [.mtd]
  | .other _ => []

abbrev Client := Prog GlobalOp GlobalReply

namespace Client

def loadMtd : Client Mtd := Prog.perform GlobalOp.loadMtd

def loadEbcnt : Client Int := Prog.perform GlobalOp.loadEbcnt

def call (e : Op) : Client (Reply e) := Prog.perform (GlobalOp.other e)

def fail (code ppos : Int) : Client (Option Ret) := pure (some ⟨-code, ppos⟩)

def freeFail (code ppos : Int) : Client (Option Ret) := do
  call .kfree
  fail code ppos

/-! ## Helpers of the file -/

def isBlockBad (ebnum : Int) : Client Int := do
  let mtd ← loadMtd
  call (.blockIsbad (mtd.ebAddr ebnum))

def eraseEraseblock (ebnum : Int) : Client Int := do
  let mtd ← loadMtd
  let ei ← call (.mtdErase (mtd.ebAddr ebnum) mtd.erasesize)
  if ei.ret ≠ 0 then
    pure ei.ret
  else if ei.failed then
    pure (- EIO)
  else
    pure 0

def skipBadBlocks : Nat → Int → Client Skip
  | 0, _ => pure .spinning
  | fuel + 1, ppos => do
      let mtd ← loadMtd
      let ebcnt ← loadEbcnt
      if ebcnt ≤ mtd.ebnum ppos then
        pure (.noBlock ppos)
      else do
        let ret ← isBlockBad (mtd.ebnum ppos)
        call (.bbtStore (mtd.ebnum ppos) (decide (ret ≠ 0)))
        if ret ≠ 0 then do
          let mtd ← loadMtd
          if mtd.size ≤ u64 (mtd.ebAddr (mtd.ebnum ppos + 1)) then
            pure (.endOfFile (mtd.ebAddr (mtd.ebnum ppos + 1)))
          else
            skipBadBlocks fuel (mtd.ebAddr (mtd.ebnum ppos + 1))
        else
          pure (.good ppos (mtd.ebnum ppos) (mtd.blockoffset ppos))

/-! ## lseek -/

def seek (fPos offset : Int) : Client Ret :=
  if 0 ≤ offset then do
    let mtd ← loadMtd
    if u64 offset ≤ mtd.size then
      pure ⟨offset, offset⟩
    else
      pure ⟨-EINVAL, fPos⟩
  else
    pure ⟨-EINVAL, fPos⟩

def at91flashLseek (fPos offset orig : Int) : Client Ret :=
  match orig with
  | 0 => seek fPos (i64 offset)
  | 1 => seek fPos (i64 (offset + fPos))
  | 2 => do
      let mtd ← loadMtd
      seek fPos (i64 (offset + mtd.size))
  | _ => pure ⟨-EINVAL, fPos⟩

/-! ## read -/

def deliver (buf : Nat) (ppos : Int) (readlen : Nat) (readbuf : Nat → Byte) :
    Client (Bool × Int) :=
  if readlen ≠ 0 then do
    let ok ← call (.copyToUser buf readlen readbuf)
    pure (ok, i64 (ppos + readlen))
  else
    pure (true, ppos)

def readSecond (fuel buf count : Nat) (ppos : Int) (readlen readtmplen : Nat) :
    Client (Option Ret) := do
  match ← skipBadBlocks fuel ppos with
  | .spinning => pure none
  | .noBlock ppos =>
      call .kfree
      pure (some ⟨i32 readlen, ppos⟩)
  | .endOfFile ppos => freeFail EFAULT ppos
  | .good ppos _ _ =>
      let r ← call (.mtdRead (u64 ppos) (u32 (count - readtmplen)))
      let (ok, ppos) ← deliver (buf + readtmplen) ppos r.retlen r.data
      if ok then
        call .kfree
        pure (some ⟨i32 r.retlen, ppos⟩)
      else
        freeFail EFAULT ppos

def readBlocks (fuel buf count : Nat) (ppos ebnum : Int) : Client (Option Ret) := do
  let mtd ← loadMtd
  if (mtd.ebAddr (ebnum + 1) : Int) < i64 (ppos + count) then do
    -- block jump: read the first block
    let r ← call (.mtdRead (u64 ppos) (u32 (mtd.ebAddr (ebnum + 1) - ppos)))
    let (ok, ppos) ← deliver buf ppos r.retlen r.data
    if ok then
      readSecond fuel buf count ppos r.retlen r.retlen
    else
      freeFail EFAULT ppos
  else if i64 (ppos + count) ≤ mtd.ebAddr (ebnum + 1) then do
    let r ← call (.mtdRead (u64 ppos) count)
    let (ok, ppos) ← deliver buf ppos r.retlen r.data
    if ok then
      call .kfree
      pure (some ⟨i32 r.retlen, ppos⟩)
    else
      freeFail EFAULT ppos
  else
    freeFail EFAULT ppos

def at91flashRead (fuel buf count : Nat) (ppos : Int) : Client (Option Ret) := do
  match ← skipBadBlocks fuel ppos with
  | .spinning => pure none
  | .noBlock ppos => fail EFAULT ppos
  | .endOfFile ppos => fail EFAULT ppos
  | .good ppos ebnum _ =>
      let mtd ← loadMtd
      if mtd.clip ppos count = 0 then
        pure (some ⟨0, ppos⟩)
      else
        match ← call (.kmalloc (clipKmalloc (mtd.clip ppos count))) with
        | none => fail ENOMEM ppos
        | some _ => readBlocks fuel buf (clipKmalloc (mtd.clip ppos count)) ppos ebnum

/-! ## write -/

def commit (ebnum : Int) (kbuf : Nat → Byte) : Client (Except Int WriteReply) := do
  let err ← eraseEraseblock ebnum
  if err ≠ 0 then
    pure (.error err)
  else do
    let mtd ← loadMtd
    let r ← call (.mtdWrite (mtd.ebAddr ebnum) mtd.erasesize kbuf)
    pure (.ok r)

def readBlock (ebnum : Int) (kbuf : Nat → Byte) : Client (Option (Nat → Byte)) := do
  let mtd ← loadMtd
  let r ← call (.mtdRead (mtd.ebAddr ebnum) mtd.erasesize)
  if (r.ret ≠ 0 ∧ r.ret ≠ -EUCLEAN) ∨ r.retlen ≠ mtd.erasesize then
    pure none
  else
    pure (some (splice kbuf 0 r.retlen r.data))

def eraseAction (ppos ebnum : Int) (kbuf : Nat → Byte) : Client (Option Ret) := do
  match ← commit ebnum kbuf with
  | .error _ => freeFail EFAULT ppos
  | .ok r =>
      call .kfree
      pure (some ⟨i32 r.retlen, i64 (ppos + r.retlen)⟩)

def writeSecond (fuel buf count first : Nat) (ppos : Int) (kbuf : Nat → Byte) :
    Client (Option Ret) := do
  match ← skipBadBlocks fuel ppos with
  | .spinning => pure none
  | .noBlock ppos => freeFail EFAULT ppos
  | .endOfFile ppos => freeFail EFAULT ppos
  | .good ppos ebnum _ =>
      match ← readBlock ebnum kbuf with
      | none => freeFail EFAULT ppos
      | some kbuf =>
          match ← call (.copyFromUser 0 (buf + first) (u32 (count - first))) with
          | none => freeFail EFAULT ppos
          | some data =>
              match ← commit ebnum (splice kbuf 0 (u32 (count - first)) data) with
              | .error _ => freeFail EFAULT ppos
              | .ok _ =>
                  call .kfree
                  pure (some ⟨i32 count, i64 (ppos + u32 (count - first))⟩)

def writeJump (fuel buf count : Nat) (ppos ebnum blockoffset : Int) (kbuf : Nat → Byte) :
    Client (Option Ret) := do
  let mtd ← loadMtd
  let first := u32 (mtd.erasesize - blockoffset)
  match ← call (.copyFromUser (u32 blockoffset) buf first) with
  | none => freeFail EFAULT ppos
  | some data =>
      let kbuf := splice kbuf (u32 blockoffset) first data
      match ← commit ebnum kbuf with
      | .error _ => freeFail EFAULT ppos
      | .ok _ => writeSecond fuel buf count first (i64 (ppos + first)) kbuf

def writeBlocks (fuel buf count : Nat) (ppos ebnum blockoffset : Int) (kbuf : Nat → Byte) :
    Client (Option Ret) :=
  if ppos = 0 then do
    -- first block: `kbuf` is not read from the flash
    match ← call (.copyFromUser 0 buf count) with
    | none => freeFail EFAULT ppos
    | some data => eraseAction ppos ebnum (splice kbuf 0 count data)
  else do
    match ← readBlock ebnum kbuf with
    | none => freeFail EFAULT ppos
    | some kbuf => do
        let mtd ← loadMtd
        if i64 (ppos + count) ≤ mtd.ebAddr (ebnum + 1) then do
          match ← call (.copyFromUser (u32 blockoffset) buf count) with
          | none => freeFail EFAULT ppos
          | some data => eraseAction ppos ebnum (splice kbuf (u32 blockoffset) count data)
        else if i64 (ppos + count) ≤ mtd.ebAddr (ebnum + 2) then
          writeJump fuel buf count ppos ebnum blockoffset kbuf
        else
          freeFail EFAULT ppos

def writeCount (fuel buf count : Nat) (ppos : Int) : Client (Option Ret) :=
  if count = 0 then
    pure (some ⟨0, ppos⟩)
  else do
    match ← skipBadBlocks fuel ppos with
    | .spinning => pure none
    | .noBlock ppos => fail EFAULT ppos
    | .endOfFile ppos => fail EFAULT ppos
    | .good ppos ebnum blockoffset => do
        let mtd ← loadMtd
        match ← call (.kmalloc mtd.erasesize) with
        | none => fail ENOMEM ppos
        | some kbuf => writeBlocks fuel buf count ppos ebnum blockoffset kbuf

def at91flashWrite (fuel buf count : Nat) (ppos : Int) : Client (Option Ret) := do
  let mtd ← loadMtd
  if mtd.size < u64 (ppos + count) then
    writeCount fuel buf (u32 (mtd.size - ppos)) ppos
  else if mtd.erasesize < count then
    fail EFAULT ppos
  else
    writeCount fuel buf count ppos

/-! ## ioctl and the calls on an open file -/

def ioctlReturn (karg : FlashData) (fPos : Int) : Client (Option Ret) := do
  if ← call (.argToUser karg) then pure (some ⟨0, fPos⟩) else fail EFAULT fPos

def at91flashIoctl (fuel cmd : Nat) (fPos : Int) : Client (Option Ret) := do
  match ← call .argFromUser with
  | none => fail EFAULT fPos
  | some karg =>
      match iocNr cmd with
      | 1 => do
          let sought ← at91flashLseek fPos karg.offset.toInt 0
          match ← at91flashRead fuel karg.pbuf (u32 karg.len.toInt) sought.ppos with
          | none => pure none
          | some r => ioctlReturn karg r.ppos
      | 2 => do
          let sought ← at91flashLseek fPos karg.offset.toInt 0
          match ← at91flashWrite fuel karg.pbuf (u32 karg.len.toInt) sought.ppos with
          | none => pure none
          | some r => ioctlReturn karg r.ppos
      | _ => pure (some ⟨0, fPos⟩)

/-- The function behind a call. -/
def body (fuel : Nat) (fPos : Int) : Call → Client (Option Ret)
  | .lseek offset orig => do
      let sought ← at91flashLseek fPos offset orig
      pure (some sought)
  | .read buf count => at91flashRead fuel buf count fPos
  | .write buf count => at91flashWrite fuel buf count fPos
  | .ioctl cmd => at91flashIoctl fuel cmd fPos

end Client

/-! ## With the globals of a usable driver -/

section Loaded

variable {α β : Type}

/-- The loads answer the device `m` and its number of blocks. -/
def withGlobals (m : Mtd) : Client α → Driver α
  | .pure a => .pure a
  | .op .loadMtd k => withGlobals m (k m)
  | .op .loadEbcnt k => withGlobals m (k m.ebcnt)
  | .op (.other e) k => .op e fun r => withGlobals m (k r)

theorem withGlobals_bind (m : Mtd) (p : Client α) (f : α → Client β) :
    withGlobals m (p >>= f) = withGlobals m p >>= fun a => withGlobals m (f a) := by
  induction p with
  | pure a => rfl
  | op e k ih =>
      cases e with
      | loadMtd => exact ih m
      | loadEbcnt => exact ih m.ebcnt
      | other e => exact congrArg (Prog.op e) (funext fun r => ih r)

/-- With the globals of the device `m`, the one is the other. -/
def Agrees (m : Mtd) (c : Client α) (d : Driver α) : Prop := withGlobals m c = d

variable {m : Mtd}

namespace Agrees

theorem pure (a : α) : Agrees m (Pure.pure a) (Pure.pure a) := rfl

theorem call (e : Op) : Agrees m (Client.call e) (ask e) := rfl

theorem bind {c : Client α} {d : Driver α} {f : α → Client β} {g : α → Driver β}
    (h : Agrees m c d) (hf : ∀ a, Agrees m (f a) (g a)) : Agrees m (c >>= f) (d >>= g) := by
  unfold Agrees
  rw [withGlobals_bind, h]
  exact congrArg (d >>= ·) (funext hf)

theorem bind_pure {c : Client α} {a : α} {f : α → Client β} {d : Driver β}
    (h : Agrees m c (Pure.pure a)) (hf : Agrees m (f a) d) : Agrees m (c >>= f) d := by
  unfold Agrees
  rw [withGlobals_bind, h]
  exact hf

theorem loadMtd {f : Mtd → Client β} {d : Driver β} (h : Agrees m (f m) d) :
    Agrees m (Client.loadMtd >>= f) d := h

theorem loadEbcnt {f : Int → Client β} {d : Driver β} (h : Agrees m (f m.ebcnt) d) :
    Agrees m (Client.loadEbcnt >>= f) d := h

theorem ite {p : Prop} [Decidable p] {c c' : Client α} {d d' : Driver α}
    (h : Agrees m c d) (h' : Agrees m c' d') :
    Agrees m (if p then c else c') (if p then d else d') := by
  split
  · exact h
  · exact h'

end Agrees

variable (m)

/-! ### Helpers of the file -/

theorem agrees_fail (code ppos : Int) : Agrees m (Client.fail code ppos) (fail code ppos) := rfl

theorem agrees_freeFail (code ppos : Int) :
    Agrees m (Client.freeFail code ppos) (freeFail code ppos) := rfl

/-- `kfree(buf); return ret`. -/
theorem agrees_freeReturn (ret : Option Ret) :
    Agrees m (do Client.call .kfree; pure ret) (do ask .kfree; pure ret) := rfl

theorem agrees_isBlockBad (ebnum : Int) :
    Agrees m (Client.isBlockBad ebnum) (isBlockBad m ebnum) := rfl

theorem agrees_eraseEraseblock (ebnum : Int) :
    Agrees m (Client.eraseEraseblock ebnum) (eraseEraseblock m ebnum) := by
  refine .loadMtd (.bind (.call _) fun ei => ?_)
  exact .ite (.pure _) (.ite (.pure _) (.pure _))

theorem agrees_skipBadBlocks (fuel : Nat) (ppos : Int) :
    Agrees m (Client.skipBadBlocks fuel ppos) (skipBadBlocks m fuel ppos) := by
  induction fuel generalizing ppos with
  | zero => exact .pure _
  | succ fuel ih =>
      refine .loadMtd (.loadEbcnt (.ite (.pure _) ?_))
      refine .bind (agrees_isBlockBad m _) fun ret => .bind (.call _) fun _ => ?_
      exact .ite (.loadMtd (.ite (.pure _) (ih _))) (.pure _)

/-! ### lseek -/

theorem agrees_at91flashLseek (fPos offset orig : Int) :
    Agrees m (Client.at91flashLseek fPos offset orig)
      (pure (at91flashLseek m fPos offset orig)) := by
  have hseek (offset : Int) : Agrees m (Client.seek fPos offset)
      (pure (if 0 ≤ offset ∧ u64 offset ≤ m.size then ⟨offset, offset⟩
        else ⟨-EINVAL, fPos⟩)) := by
    unfold Client.seek
    by_cases hnonneg : 0 ≤ offset
    · rw [if_pos hnonneg]
      refine .loadMtd ?_
      by_cases hle : u64 offset ≤ m.size
      · rw [if_pos hle, if_pos ⟨hnonneg, hle⟩]
        exact .pure _
      · rw [if_neg hle, if_neg fun h => hle h.2]
        exact .pure _
    · rw [if_neg hnonneg, if_neg fun h => hnonneg h.1]
      exact .pure _
  -- the three origins load `mtd` at different places; the others do not load it
  have hother (hset : orig ≠ 0) (hcur : orig ≠ 1) (hend : orig ≠ 2) :
      at91flashLseek m fPos offset orig = ⟨-EINVAL, fPos⟩ := by
    unfold at91flashLseek
    split
    · exact absurd rfl hset
    · exact absurd rfl hcur
    · exact absurd rfl hend
    · rfl
  unfold Client.at91flashLseek
  split
  · exact hseek _
  · exact hseek _
  · exact .loadMtd (hseek _)
  · rename_i hset hcur hend
    rw [hother hset hcur hend]
    exact .pure _

/-! ### read -/

theorem agrees_deliver (buf : Nat) (ppos : Int) (readlen : Nat) (readbuf : Nat → Byte) :
    Agrees m (Client.deliver buf ppos readlen readbuf) (deliver buf ppos readlen readbuf) :=
  .ite (.bind (.call _) fun _ => .pure _) (.pure _)

theorem agrees_readSecond (fuel buf count : Nat) (ppos : Int) (readlen readtmplen : Nat) :
    Agrees m (Client.readSecond fuel buf count ppos readlen readtmplen)
      (readSecond m fuel buf count ppos readlen readtmplen) := by
  refine .bind (agrees_skipBadBlocks m fuel ppos) fun skip => ?_
  cases skip with
  | spinning => exact .pure _
  | noBlock ppos => exact agrees_freeReturn m _
  | endOfFile ppos => exact agrees_freeFail m EFAULT ppos
  | good ppos ebnum blockoffset =>
      refine .bind (.call _) fun r => .bind (agrees_deliver m _ _ _ _) fun ok => ?_
      exact .ite (agrees_freeReturn m _) (agrees_freeFail m EFAULT _)

theorem agrees_readBlocks (fuel buf count : Nat) (ppos ebnum : Int) :
    Agrees m (Client.readBlocks fuel buf count ppos ebnum)
      (readBlocks m fuel buf count ppos ebnum) := by
  refine .loadMtd (.ite ?_ (.ite ?_ (agrees_freeFail m EFAULT ppos)))
  · refine .bind (.call _) fun r => .bind (agrees_deliver m _ _ _ _) fun ok => ?_
    exact .ite (agrees_readSecond m _ _ _ _ _ _) (agrees_freeFail m EFAULT _)
  · refine .bind (.call _) fun r => .bind (agrees_deliver m _ _ _ _) fun ok => ?_
    exact .ite (agrees_freeReturn m _) (agrees_freeFail m EFAULT _)

theorem agrees_at91flashRead (fuel buf count : Nat) (ppos : Int) :
    Agrees m (Client.at91flashRead fuel buf count ppos) (at91flashRead m fuel buf count ppos) := by
  refine .bind (agrees_skipBadBlocks m fuel ppos) fun skip => ?_
  cases skip with
  | spinning => exact .pure _
  | noBlock ppos => exact agrees_fail m EFAULT ppos
  | endOfFile ppos => exact agrees_fail m EFAULT ppos
  | good ppos ebnum blockoffset =>
      refine .loadMtd (.ite (.pure _) (.bind (.call _) fun readbuf => ?_))
      cases readbuf with
      | none => exact agrees_fail m ENOMEM ppos
      | some _ => exact agrees_readBlocks m fuel buf _ ppos ebnum

/-! ### write -/

theorem agrees_commit (ebnum : Int) (kbuf : Nat → Byte) :
    Agrees m (Client.commit ebnum kbuf) (commit m ebnum kbuf) := by
  refine .bind (agrees_eraseEraseblock m ebnum) fun err => ?_
  exact .ite (.pure _) (.loadMtd (.bind (.call _) fun _ => .pure _))

theorem agrees_readBlock (ebnum : Int) (kbuf : Nat → Byte) :
    Agrees m (Client.readBlock ebnum kbuf) (readBlock m ebnum kbuf) :=
  .loadMtd (.bind (.call _) fun _ => .ite (.pure _) (.pure _))

theorem agrees_eraseAction (ppos ebnum : Int) (kbuf : Nat → Byte) :
    Agrees m (Client.eraseAction ppos ebnum kbuf) (eraseAction m ppos ebnum kbuf) := by
  refine .bind (agrees_commit m ebnum kbuf) fun committed => ?_
  cases committed with
  | error err => exact agrees_freeFail m EFAULT ppos
  | ok r => exact agrees_freeReturn m _

theorem agrees_writeSecond (fuel buf count first : Nat) (ppos : Int) (kbuf : Nat → Byte) :
    Agrees m (Client.writeSecond fuel buf count first ppos kbuf)
      (writeSecond m fuel buf count first ppos kbuf) := by
  refine .bind (agrees_skipBadBlocks m fuel ppos) fun skip => ?_
  cases skip with
  | spinning => exact .pure _
  | noBlock ppos => exact agrees_freeFail m EFAULT ppos
  | endOfFile ppos => exact agrees_freeFail m EFAULT ppos
  | good ppos ebnum blockoffset =>
      refine .bind (agrees_readBlock m ebnum kbuf) fun block => ?_
      cases block with
      | none => exact agrees_freeFail m EFAULT ppos
      | some kbuf =>
          refine .bind (.call _) fun data => ?_
          cases data with
          | none => exact agrees_freeFail m EFAULT ppos
          | some data =>
              refine .bind (agrees_commit m ebnum _) fun committed => ?_
              cases committed with
              | error err => exact agrees_freeFail m EFAULT ppos
              | ok r => exact agrees_freeReturn m _

theorem agrees_writeJump (fuel buf count : Nat) (ppos ebnum blockoffset : Int)
    (kbuf : Nat → Byte) :
    Agrees m (Client.writeJump fuel buf count ppos ebnum blockoffset kbuf)
      (writeJump m fuel buf count ppos ebnum blockoffset kbuf) := by
  refine .loadMtd (.bind (.call _) fun data => ?_)
  cases data with
  | none => exact agrees_freeFail m EFAULT ppos
  | some data =>
      refine .bind (agrees_commit m ebnum _) fun committed => ?_
      cases committed with
      | error err => exact agrees_freeFail m EFAULT ppos
      | ok r => exact agrees_writeSecond m fuel buf count _ _ _

theorem agrees_writeBlocks (fuel buf count : Nat) (ppos ebnum blockoffset : Int)
    (kbuf : Nat → Byte) :
    Agrees m (Client.writeBlocks fuel buf count ppos ebnum blockoffset kbuf)
      (writeBlocks m fuel buf count ppos ebnum blockoffset kbuf) := by
  refine .ite (.bind (.call _) fun data => ?_) ?_
  · cases data with
    | none => exact agrees_freeFail m EFAULT ppos
    | some data => exact agrees_eraseAction m ppos ebnum _
  · refine .bind (agrees_readBlock m ebnum kbuf) fun block => ?_
    cases block with
    | none => exact agrees_freeFail m EFAULT ppos
    | some kbuf =>
        refine .loadMtd (.ite (.bind (.call _) fun data => ?_) (.ite ?_ ?_))
        · cases data with
          | none => exact agrees_freeFail m EFAULT ppos
          | some data => exact agrees_eraseAction m ppos ebnum _
        · exact agrees_writeJump m fuel buf count ppos ebnum blockoffset kbuf
        · exact agrees_freeFail m EFAULT ppos

theorem agrees_writeCount (fuel buf count : Nat) (ppos : Int) :
    Agrees m (Client.writeCount fuel buf count ppos) (writeCount m fuel buf count ppos) := by
  refine .ite (.pure _) (.bind (agrees_skipBadBlocks m fuel ppos) fun skip => ?_)
  cases skip with
  | spinning => exact .pure _
  | noBlock ppos => exact agrees_fail m EFAULT ppos
  | endOfFile ppos => exact agrees_fail m EFAULT ppos
  | good ppos ebnum blockoffset =>
      refine .loadMtd (.bind (.call _) fun kbuf => ?_)
      cases kbuf with
      | none => exact agrees_fail m ENOMEM ppos
      | some kbuf => exact agrees_writeBlocks m fuel buf count ppos ebnum blockoffset kbuf

theorem agrees_at91flashWrite (fuel buf count : Nat) (ppos : Int) :
    Agrees m (Client.at91flashWrite fuel buf count ppos)
      (at91flashWrite m fuel buf count ppos) := by
  refine .loadMtd (.ite (agrees_writeCount m fuel buf _ ppos) (.ite ?_ ?_))
  · exact agrees_fail m EFAULT ppos
  · exact agrees_writeCount m fuel buf count ppos

/-! ### ioctl and the calls on an open file -/

theorem agrees_ioctlReturn (karg : FlashData) (fPos : Int) :
    Agrees m (Client.ioctlReturn karg fPos) (ioctlReturn karg fPos) :=
  .bind (.call _) fun _ => .ite (.pure _) (agrees_fail m EFAULT fPos)

/-- The transfer of an ioctl, and its tail. -/
theorem Agrees.transfer {c : Client (Option Ret)} {d : Driver (Option Ret)} (karg : FlashData)
    (h : Agrees m c d) :
    Agrees m
      (do match ← c with
          | none => Pure.pure none
          | some r => Client.ioctlReturn karg r.ppos)
      (do match ← d with
          | none => Pure.pure none
          | some r => ioctlReturn karg r.ppos) := by
  refine h.bind fun transferred => ?_
  cases transferred with
  | none => exact .pure _
  | some r => exact agrees_ioctlReturn m karg r.ppos

theorem agrees_at91flashIoctl (fuel cmd : Nat) (fPos : Int) :
    Agrees m (Client.at91flashIoctl fuel cmd fPos) (at91flashIoctl m fuel cmd fPos) := by
  refine .bind (.call _) fun karg => ?_
  cases karg with
  | none => exact agrees_fail m EFAULT fPos
  | some karg =>
      dsimp only
      generalize iocNr cmd = nr
      have hseek := agrees_at91flashLseek m fPos karg.offset.toInt 0
      rcases nr with _ | _ | _ | nr
      · exact .pure _
      · exact hseek.bind_pure (.transfer m karg (agrees_at91flashRead m fuel karg.pbuf _ _))
      · exact hseek.bind_pure (.transfer m karg (agrees_at91flashWrite m fuel karg.pbuf _ _))
      · exact .pure _

/-- A call that finds the globals of a usable driver is the call on its device. -/
theorem agrees_body (fuel : Nat) (fPos : Int) (c : Call) :
    Agrees m (Client.body fuel fPos c) (c.body m fuel fPos) := by
  cases c with
  | lseek offset orig =>
      exact (agrees_at91flashLseek m fPos offset orig).bind_pure (.pure _)
  | read buf count => exact agrees_at91flashRead m fuel buf count fPos
  | write buf count => exact agrees_at91flashWrite m fuel buf count fPos
  | ioctl cmd => exact agrees_at91flashIoctl m fuel cmd fPos

end Loaded

end At91Drivers.Flash
