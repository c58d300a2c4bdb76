import At91Drivers.Effects.Custody
import At91Drivers.Flash.Processes

/-!
# The kernel buffers of the processes

A read or a write takes one buffer with `kmalloc`, and has a `kfree` on each of
its ways out.  The parts after the `kmalloc` are taken one by one (`Empties`): with
the buffer in hand they use it, and where they return it is freed.

So over any number of processes, whatever fails: no buffer is freed twice, used
before it is taken or after it is freed, or left behind by a call that returned.
-/

namespace At91Drivers.Flash

open Effects

/-! ## The roles of the operations -/

def Op.IsKmalloc : Op → Prop
  | .kmalloc _ => True
  | _ => False

def Op.isKfree : Op → Bool
  | .kfree => true
  | _ => false

/-- The copies and the transfers, all of them from or into the buffer. -/
def Op.UsesBuffer : Op → Prop
  | .copyFromUser _ _ _ | .copyToUser _ _ _ | .mtdRead _ _ | .mtdWrite _ _ _ => True
  | _ => False

/-- A `kmalloc` that succeeded. -/
def tookBuffer : Event Op Reply → Bool
  | ⟨.kmalloc _, buffer⟩ => buffer.isSome
  | _ => false

def kernelBuffer : Roles Op Reply where
  tries := Op.IsKmalloc
  takes := tookBuffer
  gives := Op.isKfree
  uses := Op.UsesBuffer
  tries_of_takes := by
    rintro ⟨e, r⟩ h
    cases e <;> trivial

/-- Neither a `kmalloc` nor a `kfree`. -/
def Op.Plain (e : Op) : Prop := kernelBuffer.Still e

theorem plain_of {e : Op} (htries : ¬ e.IsKmalloc) (hgives : e.isKfree = false) : e.Plain :=
  ⟨htries, hgives⟩

/-! ## Parts that leave the buffer alone -/

theorem skipBadBlocks_asks (P : Op → Prop) (hprobe : ∀ addr, P (.blockIsbad addr))
    (hstore : ∀ b v, P (.bbtStore b v)) (m : Mtd) (fuel : Nat) (ppos : Int) :
    (skipBadBlocks m fuel ppos).Asks P := by
  induction fuel generalizing ppos with
  | zero => trivial
  | succ fuel ih =>
      unfold skipBadBlocks
      split
      · trivial
      · refine ⟨hprobe _, fun ret => ⟨hstore _ _, fun _ => ?_⟩⟩
        change (if _ then _ else _ : Driver Skip).Asks P
        split
        · split
          · trivial
          · exact ih _
        · trivial

theorem skipBadBlocks_bare (m : Mtd) (fuel : Nat) (ppos : Int) :
    (skipBadBlocks m fuel ppos).Asks fun e => e.Plain ∧ ¬ e.UsesBuffer :=
  skipBadBlocks_asks _ (fun _ => ⟨plain_of id rfl, id⟩) (fun _ _ => ⟨plain_of id rfl, id⟩) m fuel
    ppos

theorem skipBadBlocks_plain (m : Mtd) (fuel : Nat) (ppos : Int) :
    (skipBadBlocks m fuel ppos).Asks Op.Plain :=
  (skipBadBlocks_bare m fuel ppos).mono fun _ h => h.1

theorem readBlock_plain (m : Mtd) (b : Int) (kbuf : Nat → Byte) :
    (readBlock m b kbuf).Asks Op.Plain := by
  refine ⟨plain_of id rfl, fun r => ?_⟩
  change (if _ then _ else _ : Driver (Option (Nat → Byte))).Asks _
  split <;> trivial

theorem commit_plain (m : Mtd) (b : Int) (kbuf : Nat → Byte) :
    (commit m b kbuf).Asks Op.Plain := by
  refine Prog.Asks.bind ⟨plain_of id rfl, fun ei => ?_⟩ fun err => ?_
  · change (if _ then _ else _ : Driver Int).Asks _
    split
    · trivial
    · split <;> trivial
  · split
    · trivial
    · exact ⟨plain_of id rfl, fun _ => trivial⟩

theorem deliver_plain (buf : Nat) (ppos : Int) (readlen : Nat) (readbuf : Nat → Byte) :
    (deliver buf ppos readlen readbuf).Asks Op.Plain := by
  unfold deliver
  split
  · exact ⟨plain_of id rfl, fun _ => trivial⟩
  · trivial

theorem ask_plain {e : Op} (he : e.Plain) : (ask e).Asks Op.Plain := ⟨he, fun _ => trivial⟩

/-! ## Parts that free the buffer -/

/-- The program, run with a buffer in hand, returns without one. -/
def Empties (p : Driver (Option Ret)) : Prop :=
  ∀ past : History, kernelBuffer.holds past = true →
    p.Meets (fun _ _ => True) kernelBuffer.Ask
      (fun past r => r.isSome = true → kernelBuffer.holds past = false) past

theorem empties_bind {β : Type} {p : Driver β} {f : β → Driver (Option Ret)}
    (hp : p.Asks Op.Plain) (hf : ∀ b, Empties (f b)) : Empties (p >>= f) := by
  intro past hpast
  have hstill : p.Asks fun e =>
      kernelBuffer.Still e ∧ (kernelBuffer.uses e → kernelBuffer.holds past = true) :=
    hp.mono fun e he => ⟨he, fun _ => hpast⟩
  rw [Prog.meets_bind]
  refine (Roles.meets_still hstill).mono fun later b hsame => ?_
  exact hf b _ (hsame.trans hpast)

/-- `kfree` and a return. -/
theorem empties_kfree (r : Option Ret) : Empties (do ask .kfree; pure r) := by
  intro past hpast
  have hask : kernelBuffer.Ask past .kfree :=
    ⟨fun htries => absurd htries id, fun _ => hpast, fun huses => absurd huses id⟩
  refine ⟨hask, fun _ _ _ => ?_⟩
  rw [Roles.holds_concat]
  rfl

theorem empties_freeFail (code ppos : Int) : Empties (freeFail code ppos) :=
  empties_kfree (some ⟨-code, ppos⟩)

/-- A loop that does not come to an end keeps the buffer. -/
theorem empties_spinning : Empties (pure none) := fun _ _ h => nomatch h

/-! ## write -/

theorem eraseAction_empties (m : Mtd) (ppos b : Int) (kbuf : Nat → Byte) :
    Empties (eraseAction m ppos b kbuf) := by
  refine empties_bind (commit_plain m b kbuf) fun r => ?_
  cases r with
  | error err => exact empties_freeFail _ _
  | ok r => exact empties_kfree _

variable (m : Mtd) (fuel buf count : Nat)

theorem writeSecond_empties (first : Nat) (ppos : Int) (kbuf : Nat → Byte) :
    Empties (writeSecond m fuel buf count first ppos kbuf) := by
  refine empties_bind (skipBadBlocks_plain m fuel ppos) fun skip => ?_
  cases skip with
  | spinning => exact empties_spinning
  | noBlock ppos => exact empties_freeFail _ _
  | endOfFile ppos => exact empties_freeFail _ _
  | good ppos b o =>
      refine empties_bind (readBlock_plain m b kbuf) fun block => ?_
      cases block with
      | none => exact empties_freeFail _ _
      | some kbuf =>
          refine empties_bind (ask_plain (plain_of id rfl)) fun data => ?_
          cases data with
          | none => exact empties_freeFail _ _
          | some data =>
              refine empties_bind (commit_plain m b _) fun r => ?_
              cases r with
              | error err => exact empties_freeFail _ _
              | ok r => exact empties_kfree _

theorem writeJump_empties (ppos b o : Int) (kbuf : Nat → Byte) :
    Empties (writeJump m fuel buf count ppos b o kbuf) := by
  refine empties_bind (ask_plain (plain_of id rfl)) fun data => ?_
  cases data with
  | none => exact empties_freeFail _ _
  | some data =>
      refine empties_bind (commit_plain m b _) fun r => ?_
      cases r with
      | error err => exact empties_freeFail _ _
      | ok r => exact writeSecond_empties m fuel buf count _ _ _

theorem writeBlocks_empties (ppos b o : Int) (kbuf : Nat → Byte) :
    Empties (writeBlocks m fuel buf count ppos b o kbuf) := by
  unfold writeBlocks
  split
  · -- the first block of the device
    refine empties_bind (ask_plain (plain_of id rfl)) fun data => ?_
    cases data with
    | none => exact empties_freeFail _ _
    | some data => exact eraseAction_empties m _ _ _
  · refine empties_bind (readBlock_plain m b kbuf) fun block => ?_
    cases block with
    | none => exact empties_freeFail _ _
    | some kbuf =>
        dsimp only
        split
        · refine empties_bind (ask_plain (plain_of id rfl)) fun data => ?_
          cases data with
          | none => exact empties_freeFail _ _
          | some data => exact eraseAction_empties m _ _ _
        · split
          · exact writeJump_empties m fuel buf count _ _ _ _
          · exact empties_freeFail _ _

/-! ## read -/

theorem readSecond_empties (ppos : Int) (readlen readtmplen : Nat) :
    Empties (readSecond m fuel buf count ppos readlen readtmplen) := by
  refine empties_bind (skipBadBlocks_plain m fuel ppos) fun skip => ?_
  cases skip with
  | spinning => exact empties_spinning
  | noBlock ppos => exact empties_kfree _
  | endOfFile ppos => exact empties_freeFail _ _
  | good ppos b o =>
      refine empties_bind (ask_plain (plain_of id rfl)) fun r => ?_
      refine empties_bind (deliver_plain _ _ _ _) fun ⟨ok, ppos⟩ => ?_
      cases ok with
      | false => exact empties_freeFail _ _
      | true => exact empties_kfree _

theorem readBlocks_empties (ppos b : Int) : Empties (readBlocks m fuel buf count ppos b) := by
  unfold readBlocks
  split
  · refine empties_bind (ask_plain (plain_of id rfl)) fun r => ?_
    refine empties_bind (deliver_plain _ _ _ _) fun ⟨ok, ppos⟩ => ?_
    cases ok with
    | false => exact empties_freeFail _ _
    | true => exact readSecond_empties m fuel buf count _ _ _
  · split
    · refine empties_bind (ask_plain (plain_of id rfl)) fun r => ?_
      refine empties_bind (deliver_plain _ _ _ _) fun ⟨ok, ppos⟩ => ?_
      cases ok with
      | false => exact empties_freeFail _ _
      | true => exact empties_kfree _
    · exact empties_freeFail _ _

/-! ## Whole calls -/

/-- The program, started without a buffer, takes at most one and returns
without one. -/
def Borrows (p : Driver (Option Ret)) : Prop :=
  ∀ past : History, kernelBuffer.holds past = false →
    p.Meets (fun _ _ => True) kernelBuffer.Ask
      (fun past r => r.isSome = true → kernelBuffer.holds past = false) past

theorem borrows_pure (r : Option Ret) : Borrows (pure r) := fun _ hpast _ => hpast

/-- A part that neither takes nor uses a buffer comes first. -/
theorem borrows_bind {β : Type} {p : Driver β} {f : β → Driver (Option Ret)}
    (hp : p.Asks fun e => e.Plain ∧ ¬ e.UsesBuffer) (hf : ∀ b, Borrows (f b)) :
    Borrows (p >>= f) := by
  intro past hpast
  have hstill : p.Asks fun e =>
      kernelBuffer.Still e ∧ (kernelBuffer.uses e → kernelBuffer.holds past = true) :=
    hp.mono fun e he => ⟨he.1, fun h => absurd h he.2⟩
  rw [Prog.meets_bind]
  refine (Roles.meets_still hstill).mono fun later b hsame => ?_
  exact hf b _ (hsame.trans hpast)

/-- The `kmalloc` of a call: with the buffer it goes on, without it it ends. -/
theorem borrows_kmalloc {size : Nat} {f : Option (Nat → Byte) → Driver (Option Ret)}
    (hnone : Borrows (f none)) (hsome : ∀ kbuf, Empties (f (some kbuf))) :
    Borrows (ask (.kmalloc size) >>= f) := by
  intro past hpast
  have hask : kernelBuffer.Ask past (.kmalloc size) :=
    ⟨fun _ => hpast, fun hgives => absurd hgives Bool.false_ne_true, fun huses => absurd huses id⟩
  refine ⟨hask, fun buffer _ => ?_⟩
  have hholds : kernelBuffer.holds (past ++ [⟨.kmalloc size, buffer⟩]) = buffer.isSome := by
    rw [Roles.holds_concat, hpast]
    exact Bool.false_or _
  cases buffer with
  | none => exact hnone _ hholds
  | some kbuf => exact hsome kbuf _ hholds

theorem writeCount_borrows (ppos : Int) : Borrows (writeCount m fuel buf count ppos) := by
  unfold writeCount
  split
  · exact borrows_pure _
  · refine borrows_bind (skipBadBlocks_bare m fuel ppos) fun skip => ?_
    cases skip with
    | spinning => exact borrows_pure _
    | noBlock ppos => exact borrows_pure _
    | endOfFile ppos => exact borrows_pure _
    | good ppos b o =>
        exact borrows_kmalloc (borrows_pure _)
          fun kbuf => writeBlocks_empties m fuel buf count _ _ _ _

theorem at91flashWrite_borrows (ppos : Int) : Borrows (at91flashWrite m fuel buf count ppos) := by
  unfold at91flashWrite
  split
  · exact writeCount_borrows m fuel buf _ _
  · split
    · exact borrows_pure _
    · exact writeCount_borrows m fuel buf _ _

theorem at91flashRead_borrows (ppos : Int) : Borrows (at91flashRead m fuel buf count ppos) := by
  unfold at91flashRead
  refine borrows_bind (skipBadBlocks_bare m fuel ppos) fun skip => ?_
  cases skip with
  | spinning => exact borrows_pure _
  | noBlock ppos => exact borrows_pure _
  | endOfFile ppos => exact borrows_pure _
  | good ppos b o =>
      dsimp only
      split
      · exact borrows_pure _
      · exact borrows_kmalloc (borrows_pure _) fun _ => readBlocks_empties m fuel buf _ _ _

/-- A transfer inside an ioctl; where its loop does not end, the ioctl does not. -/
theorem borrows_then {p : Driver (Option Ret)} {f : Option Ret → Driver (Option Ret)}
    (hp : Borrows p) (hnone : f none = pure none) (hsome : ∀ r, Borrows (f (some r))) :
    Borrows (p >>= f) := by
  intro past hpast
  rw [Prog.meets_bind]
  refine (hp past hpast).mono fun later r hr => ?_
  cases r with
  | none =>
      rw [hnone]
      exact fun h => nomatch h
  | some r => exact hsome r _ (hr rfl)

theorem ioctlReturn_borrows (karg : FlashData) (fPos : Int) : Borrows (ioctlReturn karg fPos) := by
  refine borrows_bind ⟨⟨plain_of id rfl, id⟩, fun _ => trivial⟩ fun ok => ?_
  cases ok <;> exact borrows_pure _

theorem call_borrows (fPos : Int) (c : Call) : Borrows (c.body m fuel fPos) := by
  cases c with
  | lseek offset orig => exact borrows_pure _
  | read buf count => exact at91flashRead_borrows m fuel buf count fPos
  | write buf count => exact at91flashWrite_borrows m fuel buf count fPos
  | ioctl cmd =>
      refine borrows_bind ⟨⟨plain_of id rfl, id⟩, fun _ => trivial⟩ fun karg => ?_
      cases karg with
      | none => exact borrows_pure _
      | some karg =>
          dsimp only
          split
          · exact borrows_then (at91flashRead_borrows m fuel _ _ _) rfl fun r =>
              ioctlReturn_borrows karg r.ppos
          · exact borrows_then (at91flashWrite_borrows m fuel _ _ _) rfl fun r =>
              ioctlReturn_borrows karg r.ppos
          · exact borrows_pure _

/-! ## Any number of processes -/

variable {ι : Type} [DecidableEq ι] {m} {bad : Nat → Bool}

/-- Who holds how many buffers after these operations. -/
abbrev bufferLedger (log : List (Deed Op Reply ι)) : Ledger ι := kernelBuffer.ledger log

theorem processes_borrow {i : ι} {fPos : Int} {job : Driver (Option Ret)}
    (hoffer : (processes ι m).offers i fPos job) :
    job.Meets (fun _ _ => True) kernelBuffer.Ask ((kernelBuffer.terms (processes ι m)).post i)
      [] := by
  obtain ⟨fuel, c, rfl⟩ := hoffer
  refine (call_borrows m fuel fPos c [] rfl).mono fun later r hr => ?_
  rintro fPos' ⟨r', rfl, -⟩
  exact hr rfl

/-- In every run of any number of processes, whatever fails: no buffer is freed
that is not held, nobody holds two, a process between its calls holds none, and
every copy, transfer and `kfree` of a call is made with a buffer in hand. -/
theorem buffers_balanced {s : Machine ι} {c : Crowd Op Reply (Option Ret) Int ι (Machine ι)}
    (hc : Reached m bad s c) :
    (bufferLedger c.log).stray = 0 ∧
      (∀ i, (bufferLedger c.log).held.count i ≤ 1) ∧
      (∀ i fPos, c.party i = .idle fPos → i ∉ (bufferLedger c.log).held) ∧
      ∀ before deed after, c.log = before ++ deed :: after →
        deed.event.1.UsesBuffer ∨ deed.event.1 = .kfree →
        deed.party ∈ (bufferLedger before).held := by
  have hbalanced : kernelBuffer.Balanced c := Roles.balanced processes_borrow hc
  refine ⟨hbalanced.stray, fun i => ?_, fun i fPos hidle => ?_,
    fun before deed after hlog huses => ?_⟩
  · rw [hbalanced.count]
    split
    · exact le_rfl
    · exact Nat.zero_le 1
  · have hcount := hbalanced.count i
    rw [hidle, Party.past_idle, Roles.holds_nil] at hcount
    exact Multiset.count_eq_zero.mp hcount
  · refine Roles.mem_held processes_borrow hc hlog (huses.imp id fun hkfree => ?_)
    rw [hkfree]
    rfl

theorem buffers_balanced_at_three :
    ∃ c, Reached fourBlocks secondBad sevens c ∧ c.log.length = 18 ∧
      (bufferLedger c.log).stray = 0 ∧ 2 ∉ (bufferLedger c.log).held := by
  obtain ⟨c, hc, hidle, -, -, hlog⟩ := exists_writeAtThree
  obtain ⟨hstray, -, hidles, -⟩ := buffers_balanced hc
  refine ⟨c, hc, ?_, hstray, hidles 2 11 hidle⟩
  rw [← List.length_map, hlog]
  decide +kernel

end At91Drivers.Flash
