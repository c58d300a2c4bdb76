import At91Drivers.Flash.Frame
import At91Drivers.Flash.ReadRun

/-!
# Reading back what was written, and reading on

Writer and reader skip bad blocks and cross block ends on their own, but both
transfer the first bytes of the good-block stream, so a read at the position of
a write gives the data back.  A read leaves a position whose stream is the rest
of the stream, so reads that share a position deliver it piece by piece.
-/

namespace At91Drivers.Flash

open Effects Arith

variable {m : Mtd} {bad : Nat → Bool} {fuel : Nat}

/-! ## Read after write -/

/-- A read of `n` bytes at the position of a write of `n` bytes fills the
reader's buffer with the writer's data. -/
theorem read_after_write {w : World} {reader : Caller} {buf out n p : Nat}
    (hsize : m.size < 4294967296) (hw : w.FaultFree) (huser : w.UserOk)
    (hreader : reader.FaultFree) (hreaderUser : reader.UserOk) (hn : 0 < n)
    (hes : n ≤ m.erasesize) (hk : n ≤ maxKmallocSize) (hlen : n ≤ (m.stream bad p).length)
    (hfuel : m.blocks < fuel) :
    ∃ r₁ w₁ r₂ w₂, (at91flashWrite m fuel buf n p).run (device m bad) w = (some r₁, w₁) ∧
      (at91flashRead m fuel out n p).run (device m bad) ⟨reader, w₁.flash⟩ = (some r₂, w₂) ∧
      (List.range n).map (fun i => w₂.user (out + i)) =
        (List.range n).map fun i => w.user (buf + i) := by
  obtain ⟨r₁, w₁, hwrite, hdone⟩ :=
    writeDone_of_enough buf hsize hw huser hn hes hlen hfuel
  obtain ⟨r₂, w₂, hread, hread'⟩ :=
    read_enough (w := ⟨reader, w₁.flash⟩) bad out hsize hreader hreaderUser hn hes hk hlen
      hfuel
  refine ⟨r₁, w₁, r₂, w₂, hwrite, hread, ?_⟩
  calc (List.range n).map (fun i => w₂.user (out + i))
      = ((m.stream bad p).take n).map w₁.flash := hread'.stored
    _ = (List.range n).map fun i => w.user (buf + i) := hdone.stored hes

/-- Three bytes written at 6, across the bad block 2, come back. -/
theorem read_after_write_at_six :
    ∃ r₁ w₁ r₂ w₂,
      (at91flashWrite fourBlocks 5 0 3 (6 : Nat)).run (device fourBlocks (· == 2))
        (quiet (fun i => UInt8.ofNat i) (fun _ => 7) (fun _ => 9)) = (some r₁, w₁) ∧
      (at91flashRead fourBlocks 5 20 3 (6 : Nat)).run (device fourBlocks (· == 2))
        ⟨(quiet (fun _ => 0) (fun _ => 0) (fun _ => 5)).toCaller, w₁.flash⟩ = (some r₂, w₂) ∧
      (List.range 3).map (fun i => w₂.user (20 + i)) =
        (List.range 3).map fun i => UInt8.ofNat (0 + i) :=
  read_after_write (by decide) (quiet_faultFree _ _ _) (quiet_userOk _ _ _)
    (quiet_faultFree _ (fun _ => 0) _) (quiet_userOk _ (fun _ => 0) _) (by decide) (by decide)
    (by decide) (by decide +kernel) (by decide)

/-! ## Reads that share a position -/

/-- A read of `count` bytes to `buf` by some caller. -/
structure ReadCall where
  caller : Caller
  buf : Nat
  count : Nat

namespace ReadCall

/-- The part of the user memory the call is to fill, in the world it leaves. -/
def output (c : ReadCall) (w : World) : List Byte :=
  (List.range c.count).map fun i => w.user (c.buf + i)

/-- A call of at most one block and one allocation, without failures. -/
structure Ok (m : Mtd) (c : ReadCall) : Prop where
  pos : 0 < c.count
  block : c.count ≤ m.erasesize
  alloc : c.count ≤ maxKmallocSize
  faultFree : c.caller.FaultFree
  userOk : c.caller.UserOk

/-- The call stored nothing outside its buffer. -/
def Framed (c : ReadCall) (w : World) : Prop :=
  ∀ a, ¬ (c.buf ≤ a ∧ a < c.buf + c.count) → w.user a = c.caller.user a

end ReadCall

/-- The calls one after the other, each from the position the last one left:
the worlds they leave, and the last position. -/
def readCalls (m : Mtd) (bad : Nat → Bool) (fuel : Nat) :
    List ReadCall → (Nat → Byte) → Int → Option (List World × Int)
  | [], _, ppos => some ([], ppos)
  | c :: rest, flash, ppos =>
      match (at91flashRead m fuel c.buf c.count ppos).run (device m bad) ⟨c.caller, flash⟩ with
      | (none, _) => none
      | (some r, w) =>
          (readCalls m bad fuel rest w.flash r.ppos).map fun ws => (w :: ws.1, ws.2)

/-- The outputs of reads that share a position are the good-block stream from
the first position on, whatever their counts are, and the last position is the
start of the rest of it. -/
theorem sequential_reads (hsize : m.size < 4294967296) (hfuel : m.blocks < fuel)
    {calls : List ReadCall} (hcalls : ∀ c ∈ calls, c.Ok m) {flash : Nat → Byte} {p : Nat}
    (hlen : (calls.map (·.count)).sum ≤ (m.stream bad p).length) :
    ∃ worlds, ∃ q : Nat, readCalls m bad fuel calls flash p = some (worlds, (q : Int)) ∧
      List.Forall₂ ReadCall.Framed calls worlds ∧
      (List.zipWith ReadCall.output calls worlds).flatten =
        ((m.stream bad p).take (calls.map (·.count)).sum).map flash ∧
      m.stream bad q = (m.stream bad p).drop (calls.map (·.count)).sum := by
  induction calls generalizing p with
  | nil => exact ⟨[], p, rfl, .nil, by simp, by simp⟩
  | cons c rest ih =>
      obtain ⟨hc, hrest⟩ := List.forall_mem_cons.mp hcalls
      rw [List.map_cons, List.sum_cons] at hlen ⊢
      obtain ⟨r, w, hrun, hdone⟩ :=
        read_enough (w := ⟨c.caller, flash⟩) (p := p) bad c.buf hsize
          hc.faultFree hc.userOk hc.pos hc.block hc.alloc (by omega) hfuel
      obtain ⟨q, hq, -, hstream⟩ := hdone.position
      have hleft : (rest.map (·.count)).sum ≤ (m.stream bad q).length := by
        rw [hstream, List.length_drop]
        omega
      obtain ⟨worlds, q', hruns, hframed, houtput, hend⟩ := ih hrest hleft
      refine ⟨w :: worlds, q', ?_, .cons hdone.frame hframed, ?_, ?_⟩
      · unfold readCalls
        rw [hrun]
        dsimp only
        rw [hdone.flash_eq, hq, hruns]
        rfl
      · rw [List.zipWith_cons_cons, List.flatten_cons, houtput, hstream, List.take_add,
          List.map_append]
        exact congrArg (· ++ _) hdone.stored
      · rw [hend, hstream, List.drop_drop]

/-- Two reads, of three bytes and of two, from 6 on across the bad block 2. -/
theorem sequential_reads_at_six :
    ∃ worlds, ∃ q : Nat,
      readCalls fourBlocks (· == 2) 5
        [⟨(quiet (fun _ => 0) (fun _ => 0) (fun _ => 5)).toCaller, 20, 3⟩,
          ⟨(quiet (fun _ => 0) (fun _ => 0) (fun _ => 5)).toCaller, 30, 2⟩]
        (fun a => UInt8.ofNat a) (6 : Nat) = some (worlds, (q : Int)) ∧
      List.Forall₂ ReadCall.Framed
        [⟨(quiet (fun _ => 0) (fun _ => 0) (fun _ => 5)).toCaller, 20, 3⟩,
          ⟨(quiet (fun _ => 0) (fun _ => 0) (fun _ => 5)).toCaller, 30, 2⟩] worlds ∧
      (List.zipWith ReadCall.output
        [⟨(quiet (fun _ => 0) (fun _ => 0) (fun _ => 5)).toCaller, 20, 3⟩,
          ⟨(quiet (fun _ => 0) (fun _ => 0) (fun _ => 5)).toCaller, 30, 2⟩] worlds).flatten =
        ((fourBlocks.stream (· == 2) 6).take 5).map (fun a => UInt8.ofNat a) ∧
      fourBlocks.stream (· == 2) q = (fourBlocks.stream (· == 2) 6).drop 5 := by
  refine sequential_reads (by decide) (by decide) ?_ (by decide +kernel)
  simp only [List.forall_mem_cons, List.not_mem_nil, false_imp_iff, implies_true, and_true]
  exact ⟨⟨by decide, by decide, by decide, quiet_faultFree _ (fun _ => 0) _,
      quiet_userOk _ (fun _ => 0) _⟩,
    ⟨by decide, by decide, by decide, quiet_faultFree _ (fun _ => 0) _,
      quiet_userOk _ (fun _ => 0) _⟩⟩

end At91Drivers.Flash
