import At91Drivers.Flash.Frame
import Mathlib.Data.Set.Lattice
import Mathlib.Order.CompletePartialOrder

/-!
# Where the data of a write goes

The bytes into which a call stores its user data are the bytes of the flash
that follow the data whatever it is.  They are the first bytes of the
good-block stream at the position of the call.  A transfer skips bad blocks
forward from a physical position, so two calls at disjoint offsets use
disjoint bytes only when the first one finds enough good bytes before the
second one starts.
-/

namespace At91Drivers.Flash

open Effects Arith

/-- A call of `at91flash_write` by some caller. -/
structure WriteCall where
  caller : Caller
  buf : Nat
  count : Nat
  ppos : Nat

namespace WriteCall

variable (m : Mtd) (bad : Nat → Bool) (fuel : Nat) (c : WriteCall) (flash : Nat → Byte)

def run : Option Ret × World :=
  (at91flashWrite m fuel c.buf c.count c.ppos).run (device m bad) ⟨c.caller, flash⟩

/-- The call returns, and not with an error. -/
def Succeeds : Prop := ∃ r, (c.run m bad fuel flash).1 = some r ∧ 0 ≤ r.ret

def flashAfter : Nat → Byte := (c.run m bad fuel flash).2.flash

/-- The same call with other user data. -/
def withData (data : Nat → Byte) : WriteCall :=
  { c with caller := { c.caller with user := data } }

/-- The bytes of the flash that hold a byte of the user data afterwards,
whatever the data is. -/
def stores : Set Nat :=
  { a | ∃ i < c.count, ∀ data : Nat → Byte,
    (c.withData data).flashAfter m bad fuel flash a = data (c.buf + i) }

/-- A call for at most one block inside a device that does not fault. -/
structure Ok (m : Mtd) (c : WriteCall) : Prop where
  pos : 0 < c.count
  block : c.count ≤ m.erasesize
  inside : c.ppos + c.count ≤ m.size
  faultFree : c.caller.FaultFree

end WriteCall

variable {m : Mtd} {bad : Nat → Bool} {fuel : Nat} {c : WriteCall} {flash : Nat → Byte}

/-! ## The placement -/

section Placement

variable (hsize : m.size < 4294967296) (hfuel : m.blocks < fuel)

include hsize hfuel

/-- Success does not depend on the data or on the contents of the flash. -/
theorem WriteCall.done_of_succeeds (hc : c.Ok m) (hsucc : c.Succeeds m bad fuel flash)
    (data flash' : Nat → Byte) :
    ∃ r w', (c.withData data).run m bad fuel flash' = (some r, w') ∧
      WriteDone m bad ⟨(c.withData data).caller, flash'⟩ c.buf c.count c.ppos r w'.flash := by
  obtain ⟨r₀, hrun₀, hret₀⟩ := hsucc
  obtain ⟨r₁, w₁, hrun₁, hcase₁⟩ := write_cases (w := ⟨c.caller, flash⟩) bad
    c.buf hsize hc.faultFree hc.pos hc.block hc.inside hfuel
  have hcompletes : Completes m bad ⟨c.caller, flash⟩ c.count c.ppos := by
    rcases hcase₁ with ⟨hneg, -⟩ | ⟨h, -⟩
    · rw [WriteCall.run, hrun₁] at hrun₀
      obtain rfl := Option.some.inj hrun₀
      omega
    · exact h
  obtain ⟨r, w', hrun, hcase⟩ := write_cases (w := ⟨(c.withData data).caller, flash'⟩)
    bad c.buf hsize ⟨hc.faultFree.reads, hc.faultFree.erases,
      hc.faultFree.writes⟩ hc.pos hc.block hc.inside hfuel
  rcases hcase with ⟨-, hnot⟩ | ⟨-, hdone⟩
  · exact absurd hcompletes hnot
  · exact ⟨r, w', hrun, hdone⟩

theorem WriteCall.flashAfter_done (hc : c.Ok m) (hsucc : c.Succeeds m bad fuel flash)
    (data flash' : Nat → Byte) :
    ∃ r, WriteDone m bad ⟨(c.withData data).caller, flash'⟩ c.buf c.count c.ppos r
      ((c.withData data).flashAfter m bad fuel flash') := by
  obtain ⟨r, w', hrun, hdone⟩ := c.done_of_succeeds hsize hfuel hc hsucc data flash'
  refine ⟨r, ?_⟩
  rw [WriteCall.flashAfter, hrun]
  exact hdone

/-- A call that succeeds stores its data in the first bytes of the stream at
its position. -/
theorem WriteCall.stores_eq (hc : c.Ok m) (hsucc : c.Succeeds m bad fuel flash)
    (flash' : Nat → Byte) :
    c.stores m bad fuel flash' = { a | a ∈ (m.stream bad c.ppos).take c.count } := by
  ext a
  constructor
  · rintro ⟨i, -, hi⟩
    by_contra ha
    obtain ⟨r₀, h₀⟩ := c.flashAfter_done hsize hfuel hc hsucc (fun _ => 0) flash'
    obtain ⟨r₁, h₁⟩ := c.flashAfter_done hsize hfuel hc hsucc (fun _ => 1) flash'
    have hsame := h₀.outside_eq h₁ hc.block rfl rfl ha
    rw [hi, hi] at hsame
    exact absurd hsame (by decide)
  · intro ha
    obtain ⟨i, hi, rfl⟩ := List.mem_iff_getElem.mp ha
    have hlt : i < c.count := by
      rw [List.length_take] at hi
      omega
    refine ⟨i, hlt, fun data => ?_⟩
    obtain ⟨r, h⟩ := c.flashAfter_done hsize hfuel hc hsucc data flash'
    have hstored := congrArg (fun l : List Byte => l[i]?) (h.stored hc.block)
    simp only [List.getElem?_map, List.getElem?_eq_getElem hi, List.getElem?_range hlt,
      Option.map_some, Option.some.injEq] at hstored
    exact hstored

/-- A call that succeeds leaves the bytes outside its stream bytes alone, when
it is not at byte 0. -/
theorem WriteCall.frame (hc : c.Ok m) (hsucc : c.Succeeds m bad fuel flash)
    (hzero : ¬ WriteDone.AtZero bad c.ppos) (flash' : Nat → Byte) {a : Nat}
    (ha : a ∉ (m.stream bad c.ppos).take c.count) :
    c.flashAfter m bad fuel flash' a = flash' a := by
  obtain ⟨r, h⟩ := c.flashAfter_done hsize hfuel hc hsucc c.caller.user flash'
  exact h.frame hc.block hzero ha

theorem WriteCall.stream_ne_nil (hc : c.Ok m) (hsucc : c.Succeeds m bad fuel flash) :
    m.stream bad c.ppos ≠ [] := by
  obtain ⟨r, h⟩ := c.flashAfter_done hsize hfuel hc hsucc c.caller.user flash
  have henough := h.enough hc.block
  exact List.ne_nil_of_length_pos (hc.pos.trans_le henough)

/-- Two calls at disjoint offsets, the first one lower, store their data in
disjoint bytes exactly when the bytes before the second offset hold enough good
ones for the first.  Then neither overwrites the data of the other, whichever
comes second, except that one at byte 0 rewrites all of block 0. -/
theorem stores_disjoint_iff {a b : WriteCall} {flashA flashB : Nat → Byte} (hA : a.Ok m)
    (hB : b.Ok m) (hab : a.ppos + a.count ≤ b.ppos) (hsA : a.Succeeds m bad fuel flashA)
    (hsB : b.Succeeds m bad fuel flashB) :
    (Disjoint (a.stores m bad fuel flashA) (b.stores m bad fuel flashB) ↔
        a.count ≤ (addrs (fun x => !bad (x / m.erasesize)) a.ppos b.ppos).length) ∧
      (a.count ≤ (addrs (fun x => !bad (x / m.erasesize)) a.ppos b.ppos).length →
        (∀ f, ∀ x ∈ a.stores m bad fuel flashA, b.flashAfter m bad fuel f x = f x) ∧
          (¬ WriteDone.AtZero bad a.ppos →
            ∀ f, ∀ x ∈ b.stores m bad fuel flashB, a.flashAfter m bad fuel f x = f x)) := by
  have hdisj : List.Disjoint ((m.stream bad a.ppos).take a.count)
      ((m.stream bad b.ppos).take b.count) ↔
        a.count ≤ (addrs (fun x => !bad (x / m.erasesize)) a.ppos b.ppos).length :=
    disjoint_take_addrs_iff (by omega) hB.pos (b.stream_ne_nil hsize hfuel hB hsB)
  rw [a.stores_eq hsize hfuel hA hsA flashA, b.stores_eq hsize hfuel hB hsB flashB]
  refine ⟨?_, fun henough => ⟨fun f x hx => ?_, fun hzero f x hx => ?_⟩⟩
  · rw [← hdisj, Set.disjoint_left, List.disjoint_left]
    rfl
  · have hpos : b.ppos ≠ 0 := by
      have := hA.pos
      omega
    exact b.frame hsize hfuel hB hsB (fun h => hpos h.1) f (List.disjoint_left.mp
      (hdisj.mpr henough) hx)
  · exact a.frame hsize hfuel hA hsA hzero f (List.disjoint_right.mp (hdisj.mpr henough) hx)

end Placement

/-- A call for one byte. -/
def byteAt (ppos : Nat) : WriteCall :=
  ⟨(quiet (fun _ => 1) (fun _ => 0) (fun _ => 9)).toCaller, 0, 1, ppos⟩

theorem byteAt_ok {ppos : Nat} (h : ppos < 16) : (byteAt ppos).Ok fourBlocks :=
  ⟨Nat.one_pos, (by decide : 1 ≤ 4), h, quiet_faultFree _ (fun _ => 0) _⟩

/-- With block 1 bad, a byte at 5, which goes to 8, and one at 9. -/
theorem stores_disjoint_at_five :
    (Disjoint ((byteAt 5).stores fourBlocks (· == 1) 5 fun _ => 7)
          ((byteAt 9).stores fourBlocks (· == 1) 5 fun _ => 7) ↔
        1 ≤ (addrs (fun x => !(x / 4 == 1)) 5 9).length) ∧
      (1 ≤ (addrs (fun x => !(x / 4 == 1)) 5 9).length →
        (∀ f, ∀ x ∈ (byteAt 5).stores fourBlocks (· == 1) 5 fun _ => 7,
            (byteAt 9).flashAfter fourBlocks (· == 1) 5 f x = f x) ∧
          (¬ WriteDone.AtZero (· == 1) 5 →
            ∀ f, ∀ x ∈ (byteAt 9).stores fourBlocks (· == 1) 5 fun _ => 7,
              (byteAt 5).flashAfter fourBlocks (· == 1) 5 f x = f x)) :=
  stores_disjoint_iff (by decide) (by decide) (byteAt_ok (by decide)) (byteAt_ok (by decide))
    (by decide) ⟨⟨4, 12⟩, by decide +kernel, by decide⟩ ⟨⟨4, 13⟩, by decide +kernel, by decide⟩

/-- With block 0 bad, a byte at 0 and one at 4 go to the same byte. -/
theorem stores_not_disjoint :
    ¬ ∀ (m : Mtd) (bad : Nat → Bool) (fuel : Nat) (a b : WriteCall) (flashA flashB : Nat → Byte),
      m.size < 4294967296 → m.blocks < fuel → a.Ok m → b.Ok m →
      (a.ppos + a.count ≤ b.ppos ∨ b.ppos + b.count ≤ a.ppos) →
      a.Succeeds m bad fuel flashA → b.Succeeds m bad fuel flashB →
      Disjoint (a.stores m bad fuel flashA) (b.stores m bad fuel flashB) := by
  intro h
  have hsuccess (ppos : Nat) (hrun : ((byteAt ppos).run fourBlocks (· == 0) 5 fun _ => 7).1 =
      some ⟨4, 8⟩) : (byteAt ppos).Succeeds fourBlocks (· == 0) 5 fun _ => 7 :=
    ⟨⟨4, 8⟩, hrun, by decide⟩
  have h₀ := hsuccess 0 (by decide +kernel)
  have h₄ := hsuccess 4 (by decide +kernel)
  have hdisj := h fourBlocks (· == 0) 5 (byteAt 0) (byteAt 4) (fun _ => 7) (fun _ => 7)
    (by decide) (by decide) (byteAt_ok (by decide)) (byteAt_ok (by decide)) (.inl (by decide))
    h₀ h₄
  rw [WriteCall.stores_eq (by decide) (by decide) (byteAt_ok (by decide)) h₀ _,
    WriteCall.stores_eq (by decide) (by decide) (byteAt_ok (by decide)) h₄ _,
    Set.disjoint_left] at hdisj
  have h₀' : 4 ∈ (fourBlocks.stream (· == 0) 0).take 1 := by decide +kernel
  have h₄' : 4 ∈ (fourBlocks.stream (· == 0) 4).take 1 := by decide +kernel
  exact hdisj h₀' h₄'

end At91Drivers.Flash
