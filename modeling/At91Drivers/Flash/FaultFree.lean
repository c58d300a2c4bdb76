import At91Drivers.Flash.Stages

/-!
# The fault-free device

On a device without faults every operation inside the device does its whole
effect, and an operation leaves the device without faults.  Rewriting a block
with its own bytes changed on a part then changes only that part.
-/

namespace At91Drivers.Flash

open Effects Arith

variable {m : Mtd} {bad : Nat → Bool} {w : World}

/-! ## Faults do not appear -/

theorem faultFree_device (e : Op) (w : World) (hw : w.FaultFree) :
    (device m bad e w).2.FaultFree := by
  cases e <;> exact ⟨fun _ => hw.reads _, fun _ => hw.erases _, fun _ => hw.writes _⟩

theorem userOk_device (e : Op) (w : World) (hw : w.UserOk) : (device m bad e w).2.UserOk := by
  cases e <;> exact ⟨fun _ => hw.heap _, fun _ => hw.copies _⟩

theorem Caller.FaultFree.run {α : Type} (hw : w.FaultFree) (p : Driver α) :
    (p.run (device m bad) w).2.FaultFree :=
  Prog.run_preserves (I := fun w : World => w.FaultFree) _ faultFree_device p hw

theorem Caller.UserOk.run {α : Type} (hw : w.UserOk) (p : Driver α) :
    (p.run (device m bad) w).2.UserOk :=
  Prog.run_preserves (I := fun w : World => w.UserOk) _ userOk_device p hw

theorem Caller.UserOk.copyOk (hw : w.UserOk) (len : Nat) : w.CopyOk len := by
  simp [World.CopyOk, hw.copies, copied]

theorem Caller.UserOk.heap_eq (hw : w.UserOk) : ∃ kbuf, w.heap 0 = some kbuf :=
  Option.isSome_iff_exists.mp (hw.heap 0)

/-! ## Operations on one block -/

section Block

variable (hw : w.FaultFree) {b : Int} (hin : m.InDevice (m.ebAddr b) m.erasesize)

include hw hin

theorem blockRead_eq :
    w.blockRead m b = ⟨0, m.erasesize, slice w.flash (m.ebAddr b) m.erasesize fun _ => 0⟩ := by
  rw [World.blockRead, hw.reads, readReply, if_pos hin]

theorem blockRead_ok : (w.blockRead m b).Ok m.erasesize := by
  rw [blockRead_eq hw hin]
  exact ⟨.inl rfl, rfl⟩

theorem blockErase_ok : (w.blockErase m b).Ok := by
  rw [World.blockErase, hw.erases, eraseReply, if_pos hin]
  exact ⟨rfl, rfl⟩

theorem blockProgram_eq : w.blockProgram m b = ⟨0, m.erasesize⟩ := by
  rw [World.blockProgram, hw.writes, writeReply, if_pos hin]

/-- An erase and a program of a block store the buffer in the block. -/
theorem flash_commit (kbuf : Nat → Byte) :
    ((w.afterErase m b).afterProgram m b kbuf).flash =
      splice w.flash (m.ebAddr b) m.erasesize kbuf := by
  change writeFlash m (eraseFlash m w.flash _ _ (w.erases 0)) _ _ _ (w.writes 0) = _
  rw [hw.erases, hw.writes, eraseFlash, writeFlash, if_pos hin, if_pos hin, splice_splice_self]

/-- Rewriting a block with what was read from it, changed on a part. -/
theorem flash_rewrite (kbuf src : Nat → Byte) {o n : Nat} (h : o + n ≤ m.erasesize) :
    splice w.flash (m.ebAddr b) m.erasesize
        (splice (splice kbuf 0 m.erasesize (w.blockRead m b).data) o n src) =
      splice w.flash (m.ebAddr b + o) n src := by
  refine splice_block src h fun i hi => ?_
  rw [splice_of_mem (Nat.zero_le i) (by omega), blockRead_eq hw hin, Nat.sub_zero]
  exact if_pos hi

end Block

/-! ## Blocks of a device below 4 GiB -/

section Small

variable (hsize : m.size < 4294967296) {x : Nat}

include hsize

theorem ebAddr_of_lt {k : Nat} (hk : k < m.blocks) : m.ebAddr k = k * m.erasesize := by
  have hle : k * m.erasesize ≤ m.extent := Nat.mul_le_mul_right _ hk.le
  have := m.extent_le_size
  exact Mtd.ebAddr_natCast (by omega)

theorem inDevice_of_lt {k : Nat} (hk : k < m.blocks) :
    m.InDevice (m.ebAddr k) m.erasesize := by
  have hle : (k + 1) * m.erasesize ≤ m.extent := Nat.mul_le_mul_right _ hk
  have := m.extent_le_size
  rw [ebAddr_of_lt hsize hk, Mtd.InDevice]
  rw [Nat.add_mul, Nat.one_mul] at hle
  omega

theorem ebAddr_next (hx : x / m.erasesize < m.blocks) :
    m.ebAddr ((x / m.erasesize : Nat) + 1) = m.blockEnd x := by
  have hend := m.blockEnd_le_extent hx
  have := m.extent_le_size
  rw [Mtd.blockEnd] at hend
  exact Mtd.ebAddr_natCast (k := x / m.erasesize + 1) (by omega)

end Small

/-! ## A small device -/

/-- Four blocks of four bytes. -/
def fourBlocks : Mtd := ⟨16, 4, by decide, by decide, by decide, by decide⟩

/-- A world without faults whose `kmalloc`s answer the buffer `kbuf`. -/
def quiet (user flash kbuf : Nat → Byte) : World where
  user := user
  arg := none
  argWritable := true
  heap := fun _ => some kbuf
  copies := fun _ => none
  reads := fun _ => none
  erases := fun _ => none
  writes := fun _ => none
  flash := flash

theorem quiet_faultFree (user flash kbuf : Nat → Byte) : (quiet user flash kbuf).FaultFree :=
  ⟨fun _ => rfl, fun _ => rfl, fun _ => rfl⟩

theorem quiet_userOk (user flash kbuf : Nat → Byte) : (quiet user flash kbuf).UserOk :=
  ⟨fun _ => rfl, fun _ => rfl⟩

end At91Drivers.Flash
