import At91Drivers.Effects.Interleave
import At91Drivers.Flash.Placement

/-!
# Two callers on one flash

Each caller has its own memory and its own outcomes; the flash is common.  An
operation reads and changes the flash in its own range only, so two operations
commute unless they overlap and one of them changes what they share.
-/

namespace At91Drivers.Flash

open Effects Arith

/-! ## Footprints -/

def Op.Reads : Op → Nat → Prop
  | .mtdRead addr len, a => addr ≤ a ∧ a < addr + len
  | _, _ => False

def Op.Changes : Op → Nat → Prop
  | .mtdErase addr len, a => addr ≤ a ∧ a < addr + len
  | .mtdWrite addr len _, a => addr ≤ a ∧ a < addr + len
  | _, _ => False

/-- One of the operations changes a byte the other reads or changes. -/
def Op.Conflict (e e' : Op) : Prop :=
  ∃ a, e.Changes a ∧ (e'.Reads a ∨ e'.Changes a) ∨ e.Reads a ∧ e'.Changes a

theorem Op.Conflict.symm {e e' : Op} (h : e.Conflict e') : e'.Conflict e := by
  obtain ⟨a, ⟨hc, hr | hc'⟩ | ⟨hr, hc⟩⟩ := h
  · exact ⟨a, .inr ⟨hr, hc⟩⟩
  · exact ⟨a, .inl ⟨hc', .inr hc⟩⟩
  · exact ⟨a, .inl ⟨hc, .inl hr⟩⟩

variable {m : Mtd} {bad : Nat → Bool}

theorem slice_congr {f f' junk : Nat → Byte} {addr len n : Nat} (hn : n ≤ len)
    (h : ∀ a, addr ≤ a ∧ a < addr + len → f a = f' a) :
    slice f addr n junk = slice f' addr n junk := by
  funext i
  unfold slice
  by_cases hi : i < n
  · rw [if_pos hi, if_pos hi, h _ (by omega)]
  · rw [if_neg hi, if_neg hi]

theorem readReply_congr {f f' : Nat → Byte} {addr len : Nat} (o : Option Fault)
    (h : ∀ a, addr ≤ a ∧ a < addr + len → f a = f' a) :
    readReply m f addr len o = readReply m f' addr len o := by
  cases o with
  | none => rw [readReply, readReply, slice_congr le_rfl h]
  | some fault => rw [readReply, readReply, slice_congr (by omega) h]

/-- The answer to an operation depends on the flash only where it reads. -/
theorem device_congr (m : Mtd) (bad : Nat → Bool) (e : Op) (c : Caller) {f f' : Nat → Byte}
    (h : ∀ a, e.Reads a → f a = f' a) :
    (device m bad e ⟨c, f⟩).1 = (device m bad e ⟨c, f'⟩).1 ∧
      (device m bad e ⟨c, f⟩).2.toCaller = (device m bad e ⟨c, f'⟩).2.toCaller := by
  cases e with
  | mtdRead addr len => exact ⟨readReply_congr _ h, rfl⟩
  | _ => exact ⟨rfl, rfl⟩

/-- An operation stores the same bytes whatever the flash holds, and only where
it changes the flash. -/
theorem device_flash (m : Mtd) (bad : Nat → Bool) (e : Op) (c : Caller) :
    ∃ (P : Nat → Prop) (stored : Nat → Byte), (∀ a, P a → e.Changes a) ∧
      ∀ f a, (P a → (device m bad e ⟨c, f⟩).2.flash a = stored a) ∧
        (¬ P a → (device m bad e ⟨c, f⟩).2.flash a = f a) := by
  have hsplice (addr len : Nat) (src : Nat → Byte) (f : Nat → Byte) (a : Nat) :
      (addr ≤ a ∧ a < addr + len → splice f addr len src a = src (a - addr)) ∧
        (¬ (addr ≤ a ∧ a < addr + len) → splice f addr len src a = f a) :=
    ⟨fun h => splice_of_mem h.1 h.2, splice_of_not_mem⟩
  have hkept {e : Op} (hsame : ∀ f, (device m bad e ⟨c, f⟩).2.flash = f) :
      ∃ (P : Nat → Prop) (stored : Nat → Byte), (∀ a, P a → e.Changes a) ∧
        ∀ f a, (P a → (device m bad e ⟨c, f⟩).2.flash a = stored a) ∧
          (¬ P a → (device m bad e ⟨c, f⟩).2.flash a = f a) :=
    ⟨fun _ => False, fun _ => 0, fun _ h => h.elim,
      fun f a => ⟨fun h => h.elim, fun _ => congrFun (hsame f) a⟩⟩
  cases e with
  | mtdErase addr len =>
      cases hfault : c.erases 0 with
      | none =>
          by_cases hin : m.InDevice addr len
          · refine ⟨fun a => addr ≤ a ∧ a < addr + len, fun _ => 0xFF, fun _ h => h, fun f a => ?_⟩
            simpa [device, eraseFlash, hfault, hin] using hsplice addr len (fun _ => 0xFF) f a
          · exact hkept fun f => by simp [device, eraseFlash, hfault, hin]
      | some fault =>
          refine ⟨fun a => addr ≤ a ∧ a < addr + len, fun a => fault.junk (a - addr),
            fun _ h => h, fun f a => ?_⟩
          simpa [device, eraseFlash, hfault] using hsplice addr len fault.junk f a
  | mtdWrite addr len src =>
      cases hfault : c.writes 0 with
      | none =>
          by_cases hin : m.InDevice addr len
          · refine ⟨fun a => addr ≤ a ∧ a < addr + len, fun a => src (a - addr), fun _ h => h,
              fun f a => ?_⟩
            simpa [device, writeFlash, hfault, hin] using hsplice addr len src f a
          · exact hkept fun f => by simp [device, writeFlash, hfault, hin]
      | some fault =>
          refine ⟨fun a => addr ≤ a ∧ a < addr + len,
            fun a => if a - addr < fault.len then src (a - addr) else fault.junk (a - addr),
            fun _ h => h, fun f a => ?_⟩
          simpa [device, writeFlash, hfault] using
            hsplice addr len (fun i => if i < fault.len then src i else fault.junk i) f a
  | _ => exact hkept fun f => rfl

/-! ## The common state -/

@[ext] structure Shared where
  left : Caller
  right : Caller
  flash : Nat → Byte

namespace Shared

def leftWorld (s : Shared) : World := ⟨s.left, s.flash⟩

def rightWorld (s : Shared) : World := ⟨s.right, s.flash⟩

def swap (s : Shared) : Shared := ⟨s.right, s.left, s.flash⟩

def putLeft (w : World) (s : Shared) : Shared := ⟨w.toCaller, s.right, w.flash⟩

def putRight (w : World) (s : Shared) : Shared := ⟨s.left, w.toCaller, w.flash⟩

end Shared

/-- The device as the left caller and as the right caller use it. -/
def leftDevice (m : Mtd) (bad : Nat → Bool) : Handler Op Reply Shared :=
  (device m bad).within Shared.leftWorld Shared.putLeft

def rightDevice (m : Mtd) (bad : Nat → Bool) : Handler Op Reply Shared :=
  (device m bad).within Shared.rightWorld Shared.putRight

theorem run_leftDevice {α : Type} (p : Driver α) (s : Shared) :
    p.run (leftDevice m bad) s = ((p.run (device m bad) s.leftWorld).1,
      s.putLeft (p.run (device m bad) s.leftWorld).2) :=
  Prog.run_within _ Shared.leftWorld Shared.putLeft (fun _ _ => rfl) (fun _ _ _ => rfl)
    (fun _ => rfl) p s

theorem run_rightDevice {α : Type} (p : Driver α) (s : Shared) :
    p.run (rightDevice m bad) s = ((p.run (device m bad) s.rightWorld).1,
      s.putRight (p.run (device m bad) s.rightWorld).2) :=
  Prog.run_within _ Shared.rightWorld Shared.putRight (fun _ _ => rfl) (fun _ _ _ => rfl)
    (fun _ => rfl) p s

/-- Operations of the two callers commute unless they conflict. -/
theorem commutes_of_not_conflict {e e' : Op} (h : ¬ e.Conflict e') :
    Prog.Commutes (leftDevice m bad) (rightDevice m bad) e e' := by
  intro s
  obtain ⟨P, stored, hP, hflash⟩ := device_flash m bad e s.left
  obtain ⟨P', stored', hP', hflash'⟩ := device_flash m bad e' s.right
  have hread : ∀ a, e.Reads a →
      (device m bad e' ⟨s.right, s.flash⟩).2.flash a = s.flash a :=
    fun a ha => (hflash' s.flash a).2 fun hp => h ⟨a, .inr ⟨ha, hP' a hp⟩⟩
  have hread' : ∀ a, e'.Reads a →
      (device m bad e ⟨s.left, s.flash⟩).2.flash a = s.flash a :=
    fun a ha => (hflash s.flash a).2 fun hp => h ⟨a, .inl ⟨hP a hp, .inl ha⟩⟩
  obtain ⟨hreply, hcaller⟩ := device_congr m bad e s.left hread
  obtain ⟨hreply', hcaller'⟩ := device_congr m bad e' s.right hread'
  refine ⟨hreply, hreply', Shared.ext hcaller hcaller'.symm ?_⟩
  funext a
  by_cases hp : P a
  · have hp' : ¬ P' a := fun hp' => h ⟨a, .inl ⟨hP a hp, .inr (hP' a hp')⟩⟩
    calc _ = stored a := (hflash _ a).1 hp
      _ = (device m bad e ⟨s.left, s.flash⟩).2.flash a := ((hflash s.flash a).1 hp).symm
      _ = _ := ((hflash' _ a).2 hp').symm
  · by_cases hp' : P' a
    · calc _ = (device m bad e' ⟨s.right, s.flash⟩).2.flash a := (hflash _ a).2 hp
        _ = stored' a := (hflash' s.flash a).1 hp'
        _ = _ := ((hflash' _ a).1 hp').symm
    · calc _ = (device m bad e' ⟨s.right, s.flash⟩).2.flash a := (hflash _ a).2 hp
        _ = s.flash a := (hflash' s.flash a).2 hp'
        _ = (device m bad e ⟨s.left, s.flash⟩).2.flash a := ((hflash s.flash a).2 hp).symm
        _ = _ := ((hflash' _ a).2 hp').symm

end At91Drivers.Flash
