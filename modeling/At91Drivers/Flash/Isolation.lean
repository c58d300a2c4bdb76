import At91Drivers.Effects.Isolation
import At91Drivers.Flash.Cycles

/-!
# Processes that do not disturb each other

An operation reads and changes the flash at its footprint only, and each process
has its caller to itself.  So processes that only read never disturb each other,
under any interleaving and with any failures: each gets what its calls give one
after the other.
-/

namespace At91Drivers.Flash

open Effects Arith

variable {ι : Type} [DecidableEq ι] {m : Mtd} {bad : Nat → Bool}

/-! ## The view of a process -/

/-- The device as a process that is alone uses it. -/
def fileDevice (m : Mtd) (bad : Nat → Bool) : Handler Op Reply (Caller × (Nat → Byte)) :=
  fun e s =>
    ((device m bad e ⟨s.1, s.2⟩).1,
      (device m bad e ⟨s.1, s.2⟩).2.toCaller, (device m bad e ⟨s.1, s.2⟩).2.flash)

theorem fileDevice_footprint : Footprint (fileDevice m bad) Op.Reads Op.Changes where
  answer e c _ _ h := device_congr m bad e c h
  agree e c f f' a _ ha := by
    obtain ⟨P, stored, -, hflash⟩ := device_flash m bad e c
    by_cases hP : P a
    · calc (device m bad e ⟨c, f⟩).2.flash a = stored a := (hflash f a).1 hP
        _ = (device m bad e ⟨c, f'⟩).2.flash a := ((hflash f' a).1 hP).symm
    · calc (device m bad e ⟨c, f⟩).2.flash a = f a := (hflash f a).2 hP
        _ = f' a := ha
        _ = (device m bad e ⟨c, f'⟩).2.flash a := ((hflash f' a).2 hP).symm
  frame e c f a ha := by
    obtain ⟨P, stored, hP, hflash⟩ := device_flash m bad e c
    exact (hflash f a).2 fun h => ha (hP a h)

/-- Each process has its caller to itself, and the flash is common. -/
def processView (ι : Type) [DecidableEq ι] (m : Mtd) (bad : Nat → Bool) :
    Crowd.View (processDevice m bad : ι → Handler Op Reply (Machine ι)) (fileDevice m bad) where
  own := Machine.caller
  common := Machine.flash
  reply _ _ _ := rfl
  mine _ _ _ := Function.update_self _ _ _
  memory _ _ _ := rfl
  others hj _ _ := Function.update_of_ne hj _ _

/-! ## Readers -/

/-- A call that does not write. -/
def Call.ReadsOnly : Call → Prop
  | .write _ _ => False
  | .ioctl cmd => iocNr cmd ≠ 2
  | _ => True

/-- Processes that only read, and leave their memory alone meanwhile. -/
def readers (ι : Type) (m : Mtd) : Crowd.Rules Op Reply (Option Ret) Int ι (Machine ι) where
  offers _ fPos job := ∃ fuel c, c.ReadsOnly ∧ job = Call.body m fuel fPos c
  keeps r fPos := ∃ r', r = some r' ∧ fPos = r'.ppos
  drifts _ _ := False

/-- The operation leaves the flash as it is. -/
def Op.Keeps (e : Op) : Prop := ∀ a, ¬ e.Changes a

theorem Op.Quiet.keeps {e : Op} (he : e.Quiet) : e.Keeps := by
  cases e with
  | mtdErase addr len => cases he
  | mtdWrite addr len src => cases he
  | _ => exact fun _ => id

theorem Call.ReadsOnly.quiet {c : Call} (hc : c.ReadsOnly) (fuel : Nat) (fPos : Int) :
    (c.body m fuel fPos).Asks Op.Quiet := by
  cases c with
  | lseek offset orig => trivial
  | read buf count => exact read_quiet m fuel buf count fPos
  | write buf count => exact hc.elim
  | ioctl cmd =>
      refine ⟨rfl, fun karg => ?_⟩
      cases karg with
      | none => trivial
      | some karg =>
          dsimp only
          split
          · refine (read_quiet m fuel _ _ _).bind fun r => ?_
            cases r with
            | none => trivial
            | some r => exact ioctlReturn_quiet karg _
          · rename_i hcmd
            exact absurd hcmd hc
          · trivial

/-- What a crowd of readers keeps to. -/
def readTerms (ι : Type) : Crowd.Terms Op Reply (Option Ret) Int ι where
  allow _ _ _ := True
  ask _ _ := Op.Keeps
  post _ _ _ := True
  fits _ _ := True

/-- In every run of any number of readers from any file positions, whatever fails:
the flash stays as it is, and what a reader between its calls has got from them,
with the memory and the position it is left with, is what these calls give one
after the other to a process that is alone. -/
theorem readers_as_alone {pos : ι → Int} {s : Machine ι}
    {c : Crowd Op Reply (Option Ret) Int ι (Machine ι)}
    (hc : Crowd.Reaches (processDevice m bad) (readers ι m) pos s c) :
    c.state.flash = s.flash ∧
      ∀ i fPos, c.party i = .idle fPos →
        Crowd.Session (fileDevice m bad) ((readers ι m).alone i fun _ _ => False) (c.returned i)
          (pos i) (s.caller i, s.flash) fPos (c.state.caller i, c.state.flash) := by
  have hterms : (readTerms ι).Hold (readers ι m) := by
    refine ⟨?_, fun _ _ => trivial⟩
    rintro i fPos job - ⟨fuel, call, hreads, rfl⟩
    exact (hreads.quiet fuel fPos).meets (fun _ _ h => h.keeps) []
  have hkept : (readTerms ι).Kept (fun _ s' => s'.flash = s.flash) c := by
    refine hc.rule hterms (fun _ => trivial) rfl ?_ fun _ _ _ _ hd => hd.elim
    intro i past e log s' hflash _ hask
    refine ⟨trivial, funext fun a => ?_⟩
    rw [processDevice_flash m bad i e s' (hask a), hflash]
  have hconfined (i : ι) : ∀ deed ∈ c.log,
      Crowd.Confined Op.Reads Op.Changes (fun _ => True) i deed :=
    fun deed hdeed => ⟨fun _ _ _ => trivial, fun _ a _ => hkept.asked deed hdeed a⟩
  have hdrifts (i : ι) : (processView ι m bad).Drifts (readers ι m) i fun _ _ => False :=
    fun _ _ hd => hd.elim
  have hstill (i : ι) : ∀ s s', ¬ ((readers ι m).alone i fun _ _ => False :
      Crowd.Rules Op Reply (Option Ret) Int Unit (Caller × (Nat → Byte))).drifts s s' :=
    fun _ _ hd => hd.1
  refine ⟨hkept.state, fun i fPos hidle => ?_⟩
  obtain ⟨c₁, hc₁, halike⟩ := hc.alike fileDevice_footprint (hdrifts i) (hconfined i)
  have hsession := hc₁.inSession (hstill i)
  unfold Crowd.InSession at hsession
  rw [halike.party, hidle, halike.returned] at hsession
  have hstate : c₁.state = (c.state.caller i, c.state.flash) :=
    Prod.ext halike.own (funext fun a => halike.common a trivial)
  rw [hstate] at hsession
  exact hsession

/-- A read of four bytes from the third byte on. -/
def readAtThree : Driver (Option Ret) := (Call.read 0 4).body fourBlocks 8 3

theorem readers_as_alone_at_three :
    ∃ c, Crowd.Reaches (processDevice fourBlocks secondBad) (readers Nat fourBlocks) (fun _ => 3)
        sevens c ∧ c.party 2 = .idle 11 ∧
      Crowd.Session (fileDevice fourBlocks secondBad)
        ((readers Nat fourBlocks).alone 2 fun _ _ => False) [(readAtThree, some ⟨3, 11⟩)] 3
        (sevens.caller 2, sevens.flash) 11 (c.state.caller 2, c.state.flash) := by
  have hoffer : (readers Nat fourBlocks).offers 2 3 readAtThree :=
    ⟨8, .read 0 4, trivial, rfl⟩
  have hresult : (readAtThree.run (processDevice fourBlocks secondBad 2) sevens).1 =
      some ⟨3, 11⟩ := by decide +kernel
  obtain ⟨c, hc, hbusy, -, hreturned, -⟩ : ∃ c, Crowd.Reaches (processDevice fourBlocks secondBad)
      (readers Nat fourBlocks) (fun _ => 3) sevens c ∧ _ := Crowd.exists_alone 2 hoffer
  rw [hresult] at hbusy
  have hc' := hc.tail (.finish hbusy ⟨_, rfl, rfl⟩)
  refine ⟨_, hc', by simp [Crowd.close], ?_⟩
  obtain ⟨-, hsession⟩ := readers_as_alone hc'
  have hsession2 := hsession 2 11 (by simp [Crowd.close])
  simpa only [Crowd.close, Function.update_self, hreturned, List.nil_append] using hsession2

end At91Drivers.Flash
