import At91Drivers.Adc.Opening
import At91Drivers.Flash.Opening

/-!
# User processes during a load

Both init functions register their device first of all, and deregister it last
of all on the paths that fail after that.  So a user process may come to a driver
that is not set up yet, or not any more.

```text
at91adc     misc_register … rings cleared … [ exit_3: kfree … misc_deregister ]
at91flash   misc_register … mtd, ebcnt, bbt … [ out: kfree, put_mtd_device, misc_deregister ]
```
-/

namespace At91Drivers.Registration

open Kernel

/-- A run finds everything prepared just when each use comes in time.  Every run
of a load does just when the registration fails, so that no user process comes at
all. -/
theorem users_find_prepared_iff (w : Adc.Life.World) (loads : List (Request Adc.Life.Outcomes))
    (o : Adc.Life.Outcomes) (w' : Flash.Life.World)
    (loads' : List (Request Flash.Life.Outcomes)) (o' : Flash.Life.Outcomes) :
    (∀ P, Adc.Life.Opening w loads o P →
      ((∀ u ∈ P.moments, Adc.Life.Prepared u.state u.op) ↔
        ∀ u ∈ P.moments, Adc.Life.InTime u.past u.op)) ∧
    (∀ Q, Flash.Life.Opening w' loads' o' Q →
      ((∀ u ∈ Q.moments, Flash.Life.Prepared u.past u.state u.op) ↔
        ∀ u ∈ Q.moments, Flash.Life.InTime o' u.past u.op)) ∧
    ((Adc.Life.adcModule.run w.boot loads).loaded = false →
      ((∀ P, Adc.Life.Opening w loads o P →
        ∀ u ∈ P.moments, Adc.Life.Prepared u.state u.op) ↔ o.misc ≠ 0)) ∧
    ((Flash.Life.flashModule.run w'.boot loads').loaded = false →
      ((∀ Q, Flash.Life.Opening w' loads' o' Q →
        ∀ u ∈ Q.moments, Flash.Life.Prepared u.past u.state u.op) ↔ o'.misc ≠ 0)) :=
  ⟨fun _ hP => Adc.Life.opening_prepared_iff hP, fun _ hQ => Flash.Life.opening_prepared_iff hQ,
    fun hunloaded => Adc.Life.opening_always_prepared_iff hunloaded,
    fun hunloaded => Flash.Life.opening_always_prepared_iff hunloaded⟩

/-- The first loads: the registration does not fail, and some run of each finds
something unprepared. -/
theorem users_find_prepared_iff_first :
    ((∀ P, Adc.Life.Opening Adc.Life.World.blank [] Adc.Life.granted P →
      ∀ u ∈ P.moments, Adc.Life.Prepared u.state u.op) ↔ Adc.Life.granted.misc ≠ 0) ∧
    ((∀ Q, Flash.Life.Opening Flash.Life.World.blank [] Flash.Life.norLoad Q →
      ∀ u ∈ Q.moments, Flash.Life.Prepared u.past u.state u.op) ↔
        Flash.Life.norLoad.misc ≠ 0) := by
  obtain ⟨-, -, hadc, hflash⟩ := users_find_prepared_iff Adc.Life.World.blank [] Adc.Life.granted
    Flash.Life.World.blank [] Flash.Life.norLoad
  exact ⟨hadc rfl, hflash rfl⟩

/-- A read of the ADC right after its registration finds no ring. -/
theorem users_find_unprepared :
    ¬ ((∀ w requests o P, Adc.Life.Opening w requests o P →
          ∀ u ∈ P.moments, Adc.Life.Prepared u.state u.op) ∧
        ∀ w requests o Q, Flash.Life.Opening w requests o Q →
          ∀ u ∈ Q.moments, Flash.Life.Prepared u.past u.state u.op) := by
  rintro ⟨hadc, -⟩
  obtain ⟨P, hP, u, hu, hnot⟩ : ∃ P, Adc.Life.Opening Adc.Life.World.blank [] Adc.Life.granted P ∧
      ∃ u ∈ P.moments, ¬ Adc.Life.Prepared u.state u.op := Adc.Life.exists_unprepared rfl rfl
  exact hnot (hadc _ _ _ P hP u hu)

end At91Drivers.Registration
