import At91Drivers.Flash.Rules

/-!
# Every call ends

On a device below 4 GiB a read and a write end wherever they start, with
`ebcnt + 2` rounds for each search: the first round may still be outside the
device, every later one is at the start of another block.
-/

namespace At91Drivers.Flash

open Effects Arith

variable {m : Mtd} {bad : Nat → Bool} {fuel : Nat}

/-- Nothing is forbidden: the rules are used for the results alone. -/
theorem policy_any : Policy fun _ _ => True := ⟨fun _ _ => trivial, fun _ => trivial⟩

section Ends

variable (hsize : m.size < 4294967296)
  (hfuel : m.blocks + 1 < fuel)

include hsize hfuel

/-- Below 4 GiB a search ends within the number of blocks, wherever it starts:
after the first jump it is inside the device. -/
theorem walk_ne_spinning (x : Int) : walk m bad fuel x ≠ .spinning := by
  obtain ⟨fuel, rfl⟩ := Nat.exists_eq_add_of_lt (Nat.zero_lt_of_lt hfuel)
  rw [Nat.zero_add] at hfuel ⊢
  unfold walk
  by_cases hend : m.ebcnt ≤ m.ebnum x
  · rw [if_pos hend]
    exact Skip.noConfusion
  · rw [if_neg hend]
    cases hprobe : probe m bad x with
    | false => exact Skip.noConfusion
    | true =>
        rw [if_pos rfl]
        by_cases heof : m.size ≤ u64 (jump m x)
        · rw [if_pos heof]
          exact Skip.noConfusion
        · rw [if_neg heof]
          have hjump : m.ebAddr (m.ebnum x + 1) ≤ m.size := by
            have hlt : m.ebAddr (m.ebnum x + 1) < 4294967296 := u32_lt _
            rw [jump, u64_natCast (by omega)] at heof
            exact (not_le.mp heof).le
          rcases walk_of_le_size hsize bad (show m.blocks < fuel by omega) hjump with
            ⟨y, hwalk, -⟩ | ⟨⟨q, hwalk⟩, -⟩
          · rw [jump, hwalk]
            exact Skip.noConfusion
          · rcases hwalk with hwalk | hwalk <;> rw [jump, hwalk] <;> exact Skip.noConfusion

theorem meets_search {x : Int} {past : History} :
    (skipBadBlocks m fuel x).Meets (Sane m bad) (fun _ _ => True) (fun _ s => s ≠ .spinning)
      past :=
  (meets_skipBadBlocks_walk policy_any fun _ _ h => h).mono fun _ _ hs =>
    hs ▸ walk_ne_spinning hsize hfuel x

theorem at91flashRead_ends (bad : Nat → Bool) (buf count : Nat) (x : Int) (w : World) :
    ∃ r w', (at91flashRead m fuel buf count x).run (device m bad) w = (some r, w') := by
  have hmeets : (at91flashRead m fuel buf count x).Meets (Sane m bad) (fun _ _ => True)
      (fun _ r => r.isSome = true) [] := by
    refine meets_at91flashRead policy_any ((meets_search hsize hfuel).mono fun later s hs => ?_)
    cases s with
    | spinning => exact absurd rfl hs
    | noBlock q => rfl
    | endOfFile q => rfl
    | good x b o =>
        refine ⟨fun _ => rfl, fun _ _ => ⟨fun _ => ⟨trivial, fun _ _ _ => rfl⟩, fun _ => ?_⟩⟩
        refine ⟨⟨trivial, fun _ _ _ => rfl⟩, fun r _ later' => ?_⟩
        refine (meets_search hsize hfuel).mono fun later'' s hs => ?_
        cases s with
        | spinning => exact absurd rfl hs
        | noBlock q => rfl
        | endOfFile q => rfl
        | good y b o => exact ⟨trivial, fun _ _ _ => rfl⟩
  have hsome := hmeets.sound_post (device_sane m bad) w
  obtain ⟨r, hr⟩ := Option.isSome_iff_exists.mp hsome
  exact ⟨r, _, Prod.ext hr rfl⟩

theorem at91flashWrite_ends (bad : Nat → Bool) (buf count : Nat) (x : Int) (w : World) :
    ∃ r w', (at91flashWrite m fuel buf count x).run (device m bad) w = (some r, w') := by
  have hcount (count : Nat) : (writeCount m fuel buf count x).Meets (Sane m bad)
      (fun _ _ => True) (fun _ r => r.isSome = true) [] := by
    refine meets_writeCount policy_any rfl ((meets_search hsize hfuel).mono fun later s hs => ?_)
    cases s with
    | spinning => exact absurd rfl hs
    | noBlock q => rfl
    | endOfFile q => rfl
    | good x b o =>
        have hblock {past : History} {b : Int} : BlockMay m (fun _ _ => True) past b :=
          ⟨trivial, trivial, fun _ => trivial⟩
        refine ⟨rfl, fun _ => ⟨hblock, fun _ => trivial, fun _ _ => trivial, fun _ _ _ => ?_, rfl,
          fun _ _ _ => rfl⟩⟩
        refine ⟨trivial, fun _ _ _ later' => ?_⟩
        refine (meets_search hsize hfuel).mono fun later'' s hs => ?_
        cases s with
        | spinning => exact absurd rfl hs
        | noBlock q => rfl
        | endOfFile q => rfl
        | good y b o => exact ⟨hblock, trivial, rfl, fun _ _ _ => rfl⟩
  have hmeets : (at91flashWrite m fuel buf count x).Meets (Sane m bad) (fun _ _ => True)
      (fun _ r => r.isSome = true) [] := by
    unfold at91flashWrite
    split
    · exact hcount _
    · split
      · rfl
      · exact hcount _
  have hsome := hmeets.sound_post (device_sane m bad) w
  obtain ⟨r, hr⟩ := Option.isSome_iff_exists.mp hsome
  exact ⟨r, _, Prod.ext hr rfl⟩

end Ends

end At91Drivers.Flash
