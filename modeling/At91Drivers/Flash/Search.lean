import At91Drivers.Flash.FaultFree
import At91Drivers.Flash.ReadStages

/-!
# Where the search for a good block ends, for any geometry

`is_block_bad` and the jump to the next block multiply in 32 bits.  Below 4 GiB
nothing wraps.  On a larger device the search is right as long as the block it
is to end at starts below 4 GiB; a jump past that comes back to the start of the
device, and no search reports that it found nothing.

```text
block        b     b+1    …    g          start of g below 4 GiB: ends at g
bad          yes   yes    …    no

position     p  →  …  →  (k+1) * erasesize - 4 GiB     start of k+1 at 4 GiB or more
```
-/

namespace At91Drivers.Flash

open Effects Arith

variable {m : Mtd} {bad : Nat → Bool} {p b g fuel : Nat}

/-! ## What a search is for -/

/-- The first good block from `b` on is `g`. -/
structure FirstGood (m : Mtd) (bad : Nat → Bool) (b g : Nat) : Prop where
  le : b ≤ g
  lt : g < m.blocks
  good : bad g = false
  skipped : ∀ k, b ≤ k → k < g → bad k = true

theorem FirstGood.unique {g' : Nat} (h : FirstGood m bad b g) (h' : FirstGood m bad b g') :
    g = g' := by
  rcases Nat.lt_trichotomy g g' with hlt | heq | hlt
  · exact absurd (h.good.symm.trans (h'.skipped g h.le hlt)) Bool.false_ne_true
  · exact heq
  · exact absurd (h'.good.symm.trans (h.skipped g' h'.le hlt)) Bool.false_ne_true

/-- A good block from `b` on makes a first one. -/
theorem exists_firstGood (hle : b ≤ g) (hlt : g < m.blocks) (hgood : bad g = false) :
    ∃ g', FirstGood m bad b g' := by
  have hex : ∃ k, b ≤ k ∧ bad k = false := ⟨g, hle, hgood⟩
  refine ⟨Nat.find hex, (Nat.find_spec hex).1, ?_, (Nat.find_spec hex).2, fun k hk hfirst => ?_⟩
  · exact (Nat.find_min' hex ⟨hle, hgood⟩).trans_lt hlt
  · cases hbad : bad k with
    | true => rfl
    | false => exact absurd ⟨hk, hbad⟩ (Nat.find_min hex hfirst)

theorem FirstGood.of_bad (hbad : bad b = true) (h : FirstGood m bad b g) :
    FirstGood m bad (b + 1) g := by
  refine ⟨Nat.lt_of_le_of_ne h.le ?_, h.lt, h.good, fun k hk => h.skipped k (Nat.le_of_succ_le hk)⟩
  rintro rfl
  exact absurd (h.good.symm.trans hbad) Bool.false_ne_true

/-- The position at which a search from `p` enters block `g`. -/
def Mtd.arrival (m : Mtd) (p g : Nat) : Nat :=
  if g = p / m.erasesize then p else g * m.erasesize

/-- The loop ends at the first good block if there is one; if there is none it
ends, and the calls return an error. -/
structure SearchRight (m : Mtd) (bad : Nat → Bool) (p : Nat) : Prop where
  found : ∀ g, FirstGood m bad (p / m.erasesize) g → ∃ rounds, ∀ fuel, rounds ≤ fuel → ∀ w,
    (skipBadBlocks m fuel p).run (device m bad) w =
      (.good (m.arrival p g) g (m.blockoffset (m.arrival p g)), w)
  none : (∀ g, ¬ FirstGood m bad (p / m.erasesize) g) → ∃ rounds, ∀ fuel, rounds ≤ fuel →
    ∃ q, ∀ w,
      ((skipBadBlocks m fuel p).run (device m bad) w = (.noBlock q, w) ∨
        (skipBadBlocks m fuel p).run (device m bad) w = (.endOfFile q, w)) ∧
      (∀ buf count,
        (at91flashRead m fuel buf count p).run (device m bad) w = (some ⟨-EFAULT, q⟩, w)) ∧
      ∀ buf count, count ≠ 0 →
        (writeCount m fuel buf count p).run (device m bad) w = (some ⟨-EFAULT, q⟩, w)

/-! ## Searches that stay below 4 GiB -/

theorem div_lt_int (hp : p < m.size) : p / m.erasesize < 2147483648 :=
  (Nat.div_le_div_right hp.le).trans_lt m.blocks_lt

theorem mul_lt_size {k : Nat} (hk : k < m.blocks) : k * m.erasesize < m.size := by
  have hle : (k + 1) * m.erasesize ≤ m.extent := Nat.mul_le_mul_right _ hk
  have hext := m.extent_le_size
  have hpos := m.erasesize_pos
  rw [Nat.add_mul] at hle
  omega

@[simp] theorem Mtd.arrival_mul (k g : Nat) : m.arrival (k * m.erasesize) g = g * m.erasesize := by
  unfold Mtd.arrival
  rw [Nat.mul_div_cancel _ m.erasesize_pos]
  split
  · next h => rw [h]
  · rfl

theorem Mtd.arrival_of_lt (h : p / m.erasesize < g) : m.arrival p g = g * m.erasesize :=
  if_neg (Nat.ne_of_gt h)

/-- The block that `is_block_bad` asks about is the right one below 4 GiB. -/
theorem probe_eq (hp : p < m.size) :
    probe m bad p = bad (m.ebAddr (p / m.erasesize : Nat) / m.erasesize) := by
  have hsize := m.size_lt
  rw [probe, Mtd.ebnum_natCast (div_lt_int hp) (by omega)]

theorem jump_eq (hp : p < m.size) : jump m p = m.ebAddr ((p / m.erasesize + 1 : Nat) : Int) := by
  have hsize := m.size_lt
  rw [jump, Mtd.ebnum_natCast (div_lt_int hp) (by omega)]
  rfl

theorem jump_lt (x : Int) : jump m x < 4294967296 := by
  have h := u32_lt ((m.ebnum x + 1) * m.erasesize)
  unfold jump Mtd.ebAddr
  omega

theorem walk_firstGood (hp : p < m.size) (h : FirstGood m bad (p / m.erasesize) g)
    (hsmall : g * m.erasesize < 4294967296) (hfuel : g - p / m.erasesize < fuel) :
    walk m bad fuel p = .good (m.arrival p g) g (m.blockoffset (m.arrival p g)) := by
  induction fuel generalizing p with
  | zero => exact absurd hfuel (Nat.not_lt_zero _)
  | succ fuel ih =>
      have hsize := m.size_lt
      have hmono {k : Nat} (hk : k ≤ g) : m.ebAddr (k : Nat) = k * m.erasesize :=
        Mtd.ebAddr_natCast ((Nat.mul_le_mul_right _ hk).trans_lt hsmall)
      have hin : p / m.erasesize < m.blocks := h.le.trans_lt h.lt
      unfold walk
      rw [m.ebcnt_eq, Mtd.ebnum_natCast (div_lt_int hp) (by omega),
        if_neg (by exact_mod_cast not_le.mpr hin), probe_eq hp, hmono h.le,
        Nat.mul_div_cancel _ m.erasesize_pos]
      rcases Nat.eq_or_lt_of_le h.le with heq | hlt
      · have harrival : m.arrival p g = p := if_pos heq.symm
        rw [heq, h.good, harrival]
        rfl
      · have hnextLe : p / m.erasesize + 1 ≤ g := hlt
        have hnext := mul_lt_size (hnextLe.trans_lt h.lt)
        have hsucc : (p / m.erasesize + 1) * m.erasesize / m.erasesize = p / m.erasesize + 1 :=
          Nat.mul_div_cancel _ m.erasesize_pos
        have hbad := h.skipped _ le_rfl hlt
        rw [hbad, if_pos rfl, jump_eq hp, hmono hnextLe, u64_natCast (by omega),
          if_neg (not_le.mpr hnext), Mtd.arrival_of_lt hlt]
        have hrest := ih (p := (p / m.erasesize + 1) * m.erasesize) hnext
          (hsucc.symm ▸ h.of_bad hbad) (by rw [hsucc]; omega)
        rw [hrest, Mtd.arrival_mul]

/-- Where the search is right. -/
theorem searchRight_of_walk
    (hwalk : ∃ rounds, ∀ fuel, rounds ≤ fuel → walk m bad fuel p =
      .good (m.arrival p g) g (m.blockoffset (m.arrival p g)))
    (h : FirstGood m bad (p / m.erasesize) g) : SearchRight m bad p := by
  obtain ⟨rounds, hrounds⟩ := hwalk
  refine ⟨fun g' hg' => ⟨rounds, fun fuel hfuel w => ?_⟩, fun hnone => absurd h (hnone g)⟩
  obtain rfl := h.unique hg'
  rw [run_skipBadBlocks, hrounds fuel hfuel]

theorem searchRight_of_none (hnone : ∀ g, ¬ FirstGood m bad (p / m.erasesize) g)
    (hwalk : ∃ rounds, ∀ fuel, rounds ≤ fuel →
      ∃ q, walk m bad fuel p = .noBlock q ∨ walk m bad fuel p = .endOfFile q) :
    SearchRight m bad p := by
  obtain ⟨rounds, hrounds⟩ := hwalk
  refine ⟨fun g hg => absurd hg (hnone g), fun _ => ⟨rounds, fun fuel hfuel => ?_⟩⟩
  obtain ⟨q, hq⟩ := hrounds fuel hfuel
  refine ⟨q, fun w => ⟨?_, fun buf count => run_at91flashRead_none m bad fuel buf w hq,
    fun buf count hcount => run_writeCount_none m bad fuel buf w hcount hq⟩⟩
  rw [run_skipBadBlocks]
  exact hq.imp (fun h => by rw [h]) (fun h => by rw [h])

theorem searchRight_of_small (hsize : m.size < 4294967296) (hp : p < m.size) :
    SearchRight m bad p := by
  by_cases hex : ∃ g, FirstGood m bad (p / m.erasesize) g
  · obtain ⟨g, hg⟩ := hex
    have hsmall := (mul_lt_size hg.lt).trans hsize
    exact searchRight_of_walk ⟨g - p / m.erasesize + 1, fun fuel hfuel =>
      walk_firstGood hp hg hsmall hfuel⟩ hg
  · have hnone : ∀ g, ¬ FirstGood m bad (p / m.erasesize) g := fun g hg => hex ⟨g, hg⟩
    refine searchRight_of_none hnone ⟨m.blocks + 1, fun fuel hfuel => ?_⟩
    rcases walk_of_le_size hsize bad hfuel hp.le with ⟨x, -, hx⟩ | ⟨h, -⟩
    · obtain ⟨g, hg⟩ := exists_firstGood (Nat.div_le_div_right hx.le) hx.block_lt hx.good
      exact absurd hg (hnone g)
    · exact h

/-! ## Devices of 4 GiB and more -/

section Large

variable (hlarge : 4294967296 ≤ m.size)

include hlarge

/-- A jump there never leaves the device, so the loop does not report that it
found nothing. -/
theorem not_skipFails (hdvd : m.erasesize ∣ m.size) (hp : p < m.size) : ¬ SkipFails m bad p := by
  have hin {q : Nat} (hq : q < m.size) : m.ebnum q < m.ebcnt := by
    have hsize := m.size_lt
    rw [m.ebcnt_eq, Mtd.ebnum_natCast (div_lt_int hq) (by omega)]
    exact_mod_cast Nat.div_lt_div_of_lt_of_dvd hdvd hq
  intro h
  obtain ⟨x, hx⟩ : ∃ x : Int, x = p := ⟨p, rfl⟩
  rw [← hx] at h
  induction h generalizing p with
  | noBlock h =>
      rw [hx] at h
      exact absurd (hin hp) (not_lt.mpr h)
  | @endOfFile x _ _ hend =>
      have hjump := jump_lt (m := m) x
      have hnonneg : 0 ≤ jump m x := Int.natCast_nonneg _
      have hcast := u64_natCast (n := (jump m x).toNat) (by omega)
      rw [Int.toNat_of_nonneg hnonneg] at hcast
      omega
  | @next x _ _ _ _ ih =>
      have hjump := jump_lt (m := m) x
      have hnonneg : 0 ≤ jump m x := Int.natCast_nonneg _
      exact ih (p := (jump m x).toNat) (by omega) (Int.toNat_of_nonneg hnonneg).symm

omit hlarge in
/-- After a jump the search stays below 4 GiB. -/
theorem SkipsTo.eq_or_lt {x y : Int} (h : SkipsTo m bad x y) :
    (x = y ∧ probe m bad x = false) ∨ probe m bad x = true ∧ y < 4294967296 := by
  induction h with
  | here _ hgood => exact .inl ⟨rfl, hgood⟩
  | @next x y _ hbad _ _ ih =>
      refine .inr ⟨hbad, ?_⟩
      rcases ih with ⟨rfl, -⟩ | ⟨-, hlt⟩
      · exact jump_lt x
      · exact hlt

omit hlarge in
theorem SkipsTo.probe_end {x y : Int} (h : SkipsTo m bad x y) : probe m bad y = false := by
  induction h with
  | here _ hgood => exact hgood
  | next _ _ _ _ ih => exact ih

/-- A search whose block is asked for in the wrong place, or that has to get past
4 GiB, is not right. -/
theorem small_of_searchRight (hdvd : m.erasesize ∣ m.size) (hp : p < m.size)
    (h : SearchRight m bad p) :
    (∃ g, FirstGood m bad (p / m.erasesize) g ∧ g * m.erasesize < 4294967296) ∨
      4294967296 ≤ p / m.erasesize * m.erasesize ∧ bad (p / m.erasesize) = false ∧
        bad (m.ebAddr (p / m.erasesize : Nat) / m.erasesize) = false := by
  by_cases hex : ∃ g, FirstGood m bad (p / m.erasesize) g
  · obtain ⟨g, hg⟩ := hex
    by_cases hsmall : g * m.erasesize < 4294967296
    · exact .inl ⟨g, hg, hsmall⟩
    · obtain ⟨rounds, hrounds⟩ := h.found g hg
      have hrun := hrounds rounds le_rfl (quiet (fun _ => 0) (fun _ => 0) fun _ => 0)
      rw [run_skipBadBlocks] at hrun
      have hwalk := congrArg Prod.fst hrun
      dsimp only at hwalk
      have hskips : SkipsTo m bad p (m.arrival p g) := by
        rcases walk_cases m bad rounds p with ⟨x, hx, hgood⟩ | ⟨-, q, hq | hq⟩ | hspin
        · rw [hwalk] at hgood
          exact (Skip.good.inj hgood).1 ▸ hx
        · rw [hwalk] at hq
          cases hq
        · rw [hwalk] at hq
          cases hq
        · rw [hwalk] at hspin
          cases hspin
      -- past 4 GiB only the start of the search itself can be its end
      have hstart : g * m.erasesize ≤ m.arrival p g := by
        unfold Mtd.arrival
        split
        · next heq => exact heq ▸ Nat.div_mul_le_self _ _
        · exact le_rfl
      rcases hskips.eq_or_lt with ⟨heq, hgood⟩ | ⟨-, hlt⟩
      · have harrival : m.arrival p g = p := by exact_mod_cast heq.symm
        have hown : g = p / m.erasesize := by
          by_contra hne
          rw [Mtd.arrival, if_neg hne] at harrival
          exact hne (by rw [← harrival, Nat.mul_div_cancel _ m.erasesize_pos])
        subst hown
        rw [probe_eq hp] at hgood
        exact .inr ⟨not_lt.mp hsmall, hg.good, hgood⟩
      · omega
  · obtain ⟨rounds, hrounds⟩ := h.none fun g hg => hex ⟨g, hg⟩
    obtain ⟨q, hq⟩ := hrounds rounds le_rfl
    have hrun := (hq (quiet (fun _ => 0) (fun _ => 0) fun _ => 0)).1
    rw [run_skipBadBlocks] at hrun
    have hfails : SkipFails m bad p := by
      rcases walk_cases m bad rounds p with ⟨x, -, hgood⟩ | ⟨hfails, -⟩ | hspin
      · rw [hgood] at hrun
        rcases hrun with hrun | hrun <;> cases congrArg Prod.fst hrun
      · exact hfails
      · rw [hspin] at hrun
        rcases hrun with hrun | hrun <;> cases congrArg Prod.fst hrun
    exact absurd hfails (not_skipFails hlarge hdvd hp)

/-- Without a good block the loop never ends. -/
theorem walk_spins (hdvd : m.erasesize ∣ m.size) (hp : p < m.size) (hall : ∀ b, bad b = true)
    (fuel : Nat) : walk m bad fuel p = .spinning := by
  rcases walk_cases m bad fuel p with ⟨x, hx, -⟩ | ⟨hfails, -⟩ | hspin
  · exact absurd (hx.probe_end.symm.trans (hall _)) Bool.false_ne_true
  · exact absurd hfails (not_skipFails hlarge hdvd hp)
  · exact hspin

end Large

/-! ## The search -/

/-- A search from inside the device is right when the device is smaller than
4 GiB, when the first good block starts below 4 GiB, and when it need not move
and the block it asks about in the place of its own is good as well. -/
theorem search_right_iff (hdvd : m.erasesize ∣ m.size) (hp : p < m.size) :
    SearchRight m bad p ↔
      m.size < 4294967296 ∨
        (∃ g, FirstGood m bad (p / m.erasesize) g ∧ g * m.erasesize < 4294967296) ∨
        4294967296 ≤ p / m.erasesize * m.erasesize ∧ bad (p / m.erasesize) = false ∧
          bad (m.ebAddr (p / m.erasesize : Nat) / m.erasesize) = false := by
  constructor
  · intro h
    by_cases hsize : m.size < 4294967296
    · exact .inl hsize
    · exact .inr (small_of_searchRight (not_lt.mp hsize) hdvd hp h)
  · rintro (hsize | ⟨g, hg, hsmall⟩ | ⟨-, hown, hprobe⟩)
    · exact searchRight_of_small hsize hp
    · exact searchRight_of_walk ⟨g - p / m.erasesize + 1, fun fuel hfuel =>
        walk_firstGood hp hg hsmall hfuel⟩ hg
    · have hin : p / m.erasesize < m.blocks := Nat.div_lt_div_of_lt_of_dvd hdvd hp
      have hg : FirstGood m bad (p / m.erasesize) (p / m.erasesize) :=
        ⟨le_rfl, hin, hown, fun k hk hlt => absurd hk (not_le.mpr hlt)⟩
      have hsize := m.size_lt
      refine searchRight_of_walk ⟨1, fun fuel hfuel => ?_⟩ hg
      obtain ⟨fuel, rfl⟩ := Nat.exists_eq_add_of_le' hfuel
      unfold walk
      rw [m.ebcnt_eq, Mtd.ebnum_natCast (div_lt_int hp) (by omega),
        if_neg (by exact_mod_cast not_le.mpr hin), probe_eq hp, hprobe, Mtd.arrival, if_pos rfl]
      rfl

/-- 8 GiB in blocks of 128 KiB. -/
def eightGiB : Mtd := ⟨8589934592, 131072, by decide, by decide, by decide, by decide⟩

/-- With block 5 bad a search from it ends at block 6. -/
theorem search_right_iff_at_five :
    SearchRight eightGiB (· == 5) 655361 ↔
      8589934592 < 4294967296 ∨
        (∃ g, FirstGood eightGiB (· == 5) 5 g ∧ g * 131072 < 4294967296) ∨
        4294967296 ≤ 5 * 131072 ∧ (5 == 5) = false ∧
          (eightGiB.ebAddr (5 : Nat) / 131072 == 5) = false :=
  search_right_iff (m := eightGiB) (p := 655361) (by decide) (by decide)

/-- The last block below 4 GiB is bad and the next one good: the search comes back
to the start of the device. -/
theorem search_comes_back :
    ¬ ∀ (m : Mtd) (bad : Nat → Bool) (p : Nat), m.erasesize ∣ m.size → p < m.size →
      SearchRight m bad p := by
  intro h
  have hright := h eightGiB (· == 32767) 4294836224 (by decide) (by decide)
  have hnext : FirstGood eightGiB (· == 32767) 32767 32768 := by
    refine ⟨by decide, by decide, rfl, fun k hlo hhi => ?_⟩
    obtain rfl : k = 32767 := by omega
    rfl
  obtain ⟨rounds, hrounds⟩ := hright.found 32768 hnext
  have hrun := hrounds (rounds + 2) (by omega) (quiet (fun _ => 0) (fun _ => 0) fun _ => 0)
  rw [run_skipBadBlocks] at hrun
  have hstart : walk eightGiB (· == 32767) (rounds + 2) (4294836224 : Nat) = .good 0 0 0 := by
    rw [walk, if_neg (by decide +kernel), if_pos (by decide +kernel), if_neg (by decide +kernel),
      walk, if_neg (by decide +kernel), if_neg (by decide +kernel)]
    decide +kernel
  rw [hstart] at hrun
  cases congrArg Prod.fst hrun

end At91Drivers.Flash
