import At91Drivers.Flash.Driver
import At91Drivers.Flash.Stream

/-!
# The bad-block loop

The loop answers nothing but the bad-block map, so a run of it is `walk`, a
function of the map and the position.  `SkipsTo` and `SkipFails` say where the
loop ends without a bound on its rounds, with the C types as written; on a
device below 4 GiB, where no 32-bit product wraps, the loop ends within the
number of blocks and finds the head of the good-block stream.
-/

namespace At91Drivers.Flash

open Effects Arith

namespace Mtd

/-! ## The driver's expressions in range -/

variable {m : Mtd}

theorem ebnum_natCast {p : Nat} (h : p / m.erasesize < 2147483648)
    (hp : p < 18446744073709551616) : m.ebnum p = (p / m.erasesize : Nat) := by
  rw [ebnum, u64_natCast hp, i32_natCast h]

theorem ebAddr_natCast {k : Nat} (h : k * m.erasesize < 4294967296) :
    m.ebAddr k = k * m.erasesize := by
  rw [ebAddr, ← Nat.cast_mul, u32_natCast h]

/-- A product that wraps only gets smaller. -/
theorem ebAddr_le (k : Nat) : m.ebAddr k ≤ k * m.erasesize := by
  rw [ebAddr, ← Nat.cast_mul]
  exact u32_natCast_le _

/-- The block after the next one ends the two blocks from `x` on, unless its address
wraps. -/
theorem ebAddr_add_two_le (x : Nat) :
    m.ebAddr ((x / m.erasesize : Nat) + 2) ≤ m.blockEnd x + m.erasesize :=
  calc m.ebAddr ((x / m.erasesize : Nat) + 2) ≤ (x / m.erasesize + 2) * m.erasesize :=
        m.ebAddr_le (x / m.erasesize + 2)
    _ = m.blockEnd x + m.erasesize := by
        rw [blockEnd]
        ring

theorem u32_blockoffset {p : Nat} (hp : p < 18446744073709551616) :
    u32 (m.blockoffset p) = p % m.erasesize := by
  have := Nat.mod_lt p m.erasesize_pos
  have := m.erasesize_lt
  rw [blockoffset, u32_i32, u64_natCast hp, u32_natCast (by omega)]

theorem u32_sub_blockoffset {p : Nat} (hp : p < 18446744073709551616) :
    u32 (m.erasesize - m.blockoffset p) = m.erasesize - p % m.erasesize := by
  have := Nat.mod_lt p m.erasesize_pos
  have := m.erasesize_lt
  rw [blockoffset, u32_sub_i32, u64_natCast hp, ← Nat.cast_sub (by omega), u32_natCast (by omega)]

end Mtd

/-! ## The loop as a function of the bad-block map -/

variable (m : Mtd) (bad : Nat → Bool)

/-- The answer of the map for the block the driver asks about at a position. -/
def probe (ppos : Int) : Bool := bad (m.ebAddr (m.ebnum ppos) / m.erasesize)

/-- The position after a jump. -/
def jump (ppos : Int) : Int := m.ebAddr (m.ebnum ppos + 1)

def walk : Nat → Int → Skip
  | 0, _ => .spinning
  | fuel + 1, ppos =>
      if m.ebcnt ≤ m.ebnum ppos then .noBlock ppos
      else if probe m bad ppos then
        if m.size ≤ u64 (jump m ppos) then .endOfFile (jump m ppos) else walk fuel (jump m ppos)
      else .good ppos (m.ebnum ppos) (m.blockoffset ppos)

theorem run_isBlockBad (ppos : Int) (w : World) :
    (isBlockBad m (m.ebnum ppos)).run (device m bad) w =
      (if probe m bad ppos then 1 else 0, w) := by
  unfold probe
  simp [isBlockBad, device]

/-- A run of the loop changes nothing and ends as `walk` says. -/
@[simp] theorem run_skipBadBlocks (fuel : Nat) (ppos : Int) (w : World) :
    (skipBadBlocks m fuel ppos).run (device m bad) w = (walk m bad fuel ppos, w) := by
  induction fuel generalizing ppos with
  | zero => rfl
  | succ fuel ih =>
      unfold skipBadBlocks walk jump
      by_cases hend : m.ebcnt ≤ m.ebnum ppos
      · simp [hend]
      · rw [if_neg hend, if_neg hend, Prog.run_bind, run_isBlockBad]
        cases hprobe : probe m bad ppos with
        | false => simp [device]
        | true =>
            by_cases heof : m.size ≤ u64 (m.ebAddr (m.ebnum ppos + 1))
            · simp [device, heof]
            · simp [device, heof, ih]

/-- The operations of a search. -/
def Op.Searches : Op → Prop
  | .blockIsbad _ | .bbtStore _ _ => True
  | _ => False

/-- The loop performs nothing else. -/
theorem searches_of_mem_trace {fuel : Nat} {x : Int} {w : World} {event : Event Op Reply}
    (h : event ∈ (skipBadBlocks m fuel x).trace (device m bad) w) : event.1.Searches := by
  induction fuel generalizing x with
  | zero => exact absurd h List.not_mem_nil
  | succ fuel ih =>
      unfold skipBadBlocks at h
      by_cases hend : m.ebcnt ≤ m.ebnum x
      · rw [if_pos hend] at h
        exact absurd h List.not_mem_nil
      · rw [if_neg hend] at h
        simp only [Prog.trace_bind, isBlockBad, Prog.trace_perform, Prog.trace_ite,
          List.mem_append, List.mem_singleton] at h
        rcases h with rfl | rfl | h
        · trivial
        · trivial
        · split at h
          · split at h
            · exact absurd h List.not_mem_nil
            · exact ih h
          · exact absurd h List.not_mem_nil

/-! ## Where the loop ends, for any geometry -/

/-- The loop started at a position ends at a good block, at this position. -/
inductive SkipsTo : Int → Int → Prop
  | here {p : Int} (hin : m.ebnum p < m.ebcnt) (hgood : probe m bad p = false) : SkipsTo p p
  | next {p x : Int} (hin : m.ebnum p < m.ebcnt) (hbad : probe m bad p = true)
      (hsize : u64 (jump m p) < m.size) (h : SkipsTo (jump m p) x) : SkipsTo p x

/-- The loop started at a position ends without a good block. -/
inductive SkipFails : Int → Prop
  | noBlock {p : Int} (h : m.ebcnt ≤ m.ebnum p) : SkipFails p
  | endOfFile {p : Int} (hin : m.ebnum p < m.ebcnt) (hbad : probe m bad p = true)
      (hsize : m.size ≤ u64 (jump m p)) : SkipFails p
  | next {p : Int} (hin : m.ebnum p < m.ebcnt) (hbad : probe m bad p = true)
      (hsize : u64 (jump m p) < m.size) (h : SkipFails (jump m p)) : SkipFails p

/-- The loop ends at `ebnum >= ebcnt`, without a jump past the end of the
device. -/
inductive RunsOut : Int → Prop
  | here {p : Int} (h : m.ebcnt ≤ m.ebnum p) : RunsOut p
  | next {p : Int} (hin : m.ebnum p < m.ebcnt) (hbad : probe m bad p = true)
      (hsize : u64 (jump m p) < m.size) (h : RunsOut (jump m p)) : RunsOut p

variable {m bad}

theorem walk_of_runsOut {p : Int} (h : RunsOut m bad p) :
    ∃ rounds q, ∀ fuel, rounds ≤ fuel → walk m bad fuel p = .noBlock q := by
  induction h with
  | @here p h =>
      refine ⟨1, p, fun fuel hfuel => ?_⟩
      obtain ⟨fuel, rfl⟩ := Nat.exists_eq_add_of_le' hfuel
      simp [walk, h]
  | next hin hbad hsize h ih =>
      obtain ⟨rounds, q, hrounds⟩ := ih
      refine ⟨rounds + 1, q, fun fuel hfuel => ?_⟩
      obtain ⟨fuel, rfl⟩ := Nat.exists_eq_add_of_le' (Nat.le_of_add_left_le hfuel)
      simpa [walk, not_le.mpr hin, hbad, not_le.mpr hsize] using hrounds fuel (by omega)

theorem runsOut_of_walk {fuel : Nat} {p q : Int} (h : walk m bad fuel p = .noBlock q) :
    RunsOut m bad p := by
  induction fuel generalizing p with
  | zero => cases h
  | succ fuel ih =>
      unfold walk at h
      by_cases hend : m.ebcnt ≤ m.ebnum p
      · exact .here hend
      · rw [if_neg hend] at h
        cases hprobe : probe m bad p with
        | false =>
            rw [hprobe] at h
            cases h
        | true =>
            rw [hprobe, if_pos rfl] at h
            by_cases heof : m.size ≤ u64 (jump m p)
            · rw [if_pos heof] at h
              cases h
            · rw [if_neg heof] at h
              exact .next (not_le.mp hend) hprobe (not_le.mp heof) (ih h)

theorem walk_of_skipsTo {p x : Int} (h : SkipsTo m bad p x) :
    ∃ rounds, ∀ fuel, rounds ≤ fuel →
      walk m bad fuel p = .good x (m.ebnum x) (m.blockoffset x) := by
  induction h with
  | here hin hgood =>
      refine ⟨1, fun fuel hfuel => ?_⟩
      obtain ⟨fuel, rfl⟩ := Nat.exists_eq_add_of_le' hfuel
      simp [walk, not_le.mpr hin, hgood]
  | next hin hbad hsize h ih =>
      obtain ⟨rounds, hrounds⟩ := ih
      refine ⟨rounds + 1, fun fuel hfuel => ?_⟩
      obtain ⟨fuel, rfl⟩ := Nat.exists_eq_add_of_le' (Nat.le_of_add_left_le hfuel)
      simp [walk, not_le.mpr hin, hbad, not_le.mpr hsize, hrounds fuel (by omega)]

theorem walk_of_skipFails {p : Int} (h : SkipFails m bad p) :
    ∃ rounds q, ∀ fuel, rounds ≤ fuel →
      walk m bad fuel p = .noBlock q ∨ walk m bad fuel p = .endOfFile q := by
  induction h with
  | @noBlock p h =>
      refine ⟨1, p, fun fuel hfuel => ?_⟩
      obtain ⟨fuel, rfl⟩ := Nat.exists_eq_add_of_le' hfuel
      simp [walk, h]
  | @endOfFile p hin hbad hsize =>
      refine ⟨1, jump m p, fun fuel hfuel => ?_⟩
      obtain ⟨fuel, rfl⟩ := Nat.exists_eq_add_of_le' hfuel
      simp [walk, not_le.mpr hin, hbad, hsize]
  | next hin hbad hsize h ih =>
      obtain ⟨rounds, q, hrounds⟩ := ih
      refine ⟨rounds + 1, q, fun fuel hfuel => ?_⟩
      obtain ⟨fuel, rfl⟩ := Nat.exists_eq_add_of_le' (Nat.le_of_add_left_le hfuel)
      simpa [walk, not_le.mpr hin, hbad, not_le.mpr hsize] using hrounds fuel (by omega)

/-- Every end of the loop within a bound is one of the two. -/
theorem walk_cases (m : Mtd) (bad : Nat → Bool) (fuel : Nat) (p : Int) :
    (∃ x, SkipsTo m bad p x ∧ walk m bad fuel p = .good x (m.ebnum x) (m.blockoffset x)) ∨
      (SkipFails m bad p ∧
        ∃ q, walk m bad fuel p = .noBlock q ∨ walk m bad fuel p = .endOfFile q) ∨
      walk m bad fuel p = .spinning := by
  induction fuel generalizing p with
  | zero => exact .inr (.inr rfl)
  | succ fuel ih =>
      unfold walk
      by_cases hend : m.ebcnt ≤ m.ebnum p
      · exact .inr (.inl ⟨.noBlock hend, p, .inl (if_pos hend)⟩)
      · have hin : m.ebnum p < m.ebcnt := not_le.mp hend
        rw [if_neg hend]
        cases hprobe : probe m bad p with
        | false => exact .inl ⟨p, .here hin hprobe, rfl⟩
        | true =>
            by_cases heof : m.size ≤ u64 (jump m p)
            · exact .inr (.inl ⟨.endOfFile hin hprobe heof, jump m p, .inr (by simp [heof])⟩)
            · have hlt : u64 (jump m p) < m.size := not_le.mp heof
              simp only [if_true, if_neg heof]
              rcases ih (jump m p) with ⟨x, hx, hwalk⟩ | ⟨hfails, hwalk⟩ | hspin
              · exact .inl ⟨x, .next hin hprobe hlt hx, hwalk⟩
              · exact .inr (.inl ⟨.next hin hprobe hlt hfails, hwalk⟩)
              · exact .inr (.inr hspin)

theorem SkipsTo.unique {p x y : Int} (hx : SkipsTo m bad p x) (hy : SkipsTo m bad p y) :
    x = y := by
  obtain ⟨rounds, hwalk⟩ := walk_of_skipsTo hx
  obtain ⟨rounds', hwalk'⟩ := walk_of_skipsTo hy
  have h := (hwalk (rounds + rounds') (by omega)).symm.trans (hwalk' (rounds + rounds') (by omega))
  exact (Skip.good.inj h).1

theorem SkipsTo.not_fails {p x : Int} (hx : SkipsTo m bad p x) : ¬ SkipFails m bad p := by
  intro hfails
  obtain ⟨rounds, hwalk⟩ := walk_of_skipsTo hx
  obtain ⟨rounds', q, hwalk'⟩ := walk_of_skipFails hfails
  have h := hwalk' (rounds + rounds') (by omega)
  rw [hwalk (rounds + rounds') (by omega)] at h
  rcases h with h | h <;> cases h

theorem SkipsTo.in_range {p x : Int} (h : SkipsTo m bad p x) : m.ebnum x < m.ebcnt := by
  induction h with
  | here hin _ => exact hin
  | next _ _ _ _ ih => exact ih

/-- From a position of the device the loop ends inside the device: a product
that wraps only makes the position smaller. -/
theorem SkipsTo.natCast {p x : Int} (h : SkipsTo m bad p x) {k : Nat} (hk : p = k)
    (hblock : k / m.erasesize ≤ m.blocks) (hbound : k < 18446744073709551616) :
    ∃ j : Nat, x = j ∧ j / m.erasesize < m.blocks := by
  have hblocks := m.blocks_lt
  rw [← Mtd.blocks] at hblocks
  induction h generalizing k with
  | here hin _ =>
      subst hk
      rw [Mtd.ebnum_natCast (by omega) hbound, m.ebcnt_eq] at hin
      exact ⟨k, rfl, by exact_mod_cast hin⟩
  | next hin _ _ _ ih =>
      subst hk
      rw [Mtd.ebnum_natCast (by omega) hbound, m.ebcnt_eq] at hin
      have hlt : k / m.erasesize < m.blocks := by exact_mod_cast hin
      refine ih rfl ?_ ((u32_lt _).trans (by omega))
      rw [Mtd.ebnum_natCast (by omega) hbound, ← Nat.cast_succ]
      refine (Nat.div_le_div_right (Mtd.ebAddr_le _)).trans ?_
      rw [Nat.mul_div_cancel _ m.erasesize_pos]
      exact hlt

/-! ## Devices below 4 GiB -/

/-- The position `x` is where a transfer at `p` starts: in a good block, with
the same good-block stream, at `p` itself or at the start of a later block. -/
structure Landing (m : Mtd) (bad : Nat → Bool) (p x : Nat) : Prop where
  le : p ≤ x
  block_lt : x / m.erasesize < m.blocks
  good : bad (x / m.erasesize) = false
  stream_eq : m.stream bad p = m.stream bad x
  aligned : x = p ∨ x % m.erasesize = 0

theorem Landing.lt_extent {p x : Nat} (h : Landing m bad p x) : x < m.extent :=
  m.lt_extent_iff.mpr h.block_lt

/-- The stream starts with the rest of the block of the landing. -/
theorem Landing.stream_split {p x : Nat} (h : Landing m bad p x) :
    m.stream bad p =
      List.range' x (m.erasesize - x % m.erasesize) ++ m.stream bad (m.blockEnd x) := by
  rw [h.stream_eq, Mtd.stream_of_good h.block_lt h.good]

theorem Landing.mem_stream {p x : Nat} (h : Landing m bad p x) : x ∈ m.stream bad p :=
  Mtd.mem_stream.mpr ⟨h.le, h.block_lt, h.good⟩

/-- A transfer at a good block starts where it is. -/
theorem Landing.eq_self {p x : Nat} (h : Landing m bad p x)
    (hgood : bad (p / m.erasesize) = false) : x = p := by
  have hlt : p / m.erasesize < m.blocks := (Nat.div_le_div_right h.le).trans_lt h.block_lt
  have hmem : p ∈ m.stream bad x := h.stream_eq ▸ Mtd.mem_stream.mpr ⟨le_rfl, hlt, hgood⟩
  exact le_antisymm (Mtd.mem_stream.mp hmem).1 h.le

/-- A landing after a jump over a bad block. -/
theorem Landing.of_bad {p x : Nat} (hp : p / m.erasesize < m.blocks)
    (hbad : bad (p / m.erasesize) = true) (h : Landing m bad (m.blockEnd p) x) :
    Landing m bad p x := by
  refine ⟨(m.lt_blockEnd p).le.trans h.le, h.block_lt, h.good, ?_, ?_⟩
  · rw [Mtd.stream_of_bad hp hbad, h.stream_eq]
  · rcases h.aligned with hx | hx
    · exact .inr (hx ▸ m.blockEnd_mod p)
    · exact .inr hx

theorem Landing.unique {p x x' : Nat} (h : Landing m bad p x) (h' : Landing m bad p x') :
    x = x' := by
  have hmem : x ∈ m.stream bad x' := h'.stream_eq ▸ h.mem_stream
  have hmem' : x' ∈ m.stream bad x := h.stream_eq ▸ h'.mem_stream
  exact le_antisymm (Mtd.mem_stream.mp hmem').1 (Mtd.mem_stream.mp hmem).1

/-- Where no good byte is left a transfer does not start. -/
theorem Landing.stream_ne_nil {p x : Nat} (h : Landing m bad p x) : m.stream bad p ≠ [] :=
  List.ne_nil_of_mem h.mem_stream

/-- A landing after a block end is the start of a block. -/
theorem Landing.aligned_next {x y : Nat} (h : Landing m bad (m.blockEnd x) y) :
    y % m.erasesize = 0 :=
  h.aligned.elim (fun heq => heq ▸ m.blockEnd_mod x) id

/-- The first bytes of the stream, when the block of the landing holds them all. -/
theorem Landing.take_within {p x n : Nat} (h : Landing m bad p x)
    (hfit : x % m.erasesize + n ≤ m.erasesize) :
    (m.stream bad p).take n = List.range' x n := by
  rw [h.stream_split, List.take_append_of_le_length (by rw [List.length_range']; omega),
    take_range' _ (by omega)]

/-- The first bytes of the stream, when they end in the next good block. -/
theorem Landing.take_jump {p x y first rest : Nat} (h : Landing m bad p x)
    (hfirst : first = m.erasesize - x % m.erasesize) (hy : Landing m bad (m.blockEnd x) y)
    (hrest : y % m.erasesize + rest ≤ m.erasesize) :
    (m.stream bad p).take (first + rest) = List.range' x first ++ List.range' y rest := by
  rw [h.stream_split, ← hfirst, List.take_append, List.length_range', Nat.add_sub_cancel_left,
    List.take_of_length_le (by rw [List.length_range']; omega), hy.take_within hrest]

section Small

variable (hsize : m.size < 4294967296)

include hsize

theorem probe_natCast {p : Nat} (hp : p / m.erasesize < m.blocks) :
    probe m bad p = bad (p / m.erasesize) := by
  have hlt : p < m.extent := m.lt_extent_iff.mpr hp
  have hext := m.extent_le_size
  have hle : p / m.erasesize * m.erasesize ≤ p := Nat.div_mul_le_self _ _
  have hblocks := m.blocks_lt
  rw [Mtd.blocks] at hp
  rw [probe, Mtd.ebnum_natCast (by omega) (by omega), Mtd.ebAddr_natCast (by omega),
    Nat.mul_div_cancel _ m.erasesize_pos]

theorem jump_natCast {p : Nat} (hp : p / m.erasesize < m.blocks) :
    jump m p = m.blockEnd p := by
  have hlt : p < m.extent := m.lt_extent_iff.mpr hp
  have hext := m.extent_le_size
  have hend := m.blockEnd_le_extent hp
  have hblocks := m.blocks_lt
  rw [Mtd.blocks] at hp
  rw [jump, Mtd.ebnum_natCast (by omega) (by omega), ← Nat.cast_succ, Nat.succ_eq_add_one,
    Mtd.ebAddr_natCast (by rw [Mtd.blockEnd] at hend; omega)]
  rfl

/-- The loop ends within the number of blocks, at the head of the stream. -/
theorem walk_spec {p fuel : Nat} (hq : p / m.erasesize < 2147483648)
    (hp : p < 18446744073709551616) (hfuel : m.blocks - p / m.erasesize < fuel) :
    (∃ x : Nat, walk m bad fuel p = .good x (x / m.erasesize : Nat) (m.blockoffset x) ∧
        Landing m bad p x) ∨
      (∃ q, walk m bad fuel p = .noBlock q ∨ walk m bad fuel p = .endOfFile q) ∧
        m.stream bad p = [] := by
  induction fuel generalizing p with
  | zero => omega
  | succ fuel ih =>
      unfold walk
      rw [m.ebcnt_eq, Mtd.ebnum_natCast hq hp]
      by_cases hend : m.blocks ≤ p / m.erasesize
      · rw [if_pos (by exact_mod_cast hend)]
        exact .inr ⟨⟨p, .inl rfl⟩, Mtd.stream_of_ge hend⟩
      · have hin : p / m.erasesize < m.blocks := not_le.mp hend
        rw [if_neg (by exact_mod_cast hend), probe_natCast hsize hin, jump_natCast hsize hin]
        cases hbad : bad (p / m.erasesize) with
        | false => exact .inl ⟨p, rfl, le_rfl, hin, hbad, rfl, .inl rfl⟩
        | true =>
            have hext := m.blockEnd_le_extent hin
            have hextSize := m.extent_le_size
            rw [u64_natCast (by omega), if_pos rfl, Mtd.stream_of_bad hin hbad]
            by_cases heof : m.size ≤ m.blockEnd p
            · rw [if_pos heof]
              -- no whole block starts at the end of the device
              refine .inr ⟨⟨_, .inr rfl⟩, Mtd.stream_of_ge ?_⟩
              by_contra hlt
              have := m.lt_extent_iff.mpr (not_le.mp hlt)
              omega
            · rw [if_neg heof]
              have hblocks := m.blocks_lt
              rw [Mtd.blocks] at hin hfuel
              rcases ih (p := m.blockEnd p) (by rw [m.blockEnd_div]; omega) (by omega)
                (by rw [m.blockEnd_div, Mtd.blocks]; omega) with ⟨x, hwalk, hx⟩ | hnone
              · exact .inl ⟨x, hwalk, hx.of_bad (by rw [Mtd.blocks]; omega) hbad⟩
              · exact .inr hnone

/-- The search from any position of the device. -/
theorem walk_of_le_size (bad : Nat → Bool) {fuel p : Nat} (hfuel : m.blocks < fuel)
    (hp : p ≤ m.size) :
    (∃ x : Nat, walk m bad fuel p = .good x (x / m.erasesize : Nat) (m.blockoffset x) ∧
        Landing m bad p x) ∨
      (∃ q, walk m bad fuel p = .noBlock q ∨ walk m bad fuel p = .endOfFile q) ∧
        m.stream bad p = [] := by
  have hquot : p / m.erasesize ≤ m.blocks := Nat.div_le_div_right hp
  have hblocks := m.blocks_lt
  rw [← Mtd.blocks] at hblocks
  exact walk_spec hsize (by omega) (by omega) ((Nat.sub_le _ _).trans_lt hfuel)

/-- The search from inside the device or the block after its last one, within any
bound. -/
theorem walk_of_div_le (bad : Nat → Bool) (fuel : Nat) {p : Nat}
    (hp : p / m.erasesize ≤ m.blocks) :
    (∃ x : Nat, walk m bad fuel p = .good x (x / m.erasesize : Nat) (m.blockoffset x) ∧
        Landing m bad p x) ∨
      (∃ q, walk m bad fuel p = .noBlock q ∨ walk m bad fuel p = .endOfFile q) ∨
        walk m bad fuel p = .spinning := by
  have hblocks := m.blocks_lt
  have hes := m.erasesize_lt
  have hext := m.extent_le_size
  have hlt := m.lt_of_div_le hp
  rw [← Mtd.blocks] at hblocks
  rcases walk_cases m bad fuel p with ⟨x, hx, hwalk⟩ | ⟨-, hnone⟩ | hspin
  · obtain ⟨rounds, hrounds⟩ := walk_of_skipsTo hx
    have hmore := hrounds (rounds + m.blocks).succ (by omega)
    have hbound : p < 18446744073709551616 := by omega
    have henough : m.blocks - p / m.erasesize < (rounds + m.blocks).succ :=
      (Nat.sub_le m.blocks _).trans_lt (Nat.lt_succ_of_le (Nat.le_add_left _ rounds))
    rcases @walk_spec m bad hsize p _ (hp.trans_lt hblocks) hbound henough with
      ⟨k, hk, hland⟩ | ⟨⟨q, hq⟩, -⟩
    · obtain ⟨rfl, hebnum, -⟩ := Skip.good.inj (hmore.symm.trans hk)
      rw [hebnum] at hwalk
      exact .inl ⟨k, hwalk, hland⟩
    · rw [hmore] at hq
      rcases hq with hq | hq <;> cases hq
  · exact .inr (.inl hnone)
  · exact .inr (.inr hspin)

end Small

end At91Drivers.Flash
