import At91Drivers.Flash.Position
import At91Drivers.Flash.RoundTrip
import At91Drivers.Store.BlockFile

/-!
# The device as a file

The good blocks of the device, one after the other, are a file in blocks: whatever
the map of bad blocks is, the seeks and transfers of calls that stay inside the file
are steps of it.  A position of the device stands for the number of good bytes before
it.

```text
device   | good | bad  | good | good |
file     | 0..  |      | B..  | 2B.. |
```
-/

namespace At91Drivers.Flash

open Effects Arith Store

/-! ## Positions -/

/-- The number of good bytes before a position. -/
def Mtd.rank (m : Mtd) (bad : Nat → Bool) (p : Nat) : Nat :=
  (m.stream bad 0).length - (m.stream bad p).length

section Rank

variable {m : Mtd} {bad : Nat → Bool} {n p q x : Nat}

theorem stream_eq_drop (m : Mtd) (bad : Nat → Bool) (p : Nat) :
    m.stream bad p = (m.stream bad 0).drop (m.rank bad p) := by
  unfold Mtd.rank
  by_cases hp : p ≤ m.extent
  · have hsplit : m.stream bad 0 =
        addrs (fun a => !bad (a / m.erasesize)) 0 p ++ m.stream bad p :=
      addrs_split (Nat.zero_le p) hp
    rw [hsplit, List.length_append, Nat.add_sub_cancel, List.drop_left' rfl]
  · have hnil : m.stream bad p = [] := addrs_of_le (not_le.mp hp).le
    rw [hnil, List.length_nil, Nat.sub_zero, List.drop_length]

theorem rank_add_length (m : Mtd) (bad : Nat → Bool) (p : Nat) :
    m.rank bad p + (m.stream bad p).length = (m.stream bad 0).length := by
  have hlength := congrArg List.length (stream_eq_drop m bad p)
  rw [List.length_drop] at hlength
  unfold Mtd.rank at hlength ⊢
  omega

theorem rank_congr (h : m.stream bad q = m.stream bad p) : m.rank bad q = m.rank bad p := by
  rw [Mtd.rank, Mtd.rank, h]

/-- A position further on in the stream. -/
theorem rank_of_drop (h : m.stream bad q = (m.stream bad p).drop n)
    (hn : n ≤ (m.stream bad p).length) : m.rank bad q = m.rank bad p + n := by
  have hlength := congrArg List.length h
  rw [List.length_drop] at hlength
  have hp := rank_add_length m bad p
  have hq := rank_add_length m bad q
  omega

theorem dvd_length_stream (m : Mtd) (bad : Nat → Bool) (k : Nat) :
    m.erasesize ∣ (m.stream bad (k * m.erasesize)).length := by
  by_cases hk : k < m.blocks
  · have hdiv : k * m.erasesize / m.erasesize = k := Nat.mul_div_cancel _ m.erasesize_pos
    have hend : m.blockEnd (k * m.erasesize) = (k + 1) * m.erasesize := by
      rw [Mtd.blockEnd, hdiv]
    have hnext := dvd_length_stream m bad (k + 1)
    by_cases hbad : bad k = true
    · rw [Mtd.stream_of_bad (by rwa [hdiv]) (by rwa [hdiv]), hend]
      exact hnext
    · rw [Mtd.stream_of_good (by rwa [hdiv]) (by rw [hdiv]; exact Bool.eq_false_iff.mpr hbad),
        hend, Nat.mul_mod_left, Nat.sub_zero, List.length_append, List.length_range']
      exact (Nat.dvd_add_right (dvd_refl _)).mpr hnext
  · rw [Mtd.stream_of_ge (by rw [Nat.mul_div_cancel _ m.erasesize_pos]; omega), List.length_nil]
    exact dvd_zero _
termination_by m.blocks - k

/-- In a good block the file has the offsets of the device. -/
theorem rank_good (hx : x / m.erasesize < m.blocks) (hgood : bad (x / m.erasesize) = false) :
    ∃ s, m.rank bad x = m.erasesize * s + x % m.erasesize ∧
      m.rank bad (m.blockEnd x) = m.erasesize * (s + 1) := by
  obtain ⟨t, ht⟩ := dvd_length_stream m bad 0
  obtain ⟨l, hl⟩ := dvd_length_stream m bad (x / m.erasesize + 1)
  have hmod := Nat.mod_lt x m.erasesize_pos
  have hlength : (m.stream bad x).length = m.erasesize - x % m.erasesize + m.erasesize * l := by
    rw [Mtd.stream_of_good hx hgood, List.length_append, List.length_range', Mtd.blockEnd, hl]
  rw [Nat.zero_mul] at ht
  have hrank := rank_add_length m bad x
  have hend := rank_add_length m bad (m.blockEnd x)
  rw [Mtd.blockEnd, hl, ht] at hend
  rw [hlength, ht] at hrank
  have hlt : l < t := by
    refine Nat.lt_of_mul_lt_mul_left (a := m.erasesize) ?_
    omega
  obtain ⟨s, rfl⟩ := Nat.exists_eq_add_of_lt hlt
  refine ⟨s, ?_, ?_⟩
  · rw [Nat.mul_add, Nat.mul_add, Nat.mul_one] at hrank
    omega
  · rw [Mtd.blockEnd]
    rw [Nat.mul_add, Nat.mul_add, Nat.mul_one] at hend
    rw [Nat.mul_add, Nat.mul_one]
    omega

/-- A block further on: as far in the file, or at the end of the block when the next
one is bad or there is none. -/
theorem rank_add_block (hx : x / m.erasesize < m.blocks) (hgood : bad (x / m.erasesize) = false) :
    m.rank bad (x + m.erasesize) = m.rank bad x + m.erasesize ∨
      m.rank bad (x + m.erasesize) = m.rank bad (m.blockEnd x) := by
  have hdiv : (x + m.erasesize) / m.erasesize = x / m.erasesize + 1 :=
    Nat.add_div_right _ m.erasesize_pos
  have hdiv' : m.blockEnd x / m.erasesize = x / m.erasesize + 1 := m.blockEnd_div x
  have hend : m.blockEnd (m.blockEnd x) = m.blockEnd (x + m.erasesize) := by
    rw [Mtd.blockEnd, hdiv', Mtd.blockEnd, hdiv]
  by_cases hnext : x / m.erasesize + 1 < m.blocks
  · cases hbad : bad (x / m.erasesize + 1) with
    | true =>
        right
        apply rank_congr
        calc m.stream bad (x + m.erasesize)
            = m.stream bad (m.blockEnd (x + m.erasesize)) :=
              Mtd.stream_of_bad (by rwa [hdiv]) (by rwa [hdiv])
          _ = m.stream bad (m.blockEnd (m.blockEnd x)) := by rw [hend]
          _ = m.stream bad (m.blockEnd x) :=
              (Mtd.stream_of_bad (by rwa [hdiv']) (by rwa [hdiv'])).symm
    | false =>
        left
        have hthis := congrArg List.length (Mtd.stream_of_good hx hgood)
        have hlater := congrArg List.length (Mtd.stream_of_good (p := x + m.erasesize)
          (by rwa [hdiv]) (by rwa [hdiv]))
        have hblock := congrArg List.length (Mtd.stream_of_good (p := m.blockEnd x)
          (by rwa [hdiv']) (by rwa [hdiv']))
        rw [List.length_append, List.length_range'] at hthis hlater hblock
        rw [Nat.add_mod_right] at hlater
        rw [m.blockEnd_mod, Nat.sub_zero, hend] at hblock
        have hrank := rank_add_length m bad x
        have hrank' := rank_add_length m bad (x + m.erasesize)
        omega
  · right
    apply rank_congr
    rw [Mtd.stream_of_ge (by omega), Mtd.stream_of_ge (by omega)]

end Rank

/-! ## Contents -/

/-- The bytes of the good blocks in order. -/
def Mtd.contents (m : Mtd) (bad : Nat → Bool) (flash : Nat → Byte) : List Byte :=
  (m.stream bad 0).map flash

/-- The file that the device is, with the position of an open one. -/
def Mtd.file (m : Mtd) (bad : Nat → Bool) (flash : Nat → Byte) (p : Nat) : BlockFile Byte where
  contents := m.contents bad flash
  cursor := m.rank bad p
  inside := by
    have hrank := rank_add_length m bad p
    rw [Mtd.contents, List.length_map]
    omega

section Contents

variable {m : Mtd} {bad : Nat → Bool} {w : World} {buf n p : Nat} {r : Ret}
  {flash flash' : Nat → Byte}

theorem take_contents (m : Mtd) (bad : Nat → Bool) (flash : Nat → Byte) (p n : Nat) :
    ((m.contents bad flash).drop (m.rank bad p)).take n = ((m.stream bad p).take n).map flash := by
  rw [Mtd.contents, ← List.map_drop, ← List.map_take, ← stream_eq_drop]

theorem nodup_stream (m : Mtd) (bad : Nat → Bool) (p : Nat) : (m.stream bad p).Nodup :=
  List.Nodup.filter _ List.nodup_range'

/-- The data of a transfer at `buf`. -/
def userData (user : Nat → Byte) (buf n : Nat) : List Byte :=
  (List.range n).map fun i => user (buf + i)

@[simp] theorem length_userData (user : Nat → Byte) (buf n : Nat) :
    (userData user buf n).length = n := by
  simp [userData]

/-- A buffer that starts with the data. -/
theorem map_splice_start (kbuf src : Nat → Byte) {size : Nat} (hn : n ≤ size) :
    (List.range size).map (splice kbuf 0 n src) =
      (List.range n).map src ++ userData kbuf n (size - n) := by
  obtain ⟨k, rfl⟩ := Nat.exists_eq_add_of_le hn
  rw [map_range_add, Nat.add_sub_cancel_left, userData]
  congr 1
  · refine List.map_congr_left fun i hi => ?_
    rw [splice_of_mem (Nat.zero_le i) (by simpa using hi), Nat.sub_zero]
  · exact List.map_congr_left fun i _ => splice_of_ge (by omega)

/-- Data stored in the stream, and nothing else changed. -/
theorem contents_overwrite {data : List Byte} (hlength : data.length = n)
    (hstored : ((m.stream bad p).take n).map flash' = data)
    (hframe : ∀ a, a ∉ (m.stream bad p).take n → flash' a = flash a) :
    m.contents bad flash' = overwrite (m.rank bad p) data (m.contents bad flash) := by
  have hdrop := stream_eq_drop m bad p
  have hnodup := nodup_stream m bad 0
  rw [hdrop] at hstored hframe
  unfold Mtd.contents overwrite
  generalize m.stream bad 0 = all at hstored hframe hnodup ⊢
  generalize m.rank bad p = start at hstored hframe ⊢
  have hsplit : all = all.take start ++ ((all.drop start).take n ++ all.drop (start + n)) := by
    rw [← List.drop_drop, List.take_append_drop, List.take_append_drop]
  rw [hsplit] at hnodup
  obtain ⟨-, hlater, hdisjoint⟩ := List.nodup_append'.mp hnodup
  obtain ⟨-, -, hdisjoint'⟩ := List.nodup_append'.mp hlater
  have hbefore : (all.take start).map flash' = (all.take start).map flash := by
    refine List.map_congr_left fun a ha => hframe a fun ha' => ?_
    exact hdisjoint ha (List.mem_append_left _ ha')
  have hbehind : (all.drop (start + n)).map flash' = (all.drop (start + n)).map flash := by
    refine List.map_congr_left fun a ha => hframe a fun ha' => ?_
    exact hdisjoint' ha' ha
  calc all.map flash'
      = (all.take start).map flash' ++
          (((all.drop start).take n).map flash' ++ (all.drop (start + n)).map flash') := by
        rw [← List.map_append, ← List.map_append, ← hsplit]
    _ = (all.take start).map flash ++ (data ++ (all.drop (start + n)).map flash) := by
        rw [hbefore, hstored, hbehind]
    _ = (all.map flash).take start ++ data ++ (all.map flash).drop (start + data.length) := by
        rw [hlength, List.map_take, List.map_drop, List.append_assoc]

/-- Where a write leaves the file position. -/
theorem WriteDone.leaves (h : WriteDone m bad w buf n p r flash) (hes : n ≤ m.erasesize)
    (hlen : n ≤ (m.stream bad p).length) :
    ∃ q : Nat, r.ppos = q ∧
      BlockFile.Leaves m.erasesize (m.rank bad p) n (m.rank bad q) := by
  -- a write that stays in the block of its landing
  have hstays {x : Nat} (hx : Landing m bad p x) (hfit : x % m.erasesize + n ≤ m.erasesize) :
      BlockFile.Leaves m.erasesize (m.rank bad p) n (m.rank bad (x + m.erasesize)) := by
    obtain ⟨s, hrank, hend⟩ := rank_good hx.block_lt hx.good
    have hmod := Nat.mod_lt x m.erasesize_pos
    have hoffset : m.rank bad x % m.erasesize = x % m.erasesize := by
      rw [hrank, Nat.mul_add_mod, Nat.mod_mod]
    have hquot : m.rank bad x / m.erasesize = s := by
      rw [hrank, Nat.mul_add_div m.erasesize_pos, Nat.div_eq_of_lt hmod, Nat.add_zero]
    rw [rank_congr hx.stream_eq, BlockFile.Leaves, hoffset, if_neg (by omega), hquot,
      Nat.mul_comm (s + 1), ← hend]
    exact rank_add_block hx.block_lt hx.good
  cases h with
  | first hx _ =>
      have hleaves := hstays hx (by rw [Nat.zero_mod]; omega)
      rw [Nat.zero_add] at hleaves
      exact ⟨m.erasesize, rfl, hleaves⟩
  | within hx _ hfit => exact ⟨_, by push_cast; rfl, hstays hx hfit⟩
  | @jump x y first rest hx _ hfirst hrest hpos hy =>
      obtain ⟨s, hrank, -⟩ := rank_good hx.block_lt hx.good
      have hmod := Nat.mod_lt x m.erasesize_pos
      have hoffset : m.rank bad x % m.erasesize = x % m.erasesize := by
        rw [hrank, Nat.mul_add_mod, Nat.mod_mod]
      have hdrop : m.stream bad (y + rest) = (m.stream bad p).drop (first + rest) :=
        hx.drop_jump hfirst hy (by rw [hy.aligned_next]; omega)
      rw [← hrest] at hdrop
      refine ⟨y + rest, by push_cast; rfl, ?_⟩
      rw [BlockFile.Leaves, rank_of_drop hdrop hlen, if_pos]
      rw [rank_congr hx.stream_eq, hoffset]
      omega

/-- A completed write is a step of the file. -/
theorem WriteDone.step (h : WriteDone m bad w buf n p r flash) (hes : n ≤ m.erasesize)
    (hlen : n ≤ (m.stream bad p).length) :
    ∃ q : Nat, r.ppos = q ∧
      BlockFile.Step m.erasesize (m.file bad w.flash p)
        (.write (m.rank bad p) (userData w.user buf n)) (m.file bad flash q) := by
  obtain ⟨q, hq, hleaves⟩ := h.leaves hes hlen
  have hrank := rank_add_length m bad p
  have hlength : (m.contents bad w.flash).length = (m.stream bad 0).length := List.length_map ..
  refine ⟨q, hq, ?_⟩
  by_cases hzero : WriteDone.AtZero bad p
  · -- block 0 is programmed with what the buffer holds
    obtain ⟨kbuf, -, hx, rfl⟩ := h.flash_atZero hzero
    have hstream : m.stream bad 0 =
        List.range' 0 m.erasesize ++ m.stream bad (m.blockEnd 0) := by
      have hsplit := hx.stream_split
      rwa [hx.stream_eq, Nat.zero_mod, Nat.sub_zero] at hsplit
    have hstart : m.rank bad p = 0 := by
      rw [rank_congr hx.stream_eq, Mtd.rank, Nat.sub_self]
    have hsize : m.erasesize ≤ (m.contents bad w.flash).length := by
      rw [hlength, hstream, List.length_append, List.length_range']
      omega
    have hblock : (userData w.user buf n).length + (userData kbuf n (m.erasesize - n)).length =
        m.erasesize := by
      rw [length_userData, length_userData]
      omega
    have hstored : ((m.stream bad p).take m.erasesize).map
        (splice w.flash 0 m.erasesize (splice kbuf 0 n fun i => w.user (buf + i))) =
          userData w.user buf n ++ userData kbuf n (m.erasesize - n) := by
      rw [hx.take_within (by rw [Nat.zero_mod, Nat.zero_add]), map_splice]
      exact map_splice_start kbuf _ hes
    have hcontents := contents_overwrite (List.length_append.trans hblock) hstored
      fun a ha => splice_of_not_mem fun hmem => ha ?_
    · rw [hstart] at hleaves hcontents ⊢
      exact .spoil hstart hblock hsize hcontents (by rwa [length_userData])
    · rw [hx.take_within (by rw [Nat.zero_mod, Nat.zero_add]), List.mem_range'_1]
      exact hmem
  · have hstored := h.stored hes
    have hframe : ∀ a, a ∉ (m.stream bad p).take n → flash a = w.flash a :=
      fun a ha => h.frame hes hzero ha
    refine .write ?_ ?_ ?_
    · rw [length_userData]
      change m.rank bad p + n ≤ (m.contents bad w.flash).length
      omega
    · exact contents_overwrite (length_userData _ _ _) hstored hframe
    · rwa [length_userData]

/-- A read that delivered its bytes is one too. -/
theorem ReadDone.step {w' : World} (h : ReadDone m bad w buf n p r w')
    (hlen : n ≤ (m.stream bad p).length) :
    ∃ q : Nat, r.ppos = q ∧
      BlockFile.Step m.erasesize (m.file bad w.flash p)
        (.read (m.rank bad p) (userData w'.user buf n)) (m.file bad w'.flash q) := by
  obtain ⟨q, hq, -, hstream⟩ := h.position
  refine ⟨q, hq, ?_⟩
  have hdata : userData w'.user buf n =
      ((m.contents bad w.flash).drop (m.rank bad p)).take n := by
    rw [take_contents, ← h.stored]
    rfl
  have hcontents : (m.file bad w'.flash q).contents = (m.file bad w.flash p).contents := by
    rw [h.flash_eq]
    rfl
  rw [hdata]
  exact .read hcontents (rank_of_drop hstream hlen)

end Contents

/-! ## Calls -/

/-- A transfer of `n` bytes at `p` that stays inside the file. -/
def Transfer.Fits (m : Mtd) (bad : Nat → Bool) (n p : Nat) (t : Transfer) : Prop :=
  0 < n ∧ n ≤ m.erasesize ∧ (t = .read → n ≤ maxKmallocSize) ∧ n ≤ (m.stream bad p).length

/-- What a transfer at `p` moves: for a read it is in the memory after it, for a
write in the memory before it. -/
def Transfer.label (m : Mtd) (bad : Nat → Bool) (buf n p : Nat) (before after : Nat → Byte) :
    Transfer → Label Byte
  | .read => .read (m.rank bad p) (userData after buf n)
  | .write => .write (m.rank bad p) (userData before buf n)

/-- The position that the ioctl seeks. -/
def FlashData.target (m : Mtd) (karg : FlashData) (fPos : Int) : Int :=
  (at91flashLseek m fPos karg.offset.toInt 0).ppos

namespace FileCall

variable (m : Mtd) (bad : Nat → Bool)

/-- A call without failures whose transfer, if it makes one, stays inside the file. -/
structure Fits (c : FileCall) (fPos : Int) : Prop where
  faultFree : c.caller.FaultFree
  userOk : c.caller.UserOk
  read : ∀ buf count, c.call = .read buf count → Transfer.read.Fits m bad count fPos.toNat
  write : ∀ buf count, c.call = .write buf count → Transfer.write.Fits m bad count fPos.toNat
  ioctl : ∀ cmd karg (t : Transfer), c.call = .ioctl cmd → c.caller.arg = some karg →
    iocNr cmd = t.nr → t.Fits m bad (u32 karg.len.toInt) (karg.target m fPos).toNat

/-- The seeks and transfers of the call. -/
def labels (c : FileCall) (fPos : Int) (user : Nat → Byte) : List (Label Byte) :=
  match c.call with
  | .lseek offset orig => [.seek (m.rank bad (at91flashLseek m fPos offset orig).ppos.toNat)]
  | .read buf count => [Transfer.read.label m bad buf count fPos.toNat c.caller.user user]
  | .write buf count => [Transfer.write.label m bad buf count fPos.toNat c.caller.user user]
  | .ioctl cmd =>
      match c.caller.arg with
      | none => []
      | some karg =>
          let transfer (t : Transfer) : List (Label Byte) :=
            [.seek (m.rank bad (karg.target m fPos).toNat),
              t.label m bad karg.pbuf (u32 karg.len.toInt) (karg.target m fPos).toNat
                c.caller.user user]
          if iocNr cmd = 1 then transfer .read else if iocNr cmd = 2 then transfer .write else []

end FileCall

/-- The calls one after the other: their seeks and transfers, the last position and
the flash they leave. -/
def fileCalls (m : Mtd) (bad : Nat → Bool) (fuel : Nat) :
    List FileCall → Int → (Nat → Byte) → Option (List (Label Byte) × Int × (Nat → Byte))
  | [], fPos, flash => some ([], fPos, flash)
  | c :: rest, fPos, flash =>
      match c.run m bad fuel fPos flash with
      | (none, _) => none
      | (some r, w') =>
          (fileCalls m bad fuel rest r.ppos w'.flash).map fun out =>
            (c.labels m bad fPos w'.user ++ out.1, out.2)

/-- Every call of the run fits where it is. -/
def CallsFit (m : Mtd) (bad : Nat → Bool) (fuel : Nat) :
    List FileCall → Int → (Nat → Byte) → Prop
  | [], _, _ => True
  | c :: rest, fPos, flash =>
      c.Fits m bad fPos ∧
        match c.run m bad fuel fPos flash with
        | (none, _) => True
        | (some r, w') => CallsFit m bad fuel rest r.ppos w'.flash

section Calls

variable {m : Mtd} {bad : Nat → Bool} {fuel buf n p : Nat} {w : World} {t : Transfer}
  {flash : Nat → Byte} (hsize : m.size < 4294967296) (hfuel : m.blocks < fuel)

include hsize hfuel

/-- A transfer that fits ends, and is a step of the file. -/
theorem Transfer.Fits.step (hfits : t.Fits m bad n p) (buf : Nat) (hw : w.FaultFree)
    (huser : w.UserOk) :
    ∃ r w', ∃ q : Nat, (t.body m fuel buf n p).run (device m bad) w = (some r, w') ∧ r.ppos = q ∧
      BlockFile.Step m.erasesize (m.file bad w.flash p)
        (t.label m bad buf n p w.user w'.user) (m.file bad w'.flash q) := by
  obtain ⟨hpos, hes, hk, hlen⟩ := hfits
  cases t with
  | read =>
      obtain ⟨r, w', hrun, hdone⟩ := read_enough bad buf hsize hw huser hpos hes (hk rfl) hlen hfuel
      obtain ⟨q, hq, hstep⟩ := hdone.step hlen
      exact ⟨r, w', q, hrun, hq, hstep⟩
  | write =>
      obtain ⟨r, w', hrun, hdone⟩ := writeDone_of_enough buf hsize hw huser hpos hes hlen hfuel
      obtain ⟨q, hq, hstep⟩ := hdone.step hes hlen
      exact ⟨r, w', q, hrun, hq, hstep⟩

omit hsize hfuel in
theorem lseek_natCast (p : Nat) (offset orig : Int) :
    ∃ q : Nat, (at91flashLseek m p offset orig).ppos = q := by
  rcases lseek_cases m p offset orig with h | ⟨q, h, -⟩
  · exact ⟨p, h⟩
  · exact ⟨q, h⟩

omit hsize hfuel in
/-- A seek is a step of the file. -/
theorem step_seek (p q : Nat) :
    BlockFile.Step m.erasesize (m.file bad flash p) (.seek (m.rank bad q))
      (m.file bad flash q) := by
  have hcontents : (m.file bad flash q).contents = (m.file bad flash p).contents := rfl
  exact .seek hcontents

/-- A call that fits ends, and its seeks and transfers are steps of the file. -/
theorem FileCall.Fits.steps {c : FileCall} (hfits : c.Fits m bad p) (flash : Nat → Byte) :
    ∃ r w', ∃ q : Nat, c.run m bad fuel p flash = (some r, w') ∧ r.ppos = q ∧
      BlockFile.Steps m.erasesize (m.file bad flash p) (c.labels m bad p w'.user)
        (m.file bad w'.flash q) := by
  obtain ⟨call, caller, hsized⟩ := c
  cases call with
  | lseek offset orig =>
      obtain ⟨q, hq⟩ := lseek_natCast (m := m) p offset orig
      refine ⟨_, ⟨caller, flash⟩, q, rfl, hq, ?_⟩
      simp only [labels, hq, Int.toNat_natCast]
      exact .cons (step_seek p q) .nil
  | read buf count =>
      have hfit := hfits.read buf count rfl
      obtain ⟨r, w', q, hrun, hq, hstep⟩ :=
        hfit.step hsize hfuel (w := ⟨caller, flash⟩) buf hfits.faultFree hfits.userOk
      exact ⟨r, w', q, hrun, hq, .cons hstep .nil⟩
  | write buf count =>
      have hfit := hfits.write buf count rfl
      obtain ⟨r, w', q, hrun, hq, hstep⟩ :=
        hfit.step hsize hfuel (w := ⟨caller, flash⟩) buf hfits.faultFree hfits.userOk
      exact ⟨r, w', q, hrun, hq, .cons hstep .nil⟩
  | ioctl cmd =>
      cases harg : caller.arg with
      | none =>
          refine ⟨_, ⟨caller, flash⟩, p, run_ioctl_noArg harg, rfl, ?_⟩
          simp only [labels, harg]
          exact .nil
      | some karg =>
          by_cases hcmd : ∃ t : Transfer, iocNr cmd = t.nr
          · obtain ⟨t, ht⟩ := hcmd
            obtain ⟨q₀, hq₀⟩ := lseek_natCast (m := m) p karg.offset.toInt 0
            have hfit := hfits.ioctl cmd karg t rfl harg ht
            rw [FlashData.target, hq₀, Int.toNat_natCast] at hfit
            obtain ⟨r, w₁, q, hbody, hq, hstep⟩ :=
              hfit.step hsize hfuel (w := ⟨caller, flash⟩) karg.pbuf hfits.faultFree
                hfits.userOk
            rw [← hq₀] at hbody
            obtain ⟨w', hrun, hflash, huser⟩ := run_at91flashIoctl ht harg hbody
            refine ⟨_, w', q, hrun, hq, ?_⟩
            have hlabels : labels m bad ⟨.ioctl cmd, caller, hsized⟩ p w'.user =
                [.seek (m.rank bad q₀), t.label m bad karg.pbuf (u32 karg.len.toInt) q₀
                  caller.user w₁.user] := by
              simp only [labels, harg, FlashData.target, hq₀, Int.toNat_natCast, huser]
              cases t with
              | read => exact if_pos ht
              | write => exact (if_neg (by rw [ht]; decide)).trans (if_pos ht)
            rw [hlabels, hflash]
            exact .cons (step_seek p q₀) (.cons hstep .nil)
          · have hnot := not_exists.mp hcmd
            refine ⟨_, ⟨caller, flash⟩, p, run_ioctl_other harg hnot, rfl, ?_⟩
            have hread : iocNr cmd ≠ 1 := hnot .read
            have hwrite : iocNr cmd ≠ 2 := hnot .write
            simp only [labels, harg, if_neg hread, if_neg hwrite]
            exact .nil

/-- The calls of a run are the steps of the file one after the other. -/
theorem calls_steps (bad : Nat → Bool) {calls : List FileCall} {p : Nat}
    {flash : Nat → Byte} (hfits : CallsFit m bad fuel calls p flash) :
    ∃ labels flash', ∃ q : Nat,
      fileCalls m bad fuel calls p flash = some (labels, (q : Int), flash') ∧
      BlockFile.Steps m.erasesize (m.file bad flash p) labels (m.file bad flash' q) := by
  induction calls generalizing p flash with
  | nil => exact ⟨[], flash, p, rfl, .nil⟩
  | cons c rest ih =>
      obtain ⟨hfirst, hrest⟩ := hfits
      obtain ⟨r, w', q, hrun, hq, hsteps⟩ := hfirst.steps hsize hfuel flash
      rw [hrun] at hrest
      dsimp only at hrest
      rw [hq] at hrest
      obtain ⟨labels, flash', q', hcalls, hlater⟩ := ih hrest
      refine ⟨c.labels m bad p w'.user ++ labels, flash', q', ?_, hsteps.append hlater⟩
      unfold fileCalls
      rw [hrun]
      dsimp only
      rw [hq, hcalls]
      rfl

/-- Whatever blocks are bad, calls that stay inside the file all end, and their seeks
and transfers are steps of the file.  So every byte that a read hands over is the
last one written at its place in the file, and the first one if none was; but a
write at the start of the file that ends inside the first block spoils the rest of
the block. -/
theorem calls_refine_file (bad : Nat → Bool) {calls : List FileCall} {p : Nat}
    {flash : Nat → Byte} (hfits : CallsFit m bad fuel calls p flash) :
    ∃ labels flash', ∃ q : Nat,
      fileCalls m bad fuel calls p flash = some (labels, (q : Int), flash') ∧
      BlockFile.Steps m.erasesize (m.file bad flash p) labels (m.file bad flash' q) ∧
      ∀ before start data after i, labels = before ++ .read start data :: after →
        i < data.length → (∀ l ∈ before, l.Spares m.erasesize (start + i)) →
          data[i]? = latest before (start + i) (m.contents bad flash)[start + i]? := by
  obtain ⟨labels, flash', q, hcalls, hsteps⟩ := calls_steps hsize hfuel bad hfits
  refine ⟨labels, flash', q, hcalls, hsteps, ?_⟩
  rintro before start data after i rfl hi hspares
  exact hsteps.read_latest hi hspares

end Calls

/-! ## A small device -/

theorem CallsFit.cons {m : Mtd} {bad : Nat → Bool} {fuel : Nat} {c : FileCall}
    {rest : List FileCall} {fPos : Int} {flash : Nat → Byte} {r : Ret}
    (hfits : c.Fits m bad fPos) (hrun : (c.run m bad fuel fPos flash).1 = some r)
    (hrest : CallsFit m bad fuel rest r.ppos (c.run m bad fuel fPos flash).2.flash) :
    CallsFit m bad fuel (c :: rest) fPos flash := by
  refine ⟨hfits, ?_⟩
  generalize c.run m bad fuel fPos flash = out at hrun hrest
  obtain ⟨r', w'⟩ := out
  obtain rfl : r' = some r := hrun
  exact hrest

/-- A call of a caller with the numbers from 0 on in its memory, who makes no
ioctl. -/
def counting (call : Call) (hsized : call.Sized) : FileCall :=
  ⟨call, (quiet (fun i => UInt8.ofNat i) (fun _ => 0) (fun _ => 9)).toCaller, hsized⟩

theorem counting_fits {call : Call} {hsized : call.Sized} {p : Nat}
    (hread : ∀ buf n, call = .read buf n → Transfer.read.Fits fourBlocks (· == 2) n p)
    (hwrite : ∀ buf n, call = .write buf n → Transfer.write.Fits fourBlocks (· == 2) n p) :
    (counting call hsized).Fits fourBlocks (· == 2) p where
  faultFree := quiet_faultFree _ (fun _ => 0) _
  userOk := quiet_userOk _ (fun _ => 0) _
  read := hread
  write := hwrite
  ioctl _ _ _ _ harg _ := by cases harg

/-- Three bytes written at 6, across the bad block 2, and read back. -/
def writeAndReadBack : List FileCall :=
  [counting (.lseek 6 0) trivial, counting (.write 1 3) (by change 3 < 4294967296; decide),
    counting (.lseek 6 0) trivial, counting (.read 20 3) (by change 3 < 4294967296; decide)]

theorem writeAndReadBack_fits :
    CallsFit fourBlocks (· == 2) 5 writeAndReadBack (0 : Nat) (fun _ => 7) := by
  have hthree (t : Transfer) : t.Fits fourBlocks (· == 2) 3 6 := by
    refine ⟨by decide, by decide, fun _ => by decide, by decide +kernel⟩
  have hseek (p : Nat) {hsized : (Call.lseek 6 0).Sized} :
      (counting (.lseek 6 0) hsized).Fits fourBlocks (· == 2) p :=
    counting_fits (fun _ _ h => by cases h) fun _ _ h => by cases h
  have hsought (fPos : Int) (flash : Nat → Byte) : ((counting (.lseek 6 0) trivial).run fourBlocks
      (· == 2) 5 fPos flash).1 = some ⟨6, (6 : Nat)⟩ := by
    change some (at91flashLseek fourBlocks fPos 6 0) = _
    rw [lseek_set, if_pos (by decide +kernel)]
    decide +kernel
  have hwritten : ((counting (.write 1 3) (by change 3 < 4294967296; decide)).run fourBlocks (· == 2)
      5 (6 : Nat) fun _ => 7).1 = some ⟨3, (13 : Nat)⟩ := by decide +kernel
  refine .cons (r := ⟨6, (6 : Nat)⟩) (hseek 0) (hsought _ _) (.cons (r := ⟨3, (13 : Nat)⟩) ?_
    hwritten (.cons (r := ⟨6, (6 : Nat)⟩) (hseek 13) (hsought _ _) ⟨?_, ?_⟩))
  · exact counting_fits (fun _ _ h => by cases h) fun _ _ h => by cases h; exact hthree .write
  · exact counting_fits (fun _ _ h => by cases h; exact hthree .read) fun _ _ h => by cases h
  · split <;> trivial

theorem calls_refine_file_writeAndReadBack :
    ∃ labels flash', ∃ q : Nat,
      fileCalls fourBlocks (· == 2) 5 writeAndReadBack (0 : Nat) (fun _ => 7) =
        some (labels, (q : Int), flash') ∧
      BlockFile.Steps 4 (fourBlocks.file (· == 2) (fun _ => 7) 0) labels
        (fourBlocks.file (· == 2) flash' q) ∧
      ∀ before start data after i, labels = before ++ .read start data :: after →
        i < data.length → (∀ l ∈ before, l.Spares 4 (start + i)) →
          data[i]? = latest before (start + i) (fourBlocks.contents (· == 2) fun _ => 7)[start + i]? :=
  calls_refine_file (by decide) (by decide) _ writeAndReadBack_fits

end At91Drivers.Flash
