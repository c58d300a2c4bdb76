import At91Drivers.Effects.Sharing
import At91Drivers.Ds18b20.Reading

/-!
# Two readers at once

The driver takes no lock: the frame that one call receives can be overwritten by
the other between its check and its copy to the user.  A race of two calls gives
whole readings when, wherever two of their steps conflict in the buffers, those
of one call come first.
-/

namespace At91Drivers.Ds18b20

open Effects Kernel

/-! ## Footprints -/

def Op.Reads : Op → Cell → Prop
  | .load c, a => a = c
  | .move _ src, a => a = src
  | .copyToUser, a => a = .tmpdata 0 ∨ a = .tmpdata 1
  | _, _ => False

def Op.Changes : Op → Cell → Prop
  | .store c _, a => a = c
  | .move dst _, a => a = dst
  | _, _ => False

/-- The machine as its two parts, the caller's own and the buffers. -/
def parts : Handler Op Reply (Caller × Memory) :=
  machine.within (fun s => ⟨s.1, s.2⟩) fun w _ => (w.toCaller, w.memory)

theorem run_parts {α : Type} (p : Wire α) (c : Caller) (mem : Memory) :
    p.run parts (c, mem) =
      ((p.run machine ⟨c, mem⟩).1, ((p.run machine ⟨c, mem⟩).2.toCaller,
        (p.run machine ⟨c, mem⟩).2.memory)) :=
  Prog.run_within machine (fun s : Caller × Memory => (⟨s.1, s.2⟩ : World))
    (fun w _ => (w.toCaller, w.memory)) (fun _ _ => rfl) (fun _ _ _ => rfl) (fun _ => rfl) p
    (c, mem)

theorem parts_footprint : Footprint parts Op.Reads Op.Changes where
  answer e c f f' hread := by
    cases e with
    | load a => exact ⟨hread a rfl, rfl⟩
    | copyToUser =>
        have hpair : Memory.pair f = Memory.pair f' :=
          Prod.ext (hread _ (.inl rfl)) (hread _ (.inr rfl))
        refine ⟨rfl, ?_⟩
        change ({ c with user := if c.uncopied = 0 then Memory.pair f else c.torn } : Caller) =
          { c with user := if c.uncopied = 0 then Memory.pair f' else c.torn }
        rw [hpair]
    | _ => exact ⟨rfl, rfl⟩
  agree e c f f' a hread ha := by
    cases e with
    | store b v =>
        change (if a = b then v else f a) = if a = b then v else f' a
        rw [ha]
    | move dst src =>
        change (if a = dst then f src else f a) = if a = dst then f' src else f' a
        rw [ha, hread src rfl]
    | _ => exact ha
  frame e c f a hnot := by
    cases e with
    | store b v => exact if_neg hnot
    | move dst src => exact if_neg hnot
    | _ => rfl

/-! ## Whole readings -/

/-- The pair is the initial one or that of one of the frames, with a good CRC. -/
def Whole (initial : Byte × Byte) (frames : List (Nat → Byte)) (pair : Byte × Byte) : Prop :=
  pair = initial ∨ ∃ f ∈ frames, crcOf 9 f = 0 ∧ pair = (f 1, f 0)

/-- Two calls operation by operation, in the order of the turns. -/
def readRace (turns : List Bool) (c d : Caller) (mem : Memory) :
    Option (Prog.Race Op Int Int (Shared Caller Cell Byte)) :=
  Prog.race parts.leftOf parts.rightOf turns ds18b20Read ds18b20Read ⟨c, d, mem⟩

variable {initial : Byte × Byte} {frames : List (Nat → Byte)} {f : Nat → Byte}
  {pair : Byte × Byte} {c d : Caller} {mem : Memory} {turns : List Bool}
  {o : Prog.Race Op Int Int (Shared Caller Cell Byte)}

theorem whole_reading (hf : f ∈ frames) (h : Whole initial frames pair) :
    Whole initial frames (reading f pair) := by
  unfold reading
  by_cases hgood : crcOf 9 f = 0
  · rw [if_pos hgood]
    exact .inr ⟨f, hf, hgood, rfl⟩
  · rwa [if_neg hgood]

/-- A call that is not disturbed gets a whole reading and leaves one. -/
theorem whole_call (c : Caller) (mem : Memory) (hf : frame c.samples ∈ frames)
    (h : Whole initial frames mem.saved) :
    ((ds18b20Read.run parts (c, mem)).1 = 0 →
      Whole initial frames (ds18b20Read.run parts (c, mem)).2.1.user) ∧
      Whole initial frames (Memory.saved (ds18b20Read.run parts (c, mem)).2.2) := by
  obtain ⟨mem', hrun, hsaved⟩ := run_ds18b20Read ⟨c, mem⟩
  have hwhole : Whole initial frames mem'.saved := by
    rw [hsaved]
    exact whole_reading hf h
  rw [run_parts, hrun]
  refine ⟨fun hret => ?_, hwhole⟩
  by_cases hcopied : c.uncopied = 0
  · have huser : (if c.uncopied = 0 then mem'.saved else c.torn) = mem'.saved := if_pos hcopied
    change Whole initial frames (if c.uncopied = 0 then mem'.saved else c.torn)
    rwa [huser]
  · have hfail : (if c.uncopied ≠ 0 then -EFAULT else 0) = -EFAULT := if_pos hcopied
    exact absurd (hfail.symm.trans hret) (by decide)

/-- A race with the left call first wherever the calls conflict. -/
theorem whole_leftFirst (hc : frame c.samples ∈ frames) (hd : frame d.samples ∈ frames)
    (hmem : Whole initial frames mem.saved) (h : readRace turns c d mem = some o)
    (hfirst : Prog.LeftFirst (Conflict Op.Reads Op.Changes) o.log) :
    (o.left = 0 → Whole initial frames o.state.left.user) ∧
      (o.right = 0 → Whole initial frames o.state.right.user) ∧
      Whole initial frames (Memory.saved o.state.common) := by
  obtain ⟨hleft, hright⟩ := Prog.race_leftFirst parts_footprint h hfirst
  have hfirstCall := whole_call c mem hc hmem
  have hsecondCall := whole_call d (ds18b20Read.run parts (c, mem)).2.2 hd hfirstCall.2
  rw [hright] at hsecondCall
  refine ⟨?_, hsecondCall⟩
  rw [hleft] at hfirstCall
  exact hfirstCall.1

/-- Both callers get whole readings, and a whole one stays saved, in every race in
which one of the calls comes first wherever the two conflict. -/
theorem race_whole (h : readRace turns c d mem = some o)
    (hserial : Prog.LeftFirst (Conflict Op.Reads Op.Changes) o.log ∨
      Prog.LeftFirst (Conflict Op.Reads Op.Changes) o.swap.log) :
    (o.left = 0 →
      Whole mem.saved [frame c.samples, frame d.samples] o.state.left.user) ∧
      (o.right = 0 →
        Whole mem.saved [frame c.samples, frame d.samples] o.state.right.user) ∧
      Whole mem.saved [frame c.samples, frame d.samples] (Memory.saved o.state.common) := by
  have hc : frame c.samples ∈ [frame c.samples, frame d.samples] := List.mem_cons_self
  have hd : frame d.samples ∈ [frame c.samples, frame d.samples] :=
    List.mem_cons_of_mem _ List.mem_cons_self
  rcases hserial with hfirst | hfirst
  · exact whole_leftFirst hc hd (.inl rfl) h hfirst
  · obtain ⟨hright, hleft, hsaved⟩ :=
      whole_leftFirst hd hc (.inl rfl) (Prog.race_symm h) hfirst
    exact ⟨hleft, hright, hsaved⟩

/-- A line at one level, for a caller whose copy succeeds. -/
def atLevel (high : Bool) : Caller := ⟨fun _ => high, (7, 7), 0, (7, 7)⟩

/-- A frame of zeros, which is good, and after it one of ones, which is bad. -/
theorem race_whole_one_after_other :
    ∃ o, readRace (List.replicate 1000 true ++ List.replicate 997 false) (atLevel false)
        (atLevel true) (fun _ => 0) = some o ∧
      (o.left = 0 → Whole (0, 0) [frame fun _ => false, frame fun _ => true] o.state.left.user) ∧
      (o.right = 0 → Whole (0, 0) [frame fun _ => false, frame fun _ => true] o.state.right.user) ∧
      Whole (0, 0) [frame fun _ => false, frame fun _ => true] (Memory.saved o.state.common) := by
  have hends : (readRace (List.replicate 1000 true ++ List.replicate 997 false) (atLevel false)
      (atLevel true) fun _ => 0).isSome = true := by decide +kernel
  obtain ⟨o, ho⟩ := Option.isSome_iff_exists.mp hends
  exact ⟨o, ho, race_whole ho (.inl (Prog.leftFirst_of_serial ho))⟩

/-- The second call receives its frame between the check and the swap of the
first: the first caller gets two ones, which are in no good frame. -/
theorem race_tears_reading :
    ¬ ∀ (c d : Caller) (turns : List Bool) (o : Prog.Race Op Int Int (Shared Caller Cell Byte)),
      readRace turns c d (fun _ => 0) = some o →
      (o.left = 0 → Whole (0, 0) [frame c.samples, frame d.samples] o.state.left.user) ∧
        (o.right = 0 → Whole (0, 0) [frame c.samples, frame d.samples] o.state.right.user) ∧
        Whole (0, 0) [frame c.samples, frame d.samples] (Memory.saved o.state.common) := by
  intro h
  have hends : (readRace (List.replicate 994 true ++ (List.replicate 985 false ++
      (List.replicate 6 true ++ List.replicate 12 false))) (atLevel false) (atLevel true)
      fun _ => 0).map (fun o => (o.left, o.state.left.user)) = some (0, (0xff, 0xff)) := by
    decide +kernel
  obtain ⟨o, ho, hret⟩ := Option.map_eq_some_iff.mp hends
  obtain ⟨hleft, huser⟩ := Prod.mk.inj hret
  obtain ⟨hwhole, -⟩ := h _ _ _ o ho
  rw [huser] at hwhole
  rcases hwhole hleft with hzero | ⟨f, hf, hgood, hpair⟩
  · exact absurd hzero (by decide)
  · rcases List.mem_pair.mp hf with rfl | rfl
    · exact absurd hpair (by decide)
    · exact absurd hgood (by decide)

end At91Drivers.Ds18b20
