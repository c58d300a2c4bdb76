import At91Drivers.Ds18b20.Reading

/-!
# The sensor over a run of calls

From the load of the module on, the saved pair is that of the latest frame with a
good CRC.  A call swaps the bytes of its own frame before it saves them, so the
pair is in the same order whichever call it comes from.
-/

namespace At91Drivers.Ds18b20

open Effects Kernel

/-- The buffers when the module is loaded. -/
def loaded : Memory := fun _ => 0

/-- Calls one after the other: what each returns, and the buffer of its caller. -/
def calls : List Caller → Memory → List (Int × (Byte × Byte))
  | [], _ => []
  | c :: rest, mem =>
      let o := ds18b20Read.run machine ⟨c, mem⟩
      (o.1, o.2.user) :: calls rest o.2.memory

/-- The pair of the latest frame with a good CRC, its second byte first. -/
def latest (frames : List (Nat → Byte)) : Byte × Byte :=
  match (frames.filter fun f => crcOf 9 f = 0).getLast? with
  | some f => (f 1, f 0)
  | none => (0, 0)

/-- What a caller gets when the saved pair is `pair`. -/
def Caller.gets (c : Caller) (pair : Byte × Byte) : Int × (Byte × Byte) :=
  if c.uncopied = 0 then (0, pair) else (-EFAULT, c.torn)

/-- A good frame is the latest, a bad one changes nothing. -/
theorem latest_concat (frames : List (Nat → Byte)) (f : Nat → Byte) :
    latest (frames ++ [f]) = reading f (latest frames) := by
  unfold latest reading
  rw [List.filter_append]
  by_cases hgood : crcOf 9 f = 0
  · rw [if_pos hgood, List.filter_singleton, decide_eq_true hgood]
    simp only [cond_true, List.getLast?_append, List.getLast?_singleton, Option.some_or]
  · rw [if_neg hgood, List.filter_singleton, decide_eq_false hgood]
    simp only [cond_false, List.append_nil]

/-- One call. -/
theorem call_gets (c : Caller) (mem : Memory) :
    ((ds18b20Read.run machine ⟨c, mem⟩).1, (ds18b20Read.run machine ⟨c, mem⟩).2.user) =
        c.gets (reading (frame c.samples) mem.saved) ∧
      (ds18b20Read.run machine ⟨c, mem⟩).2.memory.saved =
        reading (frame c.samples) mem.saved := by
  obtain ⟨mem', hrun, hsaved⟩ := run_ds18b20Read ⟨c, mem⟩
  rw [hrun]
  refine ⟨?_, hsaved⟩
  unfold Caller.gets
  by_cases hcopied : c.uncopied = 0
  · rw [if_neg (not_not.mpr hcopied), if_pos hcopied, if_pos hcopied, hsaved]
  · rw [if_pos hcopied, if_neg hcopied, if_neg hcopied]

/-- Calls after the frames `past`. -/
theorem calls_get (callers : List Caller) {mem : Memory} {past : List (Nat → Byte)}
    (hmem : mem.saved = latest past) (k : Nat) :
    (calls callers mem)[k]? = callers[k]?.map fun c =>
      c.gets (latest (past ++ (callers.take (k + 1)).map fun c => frame c.samples)) := by
  induction callers generalizing mem past k with
  | nil => rfl
  | cons c rest ih =>
      obtain ⟨hgets, hsaved⟩ := call_gets c mem
      rw [hmem, ← latest_concat] at hgets hsaved
      cases k with
      | zero =>
          simp only [calls, List.getElem?_cons_zero, Option.map_some, List.take_succ_cons,
            List.take_zero, List.map_cons, List.map_nil]
          exact congrArg some hgets
      | succ k =>
          have hrest := ih hsaved k
          rw [List.append_assoc] at hrest
          exact hrest

/-- The `k`-th call gives its caller the pair of the latest good frame so far, or
(0, 0) before the first. -/
theorem calls_report_latest (callers : List Caller) (k : Nat) :
    (calls callers loaded)[k]? = callers[k]?.map fun c =>
      if c.uncopied = 0 then (0, latest ((callers.take (k + 1)).map fun c => frame c.samples))
      else (-EFAULT, c.torn) := by
  have hloaded : loaded.saved = latest [] := rfl
  exact calls_get callers hloaded k

end At91Drivers.Ds18b20
