import At91Drivers.Adc.Balance
import At91Drivers.Adc.Sampling
import At91Drivers.Effects.Clients

/-!
# Reads during a load of the ADC driver

The device is registered before the rings are allocated, and deregistered after
they are freed, so a read may find a ring that is not there.  It finds a ring as
it should be exactly between the end of the loop that clears the rings and the
`kfree` of the ring.
-/

namespace At91Drivers.Adc.Life

open Effects Kernel

/-! ## Reads next to a load -/

/-- A read may start as soon as the device is registered, until it is
deregistered. -/
def readRules : Pool.Rules Op Reply Adc.Op Adc.Reply Int where
  calls p := p = at91adcRead
  opens := Between .miscRegister (0 : Int) .miscDeregister

abbrev LoadPool := Pool Op Reply Int World Adc.Op Adc.Reply Int

/-- A load next to reads, after some other loads and unloads. -/
structure Opening (w : World) (requests : List (Request Outcomes)) (o : Outcomes)
    (P : LoadPool) : Prop where
  unloaded : (adcModule.run w.boot requests).loaded = false
  reached : Pool.Reaches machine readRules at91adcInit
    ((adcModule.run w.boot requests).world.fresh o) P

/-- The ring is allocated, and all of its cells are written. -/
def Prepared (w : World) : Adc.Op → Prop
  | .cell k _ => ∃ a, w.pbuf k = some a ∧ .buffer a ∈ w.ledger.held ∧
      ∀ j < maxAdcSamples, (w.cells a j).isSome
  | .copyToUser _ => True

/-- The ring was cleared, and not freed since. -/
def InTime (past : List (Event Op Reply)) : Adc.Op → Prop
  | .cell k _ => (∀ j < maxAdcSamples, Did past (.clearCell k j)) ∧ ¬ Did past (.freeBuf k)
  | .copyToUser _ => True

/-! ## The buffers -/

variable {w w' : World} {past : List (Event Op Reply)} {e : Op}

/-- The buffers of the kernel are in order. -/
def Orderly (w : World) : Prop := w.ledger.Orderly .buffer w.next

theorem buffer_injective : Function.Injective Resource.buffer := fun _ _ h => Resource.buffer.inj h

/-- What the operations that are not about the rings leave as it is. -/
structure SameRings (w w' : World) : Prop where
  pbuf : w'.pbuf = w.pbuf
  cells : w'.cells = w.cells
  next : w.next ≤ w'.next
  count : ∀ a, w'.ledger.held.count (.buffer a) = w.ledger.held.count (.buffer a)

theorem SameRings.refl (w : World) : SameRings w w := ⟨rfl, rfl, le_rfl, fun _ => rfl⟩

theorem sameRings_acquire {r : Resource} (hr : ∀ a, r ≠ .buffer a) (w : World) :
    SameRings w (w.acquire r) := by
  refine ⟨rfl, rfl, le_rfl, fun a => ?_⟩
  change (w.ledger.acquire r).held.count _ = _
  rw [Ledger.count_acquire, if_neg (hr a).symm, Nat.add_zero]

theorem sameRings_release {r : Resource} (hr : ∀ a, r ≠ .buffer a) (w : World) :
    SameRings w (w.release r) :=
  ⟨rfl, rfl, le_rfl, fun a => w.ledger.count_release_of_ne (hr a).symm⟩

theorem sameRings_mapBase (w : World) (p : Peripheral) : SameRings w (w.mapBase p) := by
  unfold World.mapBase
  split
  · refine ⟨rfl, rfl, Nat.le_succ _, fun a => ?_⟩
    change (w.ledger.acquire _).held.count _ = _
    rw [Ledger.count_acquire, if_neg (by simp), Nat.add_zero]
  · exact ⟨rfl, rfl, le_rfl, fun _ => rfl⟩

theorem sameRings_unmapBase (w : World) (p : Peripheral) : SameRings w (w.unmapBase p) := by
  unfold World.unmapBase
  split
  · exact sameRings_release (fun a => by simp) w
  · exact SameRings.refl w

/-- The operations that are not about the rings. -/
def Op.Aside : Op → Prop
  | .allocBuf _ | .bufIsNull _ | .freeBuf _ | .clearCell _ _ => False
  | _ => True

theorem sameRings_machine (he : e.Aside) (w : World) : SameRings w (machine e w).2 := by
  cases e with
  | miscRegister =>
      change SameRings w (if w.coming.misc = 0 then w.acquire .misc else w)
      split
      · exact sameRings_acquire (fun a => by simp) w
      · exact SameRings.refl w
  | miscDeregister => exact sameRings_release (fun a => by simp) w
  | allocBuf k => exact he.elim
  | bufIsNull k => exact he.elim
  | freeBuf k => exact he.elim
  | clearIndex => exact ⟨rfl, rfl, le_rfl, fun _ => rfl⟩
  | clearCell k j => exact he.elim
  | clkEnable p => exact sameRings_acquire (fun a => by simp) w
  | clkDisable p => exact sameRings_release (fun a => by simp) w
  | mapBase p => exact sameRings_mapBase w p
  | baseIsNull p => exact SameRings.refl w
  | unmapBase p => exact sameRings_unmapBase w p
  | requestIrq =>
      change SameRings w (if w.coming.irq = 0 then w.acquire .irq else w)
      split
      · exact sameRings_acquire (fun a => by simp) w
      · exact SameRings.refl w
  | freeIrq => exact sameRings_release (fun a => by simp) w

theorem Orderly.of_same (h : Orderly w) (hsame : SameRings w w') : Orderly w' :=
  h.of_count hsame.next hsame.count

/-! ### Each operation on a ring -/

theorem Orderly.allocBuf (h : Orderly w) (k : Nat) : Orderly (w.allocBuf k) := by
  unfold World.allocBuf
  split
  · exact h.take buffer_injective
  · exact h

theorem Orderly.freeBuf (h : Orderly w) (k : Nat) : Orderly (w.freeBuf k) := by
  unfold World.freeBuf
  split
  · exact h.release _
  · exact h

theorem Orderly.clearCell (h : Orderly w) (k j : Nat) : Orderly (w.clearCell k j) := by
  unfold World.clearCell
  split <;> exact h

theorem orderly_machine (e : Op) (w : World) (h : Orderly w) : Orderly (machine e w).2 := by
  cases e with
  | allocBuf k => exact h.allocBuf k
  | bufIsNull k => exact h
  | freeBuf k => exact h.freeBuf k
  | clearCell k j => exact h.clearCell k j
  | _ => exact h.of_same (sameRings_machine (by trivial) w)

/-- After any loads and unloads. -/
theorem orderly_run (w : World) (requests : List (Request Outcomes)) :
    Orderly (adcModule.run w.boot requests).world := by
  have hall : adcModule.Loads w.boot (fun _ => True) requests := fun _ _ _ _ => trivial
  apply hall.run (I := fun st => Orderly st.world)
  · exact Ledger.orderly_empty
  · intro st o hst hloaded _
    have hfresh : Orderly (st.world.fresh o) := hst
    rw [adcModule.step_load o hloaded]
    exact Prog.run_preserves machine orderly_machine at91adcInit hfresh
  · intro st hst hloaded
    rw [adcModule.step_unload hloaded]
    exact Prog.run_preserves machine orderly_machine at91adcExit hst

/-! ## What the history of a load says about its rings -/

/-- The rings as the history has them: the memory of a ring is held until the
ring is freed, and its cells are written as they are cleared. -/
structure Kept (past : List (Event Op Reply)) (w : World) : Prop where
  orderly : Orderly w
  addr_lt : ∀ k a, w.pbuf k = some a → a < w.next
  unique : ∀ k k' a, w.pbuf k = some a → w.pbuf k' = some a → k = k'
  live : ∀ k a, w.pbuf k = some a → (.buffer a ∈ w.ledger.held ↔ ¬ Did past (.freeBuf k))
  written : ∀ k a j, w.pbuf k = some a → ((w.cells a j).isSome ↔ Did past (.clearCell k j))
  checked : ∀ k, (⟨.bufIsNull k, false⟩ : Event Op Reply) ∈ past → (w.pbuf k).isSome
  cleared : ∀ k j, Did past (.clearCell k j) → (⟨.bufIsNull k, false⟩ : Event Op Reply) ∈ past

/-- What a load asks for, and when: a ring is allocated first of all, and
cleared only when it was found to be there. -/
def InOrder (past : List (Event Op Reply)) : Op → Prop
  | .allocBuf k => ∀ event ∈ past, event.1 = .miscRegister ∨
      ∃ k', k' ≠ k ∧ event.1 = .allocBuf k'
  | .clearCell k _ => (⟨.bufIsNull k, false⟩ : Event Op Reply) ∈ past
  | _ => True

theorem Kept.aside (h : Kept past w) (he : e.Aside) (r : Reply e) :
    Kept (past ++ [⟨e, r⟩]) (machine e w).2 := by
  have hsame := sameRings_machine he w
  have hfree (k : Nat) : e ≠ .freeBuf k := fun heq => by
    subst heq
    exact he
  have hclear (k j : Nat) : e ≠ .clearCell k j := fun heq => by
    subst heq
    exact he
  have hnull (k : Nat) (hmem : (⟨.bufIsNull k, false⟩ : Event Op Reply) ∈ past ++ [⟨e, r⟩]) :
      (⟨.bufIsNull k, false⟩ : Event Op Reply) ∈ past := by
    rcases List.mem_append.mp hmem with hmem | hmem
    · exact hmem
    · cases List.mem_singleton.mp hmem
      exact he.elim
  have hheld (a : Nat) : .buffer a ∈ (machine e w).2.ledger.held ↔ .buffer a ∈ w.ledger.held := by
    rw [← Multiset.count_pos, ← Multiset.count_pos, hsame.count]
  refine ⟨h.orderly.of_same hsame, fun k a ha => ?_, fun k k' a ha ha' => ?_, fun k a ha => ?_,
    fun k a j ha => ?_, fun k hk => ?_, fun k j hk => ?_⟩
  · rw [hsame.pbuf] at ha
    exact (h.addr_lt k a ha).trans_le hsame.next
  · rw [hsame.pbuf] at ha ha'
    exact h.unique k k' a ha ha'
  · rw [hsame.pbuf] at ha
    rw [hheld, did_concat, or_iff_left (hfree k)]
    exact h.live k a ha
  · rw [hsame.pbuf] at ha
    rw [hsame.cells, did_concat, or_iff_left (hclear k j)]
    exact h.written k a j ha
  · rw [hsame.pbuf]
    exact h.checked k (hnull k hk)
  · rw [did_concat, or_iff_left (hclear k j)] at hk
    exact List.mem_append_left _ (h.cleared k j hk)

theorem Kept.bufIsNull (h : Kept past w) (k : Nat) :
    Kept (past ++ [⟨.bufIsNull k, (w.pbuf k).isNone⟩]) w := by
  refine ⟨h.orderly, h.addr_lt, h.unique, fun k' a ha => ?_, fun k' a j ha => ?_,
    fun k' hk' => ?_, fun k' j hk' => ?_⟩
  · rw [did_concat, or_iff_left (by simp)]
    exact h.live k' a ha
  · rw [did_concat, or_iff_left (by simp)]
    exact h.written k' a j ha
  · rcases List.mem_append.mp hk' with hmem | hmem
    · exact h.checked k' hmem
    · have hevent := List.mem_singleton.mp hmem
      simp only [Sigma.mk.injEq, Op.bufIsNull.injEq] at hevent
      obtain ⟨rfl, hreply⟩ := hevent
      simpa using (eq_of_heq hreply).symm
  · rw [did_concat, or_iff_left (by simp)] at hk'
    exact List.mem_append_left _ (h.cleared k' j hk')

theorem Kept.freeBuf (h : Kept past w) (k : Nat) :
    Kept (past ++ [⟨.freeBuf k, ()⟩]) (w.freeBuf k) := by
  have hcells : (w.freeBuf k).cells = w.cells := by
    unfold World.freeBuf
    split <;> rfl
  have hnext : (w.freeBuf k).next = w.next := by
    unfold World.freeBuf
    split <;> rfl
  refine ⟨h.orderly.freeBuf k, fun k' a ha => ?_, fun k₁ k₂ a h₁ h₂ => ?_, fun k' a ha => ?_,
    fun k' a j ha => ?_, fun k' hk' => ?_, fun k' j hk' => ?_⟩
  · rw [pbuf_freeBuf] at ha
    rw [hnext]
    exact h.addr_lt k' a ha
  · rw [pbuf_freeBuf] at h₁ h₂
    exact h.unique k₁ k₂ a h₁ h₂
  · rw [pbuf_freeBuf] at ha
    rw [did_concat]
    by_cases hsame : k' = k
    · subst hsame
      have hfreed : w.freeBuf k' = w.release (.buffer a) := by
        unfold World.freeBuf
        rw [ha]
      rw [hfreed]
      exact iff_of_false (h.orderly.notMem_release a) (not_not.mpr (.inr rfl))
    · rw [or_iff_left (by simpa using fun heq : k = k' => hsame heq.symm), ← h.live k' a ha]
      unfold World.freeBuf
      split
      · rename_i a₀ ha₀
        have hne : a ≠ a₀ := fun heq => hsame (h.unique k' k a ha (heq ▸ ha₀))
        exact w.ledger.mem_release_of_ne (buffer_injective.ne hne)
      · exact Iff.rfl
  · rw [pbuf_freeBuf] at ha
    rw [hcells, did_concat, or_iff_left (by simp)]
    exact h.written k' a j ha
  · rw [pbuf_freeBuf]
    exact h.checked k' (by simpa using hk')
  · rw [did_concat, or_iff_left (by simp)] at hk'
    exact List.mem_append_left _ (h.cleared k' j hk')

theorem Kept.clearCell (h : Kept past w) {k : Nat} (j : Nat)
    (hk : (⟨.bufIsNull k, false⟩ : Event Op Reply) ∈ past) :
    Kept (past ++ [⟨.clearCell k j, ()⟩]) (w.clearCell k j) := by
  obtain ⟨a₀, ha₀⟩ := Option.isSome_iff_exists.mp (h.checked k hk)
  have hclear : w.clearCell k j =
      { w with cells := Function.update w.cells a₀ (Function.update (w.cells a₀) j (some 0)) } := by
    unfold World.clearCell
    rw [ha₀]
  rw [hclear]
  refine ⟨h.orderly, h.addr_lt, h.unique, fun k' a ha => ?_,
    fun k' a j' ha => ?_, fun k' hk' => ?_, fun k' j' hk' => ?_⟩
  · rw [did_concat, or_iff_left (by simp)]
    exact h.live k' a ha
  · rw [did_concat]
    by_cases haddr : a = a₀
    · obtain rfl : k' = k := h.unique k' k a ha (haddr ▸ ha₀)
      subst haddr
      dsimp only
      rw [Function.update_self]
      by_cases hj : j' = j
      · subst hj
        rw [Function.update_self]
        exact iff_of_true rfl (.inr rfl)
      · rw [Function.update_of_ne hj, or_iff_left (by simpa using fun heq : j = j' => hj heq.symm)]
        exact h.written k' a j' ha
    · have hne : k ≠ k' := fun heq => haddr (by
        subst heq
        exact Option.some.inj (ha.symm.trans ha₀))
      dsimp only
      rw [Function.update_of_ne haddr, or_iff_left (by simp [hne])]
      exact h.written k' a j' ha
  · exact h.checked k' (by simpa using hk')
  · rw [did_concat] at hk'
    refine List.mem_append_left _ ?_
    rcases hk' with hk' | heq
    · exact h.cleared k' j' hk'
    · cases heq
      exact hk

/-- The ring allocated has a new buffer, held and not written; the others have
the buffers that they had. -/
theorem buffer_allocBuf {k k' a : Nat} (h : (w.allocBuf k).pbuf k' = some a) :
    w.pbuf k' = some a ∨ k' = k ∧ a = w.next ∧ a < (w.allocBuf k).next ∧
      .buffer a ∈ (w.allocBuf k).ledger.held ∧ ∀ j, (w.allocBuf k).cells a j = none := by
  by_cases hkk : k' = k
  · subst hkk
    rw [pbuf_allocBuf] at h
    split at h
    · rename_i hgiven
      obtain rfl := Option.some.inj h
      unfold World.allocBuf
      rw [if_pos hgiven]
      refine .inr ⟨rfl, rfl, Nat.lt_succ_self _, Multiset.mem_cons_self _ _, fun j => ?_⟩
      dsimp only
      rw [Function.update_self]
    · cases h
  · rw [pbuf_allocBuf_of_ne w hkk] at h
    exact .inl h

theorem next_le_allocBuf (w : World) (k : Nat) : w.next ≤ (w.allocBuf k).next := by
  unfold World.allocBuf
  split
  · exact Nat.le_succ _
  · exact le_rfl

theorem held_allocBuf {r : Resource} (h : r ∈ w.ledger.held) (k : Nat) :
    r ∈ (w.allocBuf k).ledger.held := by
  unfold World.allocBuf
  split
  · exact Multiset.mem_cons_of_mem h
  · exact h

theorem cells_allocBuf {a : Nat} (ha : a < w.next) (k : Nat) :
    (w.allocBuf k).cells a = w.cells a := by
  unfold World.allocBuf
  split
  · exact Function.update_of_ne ha.ne _ _
  · rfl

/-- When a ring is allocated, only the registration and other allocations have
been asked for. -/
theorem InOrder.not_did {k : Nat} (hk : InOrder past (.allocBuf k)) (hmisc : e ≠ .miscRegister)
    (halloc : ∀ k', e ≠ .allocBuf k') : ¬ Did past e := by
  rintro ⟨event, hevent, rfl⟩
  rcases hk event hevent with heq | ⟨k', -, heq⟩
  · exact hmisc heq
  · exact halloc k' heq

theorem Kept.allocBuf (h : Kept past w) {k : Nat} (hk : InOrder past (.allocBuf k)) :
    Kept (past ++ [⟨.allocBuf k, ()⟩]) (w.allocBuf k) := by
  have hfree (k' : Nat) : ¬ Did (past ++ [⟨.allocBuf k, ()⟩] : List (Event Op Reply))
      (.freeBuf k') := by
    rw [did_concat, or_iff_left (by simp)]
    exact hk.not_did (by simp) (by simp)
  have hclear (k' j : Nat) : ¬ Did (past ++ [⟨.allocBuf k, ()⟩] : List (Event Op Reply))
      (.clearCell k' j) := by
    rw [did_concat, or_iff_left (by simp)]
    exact hk.not_did (by simp) (by simp)
  have hchecked (k' : Nat) : (⟨.bufIsNull k', false⟩ : Event Op Reply) ∉
      past ++ [⟨.allocBuf k, ()⟩] := by
    intro hmem
    have hmem' : (⟨.bufIsNull k', false⟩ : Event Op Reply) ∈ past := by simpa using hmem
    exact hk.not_did (by simp) (by simp) ⟨_, hmem', rfl⟩
  refine ⟨h.orderly.allocBuf k, fun k' a ha => ?_, fun k₁ k₂ a h₁ h₂ => ?_, fun k' a ha => ?_,
    fun k' a j ha => ?_, fun k' hk' => absurd hk' (hchecked k'),
    fun k' j hk' => absurd hk' (hclear k' j)⟩
  · rcases buffer_allocBuf ha with ha | ⟨-, -, hlt, -⟩
    · exact (h.addr_lt k' a ha).trans_le (next_le_allocBuf w k)
    · exact hlt
  · rcases buffer_allocBuf h₁ with h₁ | ⟨rfl, hnew, -⟩
    · rcases buffer_allocBuf h₂ with h₂ | ⟨-, hnew, -⟩
      · exact h.unique k₁ k₂ a h₁ h₂
      · exact absurd hnew (h.addr_lt k₁ a h₁).ne
    · rcases buffer_allocBuf h₂ with h₂ | ⟨rfl, -⟩
      · exact absurd hnew (h.addr_lt k₂ a h₂).ne
      · rfl
  · refine iff_of_true ?_ (hfree k')
    rcases buffer_allocBuf ha with ha | ⟨-, -, -, hheld, -⟩
    · exact held_allocBuf ((h.live k' a ha).mpr (hk.not_did (by simp) (by simp))) k
    · exact hheld
  · refine iff_of_false ?_ (hclear k' j)
    rcases buffer_allocBuf ha with ha | ⟨-, -, -, -, hcells⟩
    · rw [cells_allocBuf (h.addr_lt k' a ha), h.written k' a j ha]
      exact hk.not_did (by simp) (by simp)
    · rw [hcells]
      exact Bool.false_ne_true

theorem Kept.step (h : Kept past w) (he : InOrder past e) :
    Kept (past ++ [⟨e, (machine e w).1⟩]) (machine e w).2 := by
  cases e with
  | allocBuf k => exact h.allocBuf he
  | bufIsNull k => exact h.bufIsNull k
  | freeBuf k => exact h.freeBuf k
  | clearCell k j => exact h.clearCell j he
  | _ => exact h.aside (by trivial) _

/-! ## The order of a load -/

/-- The operations that may be asked for at any time. -/
def Op.Unordered : Op → Prop
  | .allocBuf _ | .clearCell _ _ => False
  | _ => True

theorem inOrder_of_unordered (past : List (Event Op Reply)) (e : Op) (he : e.Unordered) :
    InOrder past e := by
  cases e with
  | allocBuf k => exact he.elim
  | clearCell k j => exact he.elim
  | _ => trivial

theorem unordered_freeBufs (ks : List Nat) : (freeBufs ks).Asks Op.Unordered := by
  induction ks with
  | nil => trivial
  | cons k ks ih => exact ⟨trivial, fun _ => ih⟩

theorem unordered_exit3 (ret : Int) : (exit3 ret).Asks Op.Unordered :=
  (unordered_freeBufs channels).bind fun _ => ⟨trivial, fun _ => trivial⟩

theorem unordered_exit4 (ret : Int) : (exit4 ret).Asks Op.Unordered :=
  ⟨trivial, fun _ => unordered_exit3 ret⟩

theorem unordered_exit5 (ret : Int) : (exit5 ret).Asks Op.Unordered :=
  ⟨trivial, fun _ => ⟨trivial, fun _ => unordered_exit4 ret⟩⟩

theorem unordered_exit6 (ret : Int) : (exit6 ret).Asks Op.Unordered :=
  ⟨trivial, fun _ => unordered_exit5 ret⟩

theorem unordered_startTimer : startTimer.Asks Op.Unordered := by
  refine ⟨trivial, fun _ => ⟨trivial, fun _ => ⟨trivial, fun failed => ?_⟩⟩⟩
  change Prog.Asks _ (if failed = true then _ else _)
  split
  · exact unordered_exit5 _
  · refine ⟨trivial, fun ret => ?_⟩
    change Prog.Asks _ (if _ then _ else _)
    split
    · exact unordered_exit6 _
    · trivial

theorem unordered_startAdc : startAdc.Asks Op.Unordered := by
  refine ⟨trivial, fun _ => ⟨trivial, fun _ => ⟨trivial, fun failed => ?_⟩⟩⟩
  change Prog.Asks _ (if failed = true then _ else _)
  split
  · exact unordered_exit4 _
  · exact unordered_startTimer

/-- The rings are allocated each once, before anything else is done to them. -/
theorem meets_allocBufs {ks : List Nat} (hnodup : ks.Nodup)
    {past : List (Event Op Reply)} (hpast : ∀ event ∈ past, event.1 = .miscRegister ∨
      ∃ k', k' ∉ ks ∧ event.1 = .allocBuf k') :
    (allocBufs ks).Meets (fun _ _ => True) InOrder (fun _ _ => True) past := by
  induction ks generalizing past with
  | nil => trivial
  | cons k ks ih =>
      obtain ⟨hk, hnodup'⟩ := List.nodup_cons.mp hnodup
      refine ⟨fun event hevent => ?_, fun r _ => ih hnodup' fun event hevent => ?_⟩
      · refine (hpast event hevent).imp_right fun ⟨k', hk', heq⟩ => ⟨k', ?_, heq⟩
        exact fun hsame => hk' (hsame ▸ List.mem_cons_self)
      · rcases List.mem_append.mp hevent with hevent | hevent
        · refine (hpast event hevent).imp_right fun ⟨k', hk', heq⟩ => ⟨k', ?_, heq⟩
          exact fun hmem => hk' (List.mem_cons_of_mem k hmem)
        · obtain rfl := List.mem_singleton.mp hevent
          exact .inr ⟨k, hk, rfl⟩

theorem meets_anyNull (ks : List Nat) (past : List (Event Op Reply)) :
    (anyNull ks).Meets (fun _ _ => True) InOrder (fun past failed => failed = false →
      ∀ k ∈ ks, (⟨.bufIsNull k, false⟩ : Event Op Reply) ∈ past) past := by
  induction ks generalizing past with
  | nil => exact fun _ k hk => absurd hk List.not_mem_nil
  | cons k ks ih =>
      refine ⟨trivial, fun failed _ => ?_⟩
      change Prog.Meets _ _ _ (if failed = true then _ else _) _
      cases failed with
      | true => exact fun hfalse => absurd hfalse Bool.noConfusion
      | false =>
          have hrest := ih (past ++ [⟨.bufIsNull k, false⟩])
          refine hrest.mono ?_
          intro later failed h hfalse k' hk'
          rcases List.mem_cons.mp hk' with rfl | hk'
          · simp
          · exact h hfalse k' hk'

theorem meets_clearCells {cells : List (Nat × Nat)} {past : List (Event Op Reply)}
    (hpast : ∀ kj ∈ cells, (⟨.bufIsNull kj.1, false⟩ : Event Op Reply) ∈ past) :
    (clearCells cells).Meets (fun _ _ => True) InOrder (fun _ _ => True) past := by
  induction cells generalizing past with
  | nil => trivial
  | cons kj rest ih =>
      refine ⟨hpast kj List.mem_cons_self, fun r _ => ih fun kj' hkj' => ?_⟩
      exact List.mem_append_left _ (hpast kj' (List.mem_cons_of_mem kj hkj'))

/-- The rings are cleared only when all of them were found to be there. -/
theorem meets_cleared {cells : List (Nat × Nat)} {past : List (Event Op Reply)}
    (hpast : ∀ kj ∈ cells, (⟨.bufIsNull kj.1, false⟩ : Event Op Reply) ∈ past) :
    (do ask .clearIndex; clearCells cells; startAdc : Driver Int).Meets (fun _ _ => True) InOrder
      (fun _ _ => True) past := by
  refine ⟨trivial, fun r _ => ?_⟩
  change Prog.Meets _ _ _ (clearCells cells >>= fun _ => startAdc) _
  rw [Prog.meets_bind]
  have hcells : (clearCells cells).Meets (fun _ _ => True) InOrder (fun _ _ => True)
      (past ++ [⟨.clearIndex, r⟩]) :=
    meets_clearCells fun kj hkj => List.mem_append_left _ (hpast kj hkj)
  exact hcells.mono fun later _ _ => unordered_startAdc.meets inOrder_of_unordered _

theorem meets_at91adcInit :
    at91adcInit.Meets (fun _ _ => True) InOrder (fun _ _ => True) [] := by
  refine ⟨trivial, fun ret _ => ?_⟩
  change Prog.Meets _ _ _ (if _ then _ else _) _
  split
  · trivial
  · rw [Prog.meets_bind]
    have halloc : (allocBufs channels).Meets (fun _ _ => True) InOrder (fun _ _ => True)
        [⟨.miscRegister, ret⟩] := by
      apply meets_allocBufs (by decide)
      intro event hevent
      obtain rfl := List.mem_singleton.mp hevent
      exact .inl rfl
    refine halloc.mono fun later _ _ => ?_
    rw [Prog.meets_bind]
    refine (meets_anyNull channels _).mono fun later' failed hnull => ?_
    split
    · exact (unordered_exit3 _).meets inOrder_of_unordered _
    · rename_i hfailed
      refine meets_cleared fun kj hkj => ?_
      have hmem : kj.1 ∈ channels := (mem_ringCells.mp hkj).1
      exact hnull (Bool.eq_false_iff.mpr hfailed) kj.1 hmem

/-! ## When a read finds its rings -/

theorem kept_fresh (w : World) (requests : List (Request Outcomes)) (o : Outcomes) :
    Kept [] ((adcModule.run w.boot requests).world.fresh o) := by
  have horderly : Orderly ((adcModule.run w.boot requests).world.fresh o) := orderly_run w requests
  have hnone (k a : Nat) : ((adcModule.run w.boot requests).world.fresh o).pbuf k ≠ some a := by
    intro ha
    cases ha
  exact ⟨horderly, fun k a ha => absurd ha (hnone k a),
    fun k _ a ha => absurd ha (hnone k a), fun k a ha => absurd ha (hnone k a),
    fun k a _ ha => absurd ha (hnone k a), fun _ hk => absurd hk List.not_mem_nil,
    fun _ _ hk => absurd hk (not_did_nil _)⟩

/-- A ring is as it should be just when the history says so. -/
theorem prepared_iff_inTime (h : Kept past w) (c : Adc.Op) : Prepared w c ↔ InTime past c := by
  cases c with
  | copyToUser buf => exact Iff.rfl
  | cell k j =>
      constructor
      · rintro ⟨a, ha, hheld, hcells⟩
        exact ⟨fun j hj => (h.written k a j ha).mp (hcells j hj), (h.live k a ha).mp hheld⟩
      · rintro ⟨hcleared, hkept⟩
        have hchecked := h.cleared k 0 (hcleared 0 maxAdcSamples_pos)
        obtain ⟨a, ha⟩ := Option.isSome_iff_exists.mp (h.checked k hchecked)
        exact ⟨a, ha, (h.live k a ha).mpr hkept,
          fun j hj => (h.written k a j ha).mpr (hcleared j hj)⟩

/-- The reads of a load find their rings prepared just when each of their loads
comes after the clearing of the rings and before the `kfree`. -/
theorem opening_prepared_iff {requests : List (Request Outcomes)} {o : Outcomes} {P : LoadPool}
    (hP : Opening w requests o P) :
    (∀ u ∈ P.moments, Prepared u.state u.op) ↔ ∀ u ∈ P.moments, InTime u.past u.op := by
  have hkept := Pool.Reaches.invariant meets_at91adcInit (kept_fresh w requests o)
    (fun past e s hs he => hs.step he) hP.reached
  exact forall₂_congr fun u hu => prepared_iff_inTime (hkept u hu) u.op

/-! ## All interleavings of a load -/

/-- The registration is the first step, and the last one when it fails. -/
theorem trace_at91adcInit (hmisc : w.coming.misc ≠ 0) :
    at91adcInit.trace machine w = [⟨.miscRegister, -(w.coming.misc : Int)⟩] := by
  have hne : -(w.coming.misc : Int) ≠ 0 := by omega
  change _ :: Prog.trace machine (if -(w.coming.misc : Int) ≠ 0 then _ else _) _ = _
  rw [if_pos hne]
  rfl

/-- A read begins with the load of a cell. -/
theorem exists_first_cell :
    ∃ (k j : Nat) (next : UInt16 → Adc.Reader Int), at91adcRead = .op (.cell k j) next := by
  have hmem : (0, 0) ∈ ringCells := mem_ringCells.mpr ⟨by decide, maxAdcSamples_pos⟩
  obtain ⟨⟨k, j⟩, rest, hcells⟩ := List.exists_cons_of_ne_nil (List.ne_nil_of_mem hmem)
  unfold at91adcRead sumLoop
  rw [hcells]
  exact ⟨k, j, _, rfl⟩

/-- A read finds a ring that is not there, as soon as the device is registered. -/
theorem exists_unprepared {requests : List (Request Outcomes)} {o : Outcomes}
    (hunloaded : (adcModule.run w.boot requests).loaded = false) (hmisc : o.misc = 0) :
    ∃ P, Opening w requests o P ∧ ∃ u ∈ P.moments, ¬ Prepared u.state u.op := by
  obtain ⟨k, j, next, hread⟩ := exists_first_cell
  obtain ⟨rest, hinit⟩ : ∃ rest, at91adcInit = .op .miscRegister rest := ⟨_, rfl⟩
  let start := (adcModule.run w.boot requests).world.fresh o
  have hzero : (machine .miscRegister start).1 = (0 : Int) := by
    change -((o.misc : Nat) : Int) = 0
    rw [hmisc]
    rfl
  have hopen : readRules.opens [⟨.miscRegister, (machine .miscRegister start).1⟩] := by
    rw [hzero]
    exact between_singleton _ (by simp)
  obtain ⟨P, hP, hmoment⟩ : ∃ P, Pool.Reaches machine readRules (.op .miscRegister rest) start P ∧
      _ ∈ P.moments := Pool.exists_moment_first hread.symm hopen (0 : UInt16)
  refine ⟨P, ⟨hunloaded, hinit ▸ hP⟩, _, hmoment, ?_⟩
  rintro ⟨a, ha, -⟩
  have hnone : (machine .miscRegister start).2.pbuf k = none := by
    change (if _ then _ else _ : World).pbuf k = none
    split <;> rfl
  exact absurd (hnone.symm.trans ha) (by simp)

/-- Every interleaving of a load with reads finds its rings prepared just when
the device is not registered at all. -/
theorem opening_always_prepared_iff {requests : List (Request Outcomes)} {o : Outcomes}
    (hunloaded : (adcModule.run w.boot requests).loaded = false) :
    (∀ P, Opening w requests o P → ∀ u ∈ P.moments, Prepared u.state u.op) ↔ o.misc ≠ 0 := by
  constructor
  · intro h hmisc
    obtain ⟨P, hP, u, hu, hnot⟩ := exists_unprepared hunloaded hmisc
    exact hnot (h P hP u hu)
  · intro hmisc P hP u hu
    have hnone : P.moments = [] := by
      apply hP.reached.moments_eq_nil
      rintro before hbefore ⟨hopen, -⟩
      rw [trace_at91adcInit hmisc] at hbefore
      have hzero := List.mem_singleton.mp (hbefore.subset hopen)
      have hregistered : ((adcModule.run w.boot requests).world.fresh o).coming.misc = 0 := by
        simpa using hzero.symm
      exact hmisc hregistered
    rw [hnone] at hu
    exact absurd hu List.not_mem_nil

end At91Drivers.Adc.Life
