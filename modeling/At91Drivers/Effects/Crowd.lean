import At91Drivers.Effects.Contract
import Mathlib.Logic.Function.Basic
import Mathlib.Logic.Relation

/-!
# Any number of parties on one state

Each party runs programs one after the other, its jobs, and what it keeps of one
decides which it may start next.  The operations of all parties interleave in any
order, and in between the state may drift.

`Reaches.rule` lifts what the jobs establish one by one, their `Terms`, to every
crowd that can be reached: each operation satisfies `ask` of what its own party
has done in the job before it, and an invariant of the state and of the log of
all operations is kept.
-/

namespace At91Drivers.Effects

variable {E : Type} {R : E → Type} {α κ ι σ : Type}

inductive Party (E : Type) (R : E → Type) (α κ : Type) where
  | idle (kept : κ)
  /-- in the job `job`, of which `rest` is left after the events `past` -/
  | busy (job rest : Prog E R α) (past : List (Event E R))

/-- An operation of a party with its answer, and what the party had done in the
same job before it. -/
structure Deed (E : Type) (R : E → Type) (ι : Type) where
  party : ι
  past : List (Event E R)
  event : Event E R

structure Crowd (E : Type) (R : E → Type) (α κ ι σ : Type) where
  party : ι → Party E R α κ
  state : σ
  /-- the operations of all parties, in order -/
  log : List (Deed E R ι)
  /-- the jobs that a party has finished, with their results -/
  returned : ι → List (Prog E R α × α)

/-- What a party has done in the job it is in. -/
def Party.past : Party E R α κ → List (Event E R)
  | .idle _ => []
  | .busy _ _ past => past

@[simp] theorem Party.past_idle (kept : κ) : (idle kept : Party E R α κ).past = [] := rfl

@[simp] theorem Party.past_busy (job rest : Prog E R α) (past : List (Event E R)) :
    (busy job rest past : Party E R α κ).past = past := rfl

namespace Crowd

/-- The jobs that a party may start, what it keeps of a result, and how the state
may change by itself. -/
structure Rules (E : Type) (R : E → Type) (α κ ι σ : Type) where
  offers : ι → κ → Prog E R α → Prop
  keeps : α → κ → Prop
  drifts : σ → σ → Prop

variable [DecidableEq ι]

/-- Party `i` is replaced by `p`. -/
def put (c : Crowd E R α κ ι σ) (i : ι) (p : Party E R α κ) : Crowd E R α κ ι σ :=
  { c with party := Function.update c.party i p }

/-- Party `i` performs `e`, goes on with `p`, and the state becomes `s`. -/
def act (c : Crowd E R α κ ι σ) (i : ι) (p : Party E R α κ) (event : Event E R) (s : σ) :
    Crowd E R α κ ι σ :=
  { c with
    party := Function.update c.party i p
    state := s
    log := c.log ++ [⟨i, (c.party i).past, event⟩] }

/-- Party `i` finishes `job` with the result `a`, and keeps `kept`. -/
def close (c : Crowd E R α κ ι σ) (i : ι) (kept : κ) (job : Prog E R α) (a : α) :
    Crowd E R α κ ι σ :=
  { c with
    party := Function.update c.party i (.idle kept)
    returned := Function.update c.returned i (c.returned i ++ [(job, a)]) }

variable (h : ι → Handler E R σ) (rules : Rules E R α κ ι σ)

inductive Step : Crowd E R α κ ι σ → Crowd E R α κ ι σ → Prop
  | start {c : Crowd E R α κ ι σ} {i : ι} {kept : κ} {job : Prog E R α}
      (hidle : c.party i = .idle kept) (hoffer : rules.offers i kept job) :
      Step c (c.put i (.busy job job []))
  | perform {c : Crowd E R α κ ι σ} {i : ι} {job : Prog E R α} {e : E} {k : R e → Prog E R α}
      {past : List (Event E R)} (hbusy : c.party i = .busy job (.op e k) past) :
      Step c (c.act i (.busy job (k (h i e c.state).1) (past ++ [⟨e, (h i e c.state).1⟩]))
        ⟨e, (h i e c.state).1⟩ (h i e c.state).2)
  | finish {c : Crowd E R α κ ι σ} {i : ι} {job : Prog E R α} {a : α}
      {past : List (Event E R)} {kept : κ} (hbusy : c.party i = .busy job (.pure a) past)
      (hkeep : rules.keeps a kept) :
      Step c (c.close i kept job a)
  | drift {c : Crowd E R α κ ι σ} {s : σ} (hdrift : rules.drifts c.state s) :
      Step c { c with state := s }

/-- All parties are idle, and nothing has been done. -/
def initial (kept : ι → κ) (s : σ) : Crowd E R α κ ι σ :=
  ⟨fun i => .idle (kept i), s, [], fun _ => []⟩

def Reaches (kept : ι → κ) (s : σ) : Crowd E R α κ ι σ → Prop :=
  Relation.ReflTransGen (Step h rules) (initial kept s)

variable {h rules} {c c' : Crowd E R α κ ι σ}

/-- A party may run its job to the end with nobody in between. -/
theorem Reaches.alone {kept : ι → κ} {s : σ} {i : ι} {job rest : Prog E R α}
    {past : List (Event E R)} (hc : Reaches h rules kept s c)
    (hbusy : c.party i = .busy job rest past) :
    ∃ c', Reaches h rules kept s c' ∧
      c'.party i = .busy job (.pure (rest.run (h i) c.state).1)
        (past ++ rest.trace (h i) c.state) ∧
      c'.state = (rest.run (h i) c.state).2 ∧ c'.returned = c.returned ∧
      (∀ j, j ≠ i → c'.party j = c.party j) ∧
      (∀ deed ∈ c'.log, deed ∈ c.log ∨ deed.party = i) ∧
      c'.log.map Deed.event = c.log.map Deed.event ++ rest.trace (h i) c.state := by
  induction rest generalizing c past with
  | pure a =>
      exact ⟨c, hc, by simpa [Prog.run, Prog.trace] using hbusy, rfl, rfl, fun _ _ => rfl,
        fun _ hdeed => .inl hdeed, by simp [Prog.trace]⟩
  | op e k ih =>
      obtain ⟨c', hc', hparty, hstate, hreturned, hothers, hdeeds, hlog⟩ :=
        ih (h i e c.state).1 (hc.tail (.perform hbusy)) (Function.update_self _ _ _)
      refine ⟨c', hc', ?_, hstate, hreturned, fun j hj => ?_, fun deed hdeed => ?_, ?_⟩
      · rw [hparty, List.append_assoc]
        rfl
      · exact (hothers j hj).trans (Function.update_of_ne hj _ _)
      · rcases hdeeds deed hdeed with hbefore | hparty
        · refine (List.mem_append.mp hbefore).imp id fun hlast => ?_
          rw [List.mem_singleton.mp hlast]
        · exact .inr hparty
      · rw [hlog]
        simp [act, Prog.trace]

/-- A first job of a party, run to its end with nobody in between. -/
theorem exists_alone {kept : ι → κ} {s : σ} (i : ι) {job : Prog E R α}
    (hoffer : rules.offers i (kept i) job) :
    ∃ c', Reaches h rules kept s c' ∧
      c'.party i = .busy job (.pure (job.run (h i) s).1) (job.trace (h i) s) ∧
      c'.state = (job.run (h i) s).2 ∧ c'.returned i = [] ∧
      (∀ deed ∈ c'.log, deed.party = i) ∧ c'.log.map Deed.event = job.trace (h i) s := by
  have hstarted : Reaches h rules kept s ((initial kept s).put i (.busy job job [])) :=
    .single (.start rfl hoffer)
  obtain ⟨c', hc', hparty, hstate, hreturned, -, hdeeds, hlog⟩ :=
    hstarted.alone (Function.update_self _ _ _)
  exact ⟨c', hc', hparty, hstate, congrFun hreturned i,
    fun deed hdeed => (hdeeds deed hdeed).resolve_left List.not_mem_nil, hlog⟩

/-! ## Terms -/

/-- For each party, what its jobs may rely on of the answers, which operations
they may ask for, what they establish, and what it may keep. -/
structure Terms (E : Type) (R : E → Type) (α κ ι : Type) where
  allow : ι → (e : E) → R e → Prop
  ask : ι → List (Event E R) → E → Prop
  post : ι → List (Event E R) → α → Prop
  fits : ι → κ → Prop

/-- Every job that is offered meets the terms, and its results fit. -/
structure Terms.Hold (T : Terms E R α κ ι) (rules : Rules E R α κ ι σ) : Prop where
  job : ∀ {i kept job}, T.fits i kept → rules.offers i kept job →
    job.Meets (T.allow i) (T.ask i) (T.post i) []
  keeps : ∀ {i past a kept}, T.post i past a → rules.keeps a kept → T.fits i kept

/-- The terms, and `ask` besides. -/
def Terms.also (T : Terms E R α κ ι) (ask : ι → List (Event E R) → E → Prop) :
    Terms E R α κ ι :=
  { T with ask := fun i past e => T.ask i past e ∧ ask i past e }

omit [DecidableEq ι] in
theorem Terms.Hold.also {T : Terms E R α κ ι} {ask : ι → List (Event E R) → E → Prop}
    (hT : T.Hold rules)
    (hjob : ∀ {i kept job}, T.fits i kept → rules.offers i kept job →
      job.Meets (T.allow i) (ask i) (fun _ _ => True) []) : (T.also ask).Hold rules := by
  refine ⟨fun hfits hoffer => ?_, hT.keeps⟩
  exact ((hT.job hfits hoffer).and (hjob hfits hoffer)).mono fun _ _ h => h.1

/-- A party that keeps to the terms. -/
def Terms.Met (T : Terms E R α κ ι) (i : ι) : Party E R α κ → Prop
  | .idle kept => T.fits i kept
  | .busy _ rest past => rest.Meets (T.allow i) (T.ask i) (T.post i) past

/-- The events are in the log, as the party's. -/
def Recorded (log : List (Deed E R ι)) (i : ι) (past : List (Event E R)) : Prop :=
  ∀ event ∈ past, ∃ deed ∈ log, deed.party = i ∧ deed.event = event

omit [DecidableEq ι] in
theorem recorded_nil (log : List (Deed E R ι)) (i : ι) : Recorded log i [] :=
  fun _ hevent => absurd hevent List.not_mem_nil

omit [DecidableEq ι] in
theorem Recorded.concat {log : List (Deed E R ι)} {i : ι} {past : List (Event E R)}
    (hpast : Recorded log i past) (deed : Deed E R ι) : Recorded (log ++ [deed]) i past := by
  intro event hevent
  obtain ⟨d, hd, hd'⟩ := hpast event hevent
  exact ⟨d, List.mem_append_left _ hd, hd'⟩

/-- What holds of a crowd whose parties keep to the terms. -/
structure Terms.Kept (T : Terms E R α κ ι) (I : List (Deed E R ι) → σ → Prop)
    (c : Crowd E R α κ ι σ) : Prop where
  state : I c.log c.state
  party : ∀ i, T.Met i (c.party i)
  recorded : ∀ i, Recorded c.log i (c.party i).past
  asked : ∀ deed ∈ c.log, T.ask deed.party deed.past deed.event.1
  logged : ∀ deed ∈ c.log, Recorded c.log deed.party deed.past
  allowed : ∀ deed ∈ c.log, T.allow deed.party deed.event.1 deed.event.2

variable {T : Terms E R α κ ι} {I : List (Deed E R ι) → σ → Prop}

/-- What an operation of a party keeps, given the terms. -/
def Terms.Preserves (T : Terms E R α κ ι) (h : ι → Handler E R σ)
    (I : List (Deed E R ι) → σ → Prop) : Prop :=
  ∀ i past e log s, I log s → Recorded log i past → T.ask i past e →
    T.allow i e (h i e s).1 ∧ I (log ++ [⟨i, past, ⟨e, (h i e s).1⟩⟩]) (h i e s).2

theorem Terms.Kept.step (hterms : T.Hold rules) (hop : T.Preserves h I)
    (hdrift : ∀ log s s', I log s → rules.drifts s s' → I log s') (hstep : Step h rules c c')
    (hc : T.Kept I c) : T.Kept I c' := by
  cases hstep with
  | @start i kept job hidle hoffer =>
      have hfits : T.fits i kept := by
        have hmet := hc.party i
        rwa [hidle] at hmet
      refine ⟨hc.state, ?_, ?_, hc.asked, hc.logged, hc.allowed⟩
      · apply (Function.forall_update_iff _ fun j p => T.Met j p).mpr
        exact ⟨hterms.job hfits hoffer, fun j _ => hc.party j⟩
      · apply (Function.forall_update_iff _ fun j p => Recorded c.log j (Party.past p)).mpr
        exact ⟨recorded_nil _ _, fun j _ => hc.recorded j⟩
  | @perform i job e k past hbusy =>
      have hmet := hc.party i
      have hrecorded := hc.recorded i
      rw [hbusy] at hmet hrecorded
      obtain ⟨hask, hrest⟩ := hmet
      obtain ⟨hallow, hstate⟩ := hop i past e c.log c.state hc.state hrecorded hask
      have hact (p : Party E R α κ) : (c.act i p ⟨e, (h i e c.state).1⟩ (h i e c.state).2).log =
          c.log ++ [⟨i, past, ⟨e, (h i e c.state).1⟩⟩] := by
        rw [act, hbusy, Party.past_busy]
      refine ⟨?_, ?_, ?_, fun deed hdeed => ?_, fun deed hdeed => ?_, fun deed hdeed => ?_⟩
      · rw [hact]
        exact hstate
      · apply (Function.forall_update_iff _ fun j p => T.Met j p).mpr
        exact ⟨hrest _ hallow, fun j _ => hc.party j⟩
      · rw [hact]
        apply (Function.forall_update_iff _ fun j p => Recorded _ j (Party.past p)).mpr
        refine ⟨fun event hevent => ?_, fun j _ => (hc.recorded j).concat _⟩
        rcases List.mem_append.mp hevent with hevent | hevent
        · exact hrecorded.concat _ event hevent
        · obtain rfl := List.mem_singleton.mp hevent
          exact ⟨_, List.mem_append_right _ (List.mem_singleton_self _), rfl, rfl⟩
      · rw [hact] at hdeed
        rcases List.mem_append.mp hdeed with hdeed | hdeed
        · exact hc.asked deed hdeed
        · obtain rfl := List.mem_singleton.mp hdeed
          exact hask
      · rw [hact] at hdeed ⊢
        rcases List.mem_append.mp hdeed with hdeed | hdeed
        · exact (hc.logged deed hdeed).concat _
        · obtain rfl := List.mem_singleton.mp hdeed
          exact hrecorded.concat _
      · rw [hact] at hdeed
        rcases List.mem_append.mp hdeed with hdeed | hdeed
        · exact hc.allowed deed hdeed
        · obtain rfl := List.mem_singleton.mp hdeed
          exact hallow
  | @finish i job a past kept hbusy hkeep =>
      have hpost : T.post i past a := by
        have hmet := hc.party i
        rwa [hbusy] at hmet
      refine ⟨hc.state, ?_, ?_, hc.asked, hc.logged, hc.allowed⟩
      · apply (Function.forall_update_iff _ fun j p => T.Met j p).mpr
        exact ⟨hterms.keeps hpost hkeep, fun j _ => hc.party j⟩
      · apply (Function.forall_update_iff _ fun j p => Recorded c.log j (Party.past p)).mpr
        exact ⟨recorded_nil _ _, fun j _ => hc.recorded j⟩
  | drift hd =>
      exact ⟨hdrift _ _ _ hc.state hd, hc.party, hc.recorded, hc.asked, hc.logged, hc.allowed⟩

theorem log_grows (hstep : Step h rules c c') : ∃ later, c'.log = c.log ++ later := by
  cases hstep with
  | start _ _ => exact ⟨[], (List.append_nil _).symm⟩
  | perform _ => exact ⟨_, rfl⟩
  | finish _ _ => exact ⟨[], (List.append_nil _).symm⟩
  | drift _ => exact ⟨[], (List.append_nil _).symm⟩

/-- The crowd in which an operation of the log was performed. -/
theorem Reaches.exists_before {kept : ι → κ} {s : σ} (hc : Reaches h rules kept s c)
    {before after : List (Deed E R ι)} {deed : Deed E R ι}
    (hlog : c.log = before ++ deed :: after) :
    ∃ c₁, Reaches h rules kept s c₁ ∧ c₁.log = before ∧
      (c₁.party deed.party).past = deed.past := by
  induction hc generalizing after with
  | refl => cases before <;> cases hlog
  | tail hbefore hlast ih =>
      cases hlast with
      | start _ _ => exact ih hlog
      | @perform i job e k past hbusy =>
          -- it is the last operation, or one of those before
          simp only [act] at hlog
          rcases List.eq_nil_or_concat after with rfl | ⟨after, last, rfl⟩
          · obtain ⟨hfront, hdeed⟩ := List.append_inj' hlog rfl
            obtain rfl := List.singleton_inj.mp hdeed
            exact ⟨_, hbefore, hfront, rfl⟩
          · rw [List.concat_eq_append, ← List.cons_append, ← List.append_assoc] at hlog
            exact ih (List.append_inj' hlog rfl).1
      | finish _ _ => exact ih hlog
      | drift _ => exact ih hlog

/-! ## The operations of one party -/

/-- What party `i` has done, in all its jobs. -/
def own (log : List (Deed E R ι)) (i : ι) : List (Event E R) :=
  (log.filter fun deed => deed.party = i).map Deed.event

@[simp] theorem own_nil (i : ι) : own ([] : List (Deed E R ι)) i = [] := rfl

theorem own_append (log later : List (Deed E R ι)) (i : ι) :
    own (log ++ later) i = own log i ++ own later i := by
  simp [own]

theorem own_cons_self (deed : Deed E R ι) (log : List (Deed E R ι)) :
    own (deed :: log) deed.party = deed.event :: own log deed.party := by
  simp [own]

/-- What a party has done in its job is the last of what it has done. -/
theorem Reaches.past_suffix {kept : ι → κ} {s : σ} (hc : Reaches h rules kept s c) (i : ι) :
    (c.party i).past <:+ own c.log i := by
  induction hc with
  | refl => exact List.suffix_rfl
  | tail _ hlast ih =>
      cases hlast with
      | @start j kept job hidle hoffer =>
          rcases eq_or_ne i j with rfl | hi
          · simp [put]
          · simpa only [put, Function.update_of_ne hi] using ih
      | @perform j job e k past hbusy =>
          simp only [act, own_append]
          rcases eq_or_ne i j with rfl | hi
          · rw [hbusy, Party.past_busy] at ih ⊢
            rw [Function.update_self, Party.past_busy, own_cons_self]
            exact List.suffix_append_self_iff.mpr ih
          · rw [Function.update_of_ne hi]
            simpa [own, hi.symm] using ih
      | @finish j job a past kept hbusy hkeep =>
          rcases eq_or_ne i j with rfl | hi
          · simp [close]
          · simpa only [close, Function.update_of_ne hi] using ih
      | drift _ => exact ih

/-- Of two operations of one party, the first one was done in the same job as the
second, or before it. -/
theorem Reaches.past_split {kept : ι → κ} {s : σ} (hc : Reaches h rules kept s c)
    {before between after : List (Deed E R ι)} {d₁ d₂ : Deed E R ι}
    (hlog : c.log = before ++ d₁ :: between ++ d₂ :: after) (hsame : d₁.party = d₂.party) :
    d₂.past <:+ own between d₂.party ∨
      ∃ earlier, d₂.past = earlier ++ d₁.event :: own between d₂.party := by
  obtain ⟨c₁, hc₁, hlog₁, hpast⟩ := hc.exists_before hlog
  have hsuffix := hc₁.past_suffix d₂.party
  rw [hlog₁, hpast, own_append, ← hsame, own_cons_self, hsame] at hsuffix
  rcases List.suffix_or_suffix_of_suffix hsuffix (List.suffix_append _ _) with hpart | ⟨earlier, h⟩
  · rcases List.suffix_cons_iff.mp hpart with heq | hlater
    · exact .inr ⟨[], heq⟩
    · exact .inl hlater
  · exact .inr ⟨earlier, h.symm⟩

/-- The rule for crowds. -/
theorem Reaches.rule (hterms : T.Hold rules) {kept : ι → κ} (hfits : ∀ i, T.fits i (kept i))
    {s : σ} (hstart : I [] s) (hop : T.Preserves h I)
    (hdrift : ∀ log s s', I log s → rules.drifts s s' → I log s') (hc : Reaches h rules kept s c) :
    T.Kept I c := by
  induction hc with
  | refl =>
      exact ⟨hstart, hfits, recorded_nil [], fun _ h => absurd h List.not_mem_nil,
        fun _ h => absurd h List.not_mem_nil, fun _ h => absurd h List.not_mem_nil⟩
  | tail _ hlast ih => exact ih.step hterms hop hdrift hlast

/-- Handlers that always answer within the terms. -/
theorem Reaches.keeps (hterms : T.Hold rules) {kept : ι → κ} (hfits : ∀ i, T.fits i (kept i))
    {s : σ} (hobey : ∀ i, Prog.Obeys (h i) (T.allow i)) (hc : Reaches h rules kept s c) :
    T.Kept (fun _ _ => True) c :=
  hc.rule hterms hfits trivial (fun i _ e _ s _ _ _ => ⟨hobey i e s, trivial⟩)
    fun _ _ _ _ _ => trivial

end Crowd

end At91Drivers.Effects
