import At91Drivers.Effects.Crowd
import At91Drivers.Effects.Ledger

/-!
# Parties that hold one resource at a time

A job tries to take a resource, uses it and gives it back.  `Roles` says which
operations do what; the terms of custody are that a job takes one only with
empty hands, uses and gives back only what it holds, and ends with empty hands.

A crowd under these terms has a clean ledger at every moment: nothing is given
back that is not held, each party holds at most one resource, and none between
its jobs.
-/

namespace At91Drivers.Effects

variable {E : Type} {R : E → Type} {α κ ι σ : Type}

/-- Which operations try to take a resource, and with which answer they do;
which give it back, and which use it. -/
structure Roles (E : Type) (R : E → Type) where
  tries : E → Prop
  takes : Event E R → Bool
  gives : E → Bool
  uses : E → Prop
  tries_of_takes : ∀ {event}, takes event = true → tries event.1

namespace Roles

variable (roles : Roles E R)

/-- A resource is held after the event. -/
def after (held : Bool) (event : Event E R) : Bool :=
  if roles.gives event.1 then false else held || roles.takes event

/-- A resource is held after these events. -/
def holds (past : List (Event E R)) : Bool := past.foldl roles.after false

@[simp] theorem holds_nil : roles.holds [] = false := rfl

@[simp] theorem holds_concat (past : List (Event E R)) (event : Event E R) :
    roles.holds (past ++ [event]) = roles.after (roles.holds past) event := by
  simp [holds]

/-- One takes with empty hands, and uses and gives back what one holds. -/
structure Ask (past : List (Event E R)) (e : E) : Prop where
  tries : roles.tries e → roles.holds past = false
  gives : roles.gives e = true → roles.holds past = true
  uses : roles.uses e → roles.holds past = true

/-- The job ends with empty hands, unless it does not come to an end at all. -/
def terms (rules : Crowd.Rules E R α κ ι σ) : Crowd.Terms E R α κ ι where
  allow _ _ _ := True
  ask _ := roles.Ask
  post _ past a := ∀ kept, rules.keeps a kept → roles.holds past = false
  fits _ _ := True

/-! ## Rules for jobs -/

/-- An operation that leaves the hands as they are. -/
structure Still (e : E) : Prop where
  tries : ¬ roles.tries e
  gives : roles.gives e = false

variable {roles}

theorem Still.after {e : E} (he : roles.Still e) (held : Bool) (r : R e) :
    roles.after held ⟨e, r⟩ = held := by
  have htakes : roles.takes ⟨e, r⟩ = false :=
    Bool.eq_false_iff.mpr fun h => he.tries (roles.tries_of_takes h)
  simp [Roles.after, he.gives, htakes]

/-- A part of a job that does not take or give back, and that uses the resource
only if one is held. -/
theorem meets_still {β : Type} {past : List (Event E R)} {p : Prog E R β}
    (hp : p.Asks fun e => roles.Still e ∧ (roles.uses e → roles.holds past = true)) :
    p.Meets (fun _ _ => True) roles.Ask (fun past' _ => roles.holds past' = roles.holds past)
      past := by
  apply hp.meets_same
  · rintro past' e hpast' ⟨hstill, huses⟩
    refine ⟨fun h => absurd h hstill.tries, fun h => ?_, fun h => hpast' ▸ huses h⟩
    rw [hstill.gives] at h
    cases h
  · rintro past' e r ⟨hstill, -⟩
    rw [roles.holds_concat, hstill.after]

/-! ## The ledger of a crowd -/

variable [DecidableEq ι]

variable (roles) in
def book (l : Ledger ι) (deed : Deed E R ι) : Ledger ι :=
  if roles.gives deed.event.1 then l.release deed.party
  else if roles.takes deed.event then l.acquire deed.party
  else l

variable (roles) in
/-- Who holds how many resources after the operations. -/
def ledger (log : List (Deed E R ι)) : Ledger ι := log.foldl roles.book Ledger.empty

@[simp] theorem ledger_concat (log : List (Deed E R ι)) (deed : Deed E R ι) :
    roles.ledger (log ++ [deed]) = roles.book (roles.ledger log) deed := by
  simp [ledger]

/-- The ledger says what the parties have in their hands. -/
structure Balanced (roles : Roles E R) (c : Crowd E R α κ ι σ) : Prop where
  stray : (roles.ledger c.log).stray = 0
  count : ∀ i, (roles.ledger c.log).held.count i =
    if roles.holds (c.party i).past then 1 else 0

variable {l : Ledger ι} {deed : Deed E R ι} {past : List (Event E R)}

/-- The entry of an operation that may be asked. -/
theorem book_of_ask (deed : Deed E R ι) (hask : roles.Ask past deed.event.1)
    (hcount : l.held.count deed.party = if roles.holds past then 1 else 0) :
    (roles.book l deed).stray = l.stray ∧
      ((roles.book l deed).held.count deed.party =
        if roles.after (roles.holds past) deed.event then 1 else 0) ∧
      ∀ j, j ≠ deed.party → (roles.book l deed).held.count j = l.held.count j := by
  unfold book after
  by_cases hgives : roles.gives deed.event.1 = true
  · -- it is in the hands, so it is in the ledger
    rw [if_pos hgives, if_pos hgives]
    have hheld : l.held.count deed.party = 1 := by rw [hcount, if_pos (hask.gives hgives)]
    have hmem : deed.party ∈ l.held := Multiset.count_pos.mp (by omega)
    refine ⟨by rw [Ledger.release, if_pos hmem], ?_, fun j hj => l.count_release_of_ne hj⟩
    rw [l.count_release_self, hheld]
    rfl
  · rw [if_neg hgives, if_neg hgives]
    by_cases htakes : roles.takes deed.event = true
    · have hempty := hask.tries (roles.tries_of_takes htakes)
      rw [hempty] at hcount ⊢
      rw [if_pos htakes, htakes]
      refine ⟨rfl, ?_, fun j hj => ?_⟩
      · rw [l.count_acquire, hcount]
        simp
      · rw [l.count_acquire, if_neg hj, Nat.add_zero]
    · rw [if_neg htakes, Bool.eq_false_iff.mpr htakes, Bool.or_false]
      exact ⟨rfl, hcount, fun _ _ => rfl⟩

variable {h : ι → Handler E R σ} {rules : Crowd.Rules E R α κ ι σ} {kept : ι → κ} {s : σ}
  {c c' : Crowd E R α κ ι σ}

theorem Balanced.step (hc : roles.Balanced c)
    (hkept : (roles.terms rules).Kept (fun _ _ => True) c)
    (hstep : Crowd.Step h rules c c') : roles.Balanced c' := by
  cases hstep with
  | @start i kept job hidle hoffer =>
      refine ⟨hc.stray, ?_⟩
      apply (Function.forall_update_iff _ fun j p => (roles.ledger c.log).held.count j =
        if roles.holds (Party.past p) then 1 else 0).mpr
      refine ⟨?_, fun j _ => hc.count j⟩
      rw [hc.count, hidle, Party.past_idle, Party.past_busy]
  | @perform i job e k past hbusy =>
      have hmet := hkept.party i
      rw [hbusy] at hmet
      have hcount := hc.count i
      have hpast : (c.party i).past = past := by rw [hbusy, Party.past_busy]
      rw [hpast] at hcount
      obtain ⟨hstray, hself, hother⟩ := book_of_ask
        ⟨i, past, ⟨e, (h i e c.state).1⟩⟩ hmet.1 hcount
      have hledger (p : Party E R α κ) (s : σ) :
          roles.ledger (c.act i p ⟨e, (h i e c.state).1⟩ s).log =
            roles.book (roles.ledger c.log) ⟨i, past, ⟨e, (h i e c.state).1⟩⟩ := by
        rw [Crowd.act, hpast, ledger_concat]
      refine ⟨by rw [hledger, hstray, hc.stray], ?_⟩
      rw [hledger]
      apply (Function.forall_update_iff _ fun j p => Multiset.count j _ =
        if roles.holds (Party.past p) then 1 else 0).mpr
      refine ⟨?_, fun j hj => (hother j hj).trans (hc.count j)⟩
      rw [hself, Party.past_busy, holds_concat]
  | @finish i job a past kept hbusy hkeep =>
      have hmet := hkept.party i
      rw [hbusy] at hmet
      have hpost : roles.holds past = false := hmet kept hkeep
      refine ⟨hc.stray, ?_⟩
      apply (Function.forall_update_iff _ fun j p => (roles.ledger c.log).held.count j =
        if roles.holds (Party.past p) then 1 else 0).mpr
      refine ⟨?_, fun j _ => hc.count j⟩
      rw [hc.count, hbusy, Party.past_busy, hpost, Party.past_idle, holds_nil]
  | drift _ => exact ⟨hc.stray, hc.count⟩

/-- Under the terms of custody the ledger of every crowd is balanced. -/
theorem balanced (hjobs : ∀ {i kept job}, rules.offers i kept job →
      job.Meets (fun _ _ => True) roles.Ask ((roles.terms rules).post i) [])
    (hc : Crowd.Reaches h rules kept s c) : roles.Balanced c := by
  have hterms : (roles.terms rules).Hold rules := ⟨fun _ => hjobs, fun _ _ => trivial⟩
  induction hc with
  | refl => exact ⟨rfl, fun i => by simp [Crowd.initial, ledger, Ledger.empty]⟩
  | tail hbefore hlast ih =>
      exact ih.step (Crowd.Reaches.keeps hterms (fun _ => trivial) (fun _ _ _ => trivial) hbefore)
        hlast

/-- Who uses a resource, or gives it back, holds it by the ledger. -/
theorem mem_held (hjobs : ∀ {i kept job}, rules.offers i kept job →
      job.Meets (fun _ _ => True) roles.Ask ((roles.terms rules).post i) [])
    (hc : Crowd.Reaches h rules kept s c) {before after : List (Deed E R ι)}
    (hlog : c.log = before ++ deed :: after)
    (huses : roles.uses deed.event.1 ∨ roles.gives deed.event.1 = true) :
    deed.party ∈ (roles.ledger before).held := by
  have hterms : (roles.terms rules).Hold rules := ⟨fun _ => hjobs, fun _ _ => trivial⟩
  obtain ⟨c₁, hc₁, rfl, hpast⟩ := hc.exists_before hlog
  have hkept := hc.keeps hterms (fun _ => trivial) (fun _ _ _ => trivial)
  have hask : roles.Ask deed.past deed.event.1 :=
    hkept.asked deed (hlog ▸ List.mem_append_right _ List.mem_cons_self)
  have hcount := (balanced hjobs hc₁).count deed.party
  rw [hpast, huses.elim hask.uses hask.gives] at hcount
  rw [← Multiset.count_pos, hcount]
  exact Nat.one_pos

end Roles

end At91Drivers.Effects
