import At91Drivers.Effects.Contract
import Mathlib.Logic.Relation

/-!
# A program next to its clients

A main program runs on a state while clients come: programs over operations of
their own, which may be answered in any way.  A client starts at a point of the
main program where `opens` holds, and the steps interleave in any order.
Each operation of a client is a `Moment`: what the main program has done by
then, and the state it has reached.

`Reaches.invariant` is the rule: what the main program establishes step by step
holds at every moment, so whether an operation of a client finds the state
prepared can be read off the history.
-/

namespace At91Drivers.Effects

variable {E : Type} {R : E → Type} {α β σ C : Type} {RC : C → Type}

/-- An operation of a client, and where the main program was by then. -/
structure Moment (E : Type) (R : E → Type) (σ C : Type) where
  past : List (Event E R)
  state : σ
  op : C

structure Pool (E : Type) (R : E → Type) (α σ C : Type) (RC : C → Type) (β : Type) where
  /-- what is left of the main program -/
  main : Prog E R α
  past : List (Event E R)
  state : σ
  clients : List (Prog C RC β)
  moments : List (Moment E R σ C)

/-- The operation was performed. -/
def Did (past : List (Event E R)) (e : E) : Prop := ∃ event ∈ past, event.1 = e

/-- The operation `e` was answered `r`, and `e'` was not performed. -/
def Between (e : E) (r : R e) (e' : E) (past : List (Event E R)) : Prop :=
  ⟨e, r⟩ ∈ past ∧ ¬ Did past e'

theorem not_did_nil (e : E) : ¬ Did ([] : List (Event E R)) e :=
  fun ⟨_, hevent, _⟩ => absurd hevent List.not_mem_nil

@[simp] theorem did_concat {past : List (Event E R)} {event : Event E R} {e : E} :
    Did (past ++ [event]) e ↔ Did past e ∨ event.1 = e := by
  simp [Did, or_and_right, exists_or]

theorem between_singleton {e e' : E} (r : R e) (hne : e ≠ e') :
    Between e r e' ([⟨e, r⟩] : List (Event E R)) := by
  refine ⟨List.mem_singleton_self _, ?_⟩
  rintro ⟨event, hevent, heq⟩
  obtain rfl := List.mem_singleton.mp hevent
  exact hne heq

namespace Pool

/-- The programs that clients may run, and when they may start. -/
structure Rules (E : Type) (R : E → Type) (C : Type) (RC : C → Type) (β : Type) where
  calls : Prog C RC β → Prop
  opens : List (Event E R) → Prop

variable (h : Handler E R σ) (rules : Rules E R C RC β)

inductive Step : Pool E R α σ C RC β → Pool E R α σ C RC β → Prop
  | main {e : E} {k : R e → Prog E R α} {past : List (Event E R)} {s : σ}
      {clients : List (Prog C RC β)} {moments : List (Moment E R σ C)} :
      Step ⟨.op e k, past, s, clients, moments⟩
        ⟨k (h e s).1, past ++ [⟨e, (h e s).1⟩], (h e s).2, clients, moments⟩
  | start {p : Prog E R α} {past : List (Event E R)} {s : σ} {clients : List (Prog C RC β)}
      {moments : List (Moment E R σ C)} {client : Prog C RC β} (hcall : rules.calls client)
      (hopen : rules.opens past) :
      Step ⟨p, past, s, clients, moments⟩ ⟨p, past, s, client :: clients, moments⟩
  | client {p : Prog E R α} {past : List (Event E R)} {s : σ}
      {before after : List (Prog C RC β)} {moments : List (Moment E R σ C)} {c : C}
      {k : RC c → Prog C RC β} (r : RC c) :
      Step ⟨p, past, s, before ++ .op c k :: after, moments⟩
        ⟨p, past, s, before ++ k r :: after, moments ++ [⟨past, s, c⟩]⟩

/-- The main program has not begun, and there are no clients. -/
def initial (p : Prog E R α) (s : σ) : Pool E R α σ C RC β := ⟨p, [], s, [], []⟩

def Reaches (p : Prog E R α) (s : σ) : Pool E R α σ C RC β → Prop :=
  Relation.ReflTransGen (Step h rules) (initial p s)

variable {h rules}

/-- What every operation of the main program keeps, given what it may ask for,
holds at every moment. -/
theorem Reaches.invariant {ask : List (Event E R) → E → Prop}
    {post : List (Event E R) → α → Prop} {I : List (Event E R) → σ → Prop} {p : Prog E R α}
    {s : σ} (hp : p.Meets (fun _ _ => True) ask post []) (hstart : I [] s)
    (hstep : ∀ past e s, I past s → ask past e → I (past ++ [⟨e, (h e s).1⟩]) (h e s).2)
    {P : Pool E R α σ C RC β} (hP : Reaches h rules p s P) :
    ∀ u ∈ P.moments, I u.past u.state := by
  have hall : P.main.Meets (fun _ _ => True) ask post P.past ∧ I P.past P.state ∧
      ∀ u ∈ P.moments, I u.past u.state := by
    induction hP with
    | refl => exact ⟨hp, hstart, fun u hu => absurd hu List.not_mem_nil⟩
    | tail _ hlast ih =>
        obtain ⟨hmeets, hnow, hbefore⟩ := ih
        cases hlast with
        | main => exact ⟨hmeets.2 _ trivial, hstep _ _ _ hnow hmeets.1, hbefore⟩
        | start _ _ => exact ⟨hmeets, hnow, hbefore⟩
        | client r =>
            refine ⟨hmeets, hnow, fun u hu => ?_⟩
            rcases List.mem_append.mp hu with hu | hu
            · exact hbefore u hu
            · obtain rfl := List.mem_singleton.mp hu
              exact hnow
  exact hall.2.2

/-- What the main program has done and will do is what it does alone. -/
theorem Reaches.trace {p : Prog E R α} {s : σ} {P : Pool E R α σ C RC β}
    (hP : Reaches h rules p s P) : P.past ++ P.main.trace h P.state = p.trace h s := by
  induction hP with
  | refl => rfl
  | tail _ hlast ih =>
      cases hlast with
      | main => exact (List.append_assoc _ _ _).trans ih
      | start _ _ => exact ih
      | client r => exact ih

/-- A main program that never comes to where clients may start has none. -/
theorem Reaches.moments_eq_nil {p : Prog E R α} {s : σ} {P : Pool E R α σ C RC β}
    (hclosed : ∀ before, before <+: p.trace h s → ¬ rules.opens before)
    (hP : Reaches h rules p s P) : P.moments = [] := by
  have hnone : P.clients = [] ∧ P.moments = [] := by
    induction hP with
    | refl => exact ⟨rfl, rfl⟩
    | tail hbefore hlast ih =>
        cases hlast with
        | main => exact ih
        | start _ hopen =>
            exact absurd hopen (hclosed _ ⟨_, Reaches.trace hbefore⟩)
        | client r => exact absurd ih.1 (by simp)
  exact hnone.2

/-- A client may perform its first operation right after the first one of the
main program. -/
theorem exists_moment_first {e : E} {k : R e → Prog E R α} {s : σ} {c : C}
    {next : RC c → Prog C RC β} (hcall : rules.calls (.op c next))
    (hopen : rules.opens [⟨e, (h e s).1⟩]) (r : RC c) :
    ∃ P, Reaches h rules (.op e k) s P ∧
      (⟨[⟨e, (h e s).1⟩], (h e s).2, c⟩ : Moment E R σ C) ∈ P.moments := by
  have hmain : Reaches h rules (.op e k) s
      ⟨k (h e s).1, [⟨e, (h e s).1⟩], (h e s).2, [], []⟩ := .single .main
  have hstarted := hmain.tail (.start hcall hopen)
  have hclient : Step h rules
      ⟨k (h e s).1, [⟨e, (h e s).1⟩], (h e s).2, [] ++ .op c next :: [], []⟩
      ⟨k (h e s).1, [⟨e, (h e s).1⟩], (h e s).2, [] ++ next r :: [],
        [] ++ [⟨[⟨e, (h e s).1⟩], (h e s).2, c⟩]⟩ := .client r
  exact ⟨_, hstarted.tail hclient, List.mem_singleton_self _⟩

end Pool

end At91Drivers.Effects
