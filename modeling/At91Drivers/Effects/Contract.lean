import At91Drivers.Effects.Prog

/-!
# What a program may ask of an environment that may answer anything

`Prog.Meets allow ask post p past` says: after the events `past`, whatever
answers the environment gives within `allow`, every operation `p` performs
satisfies `ask` of the events before it, and if `p` ends, its result satisfies
`post` of all the events.  It is a weakest precondition with the history as its
state, and `Meets.sound` turns it into a statement about the trace of every
handler that keeps to `allow`.
-/

namespace At91Drivers.Effects

namespace Prog

variable {E : Type} {R : E → Type} {α β σ : Type}
  {allow : (e : E) → R e → Prop} {ask : List (Event E R) → E → Prop}

def Meets (allow : (e : E) → R e → Prop) (ask : List (Event E R) → E → Prop)
    (post : List (Event E R) → α → Prop) : Prog E R α → List (Event E R) → Prop
  | .pure a, past => post past a
  | .op e k, past =>
      ask past e ∧ ∀ r, allow e r → (k r).Meets allow ask post (past ++ [⟨e, r⟩])

/-- A handler that answers within `allow` from every state. -/
def Obeys (h : Handler E R σ) (allow : (e : E) → R e → Prop) : Prop :=
  ∀ e s, allow e (h e s).1

/-! ## Rules -/

@[simp] theorem meets_pure {post : List (Event E R) → α → Prop} {a : α}
    {past : List (Event E R)} :
    (Pure.pure a : Prog E R α).Meets allow ask post past ↔ post past a := Iff.rfl

@[simp] theorem meets_perform {e : E} {post : List (Event E R) → R e → Prop}
    {past : List (Event E R)} :
    (perform e : Prog E R (R e)).Meets allow ask post past ↔
      ask past e ∧ ∀ r, allow e r → post (past ++ [⟨e, r⟩]) r := Iff.rfl

@[simp] theorem meets_bind {p : Prog E R α} {f : α → Prog E R β}
    {post : List (Event E R) → β → Prop} {past : List (Event E R)} :
    (p >>= f).Meets allow ask post past ↔
      p.Meets allow ask (fun past a => (f a).Meets allow ask post past) past := by
  induction p generalizing past with
  | pure a => exact Iff.rfl
  | op e k ih =>
      exact and_congr_right fun _ => forall_congr' fun r => imp_congr_right fun _ => ih r

/-- The postcondition may be weakened along histories that extend `past`. -/
theorem Meets.mono {p : Prog E R α} {post post' : List (Event E R) → α → Prop}
    {past : List (Event E R)} (hp : p.Meets allow ask post past)
    (hpost : ∀ later a, post (past ++ later) a → post' (past ++ later) a) :
    p.Meets allow ask post' past := by
  induction p generalizing past with
  | pure a => simpa [Meets] using hpost [] a (by simpa [Meets] using hp)
  | op e k ih =>
      refine ⟨hp.1, fun r hr => ih r (hp.2 r hr) ?_⟩
      intro later a ha
      simpa using hpost (⟨e, r⟩ :: later) a (by simpa using ha)

theorem Meets.weaken {ask' : List (Event E R) → E → Prop} {p : Prog E R α}
    {post : List (Event E R) → α → Prop} {past : List (Event E R)}
    (hp : p.Meets allow ask post past) (hask : ∀ past e, ask past e → ask' past e) :
    p.Meets allow ask' post past := by
  induction p generalizing past with
  | pure a => exact hp
  | op e k ih => exact ⟨hask past e hp.1, fun r hr => ih r (hp.2 r hr)⟩

/-- Two contracts of one program are one. -/
theorem Meets.and {ask' : List (Event E R) → E → Prop} {p : Prog E R α}
    {post post' : List (Event E R) → α → Prop} {past : List (Event E R)}
    (hp : p.Meets allow ask post past) (hp' : p.Meets allow ask' post' past) :
    p.Meets allow (fun past e => ask past e ∧ ask' past e)
      (fun past a => post past a ∧ post' past a) past := by
  induction p generalizing past with
  | pure a => exact ⟨hp, hp'⟩
  | op e k ih => exact ⟨⟨hp.1, hp'.1⟩, fun r hr => ih r (hp.2 r hr) (hp'.2 r hr)⟩

/-- A program all of whose operations may be asked at any time. -/
theorem Asks.meets {P : E → Prop} {p : Prog E R α} (hp : p.Asks P)
    (hask : ∀ past e, P e → ask past e) (past : List (Event E R)) :
    p.Meets allow ask (fun _ _ => True) past := by
  induction p generalizing past with
  | pure a => trivial
  | op e k ih => exact ⟨hask past e hp.1, fun r _ => ih r (hp.2 r) _⟩

/-- A program whose operations leave `π` of the history as it is, and may be asked
as long as it is so. -/
theorem Asks.meets_same {γ : Type} {π : List (Event E R) → γ} {P : E → Prop} {p : Prog E R α}
    {past : List (Event E R)} (hp : p.Asks P)
    (hask : ∀ past' e, π past' = π past → P e → ask past' e)
    (hsame : ∀ past' e r, P e → π (past' ++ [⟨e, r⟩]) = π past') :
    p.Meets allow ask (fun past' _ => π past' = π past) past := by
  have hgeneral : ∀ {past' : List (Event E R)}, π past' = π past →
      p.Meets allow ask (fun past'' _ => π past'' = π past) past' := by
    induction p with
    | pure a => exact fun h => h
    | op e k ih =>
        intro past' hpast'
        refine ⟨hask past' e hpast' hp.1, fun r _ => ih r (hp.2 r) ?_⟩
        rw [hsame past' e r hp.1, hpast']
  exact hgeneral rfl

/-! ## Soundness -/

/-- Every answer in a trace is one the handler may give. -/
theorem Obeys.of_mem_trace {h : Handler E R σ} (hh : Obeys h allow) {p : Prog E R α} {s : σ}
    {event : Event E R} (hevent : event ∈ p.trace h s) : allow event.1 event.2 := by
  induction p generalizing s with
  | pure a => exact absurd hevent List.not_mem_nil
  | op e k ih =>
      rcases List.mem_cons.mp hevent with rfl | hrest
      · exact hh e s
      · exact ih (h e s).1 hrest

/-- It is enough that the answers of this run are allowed. -/
theorem Meets.sound_of_trace {h : Handler E R σ} {p : Prog E R α}
    {post : List (Event E R) → α → Prop} {past : List (Event E R)}
    (hp : p.Meets allow ask post past) (s : σ)
    (hall : ∀ event ∈ p.trace h s, allow event.1 event.2) :
    post (past ++ p.trace h s) (p.run h s).1 := by
  induction p generalizing past s with
  | pure a => simpa [trace, run, Meets] using hp
  | op e k ih =>
      obtain ⟨hfirst, hlater⟩ := List.forall_mem_cons.mp hall
      have hrest := ih (h e s).1 (hp.2 _ hfirst) (h e s).2 hlater
      simpa [trace, run] using hrest

theorem Meets.sound_post {h : Handler E R σ} (hh : Obeys h allow) {p : Prog E R α}
    {post : List (Event E R) → α → Prop} {past : List (Event E R)}
    (hp : p.Meets allow ask post past) (s : σ) :
    post (past ++ p.trace h s) (p.run h s).1 :=
  hp.sound_of_trace s fun _ hevent => hh.of_mem_trace hevent

theorem Meets.sound_ask {h : Handler E R σ} (hh : Obeys h allow) {p : Prog E R α}
    {post : List (Event E R) → α → Prop} {past : List (Event E R)}
    (hp : p.Meets allow ask post past) (s : σ) {before after : List (Event E R)}
    {event : Event E R} (htrace : p.trace h s = before ++ event :: after) :
    ask (past ++ before) event.1 := by
  induction p generalizing past s before with
  | pure a => simp [trace] at htrace
  | op e k ih =>
      cases before with
      | nil =>
          simp only [trace, List.nil_append, List.cons.injEq] at htrace
          rw [← htrace.1, List.append_nil]
          exact hp.1
      | cons first rest =>
          simp only [trace, List.cons_append, List.cons.injEq] at htrace
          have hrest := ih (h e s).1 (hp.2 _ (hh e s)) (h e s).2 htrace.2
          rw [← htrace.1]
          simpa using hrest

/-! ## Traces -/

/-- Every operation of a trace satisfies `ask` of the events before it. -/
def Observed (ask : List (Event E R) → E → Prop) (past trace : List (Event E R)) : Prop :=
  ∀ before event after, trace = before ++ event :: after → ask (past ++ before) event.1

theorem Meets.observed {h : Handler E R σ} (hh : Obeys h allow) {p : Prog E R α}
    {post : List (Event E R) → α → Prop} {past : List (Event E R)}
    (hp : p.Meets allow ask post past) (s : σ) : Observed ask past (p.trace h s) :=
  fun _ _ _ htrace => hp.sound_ask hh s htrace

theorem observed_nil {past : List (Event E R)} : Observed ask past [] := by
  intro before event after h
  cases before <;> cases h

theorem observed_cons {past rest : List (Event E R)} {event : Event E R} :
    Observed ask past (event :: rest) ↔ ask past event.1 ∧ Observed ask (past ++ [event]) rest := by
  constructor
  · intro h
    refine ⟨by simpa using h [] event rest rfl, fun before event' after htrace => ?_⟩
    rw [List.append_assoc]
    exact h (event :: before) event' after (congrArg (event :: ·) htrace)
  · rintro ⟨hfirst, hrest⟩ before event' after htrace
    cases before with
    | nil =>
        obtain ⟨rfl, -⟩ := List.cons.inj htrace
        rwa [List.append_nil]
    | cons first before =>
        obtain ⟨rfl, htail⟩ := List.cons.inj htrace
        simpa using hrest before event' after htail

theorem observed_append {past trace later : List (Event E R)} :
    Observed ask past (trace ++ later) ↔
      Observed ask past trace ∧ Observed ask (past ++ trace) later := by
  induction trace generalizing past with
  | nil => simp [observed_nil]
  | cons event trace ih =>
      rw [List.cons_append, observed_cons, observed_cons, ih, List.append_assoc, and_assoc]
      rfl

theorem observed_of_forall {past trace : List (Event E R)}
    (h : ∀ event ∈ trace, ∀ past, ask past event.1) : Observed ask past trace := by
  intro before event after htrace
  exact h event (htrace ▸ List.mem_append_right _ List.mem_cons_self) _

end Prog

end At91Drivers.Effects
