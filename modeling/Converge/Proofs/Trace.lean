import Converge.Course

/-!
# Traces

A trace of a course is all that it sees and does on one way through it: what its looks find, the
answers to its questions, and the calls that it begins and ends.  Nothing is assumed about where
looks and answers come from, so whatever becomes of a course, alone or among others, comes of one
of its traces.
-/

namespace Converge

variable {Q : Type} {A : Q → Type} {R σ α β ε : Type}

/-- One thing that a course sees or does, events apart. -/
inductive Moment (Q : Type) (A : Q → Type) (R : Type) : Type where
  /-- A look at the flag of its scope, and whether that was raised. -/
  | looked (cancelled : Bool)
  | answered (q : Q) (a : A q)
  | began (call : Call) (r : R)
  | ended (call : Call) (r : R)

/-- What a mark is in a trace. -/
def Mark.moments : Mark R → List (Moment Q A R)
  | event _ => []
  | began call r => [.began call r]
  | ended call r => [.ended call r]

/-- What a step is in a trace. -/
def Course.Step.moments : Course.Step Q A R → List (Moment Q A R)
  | left m => m.moments
  | answered q a => [.answered q a]

/-- The moments that are steps too. -/
def Moment.isStep : Moment Q A R → Bool
  | looked _ => false
  | answered _ _ | began _ _ | ended _ _ => true

namespace Course

/-- On the way through the course that is given by the trace, the course ends with this. -/
def Leads : Course Q A R α → List (Moment Q A R) → α → Prop
  | done a, trace, b => trace = [] ∧ b = a
  | ask q next, trace, b => ∃ a rest, trace = .answered q a :: rest ∧ (next a).Leads rest b
  | look next, trace, b => ∃ c rest, trace = .looked c :: rest ∧ (next c).Leads rest b
  | leave m next, trace, b => ∃ rest, trace = m.moments ++ rest ∧ next.Leads rest b

variable {trace : List (Moment Q A R)}

@[simp] theorem leads_done {a b : α} :
    (done a : Course Q A R α).Leads trace b ↔ trace = [] ∧ b = a := Iff.rfl
@[simp] theorem leads_ask {q : Q} {next : A q → Course Q A R α} {b : α} :
    (ask q next).Leads trace b ↔
      ∃ a rest, trace = .answered q a :: rest ∧ (next a).Leads rest b := Iff.rfl
@[simp] theorem leads_look {next : Bool → Course Q A R α} {b : α} :
    (look next).Leads trace b ↔
      ∃ c rest, trace = .looked c :: rest ∧ (next c).Leads rest b := Iff.rfl
@[simp] theorem leads_leave {m : Mark R} {next : Course Q A R α} {b : α} :
    (leave m next).Leads trace b ↔ ∃ rest, trace = m.moments ++ rest ∧ next.Leads rest b :=
  Iff.rfl

/-- Events are no part of a trace. -/
@[simp] theorem leads_note {e : Event} {c : Course Q A R α} {b : α} :
    (c.note e).Leads trace b ↔ c.Leads trace b := by
  simp [note, Mark.moments]

/-- A trace of one course after another is a trace of the one, and then one of the other. -/
theorem leads_bind {c : Course Q A R α} {f : α → Course Q A R β} {b : β} :
    (c.bind f).Leads trace b ↔
      ∃ first rest a, trace = first ++ rest ∧ c.Leads first a ∧ (f a).Leads rest b := by
  induction c generalizing trace with
  | done a =>
      simp only [done_bind, leads_done]
      constructor
      · exact fun h => ⟨[], trace, a, rfl, ⟨rfl, rfl⟩, h⟩
      · rintro ⟨_, rest, _, rfl, ⟨rfl, rfl⟩, h⟩
        exact h
  | ask q next ih =>
      simp only [ask_bind, leads_ask, ih]
      constructor
      · rintro ⟨a, _, rfl, first, rest, x, rfl, hfirst, hrest⟩
        exact ⟨.answered q a :: first, rest, x, rfl, ⟨a, first, rfl, hfirst⟩, hrest⟩
      · rintro ⟨_, rest, x, rfl, ⟨a, first, rfl, hfirst⟩, hrest⟩
        exact ⟨a, first ++ rest, rfl, first, rest, x, rfl, hfirst, hrest⟩
  | look next ih =>
      simp only [look_bind, leads_look, ih]
      constructor
      · rintro ⟨c, _, rfl, first, rest, x, rfl, hfirst, hrest⟩
        exact ⟨.looked c :: first, rest, x, rfl, ⟨c, first, rfl, hfirst⟩, hrest⟩
      · rintro ⟨_, rest, x, rfl, ⟨c, first, rfl, hfirst⟩, hrest⟩
        exact ⟨c, first ++ rest, rfl, first, rest, x, rfl, hfirst, hrest⟩
  | leave m next ih =>
      simp only [leave_bind, leads_leave, ih]
      constructor
      · rintro ⟨_, rfl, first, rest, x, rfl, hfirst, hrest⟩
        exact ⟨m.moments ++ first, rest, x, by rw [List.append_assoc], ⟨first, rfl, hfirst⟩, hrest⟩
      · rintro ⟨_, rest, x, rfl, ⟨first, rfl, hfirst⟩, hrest⟩
        exact ⟨first ++ rest, by rw [List.append_assoc], first, rest, x, rfl, hfirst, hrest⟩

theorem leads_andThen_ok {c : Course Q A R (Except ε α)} {f : α → Course Q A R (Except ε β)}
    {b : β} :
    (c.andThen f).Leads trace (.ok b) ↔
      ∃ first rest a, trace = first ++ rest ∧ c.Leads first (.ok a) ∧ (f a).Leads rest (.ok b) := by
  rw [andThen, leads_bind]
  constructor
  · rintro ⟨first, rest, a | a, rfl, hfirst, hrest⟩
    · cases hrest.2
    · exact ⟨first, rest, a, rfl, hfirst, hrest⟩
  · rintro ⟨first, rest, a, rfl, hfirst, hrest⟩
    exact ⟨first, rest, .ok a, rfl, hfirst, hrest⟩

/-- A failure is one of the first course, or one of the second after the first has succeeded. -/
theorem leads_andThen_error {c : Course Q A R (Except ε α)} {f : α → Course Q A R (Except ε β)}
    {e : ε} :
    (c.andThen f).Leads trace (.error e) ↔ c.Leads trace (.error e) ∨
      ∃ first rest a, trace = first ++ rest ∧ c.Leads first (.ok a) ∧
        (f a).Leads rest (.error e) := by
  rw [andThen, leads_bind]
  constructor
  · rintro ⟨first, rest, x | a, rfl, hfirst, hrest⟩
    · obtain ⟨rfl, hx⟩ := hrest
      cases hx
      exact .inl (by rwa [List.append_nil])
    · exact .inr ⟨first, rest, a, rfl, hfirst, hrest⟩
  · rintro (h | ⟨first, rest, a, rfl, hfirst, hrest⟩)
    · exact ⟨trace, [], .error e, (List.append_nil _).symm, h, rfl, rfl⟩
    · exact ⟨first, rest, .ok a, rfl, hfirst, hrest⟩

/-- What comes of following a course alone comes of a trace: its steps, with looks in between. -/
theorem exists_leads_run (w : World Q A σ) (c : Course Q A R α) (s : σ) :
    ∃ trace, c.Leads trace (c.run w s).1 ∧
      trace.filter Moment.isStep = (c.run w s).2.1.flatMap Step.moments := by
  induction c generalizing s with
  | done a => exact ⟨[], ⟨rfl, rfl⟩, rfl⟩
  | ask q next ih =>
      obtain ⟨trace, hleads, hsteps⟩ := ih _ (w.answer q s).2
      refine ⟨_, ⟨_, trace, rfl, hleads⟩, ?_⟩
      rw [List.filter_cons_of_pos rfl, hsteps]
      rfl
  | look next ih =>
      obtain ⟨trace, hleads, hsteps⟩ := ih _ s
      refine ⟨_, ⟨_, trace, rfl, hleads⟩, ?_⟩
      rw [List.filter_cons_of_neg Bool.false_ne_true, hsteps]
      rfl
  | leave m next ih =>
      obtain ⟨trace, hleads, hsteps⟩ := ih s
      refine ⟨_, ⟨trace, rfl, hleads⟩, ?_⟩
      cases m with
      | event e => exact hsteps
      | began call r | ended call r =>
          rw [Mark.moments, List.singleton_append, List.filter_cons_of_pos rfl, hsteps]
          rfl

end Course

end Converge
