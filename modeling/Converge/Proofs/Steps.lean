import Converge.Proofs.Monitor
import Converge.Proofs.Visit.Places

/-!
# What courses leave behind

The steps of a course, with its events among them, are the record of what was done.  A course
ensures a statement about this record and its end if the statement is true whatever the world
answers and whatever looks find.  It is then true of a course that is followed alone in any world,
and a monitor that does nothing but keep the record carries it to courses that are followed among
others.
-/

namespace Converge

open Course (World Step)

variable {Q : Type} {A : Q → Type} {R S σ α β ε : Type}

/-- Answered like this, the plan ends with `b`. -/
def Plan.Leads : Plan Q A α → List (Step Q A R) → α → Prop
  | done a, steps, b => steps = [] ∧ b = a
  | ask q next, steps, b => ∃ a rest, steps = .answered q a :: rest ∧ (next a).Leads rest b

namespace Course

/-- The events in the course of some steps, in this order. -/
def events (steps : List (Step Q A R)) : List Event := steps.filterMap Step.event?

/-- The steps in which events are written down. -/
def noted (es : List Event) : List (Step Q A R) := es.map fun e => .left (.event e)

/-- The steps of a call, between the marks of its beginning and its end. -/
def called (c : Call) (r : R) (inner : List (Step Q A R)) : List (Step Q A R) :=
  .left (.began c r) :: (inner ++ [.left (.ended c r)])

@[simp] theorem events_event (e : Event) (steps : List (Step Q A R)) :
    events (.left (.event e) :: steps) = e :: events steps := rfl
@[simp] theorem events_append (steps further : List (Step Q A R)) :
    events (steps ++ further) = events steps ++ events further := List.filterMap_append

@[simp] theorem events_noted (es : List Event) :
    events (noted es : List (Step Q A R)) = es := by
  induction es with
  | nil => rfl
  | cons e es ih => exact congrArg (e :: ·) ih

theorem events_called (c : Call) (r : R) (inner : List (Step Q A R)) :
    events (called c r inner) = events inner := by
  show events (inner ++ [.left (.ended c r)]) = _
  rw [events_append]
  exact List.append_nil _

theorem ne_of_events_eq_nil {steps before after : List (Step Q A R)} {e : Event}
    (h : events steps = []) : steps ≠ before ++ .left (.event e) :: after := by
  rintro rfl
  simp at h

/-- An event comes after steps that are none. -/
theorem split_event {block steps before after : List (Step Q A R)} {e : Event}
    (hblock : events block = []) (h : block ++ steps = before ++ .left (.event e) :: after) :
    ∃ mid, before = block ++ mid ∧ steps = mid ++ .left (.event e) :: after := by
  rcases List.append_eq_append_iff.mp h with ⟨mid, hbefore, hsteps⟩ | ⟨mid, rfl, hsteps⟩
  · exact ⟨mid, hbefore, hsteps⟩
  · cases mid with
    | nil => exact ⟨[], by simp, hsteps.symm⟩
    | cons x mid =>
        obtain ⟨rfl, -⟩ := List.cons.inj hsteps
        simp at hblock

/-- An event of a record that opens with one is that one, or comes later. -/
theorem split_first {steps before after : List (Step Q A R)} {e e' : Event}
    (h : .left (.event e') :: steps = before ++ .left (.event e) :: after) :
    (before = [] ∧ e = e' ∧ after = steps) ∨
      ∃ mid, before = .left (.event e') :: mid ∧ steps = mid ++ .left (.event e) :: after := by
  cases before with
  | nil =>
      obtain ⟨hevent, hsteps⟩ := List.cons.inj h
      cases hevent
      exact .inl ⟨rfl, rfl, hsteps.symm⟩
  | cons x mid =>
      obtain ⟨rfl, hsteps⟩ := List.cons.inj h
      exact .inr ⟨mid, rfl, hsteps⟩

/-- Labels make no difference to events. -/
theorem events_map (f : R → S) (steps : List (Step Q A R)) :
    events (steps.map (Step.map f)) = events steps := by
  rw [events, List.filterMap_map]
  congr 1
  funext x
  rcases x with (_ | _ | _) | _ <;> rfl

end Course

/-- A call writes nothing down, since answers are no events. -/
theorem Plan.Leads.events_called {p : Plan Q A α} {inner : List (Step Q A R)} {a : α}
    (h : p.Leads inner a) (c : Call) (r : R) : Course.events (Course.called c r inner) = [] := by
  rw [Course.events_called]
  induction p generalizing inner with
  | done b =>
      obtain ⟨rfl, -⟩ := h
      rfl
  | ask q next ih =>
      obtain ⟨b, rest, rfl, h⟩ := h
      exact (ih b h : Course.events rest = [])

/-! ## Statements about the record -/

namespace Course

/-- Whatever it is answered and whatever its looks find, the course takes steps and comes to an end
of which `post` is true. -/
def Ensures : Course Q A R α → (List (Step Q A R) → α → Prop) → Prop
  | done a, post => post [] a
  | ask q next, post => ∀ a, (next a).Ensures fun steps => post (.answered q a :: steps)
  | look next, post => ∀ b, (next b).Ensures post
  | leave m next, post => next.Ensures fun steps => post (.left m :: steps)

namespace Ensures

variable {post : List (Step Q A R) → α → Prop}

theorem mono {post' : List (Step Q A R) → α → Prop} {c : Course Q A R α} (h : c.Ensures post)
    (himp : ∀ steps a, post steps a → post' steps a) : c.Ensures post' := by
  induction c generalizing post post' with
  | done a => exact himp [] a h
  | ask q next ih => exact fun a => ih a (h a) fun steps => himp (.answered q a :: steps)
  | look next ih => exact fun b => ih b (h b) himp
  | leave m next ih => exact ih h fun steps => himp (.left m :: steps)

theorem look {next : Bool → Course Q A R α} (hclear : (next false).Ensures post)
    (hcancelled : (next true).Ensures post) : (look next).Ensures post
  | false => hclear
  | true => hcancelled

theorem note {e : Event} {c : Course Q A R α}
    (h : c.Ensures fun steps => post (.left (.event e) :: steps)) : (c.note e).Ensures post := h

/-- One course after another: the record is that of the one, and then that of the other. -/
theorem bind {mid : List (Step Q A R) → α → Prop} {post : List (Step Q A R) → β → Prop}
    {c : Course Q A R α} {f : α → Course Q A R β} (h : c.Ensures mid)
    (hf : ∀ steps a, mid steps a → (f a).Ensures fun further => post (steps ++ further)) :
    (c.bind f).Ensures post := by
  induction c generalizing mid post with
  | done a => exact hf [] a h
  | ask q next ih => exact fun a => ih a (h a) fun steps => hf (.answered q a :: steps)
  | look next ih => exact fun b => ih b (h b) hf
  | leave m next ih => exact ih h fun steps => hf (.left m :: steps)

/-- A failure of the first course is the end. -/
theorem andThen {mid : List (Step Q A R) → Except ε α → Prop}
    {post : List (Step Q A R) → Except ε β → Prop} {c : Course Q A R (Except ε α)}
    {f : α → Course Q A R (Except ε β)} (h : c.Ensures mid)
    (hok : ∀ steps a, mid steps (.ok a) → (f a).Ensures fun further => post (steps ++ further))
    (herror : ∀ steps e, mid steps (.error e) → post steps (.error e)) :
    (c.andThen f).Ensures post := by
  refine h.bind fun steps r hr => ?_
  cases r with
  | ok a => exact hok steps a hr
  | error e =>
      have hend := herror steps e hr
      rw [← List.append_nil steps] at hend
      exact hend

/-- What is made of a success in the end leaves the record as it is. -/
theorem map {mid : List (Step Q A R) → Except ε α → Prop}
    {post : List (Step Q A R) → Except ε β → Prop} {c : Course Q A R (Except ε α)} (f : α → β)
    (h : c.Ensures mid) (hpost : ∀ steps r, mid steps r → post steps (r.map f)) :
    (c.andThen fun a => done (.ok (f a))).Ensures post := by
  refine h.andThen (fun steps a ha => ?_) fun steps e he => hpost steps _ he
  have hend := hpost steps _ ha
  rw [← List.append_nil steps] at hend
  exact hend

/-- A plan takes the steps in which it is answered. -/
theorem ofPlan (p : Plan Q A α) :
    (Course.ofPlan p : Course Q A R α).Ensures fun steps a => p.Leads steps a := by
  induction p with
  | done a => exact ⟨rfl, rfl⟩
  | ask q next ih => exact fun a => (ih a).mono fun steps b h => ⟨a, steps, rfl, h⟩

theorem call (c : Call) (r : R) (p : Plan Q A α) :
    (Course.call c r p).Ensures fun steps a =>
      ∃ inner, steps = called c r inner ∧ p.Leads inner a :=
  (ofPlan p).bind fun inner _ h => ⟨inner, rfl, h⟩

/-- What is true of all records is true of that of a course which is followed alone. -/
theorem run {c : Course Q A R α} (h : c.Ensures post) (w : World Q A σ) (s : σ) :
    post (c.run w s).2.1 (c.run w s).1 := by
  induction c generalizing post s with
  | done a => exact h
  | ask q next ih => exact ih _ (h _) _
  | look next ih => exact ih _ (h _) s
  | leave m next ih => exact ih h s

/-- A course whose marks are changed leaves the record behind that is changed so. -/
theorem mapMarks {f : R → S} {c : Course Q A R α} {post : List (Step Q A S) → α → Prop}
    (h : c.Ensures fun steps => post (steps.map (Step.map f))) : (c.mapMarks f).Ensures post := by
  induction c generalizing post with
  | done a => exact h
  | ask q next ih => exact fun a => ih a (h a)
  | look next ih => exact fun b => ih b (h b)
  | leave m next ih => exact ih h

end Ensures

end Course

/-! ## Keeping the record -/

/-- The monitor that allows everything and keeps the record. -/
def scribe : Monitor Q A R (List (Step Q A R)) where
  mayAsk _ _ := True
  answered past q a := past ++ [.answered q a]
  looked past _ := some past
  mayLeave _ _ := True
  left past m := past ++ [.left m]

theorem scribe_blind : (scribe : Monitor Q A R _).IsBlind := fun _ _ => rfl

theorem after_scribe (past steps : List (Step Q A R)) :
    scribe.after past steps = past ++ steps := by
  induction steps generalizing past with
  | nil => exact (List.append_nil past).symm
  | cons x steps ih =>
      rw [← List.singleton_append, Monitor.after_append, ih, ← List.append_assoc]
      cases x <;> rfl

/-- What a course ensures holds of the record that the monitor keeps. -/
theorem Course.Ensures.meets {c : Course Q A R α} {past : List (Step Q A R)}
    {post : List (Step Q A R) → α → Prop} (h : c.Ensures fun steps => post (past ++ steps)) :
    c.Meets scribe post past := by
  induction c generalizing past with
  | done a => simpa [Ensures] using h
  | ask q next ih =>
      refine ⟨trivial, fun a => ih a ((h a).mono fun steps b hb => ?_)⟩
      simpa [scribe] using hb
  | look next ih =>
      rintro b _ ⟨⟩
      exact ih b (h b)
  | leave m next ih =>
      refine ⟨trivial, ih (Ensures.mono h fun steps b hb => ?_)⟩
      simpa [scribe] using hb

end Converge
