import Converge.Provider
import Converge.Course

/-! # Calls and their answers

The marks of a course say when a call begins and when it ends, but not what came of it, which
only the course itself gets to know.  Here the record of a course is read against the world and
the provider: it is cut into events and whole calls, each of them with its answer.
-/

namespace Converge

open Course (World Step)

variable {Q : Type} {A : Q → Type} {R σ α β ε : Type}

/-- The call that begins with a step. -/
def Course.Step.call? : Step Q A R → Option (Call × R)
  | left (.began call r) => some (call, r)
  | _ => none

/-- The calls that begin in the course of some steps, in this order. -/
def Course.calls (steps : List (Step Q A R)) : List (Call × R) := steps.filterMap Step.call?

/-- The state of the world after some steps: answers change it, marks do not. -/
def Course.World.after (w : World Q A σ) : σ → List (Step Q A R) → σ
  | s, [] => s
  | s, .left _ :: steps => w.after s steps
  | s, .answered q _ :: steps => w.after (w.answer q s).2 steps

@[simp] theorem Course.World.after_nil (w : World Q A σ) (s : σ) :
    w.after s ([] : List (Step Q A R)) = s := rfl
@[simp] theorem Course.World.after_left (w : World Q A σ) (s : σ) (m : Mark R)
    (steps : List (Step Q A R)) : w.after s (.left m :: steps) = w.after s steps := rfl
@[simp] theorem Course.World.after_answered (w : World Q A σ) (s : σ) (q : Q) (a : A q)
    (steps : List (Step Q A R)) :
    w.after s (.answered q a :: steps) = w.after (w.answer q s).2 steps := rfl

@[simp] theorem Course.World.after_append (w : World Q A σ) (s : σ)
    (steps further : List (Step Q A R)) :
    w.after s (steps ++ further) = w.after (w.after s steps) further := by
  induction steps generalizing s with
  | nil => rfl
  | cons x xs ih =>
      cases x with
      | left m => exact ih s
      | answered q a => exact ih (w.answer q s).2

/-- A course leaves the world in the state that its own steps lead to. -/
theorem Course.after_run (w : World Q A σ) (c : Course Q A R α) (s : σ) :
    w.after s (c.run w s).2.1 = (c.run w s).2.2 := by
  induction c generalizing s with
  | done a => rfl
  | ask q next ih => exact ih _ _
  | look next ih => exact ih _ s
  | leave m next ih => exact ih s

/-- A plan leaves no marks. -/
theorem Course.unmarked_run_ofPlan (w : World Q A σ) (p : Plan Q A α) (s : σ) :
    ∀ x ∈ ((ofPlan p : Course Q A R α).run w s).2.1, x.mark? = none := by
  induction p generalizing s with
  | done a =>
      intro x hx
      cases hx
  | ask q next ih =>
      intro x hx
      rcases List.mem_cons.mp hx with rfl | hx
      · rfl
      · exact ih _ _ x hx

/-- A plan that is followed as a course is carried out. -/
theorem Course.plan_of_run_ofPlan {w : World Q A σ} {p : Plan Q A α} {s s' : σ} {a : α}
    {steps : List (Step Q A R)} (h : (ofPlan p).run w s = (a, steps, s')) :
    p.run w.answer s = (a, s') := by
  induction p generalizing s steps with
  | done b =>
      cases h
      rfl
  | ask q next ih =>
      rw [ofPlan_ask, run, Prod.mk.injEq, Prod.mk.injEq] at h
      exact ih _ (Prod.ext h.1 (Prod.ext rfl h.2.2))

theorem Course.calls_append (steps further : List (Step Q A R)) :
    Course.calls (steps ++ further) = Course.calls steps ++ Course.calls further :=
  List.filterMap_append

theorem Course.calls_eq_nil {steps : List (Step Q A R)} (h : ∀ x ∈ steps, x.mark? = none) :
    Course.calls steps = [] := by
  refine List.filterMap_eq_nil_iff.mpr fun x hx => ?_
  cases x with
  | left m => cases h _ hx
  | answered q a => rfl

/-- A call carries its plan out, and no call begins but this one. -/
theorem Course.run_call (w : World Q A σ) (c : Call) (r : R) (p : Plan Q A α) (s : σ) :
    ∃ steps, (call c r p).run w s = ((p.run w.answer s).1, steps, (p.run w.answer s).2) ∧
      Course.calls steps = [(c, r)] := by
  obtain ⟨⟨a, inner, s'⟩, hrun⟩ : ∃ x, (ofPlan p : Course Q A R α).run w s = x := ⟨_, rfl⟩
  have hinner := unmarked_run_ofPlan (R := R) w p s
  rw [hrun] at hinner
  have hone : Course.calls (.left (.began c r) :: (inner ++ [.left (.ended c r)])) = [(c, r)] := by
    show (c, r) :: Course.calls (inner ++ [.left (.ended c r)]) = [(c, r)]
    rw [calls_append, calls_eq_nil hinner]
    rfl
  refine ⟨_, ?_, hone⟩
  rw [plan_of_run_ofPlan hrun]
  simp only [call, run, run_bind, hrun]

/-- A call of a walk that has come back, and what it answered. -/
inductive Returned (R : Type) where
  | satisfied (r : R) (answer : Except Failure Bool)
  | apply (r : R) (answer : Except Failure Unit)

namespace Returned

def call : Returned R → Call
  | satisfied _ _ => .satisfied
  | apply _ _ => .apply

def resource : Returned R → R
  | satisfied r _ | apply r _ => r

/-- Did the call fail? -/
def isFailure : Returned R → Bool
  | satisfied _ (.error _) | apply _ (.error _) => true
  | satisfied _ (.ok _) | apply _ (.ok _) => false

/-- Begun in state `s`, the call puts its questions in `steps` and comes back in state `s'`. -/
def Runs (w : World Q A σ) (P : Provider Q A R) (s : σ) (steps : List (Step Q A R)) (s' : σ) :
    Returned R → Prop
  | satisfied r answer => (Course.ofPlan (P.satisfied r)).run w s = (answer, steps, s')
  | apply r answer => (Course.ofPlan (P.apply r)).run w s = (answer, steps, s')

variable {w : World Q A σ} {P : Provider Q A R} {s s' : σ} {steps : List (Step Q A R)}
  {c : Returned R}

theorem Runs.unmarked (h : c.Runs w P s steps s') : ∀ x ∈ steps, x.mark? = none := by
  cases c with
  | satisfied r answer =>
      have := Course.unmarked_run_ofPlan (R := R) w (P.satisfied r) s
      rwa [show (Course.ofPlan (P.satisfied r)).run w s = _ from h] at this
  | apply r answer =>
      have := Course.unmarked_run_ofPlan (R := R) w (P.apply r) s
      rwa [show (Course.ofPlan (P.apply r)).run w s = _ from h] at this

theorem Runs.after (h : c.Runs w P s steps s') : w.after s steps = s' := by
  cases c with
  | satisfied r answer =>
      have := Course.after_run w (Course.ofPlan (P.satisfied r) : Course Q A R _) s
      rwa [show (Course.ofPlan (P.satisfied r)).run w s = _ from h] at this
  | apply r answer =>
      have := Course.after_run w (Course.ofPlan (P.apply r) : Course Q A R _) s
      rwa [show (Course.ofPlan (P.apply r)).run w s = _ from h] at this

/-- From the same state a call of one sort on one resource comes back with one answer. -/
theorem Runs.unique {d : Returned R} {further : List (Step Q A R)} {u : σ}
    (h : c.Runs w P s steps s') (h' : d.Runs w P s further u) (hcall : c.call = d.call)
    (hresource : c.resource = d.resource) : c = d ∧ s' = u := by
  cases c <;> cases d <;> cases hcall <;> cases hresource
  all_goals
    have heq := Eq.trans (Eq.symm h) h'
    obtain ⟨rfl, -, rfl⟩ : _ ∧ _ ∧ _ := by simpa only [Prod.mk.injEq] using heq
    exact ⟨rfl, rfl⟩

end Returned

/-- Between states `s` and `s'` the steps are events and the calls `cs`, one after the other.  No
call begins in a state in which the scope has been cancelled, and from its beginning to its end
there are the answers to its own questions only. -/
inductive Calls (w : World Q A σ) (P : Provider Q A R) :
    σ → List (Step Q A R) → List (Returned R) → σ → Prop
  | nil (s : σ) : Calls w P s [] [] s
  | event {s s' : σ} {steps : List (Step Q A R)} {cs : List (Returned R)} (e : Event)
      (h : Calls w P s steps cs s') : Calls w P s (.left (.event e) :: steps) cs s'
  | call {s t s' : σ} {inner steps : List (Step Q A R)} {cs : List (Returned R)} (c : Returned R)
      (hs : w.cancelled s = false) (hc : c.Runs w P s inner t)
      (hinner : ∀ x ∈ inner, x.mark? = none) (h : Calls w P t steps cs s') :
      Calls w P s
        (.left (.began c.call c.resource) ::
          (inner ++ .left (.ended c.call c.resource) :: steps))
        (c :: cs) s'

namespace Calls

variable {w : World Q A σ} {P : Provider Q A R} {s t s' : σ} {steps further : List (Step Q A R)}
  {cs ds : List (Returned R)}

theorem append (h : Calls w P s steps cs t) (h' : Calls w P t further ds s') :
    Calls w P s (steps ++ further) (cs ++ ds) s' := by
  induction h with
  | nil s => exact h'
  | event e _ ih => exact .event e (ih h')
  | call c hs hc hinner _ ih => simpa using Calls.call c hs hc hinner (ih h')

/-- The state at the end is the one that the steps lead to. -/
theorem after_eq (h : Calls w P s steps cs s') : w.after s steps = s' := by
  induction h with
  | nil s => rfl
  | event e _ ih => exact ih
  | call c hs hc hinner _ ih => simpa [hc.after] using ih

/-- When a call begins, the scope has not been cancelled. -/
theorem not_cancelled (h : Calls w P s steps cs s') {before after : List (Step Q A R)} {c : Call}
    {r : R} (heq : steps = before ++ .left (.began c r) :: after) :
    w.cancelled (w.after s before) = false := by
  induction h generalizing before with
  | nil s => simp at heq
  | event e _ ih =>
      cases before with
      | nil => simp at heq
      | cons x before =>
          obtain ⟨rfl, hrest⟩ := List.cons.inj heq
          have := ih hrest
          exact this
  | @call s t s' inner steps cs d hs hc hinner _ ih =>
      cases before with
      | nil => exact hs
      | cons x before =>
          obtain ⟨rfl, hrest⟩ := List.cons.inj heq
          -- a further beginning lies neither among the answers of this call nor at its end
          rcases List.append_eq_append_iff.mp hrest with ⟨mid, rfl, hmid⟩ | ⟨mid, rfl, hmid⟩
          · cases mid with
            | nil => simp at hmid
            | cons y mid =>
                obtain ⟨rfl, htail⟩ := List.cons.inj hmid
                simpa [hc.after] using ih htail
          · cases mid with
            | nil => simp at hmid
            | cons y mid =>
                obtain ⟨rfl, -⟩ := List.cons.inj hmid
                simpa [Step.mark?] using hinner (.left (.began c r)) (by simp)

/-- Whatever call begins in a stretch of steps is one of the calls that the stretch consists of. -/
theorem exists_of_began (h : Calls w P s steps cs s') {call : Call} {r : R}
    (hbegan : .left (.began call r) ∈ steps) :
    ∃ c ∈ cs, c.call = call ∧ c.resource = r := by
  induction h with
  | nil s => cases hbegan
  | event e _ ih => exact ih (by simpa using hbegan)
  | @call s t s' inner steps cs c hs hc hinner _ ih =>
      rcases List.mem_cons.mp hbegan with heq | hbegan
      · cases heq
        exact ⟨c, List.mem_cons_self, rfl, rfl⟩
      rcases List.mem_append.mp hbegan with hbegan | hbegan
      · cases hinner _ hbegan
      · obtain ⟨d, hd, heq⟩ := ih (by simpa using hbegan)
        exact ⟨d, List.mem_cons_of_mem c hd, heq⟩

/-- A list with one mark after steps without any can be cut at that mark in one way only. -/
theorem split_unmarked {inner inner' : List (Step Q A R)} {m m' : Mark R}
    (hinner : ∀ x ∈ inner, x.mark? = none) (hinner' : ∀ x ∈ inner', x.mark? = none)
    (heq : inner ++ .left m :: steps = inner' ++ .left m' :: further) :
    inner = inner' ∧ m = m' ∧ steps = further := by
  induction inner generalizing inner' with
  | nil =>
      cases inner' with
      | nil => simpa using heq
      | cons y inner' =>
          obtain ⟨rfl, -⟩ := List.cons.inj heq
          cases hinner' _ List.mem_cons_self
  | cons x inner ih =>
      cases inner' with
      | nil =>
          obtain ⟨rfl, -⟩ := List.cons.inj heq
          cases hinner _ List.mem_cons_self
      | cons y inner' =>
          obtain ⟨rfl, hrest⟩ := List.cons.inj heq
          rw [List.forall_mem_cons] at hinner hinner'
          obtain ⟨rfl, hm, hsteps⟩ := ih hinner.2 hinner'.2 hrest
          exact ⟨rfl, hm, hsteps⟩

/-- Steps can be cut into calls in one way only. -/
theorem unique {u : σ} (h : Calls w P s steps cs s') (h' : Calls w P s steps ds u) : cs = ds := by
  induction h generalizing ds with
  | nil s =>
      cases h' with
      | nil => rfl
  | event e _ ih =>
      cases h' with
      | event _ h' => exact ih h'
  | @call s t s' inner steps cs c hs hc hinner _ ih =>
      generalize hwhole : Course.Step.left (Mark.began c.call c.resource) ::
        (inner ++ .left (.ended c.call c.resource) :: steps) = whole at h'
      cases h' with
      | nil => cases hwhole
      | event e _ => cases hwhole
      | @call _ t' _ inner' steps' ds d _ hd hinner' h' =>
          obtain ⟨hbegan, hrest⟩ := List.cons.inj hwhole
          obtain ⟨rfl, -, rfl⟩ := split_unmarked hinner hinner' hrest
          obtain ⟨hcall, hresource⟩ := Mark.began.inj (Course.Step.left.inj hbegan)
          obtain ⟨rfl, rfl⟩ := hc.unique hd hcall hresource
          rw [ih h']

end Calls

/-! ## Courses and the calls they make -/

/-- Followed from state `s`, the course makes the calls `cs` and ends with `a` in state `s'`. -/
def Course.Makes (w : World Q A σ) (P : Provider Q A R) (c : Course Q A R α) (s : σ) (a : α)
    (cs : List (Returned R)) (s' : σ) : Prop :=
  ∃ steps, c.run w s = (a, steps, s') ∧ Calls w P s steps cs s'

namespace Course.Makes

variable {w : World Q A σ} {P : Provider Q A R} {s t s' : σ} {cs ds : List (Returned R)}

theorem done (a : α) : (Course.done a).Makes w P s a [] s := ⟨[], rfl, .nil s⟩

theorem look {next : Bool → Course Q A R α} {a : α} (b : Bool) (hb : w.cancelled s = b)
    (h : (next b).Makes w P s a cs s') : (Course.look next).Makes w P s a cs s' := by
  subst hb
  exact h

theorem note {c : Course Q A R α} {a : α} (e : Event) (h : c.Makes w P s a cs s') :
    (c.note e).Makes w P s a cs s' := by
  obtain ⟨steps, hrun, hcs⟩ := h
  refine ⟨.left (.event e) :: steps, ?_, .event e hcs⟩
  simp only [Course.note, run, hrun]

theorem bind {c : Course Q A R α} {f : α → Course Q A R β} {a : α} {b : β}
    (h : c.Makes w P s a cs t) (hf : (f a).Makes w P t b ds s') :
    (c.bind f).Makes w P s b (cs ++ ds) s' := by
  obtain ⟨steps, hrun, hcs⟩ := h
  obtain ⟨further, hrun', hds⟩ := hf
  refine ⟨steps ++ further, ?_, hcs.append hds⟩
  simp only [run_bind, hrun, hrun']

theorem andThen {c : Course Q A R (Except ε α)} {f : α → Course Q A R (Except ε β)} {a : α}
    {b : Except ε β} (h : c.Makes w P s (.ok a) cs t) (hf : (f a).Makes w P t b ds s') :
    (c.andThen f).Makes w P s b (cs ++ ds) s' :=
  h.bind hf

theorem andThen_error {c : Course Q A R (Except ε α)} {f : α → Course Q A R (Except ε β)} {e : ε}
    (h : c.Makes w P s (.error e) cs s') : (c.andThen f).Makes w P s (.error e) cs s' := by
  obtain ⟨steps, hrun, hcs⟩ := h
  refine ⟨steps, ?_, hcs⟩
  simp [Course.andThen, run_bind, hrun, run]

theorem map {c : Course Q A R (Except ε α)} {a : Except ε α} (f : α → β)
    (h : c.Makes w P s a cs s') :
    (c.andThen fun x => (Course.done (.ok (f x)) : Course Q A R (Except ε β))).Makes w P s
      (a.map f) cs s' := by
  cases a with
  | ok a =>
      have hend : (Course.done (.ok (f a)) : Course Q A R (Except ε β)).Makes w P s' _ [] s' :=
        .done _
      simpa [Except.map] using h.andThen (f := fun x => .done (.ok (f x))) hend
  | error e => exact h.andThen_error

theorem call_satisfied {r : R} {answer : Except Failure Bool} {steps : List (Step Q A R)}
    (hs : w.cancelled s = false) (h : (Returned.satisfied r answer).Runs w P s steps s') :
    (Course.call .satisfied r (P.satisfied r)).Makes w P s answer [.satisfied r answer] s' := by
  have hrun : (ofPlan (P.satisfied r)).run w s = (answer, steps, s') := h
  refine ⟨_, ?_, .call _ hs h h.unmarked (.nil s')⟩
  simp [Course.call, run, run_bind, hrun, Returned.call, Returned.resource]

theorem call_apply {r : R} {answer : Except Failure Unit} {steps : List (Step Q A R)}
    (hs : w.cancelled s = false) (h : (Returned.apply r answer).Runs w P s steps s') :
    (Course.call .apply r (P.apply r)).Makes w P s answer [.apply r answer] s' := by
  have hrun : (ofPlan (P.apply r)).run w s = (answer, steps, s') := h
  refine ⟨_, ?_, .call _ hs h h.unmarked (.nil s')⟩
  simp [Course.call, run, run_bind, hrun, Returned.call, Returned.resource]

end Course.Makes

end Converge
