import Converge.Journal
import Converge.Plan

/-!
# Courses

A course is what one walk over a tree goes through: it puts questions to the world as a plan
does, looks whether its scope has been cancelled, and leaves marks of what it does.  It is kept
apart from any world, so that the same course can be followed alone or step by step among others.
-/

namespace Converge

/-- The three calls on a resource. -/
inductive Call where
  | validate
  | satisfied
  | apply
deriving DecidableEq, Repr

/-- A mark that a course leaves: an event for the journal, or the beginning and the end of a
call on a resource. -/
inductive Mark (R : Type) where
  | event (e : Event)
  | began (call : Call) (resource : R)
  | ended (call : Call) (resource : R)
deriving DecidableEq, Repr

inductive Course (Q : Type) (A : Q → Type) (R : Type) (α : Type) : Type where
  | done (a : α)
  /-- Puts a question to the world. -/
  | ask (q : Q) (next : A q → Course Q A R α)
  /-- Looks whether the scope has been cancelled. -/
  | look (next : Bool → Course Q A R α)
  | leave (m : Mark R) (next : Course Q A R α)

namespace Course

variable {Q : Type} {A : Q → Type} {R α β γ ε : Type}

/-- One course after another. -/
def bind : Course Q A R α → (α → Course Q A R β) → Course Q A R β
  | done a, f => f a
  | ask q next, f => ask q fun a => (next a).bind f
  | look next, f => look fun b => (next b).bind f
  | leave m next, f => leave m (next.bind f)

@[simp] theorem done_bind (a : α) (f : α → Course Q A R β) : (done a).bind f = f a := rfl
@[simp] theorem ask_bind (q : Q) (next : A q → Course Q A R α) (f : α → Course Q A R β) :
    (ask q next).bind f = ask q fun a => (next a).bind f := rfl
@[simp] theorem look_bind (next : Bool → Course Q A R α) (f : α → Course Q A R β) :
    (look next).bind f = look fun b => (next b).bind f := rfl
@[simp] theorem leave_bind (m : Mark R) (next : Course Q A R α) (f : α → Course Q A R β) :
    (leave m next).bind f = leave m (next.bind f) := rfl

@[simp] theorem bind_done (c : Course Q A R α) : c.bind done = c := by
  induction c with
  | done a => rfl
  | ask q next ih => simp [ih]
  | look next ih => simp [ih]
  | leave m next ih => simp [ih]

theorem bind_assoc (c : Course Q A R α) (f : α → Course Q A R β) (g : β → Course Q A R γ) :
    (c.bind f).bind g = c.bind fun a => (f a).bind g := by
  induction c with
  | done a => rfl
  | ask q next ih => simp [ih]
  | look next ih => simp [ih]
  | leave m next ih => simp [ih]

instance : Monad (Course Q A R) where
  pure := done
  bind := bind

instance : LawfulMonad (Course Q A R) := .mk' _ bind_done (fun _ _ => rfl) bind_assoc

/-- Goes on only after a success. -/
def andThen (c : Course Q A R (Except ε α)) (f : α → Course Q A R (Except ε β)) :
    Course Q A R (Except ε β) :=
  c.bind fun
    | .ok a => f a
    | .error e => done (.error e)

@[simp] theorem ok_andThen (a : α) (f : α → Course Q A R (Except ε β)) :
    andThen (done (.ok a)) f = f a := rfl
@[simp] theorem error_andThen (e : ε) (f : α → Course Q A R (Except ε β)) :
    andThen (done (.error e)) f = done (.error e) := rfl

/-- To go on after a success is what `ExceptT` does, and has its laws from there. -/
theorem andThen_eq_bind (c : Course Q A R (Except ε α)) (f : α → Course Q A R (Except ε β)) :
    c.andThen f = ExceptT.bind c f := by
  refine congrArg c.bind (funext fun r => ?_)
  cases r <;> rfl

theorem andThen_assoc (c : Course Q A R (Except ε α)) (f : α → Course Q A R (Except ε β))
    (g : β → Course Q A R (Except ε γ)) :
    (c.andThen f).andThen g = c.andThen fun a => (f a).andThen g := by
  simp only [andThen_eq_bind]
  exact LawfulMonad.bind_assoc (m := ExceptT ε (Course Q A R)) c f g

@[simp] theorem andThen_ok (c : Course Q A R (Except ε α)) :
    (c.andThen fun a => done (.ok a)) = c := by
  rw [andThen_eq_bind]
  exact bind_pure (m := ExceptT ε (Course Q A R)) c

/-- Writes an event into the journal. -/
def note (e : Event) : Course Q A R α → Course Q A R α := leave (.event e)

/-- A plan, followed as a course. -/
def ofPlan : Plan Q A α → Course Q A R α
  | .done a => done a
  | .ask q next => ask q fun a => ofPlan (next a)

@[simp] theorem ofPlan_done (a : α) : (ofPlan (.done a) : Course Q A R α) = done a := rfl
@[simp] theorem ofPlan_ask (q : Q) (next : A q → Plan Q A α) :
    (ofPlan (.ask q next) : Course Q A R α) = ask q fun a => ofPlan (next a) := rfl

theorem ofPlan_bind (p : Plan Q A α) (f : α → Plan Q A β) :
    (ofPlan (p.bind f) : Course Q A R β) = (ofPlan p).bind fun a => ofPlan (f a) := by
  induction p with
  | done a => rfl
  | ask q next ih => simp [ih]

theorem ofPlan_andThen (p : Plan Q A (Except ε α)) (f : α → Plan Q A (Except ε β)) :
    (ofPlan (p.andThen f) : Course Q A R (Except ε β)) =
      (ofPlan p).andThen fun a => ofPlan (f a) := by
  rw [Plan.andThen, ofPlan_bind, andThen]
  congr
  funext r
  cases r <;> rfl

/-- A call on a resource, between the marks of its beginning and its end. -/
def call (c : Call) (r : R) (work : Plan Q A α) : Course Q A R α :=
  leave (.began c r) ((ofPlan work).bind fun a => leave (.ended c r) (done a))

/-! ## Following a course to its end -/

/-- A world of state `σ`: whether the scope of the course has been cancelled, and the answers. -/
structure World (Q : Type) (A : Q → Type) (σ : Type) where
  cancelled : σ → Bool
  answer : (q : Q) → σ → A q × σ

/-- What happens while a course is followed: it leaves a mark, or is answered. -/
inductive Step (Q : Type) (A : Q → Type) (R : Type) : Type where
  | left (m : Mark R)
  | answered (q : Q) (a : A q)

/-- The mark of a step. -/
def Step.mark? : Step Q A R → Option (Mark R)
  | left m => some m
  | answered _ _ => none

/-- The event of a step. -/
def Step.event? : Step Q A R → Option Event
  | left (.event e) => some e
  | _ => none

/-- Follows a course alone; also gives its steps, in order. -/
def run {σ : Type} (w : World Q A σ) : Course Q A R α → σ → α × List (Step Q A R) × σ
  | done a, s => (a, [], s)
  | ask q next, s =>
      let (a, s) := w.answer q s
      let (b, steps, s) := (next a).run w s
      (b, .answered q a :: steps, s)
  | look next, s => (next (w.cancelled s)).run w s
  | leave m next, s =>
      let (a, steps, s) := next.run w s
      (a, .left m :: steps, s)

theorem run_bind {σ : Type} (w : World Q A σ) (c : Course Q A R α) (f : α → Course Q A R β)
    (s : σ) :
    (c.bind f).run w s =
      let (a, steps, s) := c.run w s
      let (b, further, s) := (f a).run w s
      (b, steps ++ further, s) := by
  induction c generalizing s with
  | done a => rfl
  | ask q next ih => simp [run, ih]
  | look next ih => simp [run, ih]
  | leave m next ih => simp [run, ih]

/-! ## Following a course step by step -/

/-- The marks that a course leaves before it does anything else, and what is left of it then. -/
def marks : Course Q A R α → List (Mark R) × Course Q A R α
  | leave m next =>
      let (ms, c) := next.marks
      (m :: ms, c)
  | c => ([], c)

/-- One pace of a course: a look at the flag of its scope, if it stands before one, and the marks
that it leaves from there on. -/
def pace (cancelled : Bool) : Course Q A R α → List (Mark R) × Course Q A R α
  | look next => (next cancelled).marks
  | c => c.marks

@[simp] theorem marks_done (a : α) : (done a : Course Q A R α).marks = ([], done a) := rfl
@[simp] theorem marks_ask (q : Q) (next : A q → Course Q A R α) :
    (ask q next).marks = ([], ask q next) := rfl
@[simp] theorem marks_look (next : Bool → Course Q A R α) :
    (look next).marks = ([], look next) := rfl
@[simp] theorem marks_leave (m : Mark R) (next : Course Q A R α) :
    (leave m next).marks = (m :: next.marks.1, next.marks.2) := rfl

@[simp] theorem pace_look (b : Bool) (next : Bool → Course Q A R α) :
    (look next).pace b = (next b).marks := rfl
@[simp] theorem pace_leave (b : Bool) (m : Mark R) (next : Course Q A R α) :
    (leave m next).pace b = (leave m next).marks := rfl

end Course

end Converge
