import Converge.Fleet

/-!
# What the history of a run tells

Views of a history.  A history has the latest deed first; the views are in order of time.
-/

namespace Converge.Fleet

variable {Q : Type} {A : Q → Type} {R : Type}

namespace Deed

/-- The job whose deed it is. -/
def job? : Deed Q A R → Option Nat
  | began i | step i _ | asked i _ | released i | joined i _ => some i
  | event _ | cancelled => none

/-- The step of a course. -/
def step? : Deed Q A R → Option (Course.Step Q A R)
  | step _ s => some s
  | _ => none

/-- The beginning of a call on a resource, and the job that makes it. -/
def call? : Deed Q A R → Option (Nat × Call × R)
  | step i (.left (.began call r)) => some (i, call, r)
  | _ => none

/-- The job whose outcome was taken into account, with the outcome. -/
def join? : Deed Q A R → Option (Nat × Outcome)
  | joined i o => some (i, o)
  | _ => none

end Deed

/-- The failure that an outcome is to the unit of this name, if it is one and no cancellation. -/
def Outcome.failure? (unit : String) (o : Outcome) : Option Fault :=
  match o.result unit with
  | .ok _ => none
  | .error f => if f.isCancellation then none else some (f.forUnit unit)

/-- The cancellation that an outcome is to the unit of this name, if it is one. -/
def Outcome.cancellation? (unit : String) (o : Outcome) : Option Fault :=
  match o.result unit with
  | .ok _ => none
  | .error f => if f.isCancellation then some (f.forUnit unit) else none

/-- The deeds of one job, the latest first. -/
def deedsOf (i : Nat) (h : List (Deed Q A R)) : List (Deed Q A R) := h.filter (·.job? = some i)

/-- The steps of all courses. -/
def stepsIn (h : List (Deed Q A R)) : List (Course.Step Q A R) := h.reverse.filterMap Deed.step?

/-- The steps of the course of one job. -/
def stepsOf (i : Nat) (h : List (Deed Q A R)) : List (Course.Step Q A R) := stepsIn (deedsOf i h)

namespace State

/-- The calls that have been begun. -/
def calls (s : State Q A R) : List (Nat × Call × R) := s.history.reverse.filterMap Deed.call?

/-- The outcomes that have been taken into account. -/
def joins (s : State Q A R) : List (Nat × Outcome) := s.history.reverse.filterMap Deed.join?

/-- Has the work on job `i` ended with a fault that is no cancellation? -/
def hasFailed (s : State Q A R) (i : Nat) : Bool :=
  (s.stages[i]?).any fun g => g.outcome?.any Outcome.isFault

/-- Does job `i` still have to take up a permit before it sets to work? -/
def isPending (s : State Q A R) (i : Nat) : Bool := (s.stages[i]?).any Stage.isPending

def isWaiting (s : State Q A R) (i : Nat) : Bool := (s.stages[i]?).any Stage.isWaiting

def holdsPermit (s : State Q A R) (i : Nat) : Bool := (s.stages[i]?).any Stage.holdsPermit

/-- The state after several moves, if they can be made one after the other. -/
def moves? (u : Setup Q A R) : List (Move Q A) → State Q A R → Option (State Q A R)
  | [], s => some s
  | m :: ms, s => (s.move? u m).bind (moves? u ms)

end State

@[simp] theorem deedsOf_nil (i : Nat) : deedsOf i ([] : List (Deed Q A R)) = [] := rfl

@[simp] theorem deedsOf_append (i : Nat) (h h' : List (Deed Q A R)) :
    deedsOf i (h ++ h') = deedsOf i h ++ deedsOf i h' := by
  simp [deedsOf]

theorem deedsOf_cons (i : Nat) (d : Deed Q A R) (h : List (Deed Q A R)) :
    deedsOf i (d :: h) = if d.job? = some i then d :: deedsOf i h else deedsOf i h := by
  simp [deedsOf, List.filter_cons]

theorem deedsOf_cons_self {i : Nat} {d : Deed Q A R} (hd : d.job? = some i)
    (h : List (Deed Q A R)) : deedsOf i (d :: h) = d :: deedsOf i h := by
  rw [deedsOf_cons, if_pos hd]

@[simp] theorem stepsIn_nil : stepsIn ([] : List (Deed Q A R)) = [] := rfl

@[simp] theorem stepsIn_cons (d : Deed Q A R) (h : List (Deed Q A R)) :
    stepsIn (d :: h) = stepsIn h ++ d.step?.toList := by
  cases hd : d.step? <;> simp [stepsIn, hd]

end Converge.Fleet
