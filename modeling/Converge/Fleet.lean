import Converge.Job
import Converge.Machine
import Converge.Scope
import Std.Data.TreeMap

/-!
# Fleets

A fleet is a set of jobs that are converged side by side.  A bounded number of permits decides
how many of them are at work at once; the others wait in line, and a permit that is given back
goes to the job that has waited longest.  All of them work in one shared scope under the
caller's, and the first job that fails has it cancelled.  Each job is a task that the machine knows
by a number; when one of them has ended, the name of its unit is looked up by that number.

The state of a run changes by moves, each of which does one thing for one job.  A job at work
makes one pace of its course at a time, so between two looks at the shared scope anything may
happen elsewhere, while a look and the call that it guards are one move.  A run is any sequence
of moves: nothing here says which of the possible moves comes next.
-/

namespace Converge.Fleet

variable {Q : Type} {A : Q → Type} {R : Type}

/-- How the work on a job ended. -/
inductive Outcome where
  | returned (result : Except Fault Tally)
  /-- The task of this number broke off without a result. -/
  | crashed (task : Nat) (how : String)

/-- Has the work failed of itself, with a fault that is no cancellation? -/
def Outcome.isFault : Outcome → Bool
  | .returned (.error f) => !f.isCancellation
  | _ => false

/-- What is said of a task that broke off with a word. -/
def crashText (task : Nat) (how : String) : String :=
  "task " ++ toString task ++ " panicked with message " ++ Text.quoted how

/-- What is reported of an outcome, on behalf of the unit of this name. -/
def Outcome.result (unit : String) : Outcome → Except Fault Tally
  | .returned r => r
  | .crashed task how => .error (.broken unit (crashText task how))

/-- How far the work on a job has come. -/
inductive Stage (Q : Type) (A : Q → Type) (R : Type) : Type where
  /-- It has not been looked at yet. -/
  | fresh
  /-- It has seen no cancellation and is about to ask for a permit. -/
  | entering
  /-- It stands in line for a permit. -/
  | waiting
  /-- It has been handed a permit and has not gone on yet. -/
  | admitted
  /-- It holds a permit and has come to this point of its course. -/
  | working (c : Course Q A R (Except Fault Tally))
  /-- It holds a permit and has put a question to the world. -/
  | asking (q : Q) (next : A q → Course Q A R (Except Fault Tally))
  /-- Its work is over; it still holds its permit. -/
  | leaving (o : Outcome)
  /-- It is over, and nobody has taken notice yet. -/
  | ended (o : Outcome)
  /-- Its outcome has been taken into account. -/
  | joined (o : Outcome)

namespace Stage

/-- Does a job at this stage hold a permit? -/
def holdsPermit : Stage Q A R → Bool
  | admitted | working _ | asking _ _ | leaving _ => true
  | _ => false

/-- Does a job at this stage still have to take up a permit before it sets to work? -/
def isPending : Stage Q A R → Bool
  | fresh | entering | waiting | admitted => true
  | _ => false

def isWaiting : Stage Q A R → Bool
  | waiting => true
  | _ => false

def isJoined : Stage Q A R → Bool
  | joined _ => true
  | _ => false

def isEnded : Stage Q A R → Bool
  | ended _ => true
  | _ => false

/-- How the work of a job at this stage ended, if it has. -/
def outcome? : Stage Q A R → Option Outcome
  | leaving o | ended o | joined o => some o
  | _ => none

end Stage

/-- One thing that happened in a run. -/
inductive Deed (Q : Type) (A : Q → Type) (R : Type) : Type where
  /-- An event of the run as a whole. -/
  | event (e : Event)
  /-- Job `i` took up a permit and set to work. -/
  | began (i : Nat)
  /-- A step of the course of job `i`. -/
  | step (i : Nat) (s : Course.Step Q A R)
  /-- Job `i` put a question to the world. -/
  | asked (i : Nat) (q : Q)
  /-- The shared scope was cancelled. -/
  | cancelled
  /-- Job `i` gave its permit back. -/
  | released (i : Nat)
  /-- The outcome of job `i` was taken into account. -/
  | joined (i : Nat) (o : Outcome)

/-- What is fixed for a run. -/
structure Setup (Q : Type) (A : Q → Type) (R : Type) where
  provider : Provider Q A R
  policy : Policy
  /-- How many jobs may work at once; none counts as one. -/
  limit : Nat
  jobs : List (Job R)
  tasks : Numbering

/-- How many permits there are. -/
def Setup.permits (u : Setup Q A R) : Nat := max u.limit 1

/-- The largest number of permits that can be kept count of. -/
def maxPermits : Nat := (wordBound - 1) >>> 3

/-- Can a run have as many permits as it is to have? -/
def Setup.isAdmissible (u : Setup Q A R) : Bool := u.permits ≤ maxPermits

/-- What a run says first. -/
def Setup.announcement (u : Setup Q A R) : Event := .unitsDiscovered u.jobs.length u.permits

/-- The course of job `i`. -/
def Setup.course (u : Setup Q A R) (i : Nat) : Course Q A R (Except Fault Tally) :=
  match u.jobs[i]? with
  | some job => job.tree.converge u.provider u.policy
  | none => .done (.error (.cancelled .top))

/-- The name of the unit of job `i`. -/
def Setup.unit (u : Setup Q A R) (i : Nat) : String := ((u.jobs[i]?).map Job.name).getD ""

/-- The number of the task that job `i` is. -/
def Setup.task (u : Setup Q A R) (i : Nat) : Nat := u.tasks.number i

/-- The names of the units, by the numbers of their tasks, which are entered one after the other. -/
def Setup.names (u : Setup Q A R) : Std.TreeMap Nat String :=
  .ofList (u.jobs.mapIdx fun i job => (u.task i, job.name))

/-- The state of a run. -/
structure State (Q : Type) (A : Q → Type) (R : Type) where
  scopes : Scopes
  /-- The scope that the jobs share. -/
  shared : Nat
  /-- Permits that nobody holds. -/
  free : Nat
  /-- The jobs in line for a permit, the one that has waited longest first. -/
  line : List Nat
  stages : List (Stage Q A R)
  /-- The names of the units that have not been joined, by the numbers of their tasks. -/
  names : Std.TreeMap Nat String
  summary : Summary
  /-- The first fault that is no cancellation. -/
  failure : Option Fault
  /-- The first cancellation. -/
  cancellation : Option Fault
  /-- Has the run returned? -/
  closed : Bool
  /-- What has happened, the latest first. -/
  history : List (Deed Q A R)

namespace State

/-- Has the shared scope been cancelled? -/
def isCancelled (s : State Q A R) : Bool := s.scopes.cancelled s.shared

def record (s : State Q A R) (d : Deed Q A R) : State Q A R :=
  { s with history := d :: s.history }

def setStage (s : State Q A R) (i : Nat) (stage : Stage Q A R) : State Q A R :=
  { s with stages := s.stages.set i stage }

/-- Cancels the shared scope. -/
def cancelShared (s : State Q A R) : State Q A R :=
  { s with scopes := s.scopes.cancel s.shared }.record .cancelled

/-- Gives a permit back: to the head of the line, or to nobody. -/
def release (s : State Q A R) (i : Nat) : State Q A R :=
  match s.line with
  | [] => { s with free := s.free + 1 }.record (.released i)
  | j :: rest => ({ s with line := rest }.setStage j .admitted).record (.released i)

/-- Job `i` has left marks. -/
def mark (s : State Q A R) (i : Nat) (ms : List (Mark R)) : State Q A R :=
  { s with history := ms.reverse.map (fun m => .step i (.left m)) ++ s.history }

/-- Job `i` sets to work with a permit. -/
def begin (u : Setup Q A R) (s : State Q A R) (i : Nat) : State Q A R :=
  (s.setStage i (.working (u.course i))).record (.began i)

/-- Job `i` goes on from the point `c` of its course: it comes to its end, puts a question, or
makes a pace.  A job that ends with a fault has the shared scope cancelled while it still holds
its permit. -/
def goOn (s : State Q A R) (i : Nat) : Course Q A R (Except Fault Tally) → State Q A R
  | .done r =>
      let o := Outcome.returned r
      (if o.isFault then s.cancelShared else s).setStage i (.leaving o)
  | .ask q next => (s.setStage i (.asking q next)).record (.asked i q)
  | c =>
      let (ms, c) := c.pace s.isCancelled
      (s.setStage i (.working c)).mark i ms

/-- The outcome of a job that was cancelled before it began. -/
def notStarted : Outcome := .returned (.error (.cancelled .top))

/-- The name that is known for job `i`. -/
def nameOf (u : Setup Q A R) (s : State Q A R) (i : Nat) : String :=
  (s.names[u.task i]?).getD ""

/-- Takes job `i` off the list of names. -/
def strike (u : Setup Q A R) (s : State Q A R) (i : Nat) : State Q A R :=
  { s with names := s.names.erase (u.task i) }

/-- Takes an outcome into account, under the name that goes off the list for it. -/
def account (u : Setup Q A R) (s : State Q A R) (i : Nat) (o : Outcome) : State Q A R :=
  let unit := s.nameOf u i
  let s := s.strike u i
  match o.result unit with
  | .ok tally =>
      { s with summary :=
          { s.summary with
            succeeded := s.summary.succeeded + 1, totals := s.summary.totals + tally } }
  | .error f =>
      if f.isCancellation then
        { s with
          summary := { s.summary with cancelled := s.summary.cancelled + 1 }
          cancellation := s.cancellation <|> some (f.forUnit unit) }.record
            (.event (.unitCancelled unit f.isStarted))
      else
        let s := { s with summary := { s.summary with failed := s.summary.failed + 1 } }
        let s := s.cancelShared
        match s.failure with
        | some _ => s.record (.event (.furtherFailure unit f.message))
        | none =>
            let f := f.forUnit unit
            { s with failure := some f }.record (.event (.unitFailed unit f.message))

/-- What a run returns once all jobs have been joined. -/
def result (s : State Q A R) : Except Fault Summary :=
  match s.failure <|> s.cancellation with
  | some f => .error f
  | none => .ok s.summary

end State

/-- The state of a run that has its permits at its beginning, in the scope `caller`. -/
def start (u : Setup Q A R) (scopes : Scopes) (caller : Nat) : State Q A R where
  scopes := scopes.child caller
  shared := scopes.size
  free := u.permits
  line := []
  stages := u.jobs.map fun _ => .fresh
  names := u.names
  summary := .start u.jobs.length
  failure := none
  cancellation := none
  closed := false
  history := [.event u.announcement]

/-- How a run begins.  If it cannot have its permits, it breaks off before there is a job. -/
def begin? (u : Setup Q A R) (scopes : Scopes) (caller : Nat) : Option (State Q A R) :=
  if u.isAdmissible then some (start u scopes caller) else none

/-- What can happen next in a run. -/
inductive Move (Q : Type) (A : Q → Type) : Type where
  /-- Job `i`, which has not set to work, looks for cancellation and then at its permit. -/
  | look (i : Nat)
  /-- Job `i` asks for a permit. -/
  | enter (i : Nat)
  /-- Job `i` goes on along its course. -/
  | goOn (i : Nat)
  /-- The world answers job `i`. -/
  | reply (i : Nat) (answer : (q : Q) → A q)
  /-- The world cancels the shared scope while it has a question of job `i` before it. -/
  | disturb (i : Nat)
  /-- The work of job `i` breaks off. -/
  | crash (i : Nat) (how : String)
  /-- Job `i`, whose work is over, gives its permit back. -/
  | leave (i : Nat)
  /-- The outcome of job `i` is taken into account. -/
  | join (i : Nat)
  /-- Somebody cancels a scope that was there before the run. -/
  | cancel (scope : Nat)
  /-- The run returns. -/
  | close

/-- The state after a move, if the move can be made. -/
def State.move? (u : Setup Q A R) (s : State Q A R) : Move Q A → Option (State Q A R)
  | .look i =>
      match s.stages[i]? with
      | some .fresh => some (s.setStage i (if s.isCancelled then .ended notStarted else .entering))
      | some .waiting =>
          if s.isCancelled then
            some ({ s with line := s.line.erase i }.setStage i (.ended notStarted))
          else none
      | some .admitted =>
          if s.isCancelled then some ((s.setStage i (.ended notStarted)).release i)
          else some (s.begin u i)
      | _ => none
  | .enter i =>
      match s.stages[i]? with
      | some .entering =>
          if 0 < s.free then some ({ s with free := s.free - 1 }.begin u i)
          else some ({ s with line := s.line ++ [i] }.setStage i .waiting)
      | _ => none
  | .goOn i =>
      match s.stages[i]? with
      | some (.working c) => some (s.goOn i c)
      | _ => none
  | .reply i answer =>
      match s.stages[i]? with
      | some (.asking q next) =>
          some ((s.setStage i (.working (next (answer q)))).record
            (.step i (.answered q (answer q))))
      | _ => none
  | .disturb i =>
      match s.stages[i]? with
      | some (.asking _ _) => if s.isCancelled then none else some s.cancelShared
      | _ => none
  | .crash i how =>
      match s.stages[i]? with
      | some (.asking _ _) => some (s.setStage i (.leaving (.crashed (u.task i) how)))
      | _ => none
  | .leave i =>
      match s.stages[i]? with
      | some (.leaving o) => some ((s.setStage i (.ended o)).release i)
      | _ => none
  | .join i =>
      match s.stages[i]? with
      | some (.ended o) => some (((s.setStage i (.joined o)).record (.joined i o)).account u i o)
      | _ => none
  | .cancel scope =>
      if scope < s.shared && !s.scopes.cancelled scope then
        some { s with scopes := s.scopes.cancel scope }
      else none
  | .close =>
      if s.stages.all Stage.isJoined && !s.closed then
        some { s.cancelShared with closed := true }
      else none

/-- The states that a run can come to. -/
inductive Reachable (u : Setup Q A R) (first : State Q A R) : State Q A R → Prop where
  | start : Reachable u first first
  | move {s t : State Q A R} (m : Move Q A) :
      Reachable u first s → s.move? u m = some t → Reachable u first t

end Converge.Fleet
