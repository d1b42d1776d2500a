import Converge.Environment
import Converge.Fleet

/-!
# Dispatch

One way to choose the moves of a run: a single queue, first in, first out, of those who have
something to do, and a clock that goes on when the queue is empty.  A job runs until it has to
wait.  Jobs that wait for a cancellation are woken by it in the order in which they began to
wait; the run itself takes notice of outcomes in the order in which the jobs ended.
-/

namespace Converge.Fleet

variable {Q : Type} {A : Q → Type} {R ω : Type}

/-- Who has something to do. -/
inductive Turn where
  | job (i : Nat)
  /-- The run as a whole, which joins what has ended. -/
  | run
deriving DecidableEq

/-- What comes from outside at a fixed time. -/
inductive Intervention where
  | cancelCaller
  /-- The run is given up. -/
  | drop
deriving DecidableEq

/-- A sleeping job, the time at which it wakes, and whether a cancellation wakes it too. -/
structure Alarm where
  time : Nat
  job : Nat
  interruptible : Bool

structure Dispatch (Q : Type) (A : Q → Type) (R ω : Type) where
  state : State Q A R
  world : ω
  /-- The caller's scope. -/
  caller : Nat
  /-- Milliseconds since the beginning of the run. -/
  now : Nat
  queue : List Turn
  /-- The jobs that a cancellation wakes, in the order in which they began to wait. -/
  watchers : List Nat
  alarms : List Alarm
  /-- The jobs that have ended and were not joined, in the order in which they ended. -/
  finished : List Nat
  interventions : List (Nat × Intervention)
  /-- Has the run been given up? -/
  dropped : Bool

namespace Dispatch

/-- Puts somebody at the end of the queue who is not in it. -/
def enqueue (d : Dispatch Q A R ω) (t : Turn) : Dispatch Q A R ω :=
  if d.queue.contains t then d else { d with queue := d.queue ++ [t] }

/-- Wakes those who wait for a cancellation. -/
def wakeAll (d : Dispatch Q A R ω) : Dispatch Q A R ω :=
  d.watchers.foldl (fun d i => d.enqueue (.job i)) { d with watchers := [] }

/-- Is job `i` at a stage that satisfies `p`? -/
def isAt (d : Dispatch Q A R ω) (i : Nat) (p : Stage Q A R → Bool) : Bool :=
  (d.state.stages[i]?).any p

/-- Makes a move, and wakes those whom it concerns: everybody who waits for a cancellation, and
the job that a permit was handed to. -/
def make (u : Setup Q A R) (d : Dispatch Q A R ω) (m : Move Q A) : Dispatch Q A R ω :=
  match d.state.move? u m with
  | none => d
  | some s =>
      let moved := { d with state := s }
      let woken := if !d.state.isCancelled && s.isCancelled then moved.wakeAll else moved
      match d.state.line with
      | [] => woken
      | j :: _ => if woken.isAt j Stage.holdsPermit then woken.enqueue (.job j) else woken

/-- Takes down that job `i` has ended, if it has. -/
def noteEnd (d : Dispatch Q A R ω) (i : Nat) : Dispatch Q A R ω :=
  if d.isAt i Stage.isEnded then
    { d with
      finished := d.finished ++ [i]
      watchers := d.watchers.filter (· ≠ i) }.enqueue .run
  else d

/-- Lets job `i` run until it has to wait, or to its end. -/
def drive (u : Setup Q A R) (env : Environment Q A ω) (i : Nat) :
    Nat → Dispatch Q A R ω → Dispatch Q A R ω
  | 0, d => d
  | fuel + 1, d =>
      match d.state.stages[i]? with
      | some (.working _) => drive u env i fuel (d.make u (.goOn i))
      | some (.asking q _) =>
          match env.react q d.world with
          | .answer _ cancels w =>
              let next := { d with world := w }
              let next := if cancels then next.make u (.disturb i) else next
              drive u env i fuel (next.make u (.reply i (env.reply d.world)))
          | .sleep millis interruptible w =>
              let d := { d with world := w }
              if interruptible && d.state.isCancelled then
                drive u env i fuel (d.make u (.reply i env.interrupted))
              else
                { d with
                  alarms := d.alarms ++ [⟨d.now + millis, i, interruptible⟩]
                  watchers := if interruptible then d.watchers ++ [i] else d.watchers }
          | .crash how w =>
              drive u env i fuel (make u { d with world := w } (.crash i how))
      | some (.leaving _) => (d.make u (.leave i)).noteEnd i
      | _ => d

/-- Job `i` has its turn. -/
def takeTurn (u : Setup Q A R) (env : Environment Q A ω) (fuel : Nat) (i : Nat)
    (d : Dispatch Q A R ω) : Dispatch Q A R ω :=
  match d.state.stages[i]? with
  | some (.asking _ _) =>
      match d.alarms.find? (·.job = i) with
      | none => d
      | some a =>
          let awake :=
            { d with
              alarms := d.alarms.filter (·.job ≠ i)
              watchers := d.watchers.filter (· ≠ i) }
          if a.time ≤ d.now then
            drive u env i fuel (awake.make u (.reply i env.slept))
          else if a.interruptible && d.state.isCancelled then
            drive u env i fuel (awake.make u (.reply i env.interrupted))
          else d
  | some _ =>
      let d := make u { d with watchers := d.watchers.filter (· ≠ i) } (.look i)
      let d := d.make u (.enter i)
      if d.isAt i Stage.isWaiting then
        { d with watchers := d.watchers ++ [i] }
      else drive u env i fuel (d.noteEnd i)
  | none => d

/-- The run takes notice of what has ended, and returns when that is everything. -/
def joinAll (u : Setup Q A R) (d : Dispatch Q A R ω) : Dispatch Q A R ω :=
  let joined := d.finished.foldl (fun d i => make u d (.join i)) { d with finished := [] }
  joined.make u .close

/-- The next time at which something happens of itself. -/
def nextTime (d : Dispatch Q A R ω) : Option Nat :=
  (d.alarms.map Alarm.time ++ d.interventions.map Prod.fst).min?

/-- Something comes from outside. -/
def intervene (u : Setup Q A R) (d : Dispatch Q A R ω) : Intervention → Dispatch Q A R ω
  | .cancelCaller => d.make u (.cancel d.caller)
  | .drop => { d with dropped := true, state := d.state.cancelShared }

/-- The clock goes on to `time`. -/
def passTo (u : Setup Q A R) (d : Dispatch Q A R ω) (time : Nat) : Dispatch Q A R ω :=
  let due := d.interventions.filter (·.1 ≤ time)
  let later := { d with now := time, interventions := d.interventions.filter (time < ·.1) }
  let rung := (later.alarms.filter (·.time ≤ time)).foldl
    (fun d a => d.enqueue (.job a.job)) later
  due.foldl (fun d i => d.intervene u i.2) rung

/-- Goes on until the run has returned or was given up. -/
def proceed (u : Setup Q A R) (env : Environment Q A ω) (work : Nat) :
    Nat → Dispatch Q A R ω → Dispatch Q A R ω
  | 0, d => d
  | fuel + 1, d =>
      if d.state.closed || d.dropped then d
      else match d.queue with
        | .job i :: rest => proceed u env work fuel (takeTurn u env work i { d with queue := rest })
        | .run :: rest => proceed u env work fuel (joinAll u { d with queue := rest })
        | [] =>
            match d.nextTime with
            | some time => proceed u env work fuel (d.passTo u time)
            | none => d

/-- A run that begins in this state: every job has a turn coming, in order, after that of the
run. -/
def opening (first : State Q A R) (world : ω) (caller : Nat)
    (interventions : List (Nat × Intervention)) : Dispatch Q A R ω where
  state := first
  world := world
  caller := caller
  now := 0
  queue := .run :: (List.range first.stages.length).map .job
  watchers := []
  alarms := []
  finished := []
  interventions := interventions
  dropped := false

/-- How often anybody can have a turn or go on, if no call on a resource asks more than four
questions: between two moves, each of which belongs to a node or a job or comes from outside, every
turn that is coming may pass, and once more when the clock has gone on. -/
def enough (u : Setup Q A R) (interventions : Nat) : Nat :=
  (25 * Tree.sizeAll (u.jobs.map Job.tree) + 9 * u.jobs.length + interventions + 1) *
    (2 * u.jobs.length + 4)

/-- A run from the state on in which it begins. -/
def carryOn (u : Setup Q A R) (env : Environment Q A ω) (world : ω) (caller : Nat)
    (interventions : List (Nat × Intervention)) (first : State Q A R) : Dispatch Q A R ω :=
  let fuel := enough u interventions.length
  proceed u env fuel fuel (opening first world caller interventions)

/-- A whole run, unless it breaks off over its permits. -/
def run? (u : Setup Q A R) (env : Environment Q A ω) (world : ω) (scopes : Scopes)
    (caller : Nat) (interventions : List (Nat × Intervention)) : Option (Dispatch Q A R ω) :=
  (begin? u scopes caller).map (carryOn u env world caller interventions)

end Dispatch

end Converge.Fleet
