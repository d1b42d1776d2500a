import Converge.Blueprint
import Converge.Environment
import Converge.Provider

/-!
# Actors

Resources that act by a script: each call on one is recorded, may cancel its scope, takes a
given time, and then fails, breaks off or succeeds as the script says.  They let a run be
rehearsed without an outside world.
-/

namespace Converge.Rehearsal

/-- The script of one resource. -/
structure Actor where
  name : String
  kind : String
  /-- The place of its state among those of all actors. -/
  place : Nat
  /-- Is it in its declared state at first? -/
  satisfied : Bool
  /-- Does applying it change that? -/
  flips : Bool
  invalid : Option Failure
  failSatisfied : Option Failure
  failApply : Option Failure
  crashApply : Option String
  satisfiedDelay : Option Nat
  applyDelay : Option Nat
  interruptible : Bool
  /-- The calls during which it cancels its scope. -/
  cancelOn : List String
deriving Repr

/-- An actor that has its work still to do, and does it without a hitch. -/
def Actor.plain (name : String) (place : Nat) : Actor where
  name := name
  kind := "actor"
  place := place
  satisfied := false
  flips := true
  invalid := none
  failSatisfied := none
  failApply := none
  crashApply := none
  satisfiedDelay := none
  applyDelay := none
  interruptible := false
  cancelOn := []

/-- The script of the hooks of one node. -/
structure Part where
  name : String
  invalid : Option Failure
  childrenError : Option Failure
  /-- The hooks during which it cancels its scope. -/
  cancelOn : List String
deriving Repr

/-- What an actor asks of the stage. -/
inductive Cue where
  /-- To record a line, and to cancel the scope if told so. -/
  | record (line : String) (cancels : Bool)
  | sleep (millis : Nat) (interruptible : Bool)
  | crash (how : String)
  /-- What its state is. -/
  | look (place : Nat)
  /-- To have its state changed. -/
  | flip (place : Nat)
deriving Repr

abbrev Cue.Answer : Cue → Type
  | record _ _ | crash _ | flip _ => Unit
  | sleep _ _ => Except Failure Unit
  | look _ => Bool

/-- What is known about the stage: the lines recorded, the latest first, and the states. -/
structure Theatre where
  lines : List String
  states : List Bool
deriving Repr

namespace Actor

/-- A line about a call on the actor, and the cancellation that goes with it. -/
def enter (a : Actor) (what : String) : Cue :=
  .record (what ++ ":" ++ a.name) (a.cancelOn.contains what)

/-- Sleeps, if there is a time to sleep. -/
def pause (a : Actor) : Option Nat → Plan Cue Cue.Answer (Except Failure Unit)
  | none => .done (.ok ())
  | some millis => .query (Cue.sleep millis a.interruptible)

/-- Succeeds unless there is a failure to report. -/
def orFailure {α : Type} (failure : Option Failure) (a : α) :
    Plan Cue Cue.Answer (Except Failure α) :=
  match failure with
  | some f => .done (.error f)
  | none => .done (.ok a)

end Actor

open Actor in
/-- How actors are worked on. -/
def company : Provider Cue Cue.Answer Actor where
  kind := Actor.kind
  validate a := .ask (a.enter "validate") fun () => orFailure a.invalid ()
  satisfied a :=
    .ask (a.enter "satisfied") fun () =>
      (a.pause a.satisfiedDelay).andThen fun () =>
        (orFailure a.failSatisfied ()).andThen fun () =>
          .ask (.look a.place) fun b => .done (.ok b)
  apply a :=
    .ask (a.enter "apply") fun () =>
      (a.pause a.applyDelay).andThen fun () =>
        match a.crashApply with
        | some how => .ask (.crash how) fun () => .done (.error (.of how))
        | none =>
            (orFailure a.failApply ()).andThen fun () =>
              if a.flips then
                .ask (.flip a.place) fun () =>
                  .ask (.record ("applied:" ++ a.name) false) fun () => .done (.ok ())
              else .ask (.record ("applied:" ++ a.name) false) fun () => .done (.ok ())

/-- The failure of a sleep that a cancellation cut short. -/
def interruption : Failure := .of "interrupted by cancellation"

/-- The stage as an environment of actors. -/
def stage : Environment Cue Cue.Answer Theatre where
  react
    | .record line cancels, w => .answer () cancels { w with lines := line :: w.lines }
    | .sleep millis interruptible, w => .sleep millis interruptible w
    | .crash how, w => .crash how w
    | .look place, w => .answer (w.states[place]?.getD false) false w
    | .flip place, w => .answer () false { w with states := w.states.set place true }
  slept
    | .record _ _ | .crash _ | .flip _ => ()
    | .sleep _ _ => .ok ()
    | .look _ => false
  interrupted
    | .record _ _ | .crash _ | .flip _ => ()
    | .sleep _ _ => .error interruption
    | .look _ => false

/-- The stage before a rehearsal. -/
def curtain : Environment.Solo Theatre := ⟨⟨[], []⟩, .one, 0, 0, none⟩

/-- What a hook answers by its script, the line that is recorded, and whether it cancels. -/
def Part.play : Hook Part → Except Failure Unit × String × Bool
  | .validate p =>
      (p.invalid.elim (.ok ()) .error, "validate_node:" ++ p.name,
        p.cancelOn.contains "validate_node")
  | .children p =>
      (p.childrenError.elim (.ok ()) .error, "children:" ++ p.name,
        p.cancelOn.contains "children")

/-- The hooks as an environment. -/
def hookStage : Environment (Hook Part) Hook.Answer Theatre where
  react q w :=
    let (answer, line, cancels) := Part.play q
    .answer answer cancels { w with lines := line :: w.lines }
  slept _ := .ok ()
  interrupted _ := .ok ()

/-- A node as it is declared in a list of nodes: its parts, and the place of its parent, which
comes before it. -/
structure Role where
  part : Part
  actor : Option Actor
  parent : Option Nat

/-- The blueprint of the node at `place`, whose children come after it in the list. -/
def blueprintAt (roles : List Role) : Nat → Nat → List (Blueprint Part Actor)
  | 0, _ => []
  | fuel + 1, place =>
      match roles[place]? with
      | none => []
      | some role =>
          let children := (List.range roles.length).filter fun i =>
            (roles[i]?).any fun r => r.parent = some place && place < i
          [.node role.part.name role.part role.actor
            (children.flatMap (blueprintAt roles fuel))]

/-- The blueprint that a list of nodes describes, the root first. -/
def blueprint? (roles : List Role) : Option (Blueprint Part Actor) :=
  (blueprintAt roles roles.length 0).head?

end Converge.Rehearsal
