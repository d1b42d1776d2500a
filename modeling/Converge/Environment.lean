import Converge.Course
import Converge.Scope

/-!
# Environments

An environment is a world with a clock.  It reacts to a question at once, or lets the one who
asks sleep for a while, which a cancellation may cut short, or has the work break off.
-/

namespace Converge

/-- How a world of state `ω` reacts to a question with answers of type `α`. -/
inductive Reaction (α ω : Type) : Type where
  /-- It answers; while at it, it may cancel the scope of the one who asks. -/
  | answer (a : α) (cancels : Bool) (w : ω)
  /-- It answers after some milliseconds, or as soon as the scope is cancelled if that may
  interrupt it. -/
  | sleep (millis : Nat) (interruptible : Bool) (w : ω)
  /-- The one who asks breaks off. -/
  | crash (how : String) (w : ω)

structure Environment (Q : Type) (A : Q → Type) (ω : Type) where
  react : (q : Q) → ω → Reaction (A q) ω
  /-- The answer after a sleep. -/
  slept : (q : Q) → A q
  /-- The answer after a sleep that was cut short. -/
  interrupted : (q : Q) → A q

namespace Environment

variable {Q : Type} {A : Q → Type} {ω R α : Type}

/-- The answers that the environment gives at once. -/
def reply (env : Environment Q A ω) (w : ω) (q : Q) : A q :=
  match env.react q w with
  | .answer a _ _ => a
  | _ => env.slept q

/-! ## A single course in an environment -/

/-- A world together with a scope, the time since the beginning, and the time at which somebody
cancels the scope, if that is still to come. -/
structure Solo (ω : Type) where
  world : ω
  scopes : Scopes
  scope : Nat
  now : Nat
  cancelAt : Option Nat

namespace Solo

def isCancelled (s : Solo ω) : Bool := s.scopes.cancelled s.scope

def cancel (s : Solo ω) : Solo ω := { s with scopes := s.scopes.cancel s.scope }

/-- Time passes until `time`; the scope is cancelled on the way if its time comes. -/
def passUntil (s : Solo ω) (time : Nat) : Solo ω :=
  match s.cancelAt with
  | some c => if c ≤ time then { s.cancel with now := time, cancelAt := none }
      else { s with now := time }
  | none => { s with now := time }

/-- The time at which a sleep that can be interrupted ends. -/
def wakeTime (s : Solo ω) (time : Nat) : Nat :=
  if s.isCancelled then s.now
  else match s.cancelAt with
    | some c => if c < time then c else time
    | none => time

end Solo

/-- The environment as the world of a single course. -/
def alone (env : Environment Q A ω) : Course.World Q A (Solo ω) where
  cancelled := Solo.isCancelled
  answer q s :=
    match env.react q s.world with
    | .answer a cancels w =>
        let s := { s with world := w }
        (a, if cancels then s.cancel else s)
    | .sleep millis interruptible w =>
        let s := { s with world := w }
        let time := s.now + millis
        if interruptible && s.wakeTime time < time then
          (env.interrupted q, s.passUntil (s.wakeTime time))
        else (env.slept q, s.passUntil time)
    | .crash _ w => (env.slept q, { s with world := w })

end Environment

end Converge
