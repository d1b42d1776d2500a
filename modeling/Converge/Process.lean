import Converge.Command
import Converge.Environment
import Converge.Files
import Converge.Journal
import Converge.Text.Encoding

/-!
# Processes

Commands are run as processes of a system, of which nothing is known but what becomes of the
commands that it is to start.  A process is waited for until it ends, or killed if its scope is
cancelled before that.  What it wrote is read as text, whatever the bytes.
-/

namespace Converge

/-- What a process leaves that has ended: its exit code, unless a signal ended it, and the bytes
that it wrote. -/
structure Remains where
  code : Option Int
  out : List Nat
  err : List Nat

def Remains.output (r : Remains) : Output := ⟨r.code, Text.ofBytes r.out, Text.ofBytes r.err⟩

/-- A system of state `ω` in which commands are started as processes. -/
structure System (ω : Type) where
  /-- Why a command cannot be started, if it cannot. -/
  problem? : Command → ω → Option String
  /-- What a process comes to that is left alone. -/
  finish : Command → ω → Remains × ω
  /-- How the system is left if the process is killed. -/
  kill : Command → ω → ω

/-- What comes of running a command. -/
structure Execution (ω : Type) where
  events : List Event
  result : Except Failure Output
  state : ω

namespace System

variable {ω : Type}

/-- What a system says of a program that is not there. -/
def notFound : String := "No such file or directory (os error 2)"

/-- Runs a command, whose scope is cancelled before the process ends if `cancelled`. -/
def execute (sys : System ω) (cancelled : Bool) (c : Command) (w : ω) : Execution ω :=
  let events := [.commandStarted c.program c.args]
  match sys.problem? c w with
  | some why => ⟨events, .error (c.startFailure why), w⟩
  | none =>
      if cancelled then ⟨events, .error c.interruption, sys.kill c w⟩
      else
        let (remains, w) := sys.finish c w
        ⟨events, .ok remains.output, w⟩

variable {sys : System ω} {cancelled : Bool} {c : Command} {w : ω}

/-- There is an output exactly of a process that was started and came to its end, with whatever
exit code. -/
theorem execute_ok_iff {o : Output} : (sys.execute cancelled c w).result = .ok o ↔
    sys.problem? c w = none ∧ cancelled = false ∧ (sys.finish c w).1.output = o := by
  rw [execute]
  cases sys.problem? c w with
  | some why => simp
  | none => cases cancelled <;> simp

/-- A command fails to run if it cannot be started or is interrupted, and says which it was. -/
theorem execute_error_iff {f : Failure} : (sys.execute cancelled c w).result = .error f ↔
    (∃ why, sys.problem? c w = some why ∧ f = c.startFailure why) ∨
      sys.problem? c w = none ∧ cancelled = true ∧ f = c.interruption := by
  rw [execute]
  cases sys.problem? c w with
  | some why => simp [eq_comm]
  | none => cases cancelled <;> simp [eq_comm]

end System

/-- The environment of a working directory in which a system runs the commands. -/
def Environment.ofSystem (sys : System Files) :
    Environment Command.Request Command.Request.Answer Files where
  react
    | .run c, fs =>
        let e := sys.execute false c fs
        .answer e.result false e.state
    | .pathExists p, fs => .answer (fs.pathExists p) false fs
  slept
    | .run c => .error c.interruption
    | .pathExists _ => false
  interrupted
    | .run c => .error c.interruption
    | .pathExists _ => false

end Converge
