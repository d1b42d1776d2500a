import Converge.Failure
import Converge.Pathname
import Converge.Plan
import Converge.Text.Blank

/-!
# Commands

What is run outside: a program with its arguments and, if it is given, the directory to run it
in.  A command that ran to its end has an output, whatever its exit code; it fails only when it
could not be run at all.
-/

namespace Converge

structure Command where
  program : String
  args : List String
  dir : Option Pathname
deriving DecidableEq, Repr

/-- What a command that has ended leaves: its exit code, unless a signal ended it, and what it
wrote. -/
structure Output where
  code : Option Int
  stdout : String
  stderr : String
deriving DecidableEq, Repr, Inhabited

namespace Output

/-- A success with nothing written. -/
def silent : Output := ⟨some 0, "", ""⟩

def success (o : Output) : Bool := o.code = some 0

/-- The exit code in words. -/
def codeText (o : Output) : String :=
  match o.code with
  | some code => toString code
  | none => "signal"

end Output

namespace Command

/-- A program alone. -/
def of (program : String) : Command := ⟨program, [], none⟩

/-- The program followed by its arguments. -/
def argv (c : Command) : List String := c.program :: c.args

/-- The command on one line, nothing quoted. -/
def line (c : Command) : String := " ".intercalate c.argv

/-- Do two commands run the same program with the same arguments in the same place? -/
def same (c d : Command) : Bool :=
  c.program = d.program && c.args = d.args &&
    c.dir.map Pathname.components = d.dir.map Pathname.components

/-- What is asked of the world outside: to run a command, and whether a path exists. -/
inductive Request where
  | run (c : Command)
  | pathExists (p : Pathname)
deriving DecidableEq, Repr

abbrev Request.Answer : Request → Type
  | .run _ => Except Failure Output
  | .pathExists _ => Bool

/-- What is done outside, step by step. -/
abbrev Procedure (α : Type) : Type := Plan Request Request.Answer α

/-- The failure of a command that ended without success. -/
def exitFailure (c : Command) (o : Output) : Failure :=
  .of ("'" ++ c.line ++ "' exited with status " ++ o.codeText ++ ": " ++ Text.trim o.stderr)

/-- The failure of a command that could not be started. -/
def startFailure (c : Command) (why : String) : Failure :=
  (Failure.of why).within ("failed to spawn '" ++ c.program ++ "'")

/-- The failure of a command whose scope was cancelled before it came to its end. -/
def interruption (c : Command) : Failure := .of ("'" ++ c.line ++ "' interrupted by cancellation")

/-- A result, which is a failure too if the command ended without success. -/
def checked (c : Command) : Except Failure Output → Except Failure Output
  | .error f => .error f
  | .ok o => if o.success then .ok o else .error (exitFailure c o)

/-- Runs a command. -/
def run (c : Command) : Procedure (Except Failure Output) := .query (Request.run c)

/-- Runs a command that has to succeed. -/
def runChecked (c : Command) : Procedure (Except Failure Output) :=
  c.run.bind fun r => .done (c.checked r)

/-- Runs a command that has to succeed, as a part of what is being done. -/
def perform (c : Command) (doing : String) : Procedure (Except Failure Unit) :=
  c.runChecked.bind fun r => .done ((r.mapError (·.within doing)).map fun _ => ())

end Command

end Converge
