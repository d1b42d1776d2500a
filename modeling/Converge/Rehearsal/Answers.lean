import Converge.Environment
import Converge.Files
import Converge.Resource

/-!
# Prepared answers

Commands answered from a list of rules instead of being run: the first rule that applies to a
command line says what comes of it.  Everything that was asked for is kept.
-/

namespace Converge.Rehearsal

/-- What happens to the commands whose line begins in a given way. -/
structure Rule where
  start : String
  /-- How often the rule applies; without a number, always. -/
  times : Option Nat
  makes : List Pathname
  removes : List Pathname
  cancels : Bool
  /-- What comes of the command. -/
  result : Except Failure Output
deriving Repr

/-- The rules, each with how often it has been used, the files, and the commands that were
asked for, the latest first. -/
structure Backstage where
  rules : List (Rule × Nat)
  files : Files
  commands : List Command

namespace Rule

/-- Does the rule apply to a command line, having been used `used` times? -/
def applies (r : Rule) (used : Nat) (line : String) : Bool :=
  r.start.toList.isPrefixOf line.toList && r.times.all (used < ·)

/-- What the rule does to the files. -/
def arrange (r : Rule) (fs : Files) : Files :=
  r.removes.foldl Files.removeDirectory (r.makes.foldl Files.makeDirectory fs)

/-- The first rule that applies to a line, and the rules with its use counted. -/
def choose (line : String) : List (Rule × Nat) → Option Rule × List (Rule × Nat)
  | [] => (none, [])
  | (r, used) :: rest =>
      if r.applies used line then (some r, (r, used + 1) :: rest)
      else
        let (found, rest) := choose line rest
        (found, (r, used) :: rest)

end Rule

namespace Backstage

/-- Answers a command: its result, and whether it cancels the scope. -/
def run (b : Backstage) (c : Command) : Except Failure Output × Bool × Backstage :=
  let (rule, rules) := Rule.choose c.line b.rules
  let asked := { b with rules := rules, commands := c :: b.commands }
  match rule with
  | none => (.ok .silent, false, asked)
  | some r => (r.result, r.cancels, { asked with files := r.arrange asked.files })

end Backstage

/-- Prepared answers as an environment. -/
def prepared : Environment Command.Request Command.Request.Answer Backstage where
  react
    | .run c, b =>
        let (result, cancels, b) := b.run c
        .answer result cancels b
    | .pathExists p, b => .answer (b.files.pathExists p) false b
  slept
    | .run _ => .ok .silent
    | .pathExists _ => false
  interrupted
    | .run _ => .ok .silent
    | .pathExists _ => false

end Converge.Rehearsal
