import Converge.Pathname
import Converge.Tally
import Converge.Word

/-!
# Command lines

What can be asked of the program: a run with its options, or a word about the program itself.
Options are read from left to right, and the first thing that is wrong, or that asks for such a
word, decides.
-/

namespace Converge

/-- The options of the command line. -/
inductive Flag where
  | config
  | unit
  | validateOnly
  | jobs
  | policy
  | logLevel
  | help
  | version
deriving DecidableEq, Repr

namespace Flag

def all : List Flag := [config, unit, validateOnly, jobs, policy, logLevel, help, version]

/-- The name that follows two dashes. -/
def long : Flag → String
  | config => "config"
  | unit => "unit"
  | validateOnly => "validate-only"
  | jobs => "jobs"
  | policy => "policy"
  | logLevel => "log-level"
  | help => "help"
  | version => "version"

/-- The letter that follows one dash, if there is one. -/
def short? : Flag → Option Char
  | config => some 'c'
  | unit => some 'u'
  | jobs => some 'j'
  | help => some 'h'
  | version => some 'V'
  | validateOnly | policy | logLevel => none

def takesValue : Flag → Bool
  | config | unit | jobs | policy | logLevel => true
  | validateOnly | help | version => false

def ofLong? (name : String) : Option Flag := all.find? (·.long = name)

def ofShort? (c : Char) : Option Flag := all.find? (·.short? = some c)

end Flag

/-- The options of a run, as far as they are given. -/
structure Invocation where
  config : Option Pathname
  unit : Option String
  validateOnly : Bool
  jobs : Option Nat
  policy : Option Policy
  logLevel : Option String
deriving DecidableEq, Repr

/-- What is wrong with a command line. -/
inductive UsageError where
  /-- No option, and nothing else, can be written like this. -/
  | unexpected (arg : String)
  | missingValue (f : Flag)
  | invalidValue (f : Flag) (value : String)
  | unneededValue (f : Flag)
  | repeated (f : Flag)
deriving DecidableEq, Repr

/-- What a command line comes to if not to a run. -/
inductive Aside where
  | usage (e : UsageError)
  | help
  | version
deriving DecidableEq, Repr

namespace UsageError

def message : UsageError → String
  | unexpected arg => s!"unexpected argument '{arg}' found"
  | missingValue f => s!"a value is required for '--{f.long}' but none was supplied"
  | invalidValue f value => s!"invalid value '{value}' for '--{f.long}'"
  | unneededValue f => s!"no value is needed for '--{f.long}'"
  | repeated f => s!"the argument '--{f.long}' cannot be used multiple times"

end UsageError

/-- The policies by the names that the command line has for them. -/
def policyChoices : List (String × Policy) :=
  [("skip-subtree", .skipSubtree), ("self-only", .selfOnly)]

/-- A number of 64 bits in decimal digits, perhaps with a plus in front. -/
def jobs? (value : String) : Option Nat :=
  let digits := match value.toList with
    | '+' :: rest => rest
    | cs => cs
  if digits.isEmpty || !digits.all Char.isDigit then none
  else (some (Nat.ofDigitChars 10 digits 0)).filter isWord

/-- A path, which must not be empty. -/
def path? (value : String) : Option Pathname := if value.isEmpty then none else some ⟨value⟩

namespace Invocation

def empty : Invocation := ⟨none, none, false, none, none, none⟩

/-- Has the option been given? -/
def has (i : Invocation) : Flag → Bool
  | .config => i.config.isSome
  | .unit => i.unit.isSome
  | .validateOnly => i.validateOnly
  | .jobs => i.jobs.isSome
  | .policy => i.policy.isSome
  | .logLevel => i.logLevel.isSome
  | .help | .version => false

/-- Sets an option to a value, if the value makes sense. -/
def set? (i : Invocation) (value : String) : Flag → Option Invocation
  | .config => (path? value).map fun p => { i with config := some p }
  | .unit => some { i with unit := some value }
  | .jobs => (jobs? value).map fun n => { i with jobs := some n }
  | .policy => (policyChoices.lookup value).map fun p => { i with policy := some p }
  | .logLevel => some { i with logLevel := some value }
  | .validateOnly => some { i with validateOnly := true }
  | .help | .version => some i

/-- Takes up an option with its value; none may be given twice. -/
def add (i : Invocation) (f : Flag) (value : String) : Except Aside Invocation :=
  match i.set? value f with
  | none => .error (.usage (.invalidValue f value))
  | some j => if i.has f then .error (.usage (.repeated f)) else .ok j

/-- Takes up an option without a value. -/
def mark (i : Invocation) : Flag → Except Aside Invocation
  | .help => .error .help
  | .version => .error .version
  | f => i.add f ""

end Invocation

/-- The parts of a text before and after the first `=`, if there is one. -/
def splitValue (cs : List Char) : String × Option String :=
  let name := String.ofList (cs.takeWhile (· ≠ '='))
  match cs.dropWhile (· ≠ '=') with
  | [] => (name, none)
  | _ :: value => (name, some (String.ofList value))

/-- Can the argument be the value of the option before it? -/
def isValue (arg : String) : Bool := arg = "-" || arg.toList.head? ≠ some '-'

namespace Invocation

/-- Reads the arguments from left to right. -/
def read (i : Invocation) : List String → Except Aside Invocation
  | [] => .ok i
  | arg :: rest =>
      /- An option whose value is the next argument. -/
      let awaiting (f : Flag) : Except Aside Invocation :=
        match rest with
        | value :: rest =>
            if isValue value then do (← i.add f value).read rest
            else .error (.usage (.missingValue f))
        | [] => .error (.usage (.missingValue f))
      match arg.toList with
      | ['-', '-'] =>
          match rest with
          | [] => .ok i
          | other :: _ => .error (.usage (.unexpected other))
      | '-' :: '-' :: cs =>
          let (name, value) := splitValue cs
          match Flag.ofLong? name, value with
          | none, _ => .error (.usage (.unexpected arg))
          | some f, some v =>
              if f.takesValue then do (← i.add f v).read rest
              else .error (.usage (.unneededValue f))
          | some f, none => if f.takesValue then awaiting f else do (← i.mark f).read rest
      | '-' :: c :: cs =>
          match Flag.ofShort? c with
          | none => .error (.usage (.unexpected arg))
          | some f =>
              if !f.takesValue then do (← i.mark f).read rest
              else match cs with
                | [] => awaiting f
                | '=' :: v => do (← i.add f (String.ofList v)).read rest
                | v => do (← i.add f (String.ofList v)).read rest
      | _ => .error (.usage (.unexpected arg))

/-- The file that is used if none is named. -/
def defaultConfig : Pathname := ⟨"rigging.yaml"⟩

/-- Completes the options by the file that the environment names, or by the usual one. -/
def complete (i : Invocation) (surrounding : Option String) : Except Aside Invocation :=
  match i.config, surrounding with
  | some _, _ => .ok i
  | none, some value => i.add .config value
  | none, none => .ok { i with config := some defaultConfig }

/-- The invocation that a command line asks for. -/
def ofArgs (surrounding : Option String) (args : List String) : Except Aside Invocation := do
  (← Invocation.empty.read args).complete surrounding

/-- The configuration file. -/
def file (i : Invocation) : Pathname := i.config.getD defaultConfig

end Invocation

end Converge
