import Converge.Process
import Converge.Shell.Run

/-!
# The shell as a system

A system with the shell and its tools, and without any other programs.  It is what commands are
run on when the program is started by itself.
-/

namespace Converge.Shell

/-- The directories of programs. -/
def programDirs : List String := ["/bin/", "/usr/bin/"]

/-- The program that a command names. -/
def programName (program : String) : String :=
  match programDirs.find? fun dir => program.startsWith dir with
  | some dir => (program.drop dir.length).toString
  | none => program

/-- Is there a program of this name? -/
def isProgram (name : String) : Bool := name = "sh" || (tools.lookup name).isSome

/-- Why a process cannot work in the directory that a path leads to. -/
def dirProblem? (fs : Files) (dir : Pathname) : Option String :=
  match fs.find dir with
  | .inside _ .directory | .outside => none
  | .inside _ (.file _) | .blocked => some "Not a directory (os error 20)"
  | .tooLong => some "File name too long (os error 36)"
  | .missing | .noPath => some System.notFound

/-- Why a program cannot be executed. -/
def programProblem? (fs : Files) (dir : Pathname) (program : String) : Option String :=
  if isProgram (programName program) then none
  else if !program.toList.contains '/' then some System.notFound
  else match fs.find (dir.join ⟨program⟩) with
    | .inside _ _ | .outside => some "Permission denied (os error 13)"
    | .blocked => some "Not a directory (os error 20)"
    | .tooLong => some "File name too long (os error 36)"
    | .missing | .noPath => some System.notFound

/-- Why a command cannot be started. -/
def problem? (c : Command) (fs : Files) : Option String :=
  let texts := c.argv ++ (c.dir.map Pathname.text).toList
  if texts.any (·.toList.contains '\x00') then some "nul byte found in provided data"
  else (c.dir.bind (dirProblem? fs)) <|> programProblem? fs (c.dir.getD .empty) c.program

/-- What is left of a process that ended as `flow` says and left `m`. -/
def remainsOf (flow : Flow) (m : Machine) : Remains where
  code := if flow = .killed then none else some (Int.ofNat m.status)
  out := m.out.toList
  err := m.err.toList

/-- A process before it has done anything. -/
def Machine.start (fs : Files) (c : Command) (params : List String) : Machine where
  files := fs
  dir := c.dir.getD .empty
  values := []
  params := params
  status := 0
  input := []
  out := #[]
  err := #[]

/-- Runs the shell with some arguments: a script, or a file that holds one. -/
def runShell (args : List String) (m : Machine) : Flow × Machine :=
  match args with
  | "-c" :: script :: params =>
      runText script { m with params := if params.isEmpty then ["sh"] else params }
  | [] => (.exit, m)
  | file :: params =>
      match (Setting.mk [] [] m.dir m.files).read file with
      | .ok bytes => runText (Text.ofBytes bytes) { m with params := file :: params }
      | .error _ => (.exit, m.complain ⟨.out, .err⟩ 2 s!"cannot open {file}: No such file")

/-- Runs the program that a command names. -/
def runProgram (c : Command) (fs : Files) : Flow × Machine :=
  let m := Machine.start fs c [c.program]
  if programName c.program = "sh" then runShell c.args m
  else runNamed ⟨.out, .err⟩ (programName c.program) c.args m

/-- The shell and its tools, at work on the files of a working directory. -/
def system : System Files where
  problem? := problem?
  finish c fs :=
    let (flow, m) := runProgram c fs
    (remainsOf flow m, m.files)
  kill _ fs := fs

/-- A program that is neither the shell nor one of its tools is not there. -/
theorem problem?_of_not_program {c : Command} (fs : Files)
    (hprogram : isProgram (programName c.program) = false) (hslash : '/' ∉ c.program.toList)
    (hnul : ∀ text ∈ c.argv, '\x00' ∉ text.toList) (hdir : c.dir = none) :
    system.problem? c fs = some System.notFound := by
  have htexts : (c.argv ++ (c.dir.map Pathname.text).toList).any
      (·.toList.contains '\x00') = false := by
    rw [hdir, List.any_eq_false]
    simpa using hnul
  show problem? c fs = _
  rw [problem?, htexts, hdir]
  simp [programProblem?, hprogram, hslash]

/-- So a command with such a program fails to start. -/
theorem execute_of_not_program {c : Command} (fs : Files) (cancelled : Bool)
    (hprogram : isProgram (programName c.program) = false) (hslash : '/' ∉ c.program.toList)
    (hnul : ∀ text ∈ c.argv, '\x00' ∉ text.toList) (hdir : c.dir = none) :
    (system.execute cancelled c fs).result = .error (c.startFailure System.notFound) :=
  System.execute_error_iff.mpr
    (.inl ⟨_, problem?_of_not_program fs hprogram hslash hnul hdir, rfl⟩)

end Converge.Shell
