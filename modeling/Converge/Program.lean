import Converge.CommandLine
import Converge.Config.Load
import Converge.Fleet.Dispatch
import Converge.Registry

/-!
# The program

What comes of a command line: the configuration is loaded, the units that are asked for are
built and checked, and unless that is all that is wanted they are converged side by side.  The
first step that does not succeed is the last one.
-/

namespace Converge

/-- What the program has come to in the end. -/
inductive Conclusion where
  | aside (a : Aside)
  /-- The configuration could not be used. -/
  | unusable (path : Pathname) (e : ConfigError)
  | faulty (f : Fault)
  /-- More units were to be at work at once than can be kept count of. -/
  | overcommitted
  /-- Nothing but a check was wanted, of so many units. -/
  | valid (units : Nat)
  | converged (s : Summary)
deriving DecidableEq, Repr

namespace Conclusion

/-- What a run that has returned comes to. -/
def ofRun : Except Fault Summary → Conclusion
  | .ok s => converged s
  | .error f => faulty f

def version : String := "rigging 0.1.0"

/-- The options as they are written, and what they mean. -/
def options : List (String × String) := [
  ("-c, --config <FILE>", "Provisioning file [env: RIGGING_CONFIG=] [default: rigging.yaml]"),
  ("-u, --unit <NAME>", "Run only the named unit instead of every unit"),
  ("    --validate-only", "Build and validate the trees, then exit without applying anything"),
  ("-j, --jobs <N>", "Units applied at once (overrides executor_options.max_concurrency)"),
  ("    --policy <POLICY>", "What a satisfied node means for its dependents (overrides the file) "
    ++ "[possible values: skip-subtree, self-only]"),
  ("    --log-level <DIRECTIVE>", "Log filter used when RUST_LOG is unset [default: info]"),
  ("-h, --help", "Print help"),
  ("-V, --version", "Print version")]

/-- An option and its meaning on one line, the meaning in a column of its own. -/
def optionLine (form meaning : String) : String :=
  "  " ++ String.ofList (form.toList.rightpad 29 ' ') ++ meaning

/-- What the program says about itself. -/
def help : String := "\n".intercalate (
  ["Bring declared images and manifests to their desired state",
    "",
    "Usage: rigging [OPTIONS]",
    "",
    "Options:"]
  ++ options.map (fun (form, meaning) => optionLine form meaning)
  ++ ["",
    "Examples:",
    "  rigging",
    "  rigging --config deploy/rigging.yaml --unit shop",
    "  rigging --validate-only",
    "  rigging --jobs 2 --policy self-only"])

/-- The exit code. -/
def code : Conclusion → Nat
  | aside (.usage _) => 2
  | aside _ | valid _ | converged _ => 0
  | unusable _ _ | faulty _ => 1
  | overcommitted => 101

/-- What is written to the standard output, given how long the run took. -/
def stdout (took : Option Duration) : Conclusion → String
  | aside .help => help ++ "\n"
  | aside .version => version ++ "\n"
  | valid units => s!"✅ {units} unit(s) valid\n"
  | converged s =>
      let time := (took.map Duration.brief).getD "<duration>"
      s!"✅ {s.succeeded} unit(s) converged in {time}: {s.totals.applied} applied, " ++
        s!"{s.totals.satisfied} already satisfied, {s.totals.visited} visited\n"
  | _ => ""

/-- What is written to the standard error. -/
def stderr : Conclusion → String
  | aside (.usage e) => s!"error: {e.message}\n"
  | unusable path e => "❌ loading " ++ path.text ++ ": " ++ e.chain ++ "\n"
  | faulty f => "❌ " ++ f.chain ++ "\n"
  | overcommitted =>
      s!"a semaphore may not have more than MAX_PERMITS permits ({Fleet.maxPermits})\n"
  | _ => ""

end Conclusion

/-! ## Running it -/

/-- A stretch of a run of the program: what it came to, what was written into the journal, what
was asked of the world outside, and how it left that world. -/
structure Stretch (ω α : Type) where
  result : α
  events : List Event
  asked : List Command.Request
  solo : Environment.Solo ω

variable {ω α : Type}

/-- The world outside, which runs commands. -/
abbrev Outside (ω : Type) : Type := Environment Command.Request Command.Request.Answer ω

/-- What a step asked of the world outside. -/
def Course.Step.request? {R : Type} :
    Course.Step Command.Request Command.Request.Answer R → Option Command.Request
  | .answered q _ => some q
  | .left _ => none

/-- What a deed asked of the world outside. -/
def Fleet.Deed.request? {R : Type} :
    Fleet.Deed Command.Request Command.Request.Answer R → Option Command.Request
  | .asked _ q => some q
  | _ => none

/-- The event of a deed. -/
def Fleet.Deed.event? {Q : Type} {A : Q → Type} {R : Type} : Fleet.Deed Q A R → Option Event
  | .event e => some e
  | .step _ s => s.event?
  | _ => none

/-- The run of jobs side by side on this machine. -/
def Machine.fleet (m : Machine) (policy : Policy) (limit : Nat) (jobs : List (Job Resource)) :
    Fleet.Setup Command.Request Command.Request.Answer Resource :=
  ⟨Resource.provider, policy, limit, jobs, m.tasks⟩

/-- What comes from outside into a run: the caller's scope is cancelled, if it ever is. -/
def Environment.Solo.interventions (s : Environment.Solo ω) : List (Nat × Fleet.Intervention) :=
  (s.cancelAt.map fun time => (time, .cancelCaller)).toList

namespace Stretch

/-- Builds the trees of declared units. -/
def build (selected : List (String × Declaration)) (s : Environment.Solo ω) :
    Stretch ω (Except Fault (List (Job Resource))) :=
  let (jobs, steps, s) :=
    (Job.buildAll (selected.map fun (name, d) => (name, d.design))).run verdicts.alone s
  ⟨jobs, steps.filterMap Course.Step.event?, [], s⟩

/-- Checks the resources of jobs. -/
def check (env : Outside ω) (jobs : List (Job Resource)) (s : Environment.Solo ω) :
    Stretch ω (Except Fault Unit) :=
  let (checked, steps, s) := (Job.validateAll Resource.provider jobs).run env.alone s
  ⟨checked, steps.filterMap Course.Step.event?, steps.filterMap Course.Step.request?, s⟩

/-- Converges jobs side by side.  A run that cannot have its permits comes no further than to say
how many they should be. -/
def converge (m : Machine) (env : Outside ω) (policy : Policy) (limit : Nat)
    (jobs : List (Job Resource)) (s : Environment.Solo ω) : Stretch ω Conclusion :=
  let fleet := m.fleet policy limit jobs
  match Fleet.Dispatch.run? fleet env s.world s.scopes s.scope s.interventions with
  | none => ⟨.overcommitted, [fleet.announcement], [], s⟩
  | some d =>
      let deeds := d.state.history.reverse
      ⟨.ofRun d.state.result, deeds.filterMap Fleet.Deed.event?,
        deeds.filterMap Fleet.Deed.request?, { s with world := d.world, scopes := d.state.scopes }⟩

/-- The stretch after another one. -/
def after (first : Stretch ω α) {β : Type} (next : Stretch ω β) : Stretch ω β :=
  { next with events := first.events ++ next.events, asked := first.asked ++ next.asked }

/-- Goes on from a success; a fault is the conclusion. -/
def andThen (first : Stretch ω (Except Fault α))
    (next : α → Environment.Solo ω → Stretch ω Conclusion) : Stretch ω Conclusion :=
  match first.result with
  | .ok a => first.after (next a first.solo)
  | .error f => { first with result := .faulty f }

/-- Nothing more happens. -/
def settled (c : Conclusion) (s : Environment.Solo ω) : Stretch ω Conclusion := ⟨c, [], [], s⟩

end Stretch

namespace Invocation

/-- How satisfied nodes are treated: the command line comes before the file. -/
def policyFor (i : Invocation) (c : Config) : Policy := i.policy.getD c.options.policy

/-- How many units are to be at work at once: the command line comes before the file. -/
def limitFor (i : Invocation) (m : Machine) (c : Config) : Nat := i.jobs.getD (c.limit m)

/-- A run with a configuration that has no problems. -/
def runWith (i : Invocation) (m : Machine) (env : Outside ω) (c : Config)
    (s : Environment.Solo ω) : Stretch ω Conclusion :=
  match c.registry.select i.unit with
  | .error f => .settled (.faulty f) s
  | .ok selected =>
      (Stretch.build selected s).andThen fun jobs s =>
        (Stretch.check env jobs s).andThen fun () s =>
          if i.validateOnly then .settled (.valid jobs.length) s
          else Stretch.converge m env (i.policyFor c) (i.limitFor m c) jobs s

/-- A run, from what loading its configuration came to. -/
def runLoaded (i : Invocation) (m : Machine) (env : Outside ω)
    (loaded : Except ConfigError Config) (s : Environment.Solo ω) : Stretch ω Conclusion :=
  match Config.reviewed i.file loaded with
  | (.error e, events) => ⟨.unusable i.file e, events, [], s⟩
  | (.ok c, events) =>
      let rest := i.runWith m env c s
      { rest with events := events ++ rest.events }

/-- A run, from what reading the bytes of its configuration file came to. -/
def run (i : Invocation) (m : Machine) (env : Outside ω) (bytes : Except String (List Nat))
    (s : Environment.Solo ω) : Stretch ω Conclusion :=
  i.runLoaded m env (Config.ofBytes i.file bytes) s

end Invocation

end Converge
