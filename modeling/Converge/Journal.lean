import Converge.Text.Duration

/-!
# The journal

What a run writes down while it goes on: events, each with a level, a line of text and the
fields that the text is made of.  An event can also open a span, under a name of its own.
-/

namespace Converge

inductive Level where
  | debug | info | warn | error
deriving DecidableEq, Repr

def Level.name : Level → String
  | .debug => "DEBUG"
  | .info => "INFO"
  | .warn => "WARN"
  | .error => "ERROR"

/-- The value of a field of an event. -/
inductive Field where
  | number (n : Nat)
  | flag (b : Bool)
  | text (s : String)
deriving DecidableEq, Repr

/-- An event of a run.  A time that was not measured is left open. -/
inductive Event where
  | treeBuilt (root : String) (nodes : Nat)
  | applyStarted (root policy : String)
  | applyCompleted (root : String) (applied satisfied : Nat) (took : Option Duration)
  | passFailed (pass root error : String)
  | unitsDiscovered (units limit : Nat)
  | unitFailed (unit error : String)
  | furtherFailure (unit error : String)
  | unitCancelled (unit : String) (started : Bool)
  | nodeSatisfied (address kind : String) (skipped : Nat)
  | nodeApplying (address kind : String)
  | nodeApplied (address kind : String) (took : Option Duration)
  | commandStarted (program : String) (args : List String)
  | configLoaded (path : String) (units : Nat)
  | configRejected (error : String)
deriving DecidableEq, Repr

namespace Event

def level : Event → Level
  | treeBuilt .. | furtherFailure .. | commandStarted .. => .debug
  | applyStarted .. | applyCompleted .. | unitsDiscovered .. | nodeSatisfied .. |
    nodeApplying .. | nodeApplied .. | configLoaded .. => .info
  | unitCancelled .. => .warn
  | passFailed .. | unitFailed .. | configRejected .. => .error

/-- A measured time, or a mark in its place. -/
def tookText : Option Duration → String
  | none => "<duration>"
  | some d => d.text

/-- The line that is written down. -/
def text : Event → String
  | treeBuilt root nodes => s!"Built execution tree '{root}' with {nodes} nodes"
  | applyStarted root policy => s!"Applying '{root}' with {policy} satisfied policy"
  | applyCompleted root applied satisfied took =>
      s!"Applied '{root}': {applied} applied, {satisfied} already satisfied, in " ++ tookText took
  | passFailed pass root error => s!"{pass} of '{root}' failed: {error}"
  | unitsDiscovered units limit =>
      s!"Discovered {units} units, running up to {limit} concurrently"
  | unitFailed unit error => s!"Unit '{unit}' failed, cancelling remaining units: {error}"
  | furtherFailure _ _ => "Additional unit failure after cancellation"
  | unitCancelled unit started =>
      if started then s!"Unit '{unit}' stopped after cancellation"
      else s!"Unit '{unit}' not started: run was cancelled"
  | nodeSatisfied address kind skipped =>
      if 0 < skipped then
        s!"{kind} '{address}' already satisfied, skipping {skipped} dependents"
      else s!"{kind} '{address}' already satisfied"
  | nodeApplying address kind => s!"Applying {kind} '{address}'"
  | nodeApplied address kind took => s!"Applied {kind} '{address}' in " ++ tookText took
  | commandStarted program args => "Running " ++ program ++ " " ++ " ".intercalate args
  | configLoaded path units => s!"Loaded '{path}' with {units} units"
  | configRejected error => "Configuration rejected: " ++ error

/-- The fields that the line and the span of an event have in common. -/
def sharedFields : Event → List (String × Field)
  | treeBuilt root nodes => [("root", .text root), ("node_count", .number nodes)]
  | applyStarted root policy => [("root", .text root), ("policy", .text policy)]
  | applyCompleted root applied satisfied _ =>
      [("root", .text root), ("applied", .number applied), ("satisfied", .number satisfied)]
  | passFailed pass root error =>
      [("pass", .text pass), ("root", .text root), ("error", .text error)]
  | unitsDiscovered units limit =>
      [("unit_count", .number units), ("max_concurrency", .number limit)]
  | unitFailed unit error | furtherFailure unit error =>
      [("unit", .text unit), ("error", .text error)]
  | unitCancelled unit started => [("unit", .text unit), ("started", .flag started)]
  | nodeSatisfied address kind _ | nodeApplying address kind | nodeApplied address kind _ =>
      [("path", .text address), ("kind", .text kind)]
  | commandStarted program args =>
      [("program", .text program), ("args", .text (" ".intercalate args))]
  | configLoaded path units => [("path", .text path), ("unit_count", .number units)]
  | configRejected error => [("error", .text error)]

/-- The time that an event reports, if it reports one. -/
def took? : Event → Option Duration
  | applyCompleted _ _ _ took | nodeApplied _ _ took => took
  | _ => none

/-- The fields that are written down with the line. -/
def fields (e : Event) : List (String × Field) :=
  e.sharedFields
    ++ (match e with | nodeSatisfied _ _ n => [("skipped_children", .number n)] | _ => [])
    ++ (e.took?.map fun d => ("duration_ms", .number d.millis)).toList

/-- The name of the span that an event opens. -/
def spanName : Event → String
  | treeBuilt .. => "tree_built"
  | applyStarted .. => "apply"
  | applyCompleted .. => "apply_completed"
  | passFailed .. => "pass_failed"
  | unitsDiscovered .. => "units"
  | unitFailed .. | furtherFailure .. => "unit_failed"
  | unitCancelled .. => "unit_cancelled"
  | nodeSatisfied .. => "node_satisfied"
  | nodeApplying .. => "node_apply"
  | nodeApplied .. => "node_applied"
  | commandStarted .. => "command"
  | configLoaded .. => "config_loaded"
  | configRejected .. => "config_rejected"

/-- The fields of the span that an event opens under the name `label`. -/
def spanFields (e : Event) (label : String) : List (String × Field) :=
  ("span_name", .text label) :: e.sharedFields
    ++ (e.took?.map fun d => ("duration", .text d.text)).toList

end Event

end Converge
