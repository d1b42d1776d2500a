import Converge.Address
import Converge.Failure

/-!
# Faults of a run

Why building, checking or converging a tree stopped, and where.  A fault of one unit among
several is wrapped with the name of the unit.
-/

namespace Converge

inductive Fault where
  /-- A node, or its resource, was found to be ill-formed. -/
  | validation (address : Address) (cause : Failure)
  /-- The children of a node could not be determined. -/
  | children (address : Address) (cause : Failure)
  /-- The state of a resource could not be determined. -/
  | satisfied (address : Address) (cause : Failure)
  /-- A resource could not be brought to its state. -/
  | apply (address : Address) (cause : Failure)
  /-- The scope was cancelled before the node was done. -/
  | cancelled (address : Address)
  /-- The unit of this name stopped. -/
  | unit (name : String) (cause : Fault)
  /-- The work on the unit of this name broke off without an answer. -/
  | broken (name : String) (how : String)
  /-- No unit has this name. -/
  | unknownUnit (name : String)
deriving DecidableEq, Repr, Inhabited

namespace Fault

/-- Is the fault, whatever unit it is wrapped for, that the run was cancelled? -/
def isCancellation : Fault → Bool
  | .cancelled _ => true
  | .unit _ cause => cause.isCancellation
  | _ => false

/-- Where it happened, if it happened at a node. -/
def address? : Fault → Option Address
  | .validation a _ | .children a _ | .satisfied a _ | .apply a _ | .cancelled a => some a
  | .unit _ cause => cause.address?
  | .broken _ _ | .unknownUnit _ => none

/-- One word for what kind of fault it is. -/
def kind : Fault → String
  | .validation _ _ => "validation"
  | .children _ _ => "children"
  | .satisfied _ _ => "satisfied"
  | .apply _ _ => "apply"
  | .cancelled _ => "cancelled"
  | .unit _ cause => cause.kind
  | .broken _ _ => "join"
  | .unknownUnit _ => "unit_not_found"

/-- The unit that the fault names. -/
def unit? : Fault → Option String
  | .unit name _ | .broken name _ => some name
  | _ => none

/-- What is shown for the fault itself. -/
def message : Fault → String
  | .validation a _ => "validation failed at '" ++ a.text ++ "'"
  | .children a _ => "resolving dependents failed at '" ++ a.text ++ "'"
  | .satisfied a _ => "satisfied check failed at '" ++ a.text ++ "'"
  | .apply a _ => "apply failed at '" ++ a.text ++ "'"
  | .cancelled a => "cancelled at '" ++ a.text ++ "'"
  | .unit name _ => "unit '" ++ name ++ "' failed"
  | .broken name how => "unit '" ++ name ++ "' task did not complete: " ++ how
  | .unknownUnit name => "no unit named '" ++ name ++ "' is registered"

/-- What lies below the fault, outermost first. -/
def sources : Fault → List String
  | .validation _ f | .children _ f | .satisfied _ f | .apply _ f => f.messages
  | .unit _ cause => cause.message :: cause.sources
  | .cancelled _ | .broken _ _ | .unknownUnit _ => []

/-- The fault and all that lies below it, on one line. -/
def chain (f : Fault) : String := ": ".intercalate (f.message :: f.sources)

/-- Names the unit to which a fault belongs, unless it names one already. -/
def forUnit (name : String) : Fault → Fault
  | .unit n cause => .unit n cause
  | .broken n how => .broken n how
  | f => .unit name f

@[simp] theorem isCancellation_forUnit (name : String) (f : Fault) :
    (f.forUnit name).isCancellation = f.isCancellation := by
  cases f <;> rfl

/-- A fault that stopped a unit after its work had begun: cancelled above its root it had not. -/
def isStarted (f : Fault) : Bool := !(f.address?.any Address.isTop)

end Fault

end Converge
