import Converge.Blueprint
import Converge.Tree.Converge

/-!
# Jobs

A job is the execution tree of one unit, under the name by which the unit is known.  Jobs are
built and validated one after the other; the first fault ends either pass and names its unit.
-/

namespace Converge

structure Job (R : Type) where
  name : String
  tree : Tree R

namespace Job

variable {Q : Type} {A : Q → Type} {H R α : Type}

/-- A course on behalf of a unit: a fault is wrapped with its name. -/
def onBehalf (name : String) (c : Course Q A R (Except Fault α)) :
    Course Q A R (Except Fault α) :=
  c.bind fun
    | .ok a => .done (.ok a)
    | .error f => .done (.error (f.forUnit name))

/-- Builds the trees of named blueprints, in order. -/
def buildAll : List (String × Blueprint H R) → Blueprint.Building H R (List (Job R))
  | [] => .done (.ok [])
  | (name, b) :: rest =>
      (onBehalf name b.build).andThen fun t =>
        (buildAll rest).andThen fun jobs => .done (.ok (⟨name, t⟩ :: jobs))

/-- Validates the trees of jobs, in order. -/
def validateAll (P : Provider Q A R) : List (Job R) → Course Q A R (Except Fault Unit)
  | [] => .done (.ok ())
  | job :: rest =>
      (onBehalf job.name (job.tree.validate P)).andThen fun () => validateAll P rest

end Job

end Converge
