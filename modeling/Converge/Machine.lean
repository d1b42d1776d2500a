import Converge.Word

/-!
# Machines

What a run takes from the machine that it is made on: how much the machine can do at once, and the
numbers by which the machine knows the tasks of the run.
-/

namespace Converge

/-- The numbers of the tasks of a run, in the order in which the tasks are started.  No two tasks
of a run have the same number. -/
structure Numbering where
  number : Nat → Nat
  injective : Function.Injective number

/-- Tasks that are numbered as they are started. -/
def Numbering.inTurn (first : Nat) : Numbering where
  number i := first + i
  injective _ _ h := Nat.add_left_cancel h

structure Machine where
  /-- How many things it can do at once, if it can tell. -/
  cores : Option Nat
  pos_cores : ∀ n ∈ cores, 0 < n
  isWord_cores : ∀ n ∈ cores, isWord n = true
  tasks : Numbering

/-- A machine that cannot tell what it can do. -/
def Machine.silent : Machine where
  cores := none
  pos_cores := nofun
  isWord_cores := nofun
  tasks := .inTurn 1

/-- How many units are to be at work at once if nobody says. -/
def Machine.limit (m : Machine) : Nat := m.cores.getD 4

end Converge
