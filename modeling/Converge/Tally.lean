/-!
# Counts of a run
-/

namespace Converge

/-- What a satisfied node means for the nodes beneath it. -/
inductive Policy where
  /-- Nothing beneath it is visited. -/
  | skipSubtree
  /-- Only its own work is skipped. -/
  | selfOnly
deriving DecidableEq, Repr, Inhabited

/-- The name of a policy in files and messages. -/
def Policy.name : Policy → String
  | .skipSubtree => "skip_subtree"
  | .selfOnly => "self_only"

/-- Counts of one pass over a tree. -/
@[ext]
structure Tally where
  /-- Nodes entered. -/
  visited : Nat
  /-- Resources brought to their state. -/
  applied : Nat
  /-- Resources found in their state. -/
  satisfied : Nat
deriving DecidableEq, Repr, Inhabited

namespace Tally

def zero : Tally := ⟨0, 0, 0⟩

/-- A node was entered. -/
def enter : Tally := ⟨1, 0, 0⟩

/-- A resource was brought to its state. -/
def work : Tally := ⟨0, 1, 0⟩

/-- A resource was found in its state. -/
def rest : Tally := ⟨0, 0, 1⟩

instance : Zero Tally := ⟨zero⟩

instance : Add Tally := ⟨fun a b =>
  ⟨a.visited + b.visited, a.applied + b.applied, a.satisfied + b.satisfied⟩⟩

@[simp] theorem visited_add (a b : Tally) : (a + b).visited = a.visited + b.visited := rfl
@[simp] theorem applied_add (a b : Tally) : (a + b).applied = a.applied + b.applied := rfl
@[simp] theorem satisfied_add (a b : Tally) : (a + b).satisfied = a.satisfied + b.satisfied := rfl
@[simp] theorem visited_zero : (0 : Tally).visited = 0 := rfl
@[simp] theorem applied_zero : (0 : Tally).applied = 0 := rfl
@[simp] theorem satisfied_zero : (0 : Tally).satisfied = 0 := rfl

@[simp] theorem add_zero (a : Tally) : a + 0 = a := by ext <;> simp
@[simp] theorem zero_add (a : Tally) : 0 + a = a := by ext <;> simp

theorem add_comm (a b : Tally) : a + b = b + a := by ext <;> simp <;> omega

theorem add_assoc (a b c : Tally) : a + b + c = a + (b + c) := by ext <;> simp <;> omega

end Tally

/-- Counts of a run of several units. -/
structure Summary where
  units : Nat
  succeeded : Nat
  failed : Nat
  /-- Units stopped, or never started, because of cancellation. -/
  cancelled : Nat
  /-- Counts of the units that succeeded. -/
  totals : Tally
deriving DecidableEq, Repr, Inhabited

/-- Counts of a run before any of its units has ended. -/
def Summary.start (units : Nat) : Summary := ⟨units, 0, 0, 0, 0⟩

end Converge
