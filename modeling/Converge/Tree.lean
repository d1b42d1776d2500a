import Converge.Address
import Converge.Text.Quoted

/-!
# Execution trees

A tree of named nodes, some of which hold a resource to be brought to its state.  What a
resource is, is left open.
-/

namespace Converge

inductive Tree (R : Type) : Type where
  | node (name : String) (resource : Option R) (children : List (Tree R))

namespace Tree

variable {R : Type}

def name : Tree R → String
  | node name _ _ => name

def resource : Tree R → Option R
  | node _ resource _ => resource

def children : Tree R → List (Tree R)
  | node _ _ children => children

mutual

/-- How many nodes the tree has. -/
def size : Tree R → Nat
  | node _ _ children => 1 + sizeAll children

/-- How many nodes the trees have together. -/
def sizeAll : List (Tree R) → Nat
  | [] => 0
  | t :: rest => t.size + sizeAll rest

end

mutual

/-- The resources that the nodes hold, in pre-order. -/
def resources : Tree R → List R
  | node _ resource children => resource.toList ++ resourcesAll children

/-- The resources that the nodes of the trees hold. -/
def resourcesAll : List (Tree R) → List R
  | [] => []
  | t :: rest => t.resources ++ resourcesAll rest

end

mutual

/-- The nodes in pre-order, each with its depth. -/
def rowsFrom (depth : Nat) : Tree R → List (Nat × Tree R)
  | node name resource children =>
      (depth, node name resource children) :: rowsFromAll (depth + 1) children

def rowsFromAll (depth : Nat) : List (Tree R) → List (Nat × Tree R)
  | [] => []
  | t :: rest => t.rowsFrom depth ++ rowsFromAll depth rest

end

/-- The nodes in pre-order, each with its depth. -/
def rows (t : Tree R) : List (Nat × Tree R) := t.rowsFrom 0

mutual

/-- The tree on one line; `kind` names what sort of resource a node holds. -/
def record (kind : R → String) : Tree R → String
  | node name resource children =>
      Text.record "Runner"
        [("name", Text.quoted name),
          ("applier", Text.optional (resource.map fun r => Text.quoted (kind r))),
          ("children", Text.bracketed (recordAll kind children))]

def recordAll (kind : R → String) : List (Tree R) → List String
  | [] => []
  | t :: rest => t.record kind :: recordAll kind rest

end

@[simp] theorem size_node (name : String) (r : Option R) (ts : List (Tree R)) :
    (node name r ts).size = 1 + sizeAll ts := by simp [size]
@[simp] theorem sizeAll_nil : sizeAll ([] : List (Tree R)) = 0 := by simp [sizeAll]
@[simp] theorem sizeAll_cons (t : Tree R) (ts : List (Tree R)) :
    sizeAll (t :: ts) = t.size + sizeAll ts := by simp [sizeAll]
@[simp] theorem resources_node (name : String) (r : Option R) (ts : List (Tree R)) :
    (node name r ts).resources = r.toList ++ resourcesAll ts := by simp [resources]
@[simp] theorem resourcesAll_nil : resourcesAll ([] : List (Tree R)) = [] := by
  simp [resourcesAll]
@[simp] theorem resourcesAll_cons (t : Tree R) (ts : List (Tree R)) :
    resourcesAll (t :: ts) = t.resources ++ resourcesAll ts := by simp [resourcesAll]

end Tree

end Converge
