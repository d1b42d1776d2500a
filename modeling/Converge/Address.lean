/-!
# Addresses of nodes

The address of a node is the list of names from the root of its tree down to the node itself.
-/

namespace Converge

structure Address where
  names : List String
deriving DecidableEq, Repr, Inhabited

namespace Address

/-- The address above every root. -/
def top : Address := ⟨[]⟩

/-- The address of a child. -/
def child (a : Address) (name : String) : Address := ⟨a.names ++ [name]⟩

def length (a : Address) : Nat := a.names.length

def isTop (a : Address) : Bool := a.names.isEmpty

/-- The name of the node itself. -/
def leaf? (a : Address) : Option String := a.names.getLast?

/-- The names with points between them. -/
def text (a : Address) : String :=
  if a.isTop then "<root>" else ".".intercalate a.names

@[simp] theorem names_child (a : Address) (name : String) :
    (a.child name).names = a.names ++ [name] := rfl

@[simp] theorem isTop_top : top.isTop = true := rfl

@[simp] theorem isTop_child (a : Address) (name : String) : (a.child name).isTop = false := by
  simp [isTop]

@[simp] theorem leaf?_child (a : Address) (name : String) :
    (a.child name).leaf? = some name := by
  simp [leaf?]

end Address

end Converge
