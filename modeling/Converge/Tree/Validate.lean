import Converge.Course
import Converge.Fault
import Converge.Provider
import Converge.Tree

/-!
# Validating a tree

Every resource of a tree is validated in pre-order, whatever its state; the first failure ends
the pass and says at which node it happened.
-/

namespace Converge.Tree

variable {Q : Type} {A : Q → Type} {R : Type}

/-- Validates the resource of one node. -/
def validateResource (P : Provider Q A R) (here : Address) :
    Option R → Course Q A R (Except Fault Unit)
  | none => .done (.ok ())
  | some r => (Course.call .validate r (P.validate r)).bind fun
      | .ok () => .done (.ok ())
      | .error f => .done (.error (.validation here f))

mutual

/-- Validates a tree that hangs below `above`. -/
def validateAt (P : Provider Q A R) (above : Address) :
    Tree R → Course Q A R (Except Fault Unit)
  | node name resource children =>
      (validateResource P (above.child name) resource).andThen fun () =>
        validateAll P (above.child name) children

def validateAll (P : Provider Q A R) (above : Address) :
    List (Tree R) → Course Q A R (Except Fault Unit)
  | [] => .done (.ok ())
  | t :: rest => (t.validateAt P above).andThen fun () => validateAll P above rest

end

/-- Writes down that a pass over a tree failed, if it did. -/
def reported {α : Type} (pass root : String) :
    Except Fault α → Course Q A R (Except Fault α)
  | .ok a => .done (.ok a)
  | .error f => .note (.passFailed pass root f.message) (.done (.error f))

/-- Validates a whole tree. -/
def validate (P : Provider Q A R) (t : Tree R) : Course Q A R (Except Fault Unit) :=
  (t.validateAt P .top).bind (reported "validate" t.name)

@[simp] theorem validateAll_nil (P : Provider Q A R) (above : Address) :
    validateAll P above [] = .done (.ok ()) := by simp [validateAll]

@[simp] theorem validateAll_cons (P : Provider Q A R) (above : Address) (t : Tree R)
    (ts : List (Tree R)) :
    validateAll P above (t :: ts) =
      (t.validateAt P above).andThen fun () => validateAll P above ts := by
  simp [validateAll]

@[simp] theorem validateAt_node (P : Provider Q A R) (above : Address) (name : String)
    (r : Option R) (ts : List (Tree R)) :
    (node name r ts).validateAt P above =
      (validateResource P (above.child name) r).andThen fun () =>
        validateAll P (above.child name) ts := by
  simp [validateAt]

end Converge.Tree
