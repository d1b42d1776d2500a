import Converge.Course
import Converge.Fault
import Converge.Tally
import Converge.Tree

/-!
# Blueprints

A blueprint is the declaration of a tree.  It becomes an execution tree node by node in
pre-order: a node is checked, its children are determined, and then they are built in turn.
What checking and determining amount to is asked of the world, through the hooks of type `H`
that the nodes carry.
-/

namespace Converge

inductive Blueprint (H R : Type) : Type where
  | node (name : String) (hooks : H) (resource : Option R) (children : List (Blueprint H R))

/-- What is asked of a node while its tree is built. -/
inductive Hook (H : Type) where
  | validate (h : H)
  | children (h : H)
deriving DecidableEq, Repr

/-- A hook succeeds or fails. -/
abbrev Hook.Answer {H : Type} (_ : Hook H) : Type := Except Failure Unit

namespace Blueprint

variable {H R : Type}

/-- A course that builds something. -/
abbrev Building (H R α : Type) : Type :=
  Course (Hook H) Hook.Answer R (Except Fault α)

def name : Blueprint H R → String
  | node name _ _ _ => name

def resource : Blueprint H R → Option R
  | node _ _ resource _ => resource

def children : Blueprint H R → List (Blueprint H R)
  | node _ _ _ children => children

/-- Asks a hook, and stops with the fault that its failure amounts to. -/
def hook (q : Hook H) (fault : Failure → Fault) : Building H R Unit :=
  .ask q fun
    | .ok () => .done (.ok ())
    | .error f => .done (.error (fault f))

mutual

/-- Builds a tree below `above`. -/
def buildAt (above : Address) : Blueprint H R → Building H R (Tree R)
  | node name hooks resource children =>
      .look fun cancelled =>
        if cancelled then .done (.error (.cancelled (above.child name)))
        else
          (hook (.validate hooks) (.validation (above.child name))).andThen fun () =>
            (hook (.children hooks) (.children (above.child name))).andThen fun () =>
              (buildAll (above.child name) children).andThen fun built =>
                .done (.ok (.node name resource built))

def buildAll (above : Address) : List (Blueprint H R) → Building H R (List (Tree R))
  | [] => .done (.ok [])
  | b :: rest =>
      (b.buildAt above).andThen fun t =>
        (buildAll above rest).andThen fun ts => .done (.ok (t :: ts))

end

/-- Builds a whole tree. -/
def build (b : Blueprint H R) : Building H R (Tree R) :=
  (b.buildAt .top).andThen fun t => .note (.treeBuilt t.name t.size) (.done (.ok t))

mutual

/-- The tree that a blueprint declares. -/
def tree : Blueprint H R → Tree R
  | node name _ resource children => .node name resource (trees children)

def trees : List (Blueprint H R) → List (Tree R)
  | [] => []
  | b :: rest => b.tree :: trees rest

end

end Blueprint

end Converge
