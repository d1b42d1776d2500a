import Converge.Blueprint
import Converge.Environment
import Converge.Resource

/-!
# Declarations

The nodes that a unit is declared with: a unit holds images and manifests, a manifest holds the
images that have to exist before it is applied, and an image may hold the checkout that it is
built from.
-/

namespace Converge

structure ImageNode where
  name : String
  image : Image
  source : Option Checkout
deriving DecidableEq, Repr

structure ManifestNode where
  name : String
  manifest : Manifest
  images : List ImageNode
deriving DecidableEq, Repr

structure UnitNode where
  name : String
  /-- The images that no manifest of the unit needs. -/
  images : List ImageNode
  manifests : List ManifestNode
deriving DecidableEq, Repr

inductive Declaration where
  | checkout (c : Checkout)
  | image (i : ImageNode)
  | manifest (m : ManifestNode)
  | unit (u : UnitNode)
deriving DecidableEq, Repr

/-- The verdict on a node by itself is all that its hooks carry: its children are always known. -/
abbrev Verdict : Type := Except Failure Unit

/-- The blueprint of a declared node. -/
abbrev Design : Type := Blueprint Verdict Resource

/-- The answer of a hook that carries a verdict. -/
def Verdict.answer : (q : Hook Verdict) → Hook.Answer q
  | .validate v => v
  | .children _ => .ok ()

/-- The verdicts that hooks carry, as the answers of a world that nothing changes. -/
def verdicts {ω : Type} : Environment (Hook Verdict) Hook.Answer ω where
  react q w := .answer (Verdict.answer q) false w
  slept _ := .ok ()
  interrupted _ := .ok ()

namespace Declaration

/-- Every checkout has this name. -/
def checkoutName : String := "source"

def name : Declaration → String
  | checkout _ => checkoutName
  | image i => i.name
  | manifest m => m.name
  | unit u => u.name

def resource : Declaration → Option Resource
  | checkout c => some (.checkout c)
  | image i => some (.image i.image)
  | manifest m => some (.manifest m.manifest)
  | unit _ => none

/-- Is the node itself well-formed? -/
def check : Declaration → Verdict
  | checkout c =>
      if c.dir.text.isEmpty then .error (.of "checkout directory is empty") else .ok ()
  | image i =>
      if Text.isBlankText i.name then .error (.of "image name is empty") else .ok ()
  | manifest m =>
      if Text.isBlankText m.name then .error (.of "manifest name is empty") else .ok ()
  | unit u =>
      if Text.isBlankText u.name then .error (.of "unit name is empty")
      else if u.name.toList.contains '.' then
        .error (.of ("unit name '" ++ u.name ++ "' must not contain '.'"))
      else .ok ()

/-- The nodes below, in the order in which they are brought to their state. -/
def children : Declaration → List Declaration
  | checkout _ => []
  | image i => i.source.toList.map .checkout
  | manifest m => m.images.map .image
  | unit u => u.images.map .image ++ u.manifests.map .manifest

/-- A node with given blueprints below it. -/
def above (d : Declaration) (below : List Design) : Design :=
  .node d.name d.check d.resource below

end Declaration

namespace ImageNode

def design (i : ImageNode) : Design :=
  (Declaration.image i).above
    (i.source.toList.map fun c => (Declaration.checkout c).above [])

end ImageNode

namespace ManifestNode

def design (m : ManifestNode) : Design :=
  (Declaration.manifest m).above (m.images.map ImageNode.design)

end ManifestNode

namespace UnitNode

def design (u : UnitNode) : Design :=
  (Declaration.unit u).above
    (u.images.map ImageNode.design ++ u.manifests.map ManifestNode.design)

end UnitNode

/-- The blueprint of a declared node and of everything below it. -/
def Declaration.design : Declaration → Design
  | checkout c => (Declaration.checkout c).above []
  | image i => i.design
  | manifest m => m.design
  | unit u => u.design

end Converge
