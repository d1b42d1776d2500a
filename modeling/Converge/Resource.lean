import Converge.Provider
import Converge.Resource.Checkout
import Converge.Resource.Image
import Converge.Resource.Manifest

/-!
# Resources

The three sorts of things that are brought to a declared state, and how each is worked on with
commands.
-/

namespace Converge

inductive Resource where
  | checkout (c : Checkout)
  | image (i : Image)
  | manifest (m : Manifest)
deriving DecidableEq, Repr

namespace Resource

def kind : Resource → String
  | checkout _ => "git"
  | image _ => "image"
  | manifest _ => "manifest"

def validate : Resource → Except Failure Unit
  | checkout c => c.validate
  | image i => i.validate
  | manifest m => m.validate

def satisfied : Resource → Command.Procedure (Except Failure Bool)
  | checkout c => c.satisfied
  | image i => i.satisfied
  | manifest m => m.satisfied

def apply : Resource → Command.Procedure (Except Failure Unit)
  | checkout c => c.apply
  | image i => i.apply
  | manifest m => m.apply

/-- Resources are worked on with commands; validating one needs none. -/
def provider : Provider Command.Request Command.Request.Answer Resource where
  kind := kind
  validate r := .done r.validate
  satisfied := satisfied
  apply := apply

end Resource

end Converge
