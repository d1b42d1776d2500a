import Converge.Catalog
import Converge.Command
import Converge.Reference

/-!
# Images

An image is in its declared state when the registry has something under its reference.
Otherwise it is built from its context and pushed.
-/

namespace Converge

structure Image where
  reference : String
  context : Pathname
  /-- The file that says how to build it, as seen from the context. -/
  dockerfile : Option Pathname
  buildArgs : Catalog String
deriving DecidableEq, Repr

namespace Image

/-- Sets a build argument, in place of the value that was there. -/
def withBuildArg (i : Image) (key value : String) : Image :=
  { i with buildArgs := i.buildArgs.insert key value }

def inspect (i : Image) : Command := ⟨"docker", ["manifest", "inspect", i.reference], none⟩

def build (i : Image) : Command :=
  let file := match i.dockerfile with
    | none => []
    | some f => ["-f", (i.context.join f).text]
  let args := i.buildArgs.entries.flatMap fun (k, v) => ["--build-arg", k ++ "=" ++ v]
  ⟨"docker", ["build", "-t", i.reference] ++ file ++ args ++ [i.context.text], none⟩

def push (i : Image) : Command := ⟨"docker", ["push", i.reference], none⟩

def building (i : Image) : String := "building " ++ i.reference
def pushing (i : Image) : String := "pushing " ++ i.reference

/-- Does the registry have the image? -/
def satisfied (i : Image) : Command.Procedure (Except Failure Bool) :=
  i.inspect.run.bind fun r => .done (r.map Output.success)

/-- Builds the image and pushes it. -/
def apply (i : Image) : Command.Procedure (Except Failure Unit) :=
  (i.build.perform i.building).andThen fun () => i.push.perform i.pushing

def validate (i : Image) : Except Failure Unit :=
  match Reference.check i.reference with
  | .error f => .error f
  | .ok () =>
      if i.context.text.isEmpty then
        .error (.of ("build context for '" ++ i.reference ++ "' is empty"))
      else .ok ()

end Image

end Converge
