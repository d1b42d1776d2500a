import Converge.Command

/-!
# Manifests

A manifest is a file that is applied to a cluster.  Applying it twice does no harm and asking
the cluster first is no cheaper, so it is never taken as it is.
-/

namespace Converge

structure Manifest where
  path : Pathname
  kubeContext : String
  /-- The namespace of the cluster to apply it in, if it is not the default one. -/
  space : Option String
deriving DecidableEq, Repr

namespace Manifest

def command (m : Manifest) : Command :=
  let space := match m.space with
    | none => []
    | some n => ["--namespace", n]
  ⟨"kubectl", ["--context", m.kubeContext] ++ space ++ ["apply", "-f", m.path.text], none⟩

def applying (m : Manifest) : String :=
  "applying " ++ m.path.text ++ " to " ++ m.kubeContext

def satisfied (_ : Manifest) : Command.Procedure (Except Failure Bool) := .done (.ok false)

def apply (m : Manifest) : Command.Procedure (Except Failure Unit) :=
  m.command.perform m.applying

def validate (m : Manifest) : Except Failure Unit :=
  if m.path.text.isEmpty then .error (.of "manifest path is empty")
  else if Text.isBlankText m.kubeContext then
    .error (.of ("kube context for '" ++ m.path.text ++ "' is empty"))
  else .ok ()

end Manifest

end Converge
