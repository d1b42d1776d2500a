import Converge.Failure
import Converge.Plan

/-!
# Providers

A provider knows how resources of a type `R` are worked on: how one is checked for being
well-formed, how its present state is found out, and how it is brought to the declared one.
-/

namespace Converge

structure Provider (Q : Type) (A : Q → Type) (R : Type) where
  /-- One word for what sort of resource it is. -/
  kind : R → String
  /-- Is the declaration well-formed? -/
  validate : R → Plan Q A (Except Failure Unit)
  /-- Is the resource in the declared state? -/
  satisfied : R → Plan Q A (Except Failure Bool)
  /-- Brings the resource to the declared state. -/
  apply : R → Plan Q A (Except Failure Unit)

end Converge
