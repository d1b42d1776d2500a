import Converge.Catalog
import Converge.Pathname
import Converge.Tally

/-!
# Configurations

What a configuration file says: the units with their images and manifests, and what holds for
all of them unless they say otherwise.
-/

namespace Converge

/-- Values for every unit that does not give its own. -/
structure Defaults where
  /-- Comes in front of every repository. -/
  registry : Option String
  kubeContext : Option String
  space : Option String
deriving DecidableEq, Repr, Inhabited

/-- How the units are run. -/
structure RunOptions where
  /-- How many units may be at work at once. -/
  limit : Option Nat
  policy : Policy
deriving DecidableEq, Repr, Inhabited

/-- The checkout that an image is built from. -/
structure SourceSpec where
  url : String
  rev : String
  dir : Pathname
deriving DecidableEq, Repr, Inhabited

structure ImageSpec where
  name : String
  repository : String
  tag : String
  /-- As seen from the checkout, if there is one, otherwise from the configuration file. -/
  context : Pathname
  dockerfile : Option Pathname
  buildArgs : Catalog String
  source : Option SourceSpec
deriving DecidableEq, Repr

structure ManifestSpec where
  name : String
  path : Pathname
  kubeContext : Option String
  space : Option String
  /-- The images that have to exist before the manifest is applied. -/
  images : List String
deriving DecidableEq, Repr, Inhabited

structure UnitSpec where
  name : String
  images : List ImageSpec
  manifests : List ManifestSpec
deriving DecidableEq, Repr

structure Config where
  defaults : Defaults
  options : RunOptions
  units : List UnitSpec
  /-- Where relative paths start: the directory of the configuration file. -/
  baseDir : Pathname
deriving DecidableEq, Repr

namespace Config

/-- The context of an image that gives none. -/
def defaultContext : Pathname := ⟨"."⟩

/-- A path of the configuration as seen from the working directory. -/
def resolve (c : Config) (p : Pathname) : Pathname :=
  if p.isAbsolute then p else c.baseDir.join p

end Config

end Converge
