import Converge.Config

/-!
# Problems of a configuration

What only the configuration as a whole can tell: names that are given twice, images that are
used and not declared, and manifests without a cluster context.
-/

namespace Converge

inductive Problem where
  | duplicateUnit (unit : String)
  | duplicateImage (unit image : String)
  | unknownImage (unit manifest image : String)
  | missingKubeContext (unit manifest : String)
deriving DecidableEq, Repr

namespace Problem

def message : Problem → String
  | duplicateUnit unit => s!"duplicate unit name: '{unit}'"
  | duplicateImage unit image => s!"unit '{unit}' declares image '{image}' more than once"
  | unknownImage unit manifest image =>
      s!"manifest '{manifest}' in unit '{unit}' references unknown image '{image}'"
  | missingKubeContext unit manifest =>
      s!"manifest '{manifest}' in unit '{unit}' has no kube context and no default is set"

end Problem

/-- The members of a list that occur earlier in it, or in `seen`. -/
def repeats (seen : List String) : List String → List String
  | [] => []
  | x :: rest =>
      if seen.contains x then x :: repeats seen rest else repeats (x :: seen) rest

/-- The problems of a manifest in a unit that declares `declared`. -/
def ManifestSpec.problems (defaults : Defaults) (unit : String) (declared : List String)
    (m : ManifestSpec) : List Problem :=
  (m.images.filter (!declared.contains ·)).map (.unknownImage unit m.name) ++
    if m.kubeContext.isNone && defaults.kubeContext.isNone then
      [.missingKubeContext unit m.name]
    else []

/-- The problems inside a unit. -/
def UnitSpec.problems (defaults : Defaults) (u : UnitSpec) : List Problem :=
  (repeats [] (u.images.map ImageSpec.name)).map (.duplicateImage u.name) ++
    u.manifests.flatMap (·.problems defaults u.name (u.images.map ImageSpec.name))

/-- The problems of units, after units with the names in `seen`. -/
def unitProblems (defaults : Defaults) (seen : List String) : List UnitSpec → List Problem
  | [] => []
  | u :: rest =>
      (if seen.contains u.name then [.duplicateUnit u.name] else []) ++
        u.problems defaults ++ unitProblems defaults (u.name :: seen) rest

/-- All problems of a configuration, in the order of the file. -/
def Config.problems (c : Config) : List Problem := unitProblems c.defaults [] c.units

/-- Why a text is no configuration. -/
inductive Unfit where
  /-- It is no document. -/
  | malformed
  /-- What it says is not what a configuration says; `hasValue` if it says anything at all. -/
  | misfit (cause : String) (hasValue : Bool)
deriving DecidableEq, Repr

/-- Why a configuration file cannot be used. -/
inductive ConfigError where
  /-- It cannot be read. -/
  | unreadable (path : Pathname) (cause : String)
  /-- It is no configuration. -/
  | unparsable (path : Pathname) (cause : Unfit)
  | problem (p : Problem)
deriving DecidableEq, Repr

namespace ConfigError

def message : ConfigError → String
  | unreadable path _ => s!"failed to read config file '" ++ path.text ++ "'"
  | unparsable path _ => s!"failed to parse config file '" ++ path.text ++ "'"
  | problem p => p.message

/-- Is it about what the file says? -/
def isSemantic : ConfigError → Bool
  | problem _ => true
  | _ => false

def cause? : ConfigError → Option String
  | unreadable _ cause => some cause
  | unparsable _ (.misfit cause _) => some cause
  | unparsable _ .malformed | problem _ => none

/-- The cause, if it lies in a file that says anything at all. -/
def detail? : ConfigError → Option String
  | unparsable _ (.misfit _ false) => none
  | e => e.cause?

def sources (e : ConfigError) : List String := e.cause?.toList

def chain (e : ConfigError) : String := ": ".intercalate (e.message :: e.sources)

end ConfigError

end Converge
