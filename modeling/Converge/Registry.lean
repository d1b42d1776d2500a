import Converge.Config
import Converge.Declaration
import Converge.Fault
import Converge.Machine

/-!
# The registry of units

The declared units under their names.  A configuration becomes a registry by putting the
registry prefix in front of repositories, by letting manifests inherit what they do not give,
and by resolving paths.
-/

namespace Converge

namespace Catalog

variable {α : Type}

/-- The value under one name, or all of them. -/
def select (c : Catalog α) : Option String → Except Fault (List (String × α))
  | none => .ok c.entries
  | some name =>
      match c.find? name with
      | some a => .ok [(name, a)]
      | none => .error (.unknownUnit name)

end Catalog

/-- The units under their names. -/
abbrev Registry : Type := Catalog Declaration

namespace Registry

/-- The registry on one line. -/
def record (r : Registry) : String :=
  Text.record "UnitRegistry" [("units", Text.bracketed (r.names.map Text.quoted))]

end Registry

/-- A registry prefix without the slashes at its end. -/
def trimSlashes (s : String) : String :=
  String.ofList (Text.dropTail (· = '/') s.toList)

namespace ImageSpec

/-- The reference under which the image is to be kept. -/
def reference (defaults : Defaults) (i : ImageSpec) : String :=
  match defaults.registry with
  | some registry => trimSlashes registry ++ "/" ++ i.repository ++ ":" ++ i.tag
  | none => i.repository ++ ":" ++ i.tag

/-- The checkout that the image is built from. -/
def checkout (c : Config) (i : ImageSpec) : Option Checkout :=
  i.source.map fun s => ⟨s.url, s.rev, c.resolve s.dir⟩

/-- The directory that the image is built in. -/
def buildContext (c : Config) (i : ImageSpec) : Pathname :=
  match i.checkout c with
  | some checkout => checkout.dir.join i.context
  | none => c.resolve i.context

def node (c : Config) (i : ImageSpec) : ImageNode where
  name := i.name
  image := ⟨i.reference c.defaults, i.buildContext c, i.dockerfile, i.buildArgs⟩
  source := i.checkout c

end ImageSpec

namespace UnitSpec

/-- The image that the unit declares under a name; of two the later one counts. -/
def image? (u : UnitSpec) (name : String) : Option ImageSpec :=
  u.images.reverse.find? (·.name = name)

/-- Does a manifest of the unit need an image of this name? -/
def needs (u : UnitSpec) (name : String) : Bool :=
  u.manifests.any (·.images.contains name)

/-- The nodes of images of these names, as far as they are declared. -/
def imageNodes (c : Config) (u : UnitSpec) (names : List String) : List ImageNode :=
  (names.filterMap u.image?).map (·.node c)

def manifestNode (c : Config) (u : UnitSpec) (m : ManifestSpec) : ManifestNode where
  name := m.name
  manifest :=
    ⟨c.resolve m.path, (m.kubeContext <|> c.defaults.kubeContext).getD "",
      m.space <|> c.defaults.space⟩
  images := u.imageNodes c m.images

def node (c : Config) (u : UnitSpec) : UnitNode where
  name := u.name
  images := u.imageNodes c ((u.images.map ImageSpec.name).filter (!u.needs ·))
  manifests := u.manifests.map (u.manifestNode c)

end UnitSpec

/-- The registry of the units that a configuration declares. -/
def Config.registry (c : Config) : Registry :=
  .ofList (c.units.map fun u => (u.name, .unit (u.node c)))

/-- How many units a configuration has run at once on this machine. -/
def Config.limit (c : Config) (m : Machine) : Nat := max ((c.options.limit).getD m.limit) 1

end Converge
