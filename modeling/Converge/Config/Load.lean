import Converge.Config.Document
import Converge.Files
import Converge.Journal
import Converge.Text.Encoding

/-!
# Loading configurations

A configuration file is read, and its relative paths start at its own directory.  Before it is
used its problems are written into the journal; with any of them it cannot be used.
-/

namespace Converge.Config

/-- A way to get at the configuration of a file, from what reading its bytes came to. -/
abbrev Loader : Type := Pathname → Except String (List Nat) → Except ConfigError Config

/-- The configuration of a file that is written in YAML. -/
def ofBytes : Loader := fun path bytes => do
  let bytes ← bytes.mapError (.unreadable path)
  match Text.ofBytes? bytes with
  | none => .error (.unreadable path "stream did not contain valid UTF-8")
  | some text =>
      let c ← (ofText text).mapError (.unparsable path)
      return { c with baseDir := (path.parent?).getD .empty }

/-- The configuration, if it has no problems, and what is written into the journal about it. -/
def review (path : Pathname) (c : Config) : Except ConfigError Config × List Event :=
  match c.problems with
  | [] => (.ok c, [.configLoaded path.text c.units.length])
  | p :: rest => (.error (.problem p), (p :: rest).map fun p => .configRejected p.message)

/-- The configuration that was loaded from a file, if it has no problems, and what is written into
the journal about it. -/
def reviewed (path : Pathname) (loaded : Except ConfigError Config) :
    Except ConfigError Config × List Event :=
  match loaded with
  | .error e => (.error e, [])
  | .ok c => review path c

/-- The configuration of a file in the working directory. -/
def load (fs : Files) (path : Pathname) : Except ConfigError Config :=
  ofBytes path (fs.read path)

/-- The configuration of a file in the working directory that has no problems. -/
def loadReviewed (fs : Files) (path : Pathname) : Except ConfigError Config × List Event :=
  reviewed path (load fs path)

end Converge.Config
