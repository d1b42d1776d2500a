import Converge.Program
import Converge.Shell.System

/-!
# The command line program

Reads the configuration file, runs the program on it, and writes down what it comes to.  Commands
are run on a system that has the shell and its tools and nothing else, in an empty directory.
-/

namespace Converge

/-- What the system says of a file that could not be read. -/
def systemText : IO.Error → String
  | .noFileOrDirectory _ _ _ => System.notFound
  | .permissionDenied _ _ _ => "Permission denied (os error 13)"
  | .inappropriateType _ _ _ => "Is a directory (os error 21)"
  | e => toString e

/-- Reads the bytes of a file. -/
def readBytes (path : Pathname) : IO (Except String (List Nat)) := do
  try
    let bytes ← IO.FS.readBinFile path.text
    return .ok (bytes.toList.map UInt8.toNat)
  catch e => return .error (systemText e)

/-- The conclusion of a command line, and how long it took to come to it. -/
def conclude (surrounding : Option String) (args : List String) :
    IO (Conclusion × Duration) := do
  let start ← IO.monoNanosNow
  let conclusion ← match Invocation.ofArgs surrounding args with
    | .error a => pure (Conclusion.aside a)
    | .ok i =>
        let bytes ← readBytes i.file
        pure (i.run .silent (.ofSystem Shell.system) bytes ⟨Files.empty, .one, 0, 0, none⟩).result
  return (conclusion, ⟨(← IO.monoNanosNow) - start⟩)

end Converge

def main (args : List String) : IO UInt32 := do
  let (conclusion, took) ← Converge.conclude (← IO.getEnv "RIGGING_CONFIG") args
  IO.print (conclusion.stdout (some took))
  IO.eprint conclusion.stderr
  return conclusion.code.toUInt32
