import Converge.Pathname

/-!
# Files

A working directory with what is in it, and how a path leads from there to a file or a
directory.  Nothing is known of what lies outside but that it is there.
-/

namespace Converge

/-- A node of the file system: a directory, or a file with its bytes. -/
inductive FileNode where
  | directory
  | file (bytes : List Nat)
deriving DecidableEq, Repr

/-- Everything in the working directory, each under the names that lead to it. -/
structure Files where
  nodes : List (List String × FileNode)
deriving Repr

/-- Where a path leads. -/
inductive Found where
  /-- Somewhere in the working directory. -/
  | inside (place : List String) (node : FileNode)
  /-- To a directory outside. -/
  | outside
  | missing
  /-- Through something that is no directory. -/
  | blocked
  /-- Nowhere, as the text is no path. -/
  | noPath
  /-- A name in it is too long. -/
  | tooLong
deriving DecidableEq, Repr

namespace Files

def empty : Files := ⟨[]⟩

/-- What is at a place in the working directory. -/
def at? (fs : Files) (place : List String) : Option FileNode :=
  if place.isEmpty then some .directory else fs.nodes.lookup place

/-- The longest name of a file, in bytes. -/
def maxNameBytes : Nat := 255

/-- Goes on from where a path has led so far by one more of its parts. -/
def step (fs : Files) (reached : Found) (part : List Char) : Found :=
  match reached with
  | .inside place .directory =>
      if Pathname.isIdle part then reached
      else if part = ['.', '.'] then
        if place.isEmpty then .outside else .inside place.dropLast .directory
      else
        let name := String.ofList part
        if maxNameBytes < name.utf8ByteSize then .tooLong
        else match fs.at? (place ++ [name]) with
          | some node => .inside (place ++ [name]) node
          | none => .missing
  | .inside _ (.file _) => .blocked
  | .outside => if Pathname.isIdle part || part = ['.', '.'] then .outside else .missing
  | stopped => stopped

/-- Where a path leads. -/
def find (fs : Files) (p : Pathname) : Found :=
  if p.text.isEmpty then .missing
  else if p.text.toList.contains '\x00' then .noPath
  else p.parts.foldl fs.step (if p.isAbsolute then .outside else .inside [] .directory)

def pathExists (fs : Files) (p : Pathname) : Bool :=
  match fs.find p with
  | .inside _ _ | .outside => true
  | _ => false

/-- The bytes of the file that a path leads to, or why there are none. -/
def read (fs : Files) (p : Pathname) : Except String (List Nat) :=
  match fs.find p with
  | .inside _ (.file bytes) => .ok bytes
  | .inside _ .directory | .outside => .error "Is a directory (os error 21)"
  | .missing => .error "No such file or directory (os error 2)"
  | .blocked => .error "Not a directory (os error 20)"
  | .noPath => .error "file name contained an unexpected NUL byte"
  | .tooLong => .error "File name too long (os error 36)"

/-- The places that a path passes on its way down, idle parts and steps upwards carried out. -/
def placeOf (p : Pathname) : List String :=
  p.steps.foldl (fun place name => if name = ".." then place.dropLast else place ++ [name]) []

/-- Puts a node at a place where nothing is yet. -/
def add (fs : Files) (place : List String) (node : FileNode) : Files :=
  if (fs.at? place).isSome then fs else ⟨fs.nodes ++ [(place, node)]⟩

/-- Makes a directory and those above it, unless they are there. -/
def makeDirectory (fs : Files) (p : Pathname) : Files :=
  if p.isAbsolute then fs
  else
    let place := placeOf p
    (List.range place.length).foldl (fun fs n => fs.add (place.take (n + 1)) .directory) fs

/-- Removes a directory and everything below it. -/
def removeDirectory (fs : Files) (p : Pathname) : Files :=
  match fs.find p with
  | .inside place .directory => ⟨fs.nodes.filter fun (q, _) => !place.isPrefixOf q⟩
  | _ => fs

/-- Writes a file, after making the directories above it. -/
def write (fs : Files) (p : Pathname) (bytes : List Nat) : Files :=
  let place := placeOf p
  let above := (List.range (place.length - 1)).foldl
    (fun fs n => fs.add (place.take (n + 1)) .directory) fs
  ⟨above.nodes.filter (·.1 ≠ place) ++ [(place, .file bytes)]⟩

end Files

end Converge
