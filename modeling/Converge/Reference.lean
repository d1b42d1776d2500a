import Converge.Failure
import Converge.Text.Blank

/-!
# Image references

`[host[:port]/]component[/component ...][:tag][@digest]`, the names under which a registry keeps
images.  A text is cut at its first `@`, then at the first colon after the last slash; what is
left is the name.
-/

namespace Converge

/-- A reference cut into its parts. -/
structure Reference where
  name : List Char
  tag : Option (List Char)
  digest : Option (List Char)
deriving DecidableEq, Repr

namespace Reference

/-! ## Classes of characters -/

def isLower (c : Char) : Bool := 'a' ≤ c && c ≤ 'z'
def isUpper (c : Char) : Bool := 'A' ≤ c && c ≤ 'Z'
def isDigit (c : Char) : Bool := '0' ≤ c && c ≤ '9'
def isLetter (c : Char) : Bool := isLower c || isUpper c
def isAlphanumeric (c : Char) : Bool := isLetter c || isDigit c
def isHexadecimal (c : Char) : Bool :=
  isDigit c || ('a' ≤ c && c ≤ 'f') || ('A' ≤ c && c ≤ 'F')

/-- A character of the words that a component is made of. -/
def isWordChar (c : Char) : Bool := isLower c || isDigit c

/-- A character of a tag. -/
def isTagChar (c : Char) : Bool := isAlphanumeric c || c = '_' || c = '.' || c = '-'

/-! ## Parts of a name -/

/-- Where in a component a reader stands: before a word, inside one, or in what separates two
words, which is a point, one or two underscores, or hyphens. -/
inductive Spot where
  | start | word | point | underscore | underscores | hyphens
deriving DecidableEq, Repr

/-- Reads one more character of a component. -/
def Spot.next? : Spot → Char → Option Spot
  | s, c =>
      if isWordChar c then some .word
      else match s, c with
        | .word, '.' => some .point
        | .word, '_' => some .underscore
        | .word, '-' => some .hyphens
        | .underscore, '_' => some .underscores
        | .hyphens, '-' => some .hyphens
        | _, _ => none

/-- Words with separators between them. -/
def isComponent (cs : List Char) : Bool := cs.foldlM Spot.next? .start = some .word

/-- One label of a host: letters, digits and inner hyphens. -/
def isLabel (cs : List Char) : Bool :=
  cs.all (fun c => isAlphanumeric c || c = '-') && cs.head?.any isAlphanumeric &&
    cs.getLast?.any isAlphanumeric

/-- Labels with points between them. -/
def isHostName (cs : List Char) : Bool := (cs.splitOn '.').all isLabel

def isPort (cs : List Char) : Bool := !cs.isEmpty && cs.all isDigit

/-- A host, with a port after a colon or without one. -/
def isHost (cs : List Char) : Bool :=
  match cs.splitOn ':' with
  | [host] => isHostName host
  | [host, port] => isHostName host && isPort port
  | _ => false

/-- Components with slashes between them, after a host or without one. -/
def isName (cs : List Char) : Bool :=
  match cs.splitOn '/' with
  | [] => false
  | [only] => isComponent only
  | first :: rest => (isComponent first || isHost first) && rest.all isComponent

/-- One to 128 characters, of which the first is neither a point nor a hyphen. -/
def isTag (cs : List Char) : Bool :=
  cs.all isTagChar && cs.head?.any (fun c => c ≠ '.' && c ≠ '-') && cs.length ≤ 128

/-- A word of the name of an algorithm. -/
def isAlgorithmWord (cs : List Char) : Bool :=
  cs.all isAlphanumeric && cs.head?.any isLetter

/-- Words with one separator between each two. -/
def isAlgorithm (cs : List Char) : Bool :=
  (cs.splitOnP fun c => c = '-' || c = '_' || c = '+' || c = '.').all isAlgorithmWord

/-- An algorithm, a colon and at least 32 hexadecimal digits. -/
def isDigest (cs : List Char) : Bool :=
  match cs.splitOn ':' with
  | [algorithm, hex] => isAlgorithm algorithm && hex.all isHexadecimal && 32 ≤ hex.length
  | _ => false

/-! ## Reading and writing -/

/-- Cuts a list at the first character equal to `c`, which belongs to neither part. -/
def cutAt (c : Char) : List Char → List Char × Option (List Char)
  | [] => ([], none)
  | d :: rest =>
      if d = c then ([], some rest)
      else
        let (before, after) := cutAt c rest
        (d :: before, after)

/-- Cuts a name from its tag: at the first colon that no slash follows. -/
def cutTag : List Char → List Char × Option (List Char)
  | [] => ([], none)
  | c :: rest =>
      if c = ':' && !rest.contains '/' then ([], some rest)
      else
        let (before, after) := cutTag rest
        (c :: before, after)

/-- The parts of a text, whether they are well-formed or not. -/
def cut (cs : List Char) : Reference :=
  let (head, digest) := cutAt '@' cs
  let (name, tag) := cutTag head
  ⟨name, tag, digest⟩

/-- The parts, put together. -/
def render (r : Reference) : List Char :=
  r.name ++ (r.tag.elim [] (':' :: ·)) ++ (r.digest.elim [] ('@' :: ·))

/-- Are all parts of the reference well-formed? -/
def isWellFormed (r : Reference) : Bool :=
  isName r.name && r.tag.all isTag && r.digest.all isDigest

/-- The well-formed parts of a text. -/
def read? (cs : List Char) : Option Reference :=
  let r := cut cs
  if r.isWellFormed then some r else none

/-! ## Checking -/

/-- The longest name that a registry keeps. -/
def maxNameLength : Nat := 255

/-- What can be wrong with a reference to be pushed to. -/
inductive Problem where
  | empty
  | blank
  | malformed
  | unversioned
  | longName
deriving DecidableEq, Repr

def Problem.message (text : String) : Problem → String
  | empty => "image reference is empty"
  | blank => s!"image reference '{text}' contains whitespace"
  | malformed => s!"image reference '{text}' is malformed"
  | unversioned => s!"image reference '{text}' has no tag or digest"
  | longName =>
      s!"image reference '{text}' has a name longer than {maxNameLength} characters"

/-- The first thing that is wrong with a text as a reference to be pushed to. -/
def problem? (text : String) : Option Problem :=
  let cs := text.toList
  if cs.isEmpty then some .empty
  else if cs.any Text.isBlank then some .blank
  else match read? cs with
    | none => some .malformed
    | some r =>
        if r.tag.isNone && r.digest.isNone then some .unversioned
        else if maxNameLength < r.name.length then some .longName
        else none

/-- Checks a text as a reference to be pushed to. -/
def check (text : String) : Except Failure Unit :=
  match problem? text with
  | none => .ok ()
  | some p => .error (.of (p.message text))

end Reference

end Converge
