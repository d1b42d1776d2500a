/-!
# Pathnames

Pathnames are texts whose parts are separated by slashes.  Joining never simplifies: the text
given is the text shown.  Two pathnames name the same place as far as can be told from the text
alone when their components agree.
-/

namespace Converge

structure Pathname where
  text : String
deriving DecidableEq, Repr, Inhabited

namespace Pathname

/-- The pathname of no parts. -/
def empty : Pathname := ⟨""⟩

/-- A pathname that starts at the root. -/
def isAbsolute (p : Pathname) : Bool := p.text.toList.head? = some '/'

/-- Does the text end so that a part can follow at once? -/
def isOpen (p : Pathname) : Bool := p.text.isEmpty || p.text.toList.getLast? = some '/'

/-- `q` as seen from `p`: an absolute `q` stands by itself, any other follows a slash. -/
def join (p q : Pathname) : Pathname :=
  if q.isAbsolute then q
  else if p.isOpen then ⟨p.text ++ q.text⟩
  else ⟨p.text ++ "/" ++ q.text⟩

/-- The parts between slashes. -/
def parts (p : Pathname) : List (List Char) := p.text.toList.splitOn '/'

/-- A part that leads nowhere. -/
def isIdle (part : List Char) : Bool := part = [] || part = ['.']

/-- The parts that lead somewhere. -/
def steps (p : Pathname) : List String :=
  (p.parts.filter (!isIdle ·)).map String.ofList

/-- Does the text begin with the part `.`? -/
def startsHere (p : Pathname) : Bool :=
  p.parts.head? = some ['.']

/-- The steps, after a mark for a start at the root or for a leading `.`. -/
def components (p : Pathname) : List String :=
  (if p.isAbsolute then ["/"] else if p.startsHere then ["."] else []) ++ p.steps

/-- Drops slashes and idle parts at the end of a reversed text. -/
def dropIdle (fuel : Nat) (reversed : List Char) : List Char :=
  match fuel with
  | 0 => reversed
  | fuel + 1 =>
      match reversed with
      | [] => []
      | _ =>
          let part := reversed.takeWhile (· ≠ '/')
          if isIdle part then dropIdle fuel (reversed.drop (part.length + 1)) else reversed

/-- The pathname without its last component, unless it has none. -/
def parent? (p : Pathname) : Option Pathname :=
  let chars := p.text.toList
  let head := if p.isAbsolute || p.startsHere then 1 else 0
  let body := dropIdle chars.length (chars.drop head).reverse
  if body.isEmpty then if p.startsHere then some empty else none
  else
    let rest := body.drop ((body.takeWhile (· ≠ '/')).length + 1)
    some ⟨String.ofList (chars.take head ++ (dropIdle chars.length rest).reverse)⟩

@[simp] theorem join_absolute {p q : Pathname} (h : q.isAbsolute = true) : p.join q = q := by
  simp [join, h]

@[simp] theorem empty_join (q : Pathname) : empty.join q = q := by
  simp [join, isOpen, empty]

end Pathname

end Converge
