import Converge.Yaml.Tag

/-!
# Directives

Lines before a document that say by which version of the rules it is written and what the
handles of its tags stand for.
-/

namespace Converge.Yaml

inductive Directive where
  | version (major minor : Nat)
  | handle (handle expansion : String)
deriving DecidableEq, Repr

/-- The longest number of a version, in digits. -/
def maxVersionDigits : Nat := 9

/-- A number of a version. -/
def versionNumber? (c : Cursor) : Option (Nat × Cursor) :=
  let digits := c.word Char.isDigit
  if digits.isEmpty || maxVersionDigits < digits.length then none
  else some (Nat.ofDigitChars 10 digits 0, c.pass Char.isDigit)

def version? (c : Cursor) : Option (Directive × Cursor) := do
  let (major, c) ← versionNumber? (c.pass isSpacing)
  if c.sees '.' then
    let (minor, c) ← versionNumber? c.next
    return (.version major minor, c)
  else none

def handleDirective? (c : Cursor) : Option (Directive × Cursor) := do
  let c := c.pass isSpacing
  if !c.sees '!' then none
  else
    let (h, c) := handle c
    if h ≠ ['!'] && !isNamedHandle h then none
    else if !c.rest.head?.any isSpacing then none
    else
      let (expansion, c) ← tagChars? true (c.pass isSpacing)
      if expansion.isEmpty || !isGap c.rest then none
      else return (.handle (String.ofList h) (String.ofList expansion), c)

/-- A directive, with the whole of its line. -/
def directive? (c : Cursor) : Option (Directive × Cursor) := do
  let name := String.ofList (c.next.word isNameChar)
  let c := c.next.pass isNameChar
  if !isGap c.rest then none
  else
    let (d, c) ← if name = "YAML" then version? c
      else if name = "TAG" then handleDirective? c else none
    return (d, ← c.endLine?)

end Converge.Yaml
