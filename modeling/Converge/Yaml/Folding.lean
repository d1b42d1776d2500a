import Converge.Yaml.Position

/-!
# Folded lines

What stands between two words of a scalar that runs over several lines.  Blanks inside a line
are kept; a single line break becomes a space; of several the first is dropped.
-/

namespace Converge.Yaml

/-- Blanks and line breaks after a word, the last one first. -/
inductive Gap where
  | none
  | blanks (reversed : List Char)
  /-- Line breaks, the first one apart; it is missing if it has been escaped. -/
  | breaks (first : Option Char) (reversed : List Char)
deriving DecidableEq, Repr

namespace Gap

def addBlank : Gap → Char → Gap
  | none, c => blanks [c]
  | blanks r, c => blanks (c :: r)
  | breaks first r, _ => breaks first r

def addBreak : Gap → Char → Gap
  | breaks first r, c => breaks first (c :: r)
  | _, c => breaks (some c) []

/-- Has the line ended in it? -/
def isBroken : Gap → Bool
  | breaks _ _ => true
  | _ => false

/-- What is left of it when the lines are folded. -/
def text : Gap → List Char
  | none => []
  | blanks r => r.reverse
  | breaks (some '\n') [] => [' ']
  | breaks (some '\n') r => r.reverse
  | breaks first r => first.toList ++ r.reverse

/-- Puts what is left of the gap after a text whose last character comes first. -/
def flush (g : Gap) (reversed : List Char) : List Char := g.text.reverse ++ reversed

@[simp] theorem flush_none (r : List Char) : flush none r = r := rfl

end Gap

end Converge.Yaml
