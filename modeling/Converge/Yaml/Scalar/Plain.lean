import Converge.Yaml.Folding

/-!
# Plain scalars

Text without quotes.  It goes on until something ends it: a colon before a blank, a comment
after one, a line that is not indented enough, a separator of documents or, inside brackets,
an indicator.
-/

namespace Converge.Yaml

/-- Where a plain scalar stands. -/
structure PlainContext where
  /-- Is it inside brackets? -/
  inFlow : Bool
  /-- The least column of a line that belongs to it. -/
  indent : Int

/-- A scalar that has been read. -/
structure PlainScalar where
  text : String
  after : Cursor
  /-- Has a line ended since its last character? -/
  isBroken : Bool

/-- The indicators that brackets give a meaning to. -/
def isFlowIndicator (c : Char) : Bool :=
  c == ',' || c == '[' || c == ']' || c == '{' || c == '}'

namespace PlainContext

/-- Does the scalar end before the character `c`, which `rest` follows and `gap` precedes? -/
def stops (k : PlainContext) (pos : Position) (gap : Gap) (c : Char) (rest : List Char) : Bool :=
  (gap ≠ .none && !k.inFlow && (pos.column : Int) < k.indent) ||
    isSeparator pos.column (c :: rest) ||
    (gap ≠ .none && c == '#') ||
    (c == ':' && isGap rest) ||
    (k.inFlow && isFlowIndicator c)

/-- Is the character a colon that nothing explains? -/
def isStrayColon (k : PlainContext) (c : Char) (rest : List Char) : Bool :=
  k.inFlow && c == ':' &&
    match rest with
    | d :: _ => isFlowIndicator d || d == '?'
    | [] => false

/-- Reads on from a position; the text so far has its last character first. -/
def read (k : PlainContext) (pos : Position) (gap : Gap) (reversed : List Char) :
    List Char → Option PlainScalar
  | [] => some ⟨String.ofList reversed.reverse, ⟨[], pos⟩, gap.isBroken⟩
  | c :: rest =>
      if isBreak c then k.read (pos.after c) (gap.addBreak c) reversed rest
      else if isSpacing c then
        if gap.isBroken && (pos.column : Int) < k.indent && c == '\t' then none
        else k.read (pos.after c) (gap.addBlank c) reversed rest
      else if k.stops pos gap c rest then
        some ⟨String.ofList reversed.reverse, ⟨c :: rest, pos⟩, gap.isBroken⟩
      else if k.isStrayColon c rest then none
      else k.read (pos.after c) .none (c :: gap.flush reversed) rest

end PlainContext

end Converge.Yaml
