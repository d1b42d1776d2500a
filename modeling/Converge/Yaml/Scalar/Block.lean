import Converge.Yaml.Folding

/-!
# Block scalars

Text that consists of all following lines that are indented enough.  Its lines are kept as they
are or folded; the line breaks at its end are clipped to one, dropped or kept.
-/

namespace Converge.Yaml

/-- What becomes of the line breaks at the end. -/
inductive Chomping where
  | clip
  | strip
  | keep
deriving DecidableEq, Repr

/-- How a block scalar is to be read. -/
structure BlockHeader where
  isLiteral : Bool
  chomping : Chomping
  /-- How much further than its surroundings the text is indented, if that is given. -/
  increment : Option Nat
deriving DecidableEq, Repr

/-- An indication of chomping. -/
def chomping? : Option Char → Option Chomping
  | some '+' => some .keep
  | some '-' => some .strip
  | _ => none

/-- An indication of indentation, which must not be zero; `some none` if there is none. -/
def increment? : Option Char → Option (Option Nat)
  | some c => if c.isDigit then if c = '0' then none else some (some (c.toNat - 48)) else some none
  | none => some none

/-- Reads the indications after the indicator, and the rest of the line. -/
def blockHeader? (isLiteral : Bool) (c : Cursor) : Option (BlockHeader × Cursor) := do
  match chomping? c.head? with
  | some chomping =>
      let c := c.next
      let increment ← increment? c.head?
      let c := if increment.isSome then c.next else c
      return (⟨isLiteral, chomping, increment⟩, ← c.endLine?)
  | none =>
      let increment ← increment? c.head?
      let c := if increment.isSome then c.next else c
      match increment.isSome, chomping? c.head? with
      | true, some chomping => return (⟨isLiteral, chomping, increment⟩, ← c.next.endLine?)
      | _, _ => return (⟨isLiteral, .clip, increment⟩, ← c.endLine?)

/-- What has been read of a block scalar. -/
structure BlockText where
  /-- The text, its last character first, without the line breaks at its end. -/
  reversed : List Char
  /-- The line break after the last line of text. -/
  lineBreak : Option Char
  /-- The line breaks of the empty lines after it, the last one first. -/
  emptyLines : List Char
  /-- Did the last line of text begin with a blank? -/
  isIndented : Bool
deriving DecidableEq, Repr

namespace BlockText

def empty : BlockText := ⟨[], none, [], false⟩

/-- The text with the line breaks before a line that begins with `c`. -/
def join (t : BlockText) (h : BlockHeader) (c : Char) : List Char :=
  let isFolded :=
    !h.isLiteral && t.lineBreak = some '\n' && !t.isIndented && !isSpacing c
  let joint : List Char :=
    if isFolded then if t.emptyLines.isEmpty then [' '] else [] else t.lineBreak.toList
  t.emptyLines ++ joint ++ t.reversed

/-- The text as a whole. -/
def finish (t : BlockText) (h : BlockHeader) : String :=
  let ending := match h.chomping with
    | .strip => []
    | .clip => t.lineBreak.toList
    | .keep => t.emptyLines ++ t.lineBreak.toList
  String.ofList (ending ++ t.reversed).reverse

end BlockText

/-- Which part of a line is being read. -/
inductive BlockState where
  /-- The indentation, which is still to be found out; the widest one so far is given. -/
  | searching (widest : Nat)
  /-- The indentation, which is known. -/
  | margin (indent : Nat)
  /-- The text after it. -/
  | line (indent : Nat)
deriving DecidableEq, Repr

/-- The indentation of the text if the widest of its first lines is indented by `widest`. -/
def foundIndent (outer : Int) (widest : Nat) : Nat := max widest (max (outer + 1) 1).toNat

/-- Reads on up to a line that is not indented enough; `outer` is the indentation around. -/
def readBlock (h : BlockHeader) (outer : Int) (state : BlockState) (pos : Position)
    (t : BlockText) : List Char → Option (String × Cursor)
  | [] => some (t.finish h, ⟨[], pos⟩)
  | c :: rest =>
      /- The first character after the margin: it begins a line of text, or ends the scalar. -/
      let begin (indent : Nat) : Option (String × Cursor) :=
        if pos.column = indent then
          readBlock h outer (.line indent) (pos.after c)
            ⟨c :: t.join h c, none, [], isSpacing c⟩ rest
        else some (t.finish h, ⟨c :: rest, pos⟩)
      match state with
      | .line indent =>
          if isBreak c then
            readBlock h outer (.margin indent) (pos.after c) { t with lineBreak := some c } rest
          else
            readBlock h outer (.line indent) (pos.after c) { t with reversed := c :: t.reversed }
              rest
      | .searching widest =>
          if c = ' ' then readBlock h outer (.searching widest) (pos.after c) t rest
          else if c = '\t' then none
          else
            let widest := max widest pos.column
            if isBreak c then
              readBlock h outer (.searching widest) (pos.after c)
                { t with emptyLines := c :: t.emptyLines } rest
            else begin (foundIndent outer widest)
      | .margin indent =>
          if c = ' ' && pos.column < indent then
            readBlock h outer (.margin indent) (pos.after c) t rest
          else if c = '\t' && pos.column < indent then none
          else if isBreak c then
            readBlock h outer (.margin indent) (pos.after c)
              { t with emptyLines := c :: t.emptyLines } rest
          else begin indent

/-- The block scalar after its indicator. -/
def blockScalar? (isLiteral : Bool) (outer : Int) (c : Cursor) : Option (String × Cursor) := do
  let (h, c) ← blockHeader? isLiteral c
  let state := match h.increment with
    | some n => .margin ((max outer 0).toNat + n)
    | none => .searching 0
  readBlock h outer state c.pos .empty c.rest

end Converge.Yaml
