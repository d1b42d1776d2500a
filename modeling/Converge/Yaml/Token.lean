import Converge.Yaml.Directive
import Converge.Yaml.Scalar.Block
import Converge.Yaml.Scalar.Plain
import Converge.Yaml.Scalar.Quoted

/-!
# Tokens

A document as a list of tokens.  What the layout of the lines says becomes tokens of its own: a
collection opens where the indentation grows and closes where it shrinks, and a key is marked
as one once the colon after it has been seen.
-/

namespace Converge.Yaml

/-- How a scalar is written. -/
inductive Style where
  | plain
  | quoted
  | literal
  | folded
deriving DecidableEq, Repr

inductive Token where
  | directive (d : Directive)
  | documentStart
  | documentEnd
  | streamEnd
  /-- A collection opens whose extent the indentation shows. -/
  | openSequence
  | openMapping
  | close
  /-- A collection opens that ends at a bracket. -/
  | openList
  | closeList
  | openMap
  | closeMap
  | entry
  | comma
  | key
  | value
  | reference (name : String)
  | anchor (name : String)
  | tag (t : TagText)
  | scalar (style : Style) (text : String)
deriving DecidableEq, Repr

/-- A place where a key may have begun. -/
structure KeyMark where
  pos : Position
  /-- How many tokens precede it. -/
  count : Nat
  /-- Nothing else can stand there. -/
  isRequired : Bool
deriving DecidableEq, Repr

/-- A text of which some tokens have been read. -/
structure Layout where
  cursor : Cursor
  tokens : Array Token
  /-- The column of the innermost collection; less than all columns if there is none. -/
  indent : Int
  /-- The columns of the collections around it. -/
  outer : List Int
  /-- Where a key may have begun, inside the innermost brackets. -/
  mark : Option KeyMark
  /-- The same for the brackets around, and outside of all. -/
  marks : List (Option KeyMark)
  /-- May a key begin here? -/
  keyAllowed : Bool

namespace Layout

def start (text : List Char) : Layout where
  cursor := ⟨text, .start⟩
  tokens := #[]
  indent := -1
  outer := []
  mark := none
  marks := []
  keyAllowed := true

def inFlow (l : Layout) : Bool := !l.marks.isEmpty

def column (l : Layout) : Int := l.cursor.pos.column

def push (l : Layout) (t : Token) : Layout := { l with tokens := l.tokens.push t }

/-- Moves on, past a token. -/
def moved (l : Layout) (c : Cursor) (t : Token) : Layout := { l.push t with cursor := c }

/-- The longest key, in characters. -/
def maxKeyLength : Nat := 1024

/-- A key ends on the line on which it begins, and is not too long. -/
def isStale (l : Layout) (m : KeyMark) : Bool :=
  m.pos.line < l.cursor.pos.line || m.pos.index + maxKeyLength < l.cursor.pos.index

/-- Forgets a mark that no key can belong to any more. -/
def refresh? (l : Layout) : Option KeyMark → Option (Option KeyMark)
  | none => some none
  | some m =>
      if l.isStale m then if m.isRequired then none else some none else some (some m)

/-- Forgets the marks that no key can belong to any more. -/
def refreshed? (l : Layout) : Option Layout := do
  return { l with mark := ← l.refresh? l.mark, marks := ← l.marks.mapM l.refresh? }

/-- Forgets the innermost mark, which must not have been required. -/
def unmarked? (l : Layout) : Option Layout :=
  match l.mark with
  | some m => if m.isRequired then none else some { l with mark := none }
  | none => some l

/-- Marks the position as one at which a key may begin. -/
def marked? (l : Layout) : Option Layout :=
  if l.keyAllowed then do
    let isRequired := !l.inFlow && l.indent = l.column
    let l ← l.unmarked?
    return { l with mark := some ⟨l.cursor.pos, l.tokens.size, isRequired⟩ }
  else some l

/-- Closes the collections that begin further right than `column`. -/
def closeTo (column : Int) (tokens : Array Token) (indent : Int) :
    List Int → Array Token × Int × List Int
  | [] => (tokens, indent, [])
  | i :: outer =>
      if column < indent then closeTo column (tokens.push .close) i outer
      else (tokens, indent, i :: outer)

/-- Closes the collections that begin further right than `column`, unless inside brackets. -/
def unindented (l : Layout) (column : Int) : Layout :=
  if l.inFlow then l
  else
    let (tokens, indent, outer) := closeTo column l.tokens l.indent l.outer
    { l with tokens, indent, outer }

/-- Opens a collection at `column`, before the token numbered `count`, if it begins further
right than the one around it. -/
def indented (l : Layout) (column : Int) (count : Nat) (t : Token) : Layout :=
  if !l.inFlow && l.indent < column then
    { l with
      tokens := l.tokens.insertIdxIfInBounds count t
      indent := column
      outer := l.indent :: l.outer }
  else l

/-- A mark that may stand at the start of a line and has no meaning. -/
def byteOrderMark : Char := Char.ofNat 0xFEFF

/-- Passes over blanks, comments and empty lines.  Tabs count as blanks where they cannot be
taken for indentation; a new line may begin with a key, unless it is inside brackets. -/
def advance (inFlow keyAllowed inComment : Bool) (pos : Position) : List Char → Bool × Cursor
  | [] => (keyAllowed, ⟨[], pos⟩)
  | c :: rest =>
      if isBreak c then advance inFlow (keyAllowed || !inFlow) false (pos.after c) rest
      else if inComment then advance inFlow keyAllowed true (pos.after c) rest
      else if c = '#' then advance inFlow keyAllowed true (pos.after c) rest
      else if c = ' ' || (c = '\t' && (inFlow || !keyAllowed)) ||
          (c = byteOrderMark && pos.column = 0) then
        advance inFlow keyAllowed false (pos.after c) rest
      else (keyAllowed, ⟨c :: rest, pos⟩)

/-- Moves on to the next token. -/
def atToken (l : Layout) : Layout :=
  let (keyAllowed, cursor) := advance l.inFlow l.keyAllowed false l.cursor.pos l.cursor.rest
  { l with keyAllowed, cursor }

/-- Leaves all collections. -/
def toMargin? (l : Layout) : Option Layout := do
  let l ← (l.unindented (-1)).unmarked?
  return { l with keyAllowed := false }

/-- The end of the text. -/
def finish? (l : Layout) : Option (Array Token) := do
  return (← l.toMargin?).push .streamEnd |>.tokens

/-- A bracket that opens a collection. -/
def opened? (l : Layout) (t : Token) : Option Layout := do
  let l ← l.marked?
  let l := l.moved l.cursor.next t
  return { l with mark := none, marks := l.mark :: l.marks, keyAllowed := true }

/-- A bracket that closes a collection. -/
def closed? (l : Layout) (t : Token) : Option Layout := do
  let l ← l.unmarked?
  let l := { l.moved l.cursor.next t with keyAllowed := false }
  match l.marks with
  | [] => return l
  | m :: marks => return { l with mark := m, marks }

/-- A comma. -/
def comma? (l : Layout) : Option Layout := do
  let l ← l.unmarked?
  return { l.moved l.cursor.next .comma with keyAllowed := true }

/-- A dash before an entry of a sequence. -/
def entry? (l : Layout) : Option Layout := do
  if !l.inFlow && !l.keyAllowed then none
  else
    let l ← (l.indented l.column l.tokens.size .openSequence).unmarked?
    return { l.moved l.cursor.next .entry with keyAllowed := true }

/-- A question mark before a key. -/
def key? (l : Layout) : Option Layout := do
  if !l.inFlow && !l.keyAllowed then none
  else
    let l ← (l.indented l.column l.tokens.size .openMapping).unmarked?
    return { l.moved l.cursor.next .key with keyAllowed := !l.inFlow }

/-- A colon before a value; what has been marked before it is a key now. -/
def value? (l : Layout) : Option Layout :=
  match l.mark with
  | some m =>
      let l := { l with tokens := l.tokens.insertIdxIfInBounds m.count .key, mark := none }
      let l := l.indented m.pos.column m.count .openMapping
      some { l.moved l.cursor.next .value with keyAllowed := false }
  | none =>
      if !l.inFlow && !l.keyAllowed then none
      else
        let l := l.indented l.column l.tokens.size .openMapping
        some { l.moved l.cursor.next .value with keyAllowed := !l.inFlow }

/-- May the name of an anchor or an alias end here? -/
def endsName (c : Cursor) : Bool :=
  isGap c.rest || c.rest.head?.any ("?:,]\x7d%@`".toList.contains ·)

/-- An anchor or an alias, after its indicator. -/
def named? (l : Layout) (t : String → Token) : Option Layout := do
  let l ← l.marked?
  let name := l.cursor.next.word isNameChar
  let c := l.cursor.next.pass isNameChar
  if name.isEmpty || !endsName c then none
  else return { l.moved c (t (String.ofList name)) with keyAllowed := false }

def tagged? (l : Layout) : Option Layout := do
  let l ← l.marked?
  let (t, c) ← tag? l.inFlow l.cursor
  return { l.moved c (.tag t) with keyAllowed := false }

def block? (l : Layout) (isLiteral : Bool) : Option Layout := do
  let l ← l.unmarked?
  let (text, c) ← blockScalar? isLiteral l.indent l.cursor.next
  return { l.moved c (.scalar (if isLiteral then .literal else .folded) text) with
    keyAllowed := true }

def quoted? (l : Layout) (quote : Quote) : Option Layout := do
  let l ← l.marked?
  let c := l.cursor.next
  let (text, c) ← readQuoted quote .text c.pos .none [] c.rest
  return { l.moved c (.scalar .quoted text) with keyAllowed := false }

def plain? (l : Layout) : Option Layout := do
  let l ← l.marked?
  let s ← PlainContext.read ⟨l.inFlow, l.indent + 1⟩ l.cursor.pos .none [] l.cursor.rest
  return { l.moved s.after (.scalar .plain s.text) with keyAllowed := s.isBroken }

/-- Dashes or points between documents. -/
def separated? (l : Layout) (t : Token) : Option Layout := do
  let l ← l.toMargin?
  return l.moved (l.cursor.skip 3) t

def directed? (l : Layout) : Option Layout := do
  let l ← l.toMargin?
  let (d, c) ← directive? l.cursor
  return l.moved c (.directive d)

/-- May a plain scalar begin with these characters? -/
def startsPlain (inFlow : Bool) : List Char → Bool
  | '-' :: rest => !rest.head?.any isSpacing
  | c :: rest =>
      if c == '?' || c == ':' then !inFlow && !isGap rest
      else !isGap (c :: rest) && !",[]\x7b\x7d#&*!|>'\"%@`".toList.contains c
  | [] => false

/-- Reads the token that begins with `c`. -/
def step? (l : Layout) (c : Char) (rest : List Char) : Option Layout :=
  if l.cursor.pos.column = 0 && c = '%' then l.directed?
  else if isSeparator l.cursor.pos.column (c :: rest) then
    l.separated? (if c = '-' then .documentStart else .documentEnd)
  else
    match c with
    | '[' => l.opened? .openList
    | '{' => l.opened? .openMap
    | ']' => l.closed? .closeList
    | '}' => l.closed? .closeMap
    | ',' => l.comma?
    | '*' => l.named? .reference
    | '&' => l.named? .anchor
    | '!' => l.tagged?
    | '\'' => l.quoted? .single
    | '"' => l.quoted? .double
    | _ =>
        if c = '-' && isGap rest then l.entry?
        else if c = '?' && (l.inFlow || isGap rest) then l.key?
        else if c = ':' && (l.inFlow || isGap rest) then l.value?
        else if c = '|' && !l.inFlow then l.block? true
        else if c = '>' && !l.inFlow then l.block? false
        else if startsPlain l.inFlow (c :: rest) then l.plain?
        else none

/-- Reads the tokens up to the end, if there are no more of them than `fuel`. -/
def run? : Nat → Layout → Option (Array Token)
  | 0, _ => none
  | fuel + 1, l => do
      let l ← l.atToken.refreshed?
      match l.cursor.rest with
      | [] => l.finish?
      | c :: rest => run? fuel (← (l.unindented l.column).step? c rest)

end Layout

/-- The tokens of a text; there are none if a character or its place is not allowed. -/
def Token.ofText? (s : String) : Option (List Token) :=
  let text := s.toList
  if text.all isAllowed then
    /- Every token takes up at least one character. -/
    ((Layout.start (unifyBreaks text)).run? (text.length + 1)).map Array.toList
  else none

end Converge.Yaml
