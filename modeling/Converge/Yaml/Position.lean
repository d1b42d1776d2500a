/-!
# Characters and positions

The characters a document may hold, the classes its layout turns on, and a place in the text
with the line and the column it is at.
-/

namespace Converge.Yaml

/-- May the character stand in a document? -/
def isAllowed (c : Char) : Bool :=
  let n := c.toNat
  n == 9 || n == 0xA || n == 0xD || (0x20 ≤ n && n ≤ 0x7E) || n == 0x85 ||
    (0xA0 ≤ n && n ≤ 0xFFFD) || 0x10000 ≤ n

/-- The line breaks that stand for themselves. -/
def isBreak (c : Char) : Bool := c == '\n' || c.toNat == 0x2028 || c.toNat == 0x2029

/-- A space or a tab. -/
def isSpacing (c : Char) : Bool := c == ' ' || c == '\t'

/-- Characters of names: of anchors, handles and directives. -/
def isNameChar (c : Char) : Bool := c.isAlphanum || c == '_' || c == '-'

/-- The value of a hexadecimal digit. -/
def hexValue? (c : Char) : Option Nat :=
  if c.isDigit then some (c.toNat - 48)
  else if 'a' ≤ c && c ≤ 'f' then some (c.toNat - 87)
  else if 'A' ≤ c && c ≤ 'F' then some (c.toNat - 55)
  else none

/-- The text with one kind of line break in place of those that only differ by system. -/
def unifyBreaks : List Char → List Char
  | [] => []
  | '\r' :: '\n' :: rest => '\n' :: unifyBreaks rest
  | '\r' :: rest => '\n' :: unifyBreaks rest
  | c :: rest => (if c.toNat = 0x85 then '\n' else c) :: unifyBreaks rest

/-- Is nothing there but a blank, a line break or the end? -/
def isGap : List Char → Bool
  | [] => true
  | c :: _ => isSpacing c || isBreak c

/-- Is the rest of the line empty? -/
def isLineEnd : List Char → Bool
  | [] => true
  | c :: _ => isBreak c

/-- Three dashes or three points at the start of a line, which separate documents. -/
def isSeparator (column : Nat) : List Char → Bool
  | a :: b :: c :: rest =>
      column == 0 && a == b && b == c && (a == '-' || a == '.') && isGap rest
  | _ => false

/-- How far a text has been read. -/
structure Position where
  index : Nat
  line : Nat
  column : Nat
deriving DecidableEq, Repr

namespace Position

def start : Position := ⟨0, 0, 0⟩

/-- The position after one more character. -/
def after (p : Position) (c : Char) : Position :=
  if isBreak c then ⟨p.index + 1, p.line + 1, 0⟩ else ⟨p.index + 1, p.line, p.column + 1⟩

end Position

/-- A position, and the characters that follow it. -/
structure Cursor where
  rest : List Char
  pos : Position
deriving Repr

namespace Cursor

/-- Passes over the characters at the front that satisfy `p`. -/
def passFrom (p : Char → Bool) (pos : Position) : List Char → Cursor
  | [] => ⟨[], pos⟩
  | c :: rest => if p c then passFrom p (pos.after c) rest else ⟨c :: rest, pos⟩

/-- Passes over the characters at the front that satisfy `p`. -/
def pass (c : Cursor) (p : Char → Bool) : Cursor := passFrom p c.pos c.rest

/-- Passes over one character. -/
def next (c : Cursor) : Cursor :=
  match c.rest with
  | [] => c
  | ch :: rest => ⟨rest, c.pos.after ch⟩

/-- Passes over `n` characters. -/
def skip (c : Cursor) : Nat → Cursor
  | 0 => c
  | n + 1 => c.next.skip n

/-- The characters at the front that satisfy `p`. -/
def word (c : Cursor) (p : Char → Bool) : List Char := c.rest.takeWhile p

def head? (c : Cursor) : Option Char := c.rest.head?

/-- The character is the next one. -/
def sees (c : Cursor) (ch : Char) : Bool := c.rest.head? == some ch

/-- Passes over blanks, a comment and the line break that has to follow them. -/
def endLine? (c : Cursor) : Option Cursor :=
  let c := c.pass isSpacing
  let c := if c.sees '#' then c.pass (!isBreak ·) else c
  if isLineEnd c.rest then some c.next else none

end Cursor

end Converge.Yaml
