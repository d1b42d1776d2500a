import Converge.Text.Encoding
import Converge.Yaml.Position

/-!
# Tags

A tag says what kind of thing a node is.  It is written in full, or as a handle, which a
directive may have explained, with a suffix.
-/

namespace Converge.Yaml

/-- A tag as it is written; an empty handle stands before a tag that is written in full. -/
structure TagText where
  handle : String
  suffix : String
deriving DecidableEq, Repr

/-- May the character stand in a tag?  Some may only where the end is marked. -/
def isTagChar (isEnclosed : Bool) (c : Char) : Bool :=
  isNameChar c || ";/?:@&=+$.%!~*'()".toList.contains c || (isEnclosed && ",[]".toList.contains c)

/-- How many octets the character has that begins with this one. -/
def octetCount? (n : Nat) : Option Nat :=
  if n < 0x80 then some 1
  else if n < 0xC0 then none
  else if n < 0xE0 then some 2
  else if n < 0xF0 then some 3
  else if n < 0xF8 then some 4
  else none

/-- Reads the characters of a tag, of which `missing` octets of the last one are still to come;
what has been read has its last character or octet first. -/
def readTag (isEnclosed : Bool) (missing : Nat) (octets : List Nat) (pos : Position)
    (reversed : List Char) : List Char → Option (List Char × Cursor)
  | [] => if missing = 0 then some (reversed.reverse, ⟨[], pos⟩) else none
  | '%' :: a :: b :: rest => do
      let n := 16 * (← hexValue? a) + (← hexValue? b)
      let left ← if missing = 0 then octetCount? n
        else if 0x80 ≤ n && n < 0xC0 then some missing else none
      let pos := ((pos.after '%').after a).after b
      if left = 1 then
        let chars := (Text.ofBytes (n :: octets).reverse).toList
        readTag isEnclosed 0 [] pos (chars.reverse ++ reversed) rest
      else readTag isEnclosed (left - 1) (n :: octets) pos reversed rest
  | c :: rest =>
      if missing = 0 then
        if c = '%' then none
        else if isTagChar isEnclosed c then
          readTag isEnclosed 0 [] (pos.after c) (c :: reversed) rest
        else some (reversed.reverse, ⟨c :: rest, pos⟩)
      else none

/-- The characters of a tag from the cursor on. -/
def tagChars? (isEnclosed : Bool) (c : Cursor) : Option (List Char × Cursor) :=
  readTag isEnclosed 0 [] c.pos [] c.rest

/-- A handle: an exclamation mark, and a name with another one unless it breaks off. -/
def handle (c : Cursor) : List Char × Cursor :=
  let name := c.next.word isNameChar
  let c := c.next.pass isNameChar
  if c.sees '!' then ('!' :: name ++ ['!'], c.next) else ('!' :: name, c)

/-- Is it a handle that a directive has to explain, and not the beginning of a suffix? -/
def isNamedHandle (h : List Char) : Bool := 1 < h.length && h.getLast? == some '!'

/-- A tag in full, between angle brackets. -/
def enclosedTag? (c : Cursor) : Option (TagText × Cursor) := do
  let (uri, c) ← tagChars? true (c.skip 2)
  if uri.isEmpty || !c.sees '>' then none else some (⟨"", String.ofList uri⟩, c.next)

/-- A tag with a handle; a lone exclamation mark is a tag of its own. -/
def shortTag? (c : Cursor) : Option (TagText × Cursor) := do
  let (h, c) := handle c
  let (uri, c) ← tagChars? false c
  if isNamedHandle h then
    if uri.isEmpty then none else some (⟨String.ofList h, String.ofList uri⟩, c)
  else
    let suffix := h.tail ++ uri
    if suffix.isEmpty then some (⟨"", "!"⟩, c) else some (⟨"!", String.ofList suffix⟩, c)

/-- A tag, which has to be followed by a gap, or inside brackets by a comma. -/
def tag? (inFlow : Bool) (c : Cursor) : Option (TagText × Cursor) := do
  let (t, c) ← if c.next.sees '<' then enclosedTag? c else shortTag? c
  if (inFlow && c.sees ',') || isGap c.rest then some (t, c) else none

end Converge.Yaml
