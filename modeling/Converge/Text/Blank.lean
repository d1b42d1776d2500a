/-!
# Blank characters

The characters that separate words, as Unicode's `White_Space` property lists them, and the
text that is left when the blanks at its two ends are dropped.
-/

namespace Converge.Text

/-- Unicode's `White_Space` property. -/
def isBlank (c : Char) : Bool :=
  let n := c.toNat
  (9 ≤ n && n ≤ 13) || n == 0x20 || n == 0x85 || n == 0xA0 || n == 0x1680 ||
    (0x2000 ≤ n && n ≤ 0x200A) || n == 0x2028 || n == 0x2029 || n == 0x202F ||
    n == 0x205F || n == 0x3000

/-- Drops what satisfies `p` at the end of a list. -/
def dropTail {α : Type} (p : α → Bool) (xs : List α) : List α :=
  (xs.reverse.dropWhile p).reverse

/-- The text without the blanks at its two ends. -/
def trim (s : String) : String :=
  String.ofList (dropTail isBlank (s.toList.dropWhile isBlank))

/-- A text with nothing in it but blanks. -/
def isBlankText (s : String) : Bool := s.toList.all isBlank

@[simp] theorem dropTail_nil {α : Type} (p : α → Bool) : dropTail p [] = [] := rfl

end Converge.Text
