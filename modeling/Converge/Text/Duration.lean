import Converge.Word

/-!
# Spans of time

A span of time in whole nanoseconds, and its text: the largest unit of which it holds at least
one, with the rest as a decimal fraction.
-/

namespace Converge

/-- A span of time. -/
structure Duration where
  nanos : Nat
deriving DecidableEq, Repr

namespace Duration

def ofParts (secs nanos : Nat) : Duration := ⟨secs * 1000000000 + nanos⟩

/-- Whole milliseconds, in a word of 64 bits. -/
def millis (d : Duration) : Nat := d.nanos / 1000000 % wordBound

/-- The unit of a text: how many nanoseconds it lasts, the number of decimal places that a
nanosecond needs in it, and its symbol. -/
def scale (d : Duration) : Nat × Nat × String :=
  if 1000000000 ≤ d.nanos then (1000000000, 9, "s")
  else if 1000000 ≤ d.nanos then (1000000, 6, "ms")
  else if 1000 ≤ d.nanos then (1000, 3, "µs")
  else (1, 0, "ns")

/-- `n` in decimal with zeros in front, up to `width` digits. -/
def padded (width n : Nat) : List Char :=
  let digits := (toString n).toList
  List.replicate (width - digits.length) '0' ++ digits

/-- A whole part with a fraction after the point, if there is one. -/
def pointed (whole : Nat) (fraction : List Char) : String :=
  if fraction.isEmpty then toString whole
  else toString whole ++ "." ++ String.ofList fraction

/-- The exact text, without zeros at the end of the fraction. -/
def text (d : Duration) : String :=
  let (unit, places, symbol) := d.scale
  let fraction := (padded places (d.nanos % unit)).reverse.dropWhile (· == '0') |>.reverse
  pointed (d.nanos / unit) (if d.nanos % unit = 0 then [] else fraction) ++ symbol

/-- The text with two decimal places, rounded to the nearest. -/
def brief (d : Duration) : String :=
  let (unit, _, symbol) := d.scale
  let hundredths := (d.nanos * 100 + unit / 2) / unit
  pointed (hundredths / 100) (padded 2 (hundredths % 100)) ++ symbol

end Duration

end Converge
