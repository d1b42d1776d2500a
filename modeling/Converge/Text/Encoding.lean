/-!
# UTF-8

Reading bytes as text: strictly, or with the replacement character in place of what is no
UTF-8.
-/

namespace Converge.Text

/-- The replacement character. -/
def replacement : Char := Char.ofNat 0xFFFD

/-- How many continuation bytes a first byte announces, the bits of the character it holds,
and the range its first continuation byte has to lie in. -/
def lead (b : Nat) : Option (Nat × Nat × Nat × Nat) :=
  if b < 0xC2 then none
  else if b < 0xE0 then some (1, b - 0xC0, 0x80, 0xBF)
  else if b = 0xE0 then some (2, 0, 0xA0, 0xBF)
  else if b = 0xED then some (2, 0xD, 0x80, 0x9F)
  else if b < 0xF0 then some (2, b - 0xE0, 0x80, 0xBF)
  else if b = 0xF0 then some (3, 0, 0x90, 0xBF)
  else if b < 0xF4 then some (3, b - 0xF0, 0x80, 0xBF)
  else if b = 0xF4 then some (3, 4, 0x80, 0x8F)
  else none

/-- What `n` more continuation bytes add to the bits read so far, and how many of the bytes
were used; no bits if one of them is missing. -/
def continuation : Nat → Nat → Nat → Nat → List Nat → Option Nat × Nat
  | 0, bits, _, _, _ => (some bits, 0)
  | n + 1, bits, low, high, b :: rest =>
      if low ≤ b && b ≤ high then
        let (c, used) := continuation n (bits * 64 + (b - 0x80)) 0x80 0xBF rest
        (c, used + 1)
      else (none, 0)
  | _ + 1, _, _, _, [] => (none, 0)

/-- Reads bytes as characters; `none` stands where a sequence breaks off. -/
def decode : List Nat → List (Option Char)
  | [] => []
  | b :: rest =>
      if b < 0x80 then some (Char.ofNat b) :: decode rest
      else match lead b with
        | none => none :: decode rest
        | some (n, bits, low, high) =>
            let (c, used) := continuation n bits low high rest
            c.map Char.ofNat :: decode (rest.drop used)
termination_by bytes => bytes.length
decreasing_by all_goals simp_all; try omega

/-- The text that the bytes spell, if they are UTF-8 throughout. -/
def ofBytes? (bytes : List Nat) : Option String :=
  ((decode bytes).mapM id).map String.ofList

/-- The text that the bytes spell, with one replacement character for each broken sequence. -/
def ofBytes (bytes : List Nat) : String :=
  String.ofList ((decode bytes).map (·.getD replacement))

/-- The bytes of a text. -/
def bytesOf (s : String) : List Nat := s.toUTF8.toList.map UInt8.toNat

end Converge.Text
