import Converge.Text.Graphic

/-!
# Quoted text

A text between double quotes in which quotes, backslashes and everything that is not drawn on
its own is escaped, and the one-line form of a record with named fields that uses it.
-/

namespace Converge.Text

/-- A digit of a number in base sixteen, in lower case. -/
def hexDigit (n : Nat) : Char :=
  if n < 10 then Char.ofNat (48 + n) else Char.ofNat (87 + n)

/-- The hexadecimal digits of `n`, most significant first, before `acc`. -/
def hexDigits (n : Nat) (acc : List Char) : List Char :=
  if n < 16 then hexDigit n :: acc
  else hexDigits (n / 16) (hexDigit (n % 16) :: acc)
termination_by n

/-- A character as it stands inside a quoted text. -/
def escape (c : Char) : List Char :=
  match c with
  | '\x00' => ['\\', '0']
  | '\t' => ['\\', 't']
  | '\n' => ['\\', 'n']
  | '\r' => ['\\', 'r']
  | '"' => ['\\', '"']
  | '\\' => ['\\', '\\']
  | c => if isGraphic c then [c] else '\\' :: 'u' :: '\x7b' :: hexDigits c.toNat ['\x7d']

/-- The text between double quotes. -/
def quoted (s : String) : String :=
  String.ofList ('"' :: s.toList.flatMap escape ++ ['"'])

/-- A list of texts in brackets. -/
def bracketed (items : List String) : String :=
  "[" ++ ", ".intercalate items ++ "]"

/-- A record on one line: its name, then the fields with their values between braces. -/
def record (name : String) (fields : List (String × String)) : String :=
  name ++ " \x7b " ++ ", ".intercalate (fields.map fun (k, v) => k ++ ": " ++ v) ++ " \x7d"

/-- An optional value. -/
def optional : Option String → String
  | none => "None"
  | some v => "Some(" ++ v ++ ")"

end Converge.Text
