import Converge.Shell.Word

/-!
# Arithmetic

The value of an expression between double parentheses, over whole numbers: comparisons and
logical connections are one or zero, and division goes toward zero.
-/

namespace Converge.Shell.Arithmetic

/-- The binary operators, with how tightly they bind; each before those that it begins with. -/
def operators : List (String × Nat × (Int → Int → Option Int)) :=
  let flag (b : Bool) : Option Int := some (if b then 1 else 0)
  [("||", 1, fun a b => flag (a ≠ 0 || b ≠ 0)),
    ("&&", 2, fun a b => flag (a ≠ 0 && b ≠ 0)),
    ("==", 3, fun a b => flag (a = b)),
    ("!=", 3, fun a b => flag (a ≠ b)),
    ("<=", 4, fun a b => flag (a ≤ b)),
    (">=", 4, fun a b => flag (b ≤ a)),
    ("<", 4, fun a b => flag (a < b)),
    (">", 4, fun a b => flag (b < a)),
    ("+", 5, fun a b => some (a + b)),
    ("-", 5, fun a b => some (a - b)),
    ("*", 6, fun a b => some (a * b)),
    ("/", 6, fun a b => if b = 0 then none else some (a.tdiv b)),
    ("%", 6, fun a b => if b = 0 then none else some (a.tmod b))]

def dropSpace (cs : List Char) : List Char := cs.dropWhile fun c => isSpacing c || c = '\n'

mutual

/-- An operand: a number, a name, or an expression with a sign or in parentheses. -/
def operand (valueOf : String → Int) : Nat → List Char → Option (Int × List Char)
  | 0, _ => none
  | fuel + 1, cs =>
      match dropSpace cs with
      | '-' :: rest => (operand valueOf fuel rest).map fun (n, rest) => (-n, rest)
      | '+' :: rest => operand valueOf fuel rest
      | '!' :: rest =>
          (operand valueOf fuel rest).map fun (n, rest) => (if n = 0 then 1 else 0, rest)
      | '(' :: rest => do
          let (n, rest) ← operation valueOf fuel 0 rest
          match dropSpace rest with
          | ')' :: rest => some (n, rest)
          | _ => none
      | '$' :: rest => operand valueOf fuel rest
      | c :: rest =>
          let cs := c :: rest
          if c.isDigit then
            some (Int.ofNat (Nat.ofDigitChars 10 (cs.takeWhile Char.isDigit) 0),
              cs.dropWhile Char.isDigit)
          else if isNameStart c then
            some (valueOf (String.ofList (cs.takeWhile isNameChar)), cs.dropWhile isNameChar)
          else none
      | [] => none

/-- An expression whose operators bind more tightly than `level`. -/
def operation (valueOf : String → Int) : Nat → Nat → List Char → Option (Int × List Char)
  | 0, _, _ => none
  | fuel + 1, level, cs => do
      let (n, rest) ← operand valueOf fuel cs
      continued valueOf fuel level n rest

/-- What follows an operand. -/
def continued (valueOf : String → Int) :
    Nat → Nat → Int → List Char → Option (Int × List Char)
  | 0, _, _, _ => none
  | fuel + 1, level, n, cs =>
      let cs := dropSpace cs
      match operators.find? fun (op, _, _) => op.toList.isPrefixOf cs with
      | some (op, tightness, apply) =>
          if level < tightness then do
            let (m, rest) ← operation valueOf fuel tightness (cs.drop op.length)
            continued valueOf fuel level (← apply n m) rest
          else some (n, cs)
      | none => some (n, cs)

end

/-- The value of an expression; a name stands for the value of the parameter. -/
def value? (valueOf : String → Int) (cs : List Char) : Option Int := do
  let (n, rest) ← operation valueOf (4 * cs.length + 4) 0 cs
  if (dropSpace rest).isEmpty then some n else none

end Converge.Shell.Arithmetic
