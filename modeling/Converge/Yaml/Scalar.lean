import Converge.Decimal.Binary64
import Converge.Text.Quoted
import Converge.Yaml.Node

/-!
# What scalars mean

A plain scalar without a tag is nothing, a truth value or a number if it is spelled like one; all
other scalars are texts unless a tag says otherwise.
-/

namespace Converge.Yaml

/-- A number with a point. -/
inductive Decimal where
  | finite (x : Binary64)
  | infinite (negative : Bool)
  | undefined
deriving DecidableEq, Repr

/-- What a scalar stands for. -/
inductive Atom where
  | null
  | boolean (b : Bool)
  | integer (n : Int)
  | decimal (x : Decimal)
  | text (s : String)
deriving DecidableEq, Repr

def Decimal.text : Decimal → String
  | finite x => x.text
  | infinite true => "-inf"
  | infinite false => "inf"
  | undefined => "NaN"

/-- Numbers beyond these are not read as integers. -/
def isWideInteger (n : Int) : Bool := 
  -0x80000000000000000000000000000000 ≤ n && n < 0x100000000000000000000000000000000

/-- Numbers beyond these cannot be kept. -/
def isIntegerInRange (n : Int) : Bool := -0x8000000000000000 ≤ n && n < 0x10000000000000000

/-- The atom in the words of an error message. -/
def Atom.described : Atom → String
  | null => "unit value"
  | boolean b => s!"boolean `{b}`"
  | integer n =>
      if isIntegerInRange n then s!"integer `{n}`"
      else if n < 0 then s!"integer `{n}` as i128" else s!"integer `{n}` as u128"
  | decimal x => s!"floating point `{x.text}`"
  | text s => "string " ++ Text.quoted s

/-- The spellings of nothing at all. -/
def isNull (s : String) : Bool := ["null", "Null", "NULL", "~"].contains s

def boolean? (s : String) : Option Bool :=
  if ["true", "True", "TRUE"].contains s then some true
  else if ["false", "False", "FALSE"].contains s then some false
  else none

/-- The number that digits to the base `base` spell, if there is at least one. -/
def digits? (base : Nat) (cs : List Char) : Option Nat :=
  let add (n : Nat) (c : Char) : Option Nat :=
    ((hexValue? c).filter (· < base)).map (base * n + ·)
  if cs.isEmpty then none else cs.foldlM add 0

/-- Drops a sign at the front. -/
def unsigned : List Char → List Char
  | '+' :: cs | '-' :: cs => cs
  | cs => cs

/-- Digits with needless zeros in front, which are no number. -/
def isPadded (cs : List Char) : Bool :=
  match unsigned cs with
  | '0' :: rest => !rest.isEmpty && rest.all Char.isDigit
  | _ => false

/-- A number without a sign, after its mark if it is not decimal. -/
def magnitude? : List Char → Option Nat
  | '0' :: 'x' :: cs => digits? 16 cs
  | '0' :: 'o' :: cs => digits? 8 cs
  | '0' :: 'b' :: cs => digits? 2 cs
  | cs => if isPadded cs then none else digits? 10 cs

/-- A number that may have a plus in front. -/
def natural? : List Char → Option Nat
  | '+' :: cs => magnitude? cs
  | cs => magnitude? cs

/-- A number that may have a sign in front. -/
def integer? : List Char → Option Int
  | '-' :: cs => (magnitude? cs).map fun n => -(n : Int)
  | cs => (natural? cs).map Int.ofNat

/-- An exponent, or nothing in its place. -/
def exponent? : List Char → Option Int
  | [] => some 0
  | e :: cs =>
      if e = 'e' || e = 'E' then
        match cs with
        | '-' :: ds => (digits? 10 ds).map fun n => -(n : Int)
        | '+' :: ds => (digits? 10 ds).map Int.ofNat
        | ds => (digits? 10 ds).map Int.ofNat
      else none

/-- A decimal number without a sign. -/
def decimalOf? (negative : Bool) (cs : List Char) : Option Binary64 := do
  let whole := cs.takeWhile Char.isDigit
  let rest := cs.dropWhile Char.isDigit
  let (fraction, rest) := match rest with
    | '.' :: more => (more.takeWhile Char.isDigit, more.dropWhile Char.isDigit)
    | _ => ([], rest)
  let e ← exponent? rest
  let digits := whole ++ fraction
  let n ← digits? 10 digits
  let significant := digits.dropWhile (· = '0')
  Binary64.ofDecimal? negative n significant.length (e - fraction.length)

/-- A number with a point or an exponent, or one that is none or without bounds. -/
def decimal? (s : String) : Option Decimal :=
  if [".inf", ".Inf", ".INF", "+.inf", "+.Inf", "+.INF"].contains s then some (.infinite false)
  else if ["-.inf", "-.Inf", "-.INF"].contains s then some (.infinite true)
  else if [".nan", ".NaN", ".NAN"].contains s then some .undefined
  else match s.toList with
    | '-' :: cs => (decimalOf? true cs).map .finite
    | '+' :: cs => (decimalOf? false cs).map .finite
    | cs => (decimalOf? false cs).map .finite

/-- An integer as an atom. -/
def integerAtom? (s : String) : Option Atom :=
  ((integer? s.toList).filter isWideInteger).map .integer

namespace Atom

/-- What a plain scalar without a tag stands for. -/
def ofPlain (s : String) : Atom :=
  if s.isEmpty || isNull s then null
  else
    let number? := integerAtom? s <|>
      if isPadded s.toList then none else (decimal? s).map decimal
    ((boolean? s).map boolean <|> number?).getD (text s)

/-- The tag in full that a short name among the common ones stands for. -/
def commonTag (name : String) : String := "tag:yaml.org,2002:" ++ name

/-- What a scalar stands for; if it is not what its tag says, what that would have been. -/
def ofScalar (tag : Option String) (style : Style) (s : String) : Except String Atom :=
  let orElse (expected : String) : Option Atom → Except String Atom
    | some a => .ok a
    | none => .error expected
  match tag with
  | none => .ok (if style = .plain then ofPlain s else text s)
  | some t =>
      if t = commonTag "bool" then orElse "a boolean" ((boolean? s).map boolean)
      else if t = commonTag "int" then orElse "an integer" (integerAtom? s)
      else if t = commonTag "float" then orElse "a float" ((decimal? s).map decimal)
      else if t = commonTag "null" then orElse "null" (if isNull s then some null else none)
      else if t.toList.head? = some '!' && style = .plain then .ok (ofPlain s)
      else .ok (text s)

end Atom

end Converge.Yaml
