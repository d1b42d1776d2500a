/-!
# Binary floating point numbers of 64 bits

The finite ones, as a mantissa of at most 53 bits times a power of two.  A decimal number is
rounded to the nearest of them, ties to the even mantissa; a number is written with the fewest
decimal digits that read back as the same number.
-/

namespace Converge

/-- `mantissa * 2 ^ exponent`, negated if `negative`. -/
structure Binary64 where
  negative : Bool
  mantissa : Nat
  exponent : Int
deriving DecidableEq, Repr

namespace Binary64

/-- The least mantissa of full length. -/
def leadingBit : Nat := 0x10000000000000

/-- The fraction `num / den` times `base ^ e`, as a fraction again. -/
def scaled (num den base : Nat) (e : Int) : Nat × Nat :=
  match e with
  | .ofNat n => (num * Nat.pow base n, den)
  | .negSucc n => (num, den * Nat.pow base (n + 1))

/-- A quotient rounded to the nearest whole number, ties to the even one. -/
def roundQuotient (num den : Nat) : Nat :=
  let q := num / den
  let r := num % den
  if 2 * r < den then q else if den < 2 * r then q + 1 else q + q % 2

/-- The least exponent that leaves `num / den` fewer than 54 bits. -/
def exponentOf (num den : Nat) : Int :=
  let guess : Int := (Nat.log2 num : Int) - (Nat.log2 den : Int) - 53
  let fits (e : Int) : Bool :=
    let (n, d) := scaled num den 2 (-e)
    n < d * (2 * leadingBit)
  let e := if fits guess then guess else if fits (guess + 1) then guess + 1 else guess + 2
  max e (-1074)

/-- The number nearest to `num / den`; none if it is beyond the largest one. -/
def nearest? (negative : Bool) (num den : Nat) : Option Binary64 :=
  if num = 0 then some ⟨negative, 0, -1074⟩
  else
    let e := exponentOf num den
    let (n, d) := scaled num den 2 (-e)
    let m := roundQuotient n d
    let (m, e) := if m = 2 * leadingBit then (leadingBit, e + 1) else (m, e)
    if 971 < e then none else some ⟨negative, m, e⟩

/-- The number nearest to `digits * 10 ^ e`, where `digits` has `count` decimal digits. -/
def ofDecimal? (negative : Bool) (digits count : Nat) (e : Int) : Option Binary64 :=
  if digits = 0 then nearest? negative 0 1
  else if 400 < (count : Int) + e then none
  else if (count : Int) + e < -400 then nearest? negative 0 1
  else
    let (n, d) := scaled digits 1 10 e
    nearest? negative n d

/-- A number whose gap below is half its gap above. -/
def isEdge (x : Binary64) : Bool := x.mantissa = leadingBit && -1074 < x.exponent

/-- Four times the number and the ends of the interval that rounds to it, over one common
denominator: `(below, value, above, den)`. -/
def interval (x : Binary64) : Nat × Nat × Nat × Nat :=
  let (unit, den) := scaled 1 1 2 x.exponent
  (unit * (4 * x.mantissa - if x.isEdge then 1 else 2), unit * (4 * x.mantissa),
    unit * (4 * x.mantissa + 2), 4 * den)

/-- The least `p` with `num / den < 10 ^ p`, searched downwards from `start`. -/
def magnitude (num den : Nat) : Nat → Int → Int
  | 0, p => p
  | fuel + 1, p =>
      let (n, d) := scaled num den 10 (-(p - 1))
      if n < d then magnitude num den fuel (p - 1) else p

/-- The point of the decimal grid with step `10 ^ step` that lies in the interval of `x` and is
nearest to `x`, if there is one. -/
def onGrid (x : Binary64) (step : Int) : Option Nat :=
  let (below, value, above, den) := x.interval
  let at10 (n : Nat) : Nat × Nat := scaled n den 10 (-step)
  let (vn, vd) := at10 value
  let (bn, _) := at10 below
  let (an, _) := at10 above
  let inside (k : Nat) : Bool :=
    if x.mantissa % 2 = 0 then bn ≤ k * vd && k * vd ≤ an else bn < k * vd && k * vd < an
  let k := vn / vd
  match inside k, inside (k + 1) with
  | true, true => some (if 2 * (vn - k * vd) ≤ vd then k else k + 1)
  | true, false => some k
  | false, true => some (k + 1)
  | false, false => none

/-- The fewest digits that read back as `x`, tried from `n` digits on, with the exponent of the
last one. -/
def shortestFrom (x : Binary64) (p : Int) : Nat → Nat → Nat × Int
  | 0, _ => (0, 0)
  | fuel + 1, n =>
      match x.onGrid (p - n) with
      | some k => (k, p - n)
      | none => shortestFrom x p fuel (n + 1)

/-- The fewest digits that read back as `x`, with the exponent of the last one. -/
def shortest (x : Binary64) : Nat × Int :=
  let (_, value, _, den) := x.interval
  shortestFrom x (magnitude value den 700 310) 18 1

/-- `digits * 10 ^ e` written out without an exponent. -/
def positional (digits : Nat) (e : Int) : String :=
  let text := (toString digits).toList
  match e with
  | .ofNat n => String.ofList (text ++ List.replicate n '0') ++ ".0"
  | .negSucc n =>
      let places := n + 1
      let padded := List.replicate (places + 1 - text.length) '0' ++ text
      let fraction := (padded.drop (padded.length - places)).reverse.dropWhile (· == '0')
      String.ofList (padded.take (padded.length - places)) ++ "." ++
        (if fraction.isEmpty then "0" else String.ofList fraction.reverse)

/-- The number in decimal, always with a point. -/
def text (x : Binary64) : String :=
  let (digits, e) := if x.mantissa = 0 then (0, 0) else x.shortest
  (if x.negative then "-" else "") ++ positional digits e

end Binary64

end Converge
