import GraphPlan.Decimal.Double

namespace GraphPlan.Decimal

def isDigit (c : Char) : Bool := '0' ≤ c && c ≤ '9'

def digitValue (c : Char) : Nat := c.toNat - '0'.toNat

/-- The number that a row of digits names. -/
def digitsValue (digits : List Char) : Nat :=
  digits.foldl (fun n c => 10 * n + digitValue c) 0

/-- An unsigned decimal of whole and fractional digits, scaled by a power of ten. -/
def scaledOf (negative : Bool) (whole fraction : List Char) (exponent : Int) : Scaled :=
  ⟨negative, digitsValue (whole ++ fraction), exponent - fraction.length⟩

def zeros (n : Nat) : List Char := List.replicate n '0'

/-- `digits · 10 ^ exponent` without an exponent: the whole part and the fraction. -/
def positional (digits : List Char) (exponent : Int) : List Char × List Char :=
  let places := (-exponent).toNat
  if 0 ≤ exponent then (digits ++ zeros exponent.toNat, [])
  else if places < digits.length then
    (digits.take (digits.length - places), digits.drop (digits.length - places))
  else (['0'], zeros (places - digits.length) ++ digits)

def signed (negative : Bool) (text : List Char) : String :=
  String.ofList (if negative then '-' :: text else text)

namespace Double

/-- Plain notation, which has no exponent and drops an empty fraction. -/
def plain (d : Double) : String :=
  if d.isNan then "NaN"
  else if d.isFinite then
    let s := d.shortest .up
    match positional (Nat.toDigits 10 s.digits) s.exponent with
    | (whole, []) => signed s.negative whole
    | (whole, fraction) => signed s.negative (whole ++ '.' :: fraction)
  else signed d.isNegative ['i', 'n', 'f']

/-- Leading digit and the rest behind a point, with a signed exponent. -/
def scientific (digits : List Char) (exponent : Int) : List Char :=
  let mantissa :=
    match digits with
    | lead :: next :: rest => lead :: '.' :: next :: rest
    | short => short
  let sign := if exponent < 0 then '-' else '+'
  mantissa ++ 'e' :: sign :: Nat.toDigits 10 exponent.natAbs

/-- Exchange notation of a finite double: positional from `10 ^ (-5)` up to, not including,
`10 ^ 16`. -/
def exchange (d : Double) : String :=
  let s := d.shortest .toEven
  let digits := Nat.toDigits 10 s.digits
  let lead : Int := digits.length - 1 + s.exponent
  if -5 ≤ lead ∧ lead < 16 then
    match positional digits s.exponent with
    | (whole, []) => signed s.negative (whole ++ ['.', '0'])
    | (whole, fraction) => signed s.negative (whole ++ '.' :: fraction)
  else signed s.negative (scientific digits lead)

/-- The sign in front of a text, if any. -/
def splitSign : List Char → Bool × List Char
  | '-' :: cs => (true, cs)
  | '+' :: cs => (false, cs)
  | cs => (false, cs)

/-- The exponent that may end a decimal. -/
def exponentOf? : List Char → Option Int
  | [] => some 0
  | e :: cs =>
    let (negative, digits) := splitSign cs
    if (e = 'e' ∨ e = 'E') ∧ digits ≠ [] ∧ digits.all isDigit then
      some (if negative then -(digitsValue digits : Int) else digitsValue digits)
    else none

/-- Read an unsigned decimal with optional point and exponent; beyond the range it is infinite. -/
def ofUnsigned? (negative : Bool) (text : List Char) : Option Double := do
  let whole := text.takeWhile isDigit
  let (fraction, rest) :=
    match text.dropWhile isDigit with
    | '.' :: cs => (cs.takeWhile isDigit, cs.dropWhile isDigit)
    | cs => ([], cs)
  guard (whole ++ fraction ≠ [])
  let exponent ← exponentOf? rest
  some ((ofScaled (scaledOf negative whole fraction exponent)).getD (infinity negative))

/-- Read a decimal, an infinity or not-a-number, whose words may be in either case. -/
def ofText? (text : String) : Option Double :=
  let (negative, cs) := splitSign text.toList
  let word := String.ofList (cs.map Char.toLower)
  if word = "inf" ∨ word = "infinity" then some (infinity negative)
  else if word = "nan" then some nan
  else ofUnsigned? negative cs

end Double

end GraphPlan.Decimal
