namespace GraphPlan.Decimal

/-- A double-precision number, by its 64 bits. -/
structure Double where
  bits : UInt64
  deriving DecidableEq

/-- A decimal `digits · 10 ^ exponent` with a sign. -/
structure Scaled where
  negative : Bool
  digits : Nat
  exponent : Int
  deriving DecidableEq

/-- How to choose between two equally near decimals of the same length. -/
inductive Tie where
  | toEven
  | up

namespace Double

def signBit (negative : Bool) : Nat := if negative then 1 <<< 63 else 0

def ofFields (negative : Bool) (magnitude : Nat) : Double := ⟨(signBit negative + magnitude).toUInt64⟩

def infinity (negative : Bool) : Double := ofFields negative (2047 <<< 52)

def nan : Double := ofFields false (2047 <<< 52 + 1 <<< 51)

def isNegative (d : Double) : Bool := 1 <<< 63 ≤ d.bits.toNat

/-- The bits of exponent and fraction. -/
def magnitude (d : Double) : Nat := d.bits.toNat % 1 <<< 63

def isFinite (d : Double) : Bool := d.magnitude < 2047 <<< 52

def isNan (d : Double) : Bool := 2047 <<< 52 < d.magnitude

/-- A finite double is `significand · 2 ^ power`. -/
def significand (d : Double) : Nat :=
  let fraction := d.magnitude % 1 <<< 52
  if d.magnitude < 1 <<< 52 then fraction else 1 <<< 52 + fraction

def power (d : Double) : Int :=
  (max (d.magnitude / 1 <<< 52) 1 : Nat) - 1075

/-- The quotient to the nearest integer, a half to the even one. -/
def roundQuotient (numerator denominator : Nat) : Nat :=
  let quotient := numerator / denominator
  let twice := 2 * (numerator % denominator)
  if twice < denominator then quotient
  else if denominator < twice then quotient + 1
  else quotient + quotient % 2

/-- `numerator / (denominator · 2 ^ power)` to the nearest integer. -/
def roundScaled (numerator denominator : Nat) (power : Int) : Nat :=
  roundQuotient (numerator <<< (-power).toNat) (denominator <<< power.toNat)

/-- The power of two under which a positive ratio has 53 significant bits, but never one below that
of the smallest doubles. The first guess is right or one too small. -/
def ratioPower (numerator denominator : Nat) : Int :=
  let guess : Int := numerator.log2 - denominator.log2 - 53
  let power := if numerator <<< (-guess).toNat < denominator <<< guess.toNat <<< 53
    then guess else guess + 1
  max power (-1074)

/-- The double nearest to a positive ratio, a half to the even one; `none` beyond the range. A
significand that rounds up to 54 bits moves on to the next exponent by itself. -/
def ofRatio (negative : Bool) (numerator denominator : Nat) : Option Double :=
  let power := ratioPower numerator denominator
  let rounded := roundScaled numerator denominator power
  let magnitude := (power + 1074).toNat <<< 52 + rounded
  if magnitude < 2047 <<< 52 then some (ofFields negative magnitude) else none

def decimalLength (n : Nat) : Nat := (Nat.toDigits 10 n).length

/-- The double nearest to a decimal; `none` beyond the range. Decimals far outside the range are
settled by their length, before any power is computed. -/
def ofScaled (s : Scaled) : Option Double :=
  let lead : Int := decimalLength s.digits + s.exponent
  if s.digits = 0 ∨ lead < -400 then some (ofFields s.negative 0)
  else if 400 < lead then none
  else ofRatio s.negative (s.digits * Nat.pow 10 s.exponent.toNat) (Nat.pow 10 (-s.exponent).toNat)

/-- The double nearest to an integer, infinite beyond the range. -/
def nearest (z : Int) : Double := (ofScaled ⟨z < 0, z.natAbs, 0⟩).getD (infinity (z < 0))

/-- The decimals that read back as a positive finite double, in units of a quarter of its last place:
those between two bounds, the bounds included when the significand is even. The lower bound is nearer
below a power of two. -/
structure Interval where
  low : Nat
  value : Nat
  high : Nat
  closed : Bool
  power : Int

def interval (d : Double) : Interval :=
  let m := d.significand
  let nearer := m = 1 <<< 52 ∧ 2 <<< 52 ≤ d.magnitude
  ⟨if nearer then 4 * m - 1 else 4 * m - 2, 4 * m, 4 * m + 2, m % 2 == 0, d.power - 2⟩

/-- Place of `candidate · 10 ^ exponent` and of `n` quarter places on a common scale. -/
def Interval.decimalPoint (i : Interval) (exponent : Int) (candidate : Nat) : Nat :=
  (candidate * Nat.pow 10 exponent.toNat) <<< (-i.power).toNat

def Interval.binaryPoint (i : Interval) (exponent : Int) (n : Nat) : Nat :=
  n <<< i.power.toNat * Nat.pow 10 (-exponent).toNat

def Interval.holds (i : Interval) (exponent : Int) (candidate : Nat) : Bool :=
  let point := i.decimalPoint exponent candidate
  let low := i.binaryPoint exponent i.low
  let high := i.binaryPoint exponent i.high
  if i.closed then low ≤ point && point ≤ high else low < point && point < high

/-- The better of the two neighbours of the value among the multiples of `10 ^ exponent`, if one of
them reads back. -/
def Interval.onGrid (i : Interval) (tie : Tie) (exponent : Int) : Option Nat :=
  let value := i.binaryPoint exponent i.value
  let unit := i.decimalPoint exponent 1
  let below := value / unit
  let rest := value % unit
  let preferAbove := unit < 2 * rest || (unit == 2 * rest &&
    match tie with
    | .toEven => below % 2 == 1
    | .up => true)
  match i.holds exponent below, i.holds exponent (below + 1) with
  | true, true => some (if preferAbove then below + 1 else below)
  | true, false => some below
  | false, true => some (below + 1)
  | false, false => none

/-- Try finer and finer grids; seventeen digits always suffice. -/
def Interval.search (i : Interval) (tie : Tie) : Nat → Int → Nat × Int
  | 0, exponent => (i.binaryPoint exponent i.value / i.decimalPoint exponent 1, exponent)
  | steps + 1, exponent =>
    match i.onGrid tie exponent with
    | some digits => (digits, exponent)
    | none => i.search tie steps (exponent - 1)

/-- A decimal exponent above that of a double between `2 ^ n` and `2 ^ (n + 1)`. -/
def exponentAbove (n : Int) : Int := Int.fdiv ((n + 1) * 30103) 100000 + 1

/-- The shortest decimal that reads back as a finite double, and of those the nearest. -/
def shortest (tie : Tie) (d : Double) : Scaled :=
  if d.significand = 0 then ⟨d.isNegative, 0, 0⟩
  else
    let (digits, exponent) :=
      d.interval.search tie 21 (exponentAbove (d.significand.log2 + d.power))
    ⟨d.isNegative, digits, exponent⟩

end Double

end GraphPlan.Decimal
