import Calculator.Value

/-!
# Binary floating point

Powers and means are computed in binary floating point of 64 bits: 53 significant bits, a result
rounded to the nearest number of the format with ties to the even significand, and infinities
beyond it. Every number here is exact, a rational; the format appears only in where results are
rounded to.

1. `Double.round` is the rounding, `Double.nearest` adds the infinities.
2. `Double.pow` is the rounded power of two integers, with the limits for a zero base.
3. `Value.pow` and `Value.mean` take values to values: operands are rounded into the format, the
   result is rounded there, cut to an integer toward zero and saturated.
-/

namespace Calculator

/-- A number of the format: a rational, or an infinity with its sign. The sign of zero is not kept,
for cutting to an integer forgets it. -/
inductive Double where
  | finite (value : Rat)
  | infinite (negative : Bool)
  deriving DecidableEq

namespace Double

/-! ## Rounding -/

/-- The integer nearest to `q`; halfway between two, the even one. -/
def roundHalfEven (q : Rat) : Int :=
  let below := q.floor
  let rest := q - below
  if rest < 1 / 2 ∨ rest = 1 / 2 ∧ below % 2 = 0 then below else below + 1

/-- The binary exponent of a nonzero `q`: the greatest `e` with `2 ^ e ≤ |q|`. The lengths of
numerator and denominator give it up to one. -/
def exponent (q : Rat) : Int :=
  let guess : Int := q.num.natAbs.log2 - q.den.log2
  if (2 : Rat) ^ guess * q.den ≤ q.num.natAbs then guess else guess - 1

/-- The distance between neighbours of the format around `q`: 53 bits below the leading one, but
never finer than `2 ^ -1074`. -/
def quantum (q : Rat) : Rat := (2 : Rat) ^ (max (exponent q - 52) (-1074))

/-- The multiple of the quantum nearest to `q`, ties to the even multiple. -/
def round (q : Rat) : Rat := roundHalfEven (q / quantum q) * quantum q

/-- The number of the format nearest to `q`: an infinity where rounding reaches `2 ^ 1024`. -/
def nearest (q : Rat) : Double :=
  let r := round q
  if (2 : Rat) ^ (1024 : Int) ≤ r then infinite false
  else if r ≤ -(2 : Rat) ^ (1024 : Int) then infinite true
  else finite r

/-- The integer to 53 significant bits. An integer below `2 ^ 1024` becomes a number of the format
that is whole again. -/
def roundInt (n : Int) : Int := (round n).floor

/-! ## Operations on whole numbers -/

def div (a b : Int) : Double := nearest ((a : Rat) / (b : Rat))

/-- The power of two whole numbers of the format. Any base to the zero is one, zero to a negative
exponent is infinite, and a base of two or more leaves the format upward from exponent 1024 and
vanishes from exponent -1076. -/
def pow (base exponent : Int) : Double :=
  if exponent = 0 then finite 1
  else if base = 0 then if 0 < exponent then finite 0 else infinite false
  else if base.natAbs = 1 then finite (if exponent % 2 = 0 then 1 else base)
  else if 1024 ≤ exponent then infinite (base < 0 ∧ exponent % 2 = 1)
  else if exponent ≤ -1076 then finite 0
  else nearest ((base : Rat) ^ exponent)

/-- The value that remains when the fraction is dropped, saturated at the ends of the range. -/
def toValue : Double → Value
  | finite q => Value.clamp (q.num.tdiv q.den)
  | infinite false => Value.greatest
  | infinite true => Value.least

end Double

namespace Value

/-- The power computed in floating point. It has a value for all operands. -/
def pow (base exponent : Value) : Value :=
  (Double.pow (Double.roundInt base.toInt) (Double.roundInt exponent.toInt)).toValue

def mean (sum : Value) (count : Nat) : Value :=
  (Double.div (Double.roundInt sum.toInt) (Double.roundInt count)).toValue

end Value

end Calculator
