/-!
# Decimals

A decimal is a natural coefficient times a power of ten. Each has one nearest double, which is
what every reader of number text gives.
-/

namespace MiniLisp

/-- The number `coefficient * 10 ^ exponent`. -/
structure Decimal where
  coefficient : Nat
  exponent : Int
deriving DecidableEq

namespace Decimal

/-- The nearest double, a tie going to the even one. -/
def toFloat (d : Decimal) : Float :=
  Float.ofModel (Float.Model.ofScientific d.coefficient d.exponent)

/-- The digits of the coefficient. -/
def digits (d : Decimal) : List Char :=
  Nat.toDigits 10 d.coefficient

/-- The digits without the zeros at their end. -/
def significant (d : Decimal) : List Char :=
  (d.digits.reverse.dropWhile (· == '0')).reverse

/-- Where the point stands: the decimal is `0.digits * 10 ^ point`. -/
def point (d : Decimal) : Int :=
  d.digits.length + d.exponent

end Decimal

end MiniLisp
