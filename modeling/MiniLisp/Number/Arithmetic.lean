import MiniLisp.Host

/-!
# Arithmetic on doubles

Sum, difference and product are those of core. Here stand the quotient, the remainder, the power,
the whole number that a double denotes, and the double of a count. The host refuses some quotients,
remainders and powers (`divide`, `fmod`, `pow`); the functions that programs call have a value
there (`quotient`, `modulo`, `power`), as the standard for doubles has.
-/

namespace MiniLisp.Number

open Float.Model

/-- The number that is not a number. -/
def nan : Float :=
  Float.ofModel (Float.Model.pack .notANumber)

/-- The positive infinity. -/
def infinity : Float :=
  Float.ofModel (Float.Model.pack (.infinity .positive))

/-- The double of a count. -/
def ofNat (n : Nat) : Float :=
  Float.ofModel (Float.Model.ofNat n)

/-- Whether a number has a minus sign, as one of the two zeros has. -/
def isNegative (x : Float) : Bool :=
  match x.toModel.unpack with
  | .zero .negative | .finite .negative .. | .infinity .negative => true
  | _ => false

/-- The magnitude of `x` with the sign of `y`. -/
def copySign (x y : Float) : Float :=
  if isNegative y then -x.abs else x.abs

/-! ## Whole numbers -/

/-- The whole number that a double denotes, if it denotes one. -/
def toInt? (x : Float) : Option Int :=
  match x.toModel.unpack with
  | .zero _ => some 0
  | .finite s m e _ =>
    if 0 ≤ e then some (s.apply (m <<< e.toNat : Nat))
    else if m % (1 <<< (-e).toNat) = 0 then some (s.apply (m >>> (-e).toNat : Nat))
    else none
  | _ => none

/-- Whether a double denotes a whole number. -/
def isInteger (x : Float) : Bool := (toInt? x).isSome

/-- Whether a double denotes an odd number. -/
def isOdd (x : Float) : Bool := (toInt? x).any (· % 2 == 1)

/-- The whole number that a double denotes, or else the next one toward zero. -/
def toInt (x : Float) : Except HostError Int :=
  match x.toModel.unpack with
  | .notANumber => .error .integerOfNaN
  | .infinity _ => .error .integerOfInfinity
  | .zero _ => .ok 0
  | .finite s m e _ =>
    .ok (s.apply (if 0 ≤ e then m <<< e.toNat else m >>> (-e).toNat : Nat))

/-! ## Quotients -/

/-- The quotient of the host, which refuses to divide by zero. -/
def divide (x y : Float) : Except HostError Float :=
  if y == 0 then .error .division else .ok (x / y)

/-- The quotient `x / y`. A division by zero gives an infinity, or nothing that is a number. -/
def quotient (x y : Float) : Except HostError Float :=
  if y == 0 then
    if x == 0 || x.isNaN then .ok nan
    else .ok (copySign infinity x * copySign 1 y)
  else divide x y

/-! ## Remainders -/

/-- The remainder of the division that rounds toward zero: it has the sign of `x`, is smaller than
`y`, and is exact. -/
def remainder (x y : Float) : Float :=
  match x.toModel.unpack, y.toModel.unpack with
  | .notANumber, _ => nan
  | .infinity _, _ => nan
  | _, .notANumber => nan
  | _, .zero _ => nan
  | .zero _, _ => x
  | .finite .., .infinity _ => x
  | .finite s m e _, .finite _ m' e' _ =>
    let low := min e e'
    let rest := (m <<< (e - low).toNat) % (m' <<< (e' - low).toNat)
    Float.ofModel (Float.Model.pack
      (UnpackedFloat.normalize Format.binary64 (s.apply rest) low s))

/-- The remainder of the host, which refuses two numbers that have none. -/
def fmod (x y : Float) : Except HostError Float :=
  let r := remainder x y
  if r.isNaN && !x.isNaN && !y.isNaN then .error .domain else .ok r

/-- The remainder, or nothing that is a number where there is none. -/
def modulo (x y : Float) : Except HostError Float :=
  if y == 0 || x.isInf || y.isNaN then .ok nan else fmod x y

/-! ## Powers -/

/-- The power of the host. It refuses finite numbers whose power is not a number, and those whose
power is infinite: as having no value if `x` is zero, else as too large. -/
def pow (x y : Float) : Except HostError Float :=
  let r := x.pow y
  if x.isFinite && y.isFinite then
    if r.isNaN then .error .domain
    else if r.isInf then .error (if x == 0 then .domain else .range)
    else .ok r
  else .ok r

/-- The power `x ^ y`. An exponent that is not a number never gives a number, and neither does an
infinite power of one or minus one. What is too large is infinite. -/
def power (x y : Float) : Except HostError Float :=
  if y.isNaN || (x.abs == 1 && y.isInf) then .ok nan
  else if x == 0 && y < 0 then .ok (if isOdd y then copySign infinity x else infinity)
  else
    match pow x y with
    | .ok r => .ok r
    | .error e =>
      match e.kind with
      | .overflow => .ok (if x < 0 && isOdd y then -infinity else infinity)
      | .value => .ok nan
      | _ => .error e

end MiniLisp.Number
