import MiniLisp.Number.Shortest

/-!
# Number text

A finite number is written with its shortest digits, either positionally or with an exponent. A
`Layout` holds the decisions of one style: the canonical style of values and scripts, and the
diagnostic style of listings.
-/

namespace MiniLisp

/-- The decisions of a number style. -/
structure Layout where
  /-- Positional when the point stands right of this place … -/
  least : Int
  /-- … and not right of this one. -/
  most : Int
  /-- Whole numbers end in `.0`. -/
  fraction : Bool
  /-- The least number of digits of an exponent. -/
  exponentWidth : Nat
  /-- Negative zero keeps its sign. -/
  signedZero : Bool
  /-- The text of the number that is not a number. -/
  nan : String
  /-- The text of positive infinity. -/
  infinity : String

namespace Layout

/-- The style of values and scripts. -/
def canonical : Layout :=
  { least := -6, most := 21, fraction := false, exponentWidth := 1, signedZero := false,
    nan := "NaN", infinity := "Infinity" }

/-- The style of listings. -/
def diagnostic : Layout :=
  { least := -4, most := 16, fraction := true, exponentWidth := 2, signedZero := true,
    nan := "nan", infinity := "inf" }

/-- Whether a number with its point at `n` is written without an exponent. -/
def positional (l : Layout) (n : Int) : Bool :=
  l.least < n && n ≤ l.most

/-- A whole number that ends in `.0` where the style asks for it. -/
def tail (l : Layout) : List Char :=
  if l.fraction then ['.', '0'] else []

/-- Digits with their point at `n`, without an exponent. -/
def place (l : Layout) (digits : List Char) (n : Int) : List Char :=
  if digits.length ≤ n then digits ++ List.replicate (n.toNat - digits.length) '0' ++ l.tail
  else if 0 < n then digits.take n.toNat ++ ['.'] ++ digits.drop n.toNat
  else ['0', '.'] ++ List.replicate (-n).toNat '0' ++ digits

/-- The first digit, the others behind a point. -/
def mantissa : List Char → List Char
  | [] => []
  | [d] => [d]
  | d :: rest => [d, '.'] ++ rest

/-- An exponent with its sign. -/
def exponentText (l : Layout) (e : Int) : List Char :=
  let digits := Nat.toDigits 10 e.natAbs
  [if 0 ≤ e then '+' else '-'] ++ List.replicate (l.exponentWidth - digits.length) '0' ++ digits

/-- The text of the positive number `0.digits * 10 ^ n`. -/
def digitText (l : Layout) (digits : List Char) (n : Int) : List Char :=
  if l.positional n then l.place digits n
  else mantissa digits ++ ['e'] ++ l.exponentText (n - 1)

/-- The text of a decimal. -/
def decimalText (l : Layout) (d : Decimal) : List Char :=
  l.digitText d.significant d.point

/-- The sign of a number text. -/
def signText : Float.Model.UnpackedFloat.Sign → List Char
  | .positive => []
  | .negative => ['-']

/-- The text of a number. -/
def numberText (l : Layout) (x : Float) : List Char :=
  match x.toModel.unpack with
  | .notANumber => l.nan.toList
  | .infinity s => signText s ++ l.infinity.toList
  | .zero s => (if l.signedZero then signText s else []) ++ ['0'] ++ l.tail
  | .finite s m e _ => signText s ++ l.decimalText (Decimal.shortest x.abs m e)

end Layout

end MiniLisp
