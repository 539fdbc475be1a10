import MiniLisp.Number.Decimal

/-!
# Numerals

A numeral is a sign, digits, a fraction and an exponent. Source words, whole numbers and decimal
numbers differ only in which of these parts they allow, so one reader serves the three forms.
-/

namespace MiniLisp

/-- The parts of a number as it is written. -/
structure Numeral where
  negative : Bool
  whole : List Char
  fraction : List Char
  exponent : Int
deriving DecidableEq

namespace Numeral

/-- The decimal without its sign. -/
def decimal (n : Numeral) : Decimal :=
  ⟨Nat.ofDigitChars 10 (n.whole ++ n.fraction) 0, n.exponent - n.fraction.length⟩

/-- The nearest double; a negated zero is negative zero. -/
def toFloat (n : Numeral) : Float :=
  if n.negative then -n.decimal.toFloat else n.decimal.toFloat

/-- The most digits that a whole number may have where its length is limited. -/
def digitLimit : Nat := 4300

/-- Which parts a numeral may have besides its digits and a minus sign. -/
structure Form where
  plus : Bool
  fraction : Bool
  exponent : Bool

/-- A number word of the source language. -/
def Form.word : Form := { plus := false, fraction := true, exponent := false }

/-- A whole number. -/
def Form.whole : Form := { plus := true, fraction := false, exponent := false }

/-- A decimal number with all its parts. -/
def Form.decimal : Form := { plus := true, fraction := true, exponent := true }

/-- Takes a sign off; the Boolean tells whether it is a minus. -/
def splitSign (plus : Bool) : List Char → Bool × List Char
  | '-' :: cs => (true, cs)
  | '+' :: cs => if plus then (false, cs) else (false, '+' :: cs)
  | cs => (false, cs)

/-- Takes a fraction off: none, or a point and at least one digit. -/
def splitFraction (allowed : Bool) : List Char → Option (List Char × List Char)
  | '.' :: cs =>
    let digits := cs.takeWhile Char.isDigit
    if allowed && !digits.isEmpty then some (digits, cs.dropWhile Char.isDigit) else none
  | cs => some ([], cs)

/-- Reads an exponent that ends the text: none, or a mark, a sign and at least one digit. -/
def readExponent (allowed : Bool) : List Char → Option Int
  | [] => some 0
  | c :: cs =>
    let (negative, digits) := splitSign true cs
    if allowed && (c == 'e' || c == 'E') && !digits.isEmpty && digits.all Char.isDigit then
      let n := Nat.ofDigitChars 10 digits 0
      some (if negative then -(n : Int) else n)
    else none

/-- Reads a text that is a numeral of the given form from end to end. -/
def read (form : Form) (cs : List Char) : Option Numeral :=
  let (negative, cs) := splitSign form.plus cs
  let whole := cs.takeWhile Char.isDigit
  if whole.isEmpty then none
  else do
    let (fraction, cs) ← splitFraction form.fraction (cs.dropWhile Char.isDigit)
    let exponent ← readExponent form.exponent cs
    return { negative, whole, fraction, exponent }

end Numeral

end MiniLisp
