import MiniLisp.Number.Decimal

/-!
# The shortest decimal of a double

Of the decimals that read back as a given double, `Decimal.shortest` takes one with the fewest
digits, and of those the nearest. The search tries one, two, … seventeen digits. On the grid of
each length only the two neighbours of the number can be nearest, and the reader itself decides
whether a neighbour reads back. The exact expansion stands behind the search.
-/

namespace MiniLisp.Decimal

/-- The number `mantissa * 2 ^ exponent` as a quotient. -/
def ratio (mantissa : Nat) (exponent : Int) : Nat × Nat :=
  (mantissa * Nat.pow 2 exponent.toNat, Nat.pow 2 (-exponent).toNat)

/-- The `p` with `10 ^ (p - 1) ≤ num / den < 10 ^ p`, for positive `num` and `den`. -/
def magnitude (num den : Nat) : Int :=
  if den ≤ num then (Nat.toDigits 10 (num / den)).length
  else 1 - (Nat.toDigits 10 ((den - 1) / num)).length

/-- The two multiples of `10 ^ exponent` around `num / den`, the nearer one first; of two that
are equally near, the even one first. -/
def neighbours (num den : Nat) (exponent : Int) : List Decimal :=
  let a := num * Nat.pow 10 (-exponent).toNat
  let b := den * Nat.pow 10 exponent.toNat
  let low := a / b
  let rest := a % b
  let near := 2 * rest < b || (2 * rest == b && low % 2 == 0)
  if near then [⟨low, exponent⟩, ⟨low + 1, exponent⟩] else [⟨low + 1, exponent⟩, ⟨low, exponent⟩]

/-- The expansion of `mantissa * 2 ^ exponent` with all its digits. -/
def exact (mantissa : Nat) (exponent : Int) : Decimal :=
  ⟨mantissa * Nat.pow 2 exponent.toNat * Nat.pow 5 (-exponent).toNat, min exponent 0⟩

/-- The shortest decimal that reads back as `x`, where `x` is `mantissa * 2 ^ exponent`. -/
def shortest (x : Float) (mantissa : Nat) (exponent : Int) : Decimal :=
  let (num, den) := ratio mantissa exponent
  let top := magnitude num den
  let search := (List.range 17).findSome? fun (k : Nat) =>
    (neighbours num den (top - (k + 1))).find? fun d => d.toFloat = x
  search.getD (exact mantissa exponent)

end MiniLisp.Decimal
