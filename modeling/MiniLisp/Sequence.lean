import MiniLisp.Host

/-!
# Positions in sequences

Indices are integers; a negative one counts from the end.
-/

namespace MiniLisp.Sequence

/-- The cut that an index makes in a sequence of length `n`: a negative index has the length added,
and the cut stays between the two ends. -/
def cut (n : Nat) (i : Int) : Nat :=
  if i < 0 then (i + n).toNat else min i.toNat n

/-- The elements between two cuts. -/
def slice {α : Type} (xs : List α) (low high : Int) : List α :=
  (xs.take (cut xs.length high)).drop (cut xs.length low)

/-- The element at an index that does not count from the end. -/
def nth? {α : Type} (xs : List α) (i : Int) : Option α :=
  if i < 0 then none else xs[i.toNat]?

/-- The element at an index that may count from the end, of a sequence of some kind. -/
def pick {α : Type} (kind : String) (xs : List α) (i : Int) : Except HostError α :=
  match nth? xs (if i < 0 then i + xs.length else i) with
  | some x => .ok x
  | none => .error (.index kind)

end MiniLisp.Sequence
