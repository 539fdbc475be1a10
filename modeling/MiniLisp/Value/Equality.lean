import MiniLisp.Host
import MiniLisp.Value.Basic

/-!
# Equality of values

`Value.same` keeps the kinds of values apart and overlooks the flavor of lists; numbers are
compared as numbers, so that no value with a `NaN` in it is the same as itself. A function is the
same as no other function, whatever the two look like: it was made in some scope as one of those
made there (`Value.closure`). The comparison goes into the parts of values on the stack of the
host, and where they are nested too deeply there is no answer.
-/

namespace MiniLisp

/-- Equality of atoms; `exact` compares numbers by their bits. -/
def Atom.agree (exact : Bool) : Atom → Atom → Bool
  | .number x, .number y => if exact then x = y else x == y
  | .boolean a, .boolean b => a == b
  | .text s, .text t => s == t
  | _, _ => false

namespace Value

mutual

/-- Equality of values of any depth; `exact` compares numbers by their bits and lists with their
flavors. -/
def agree (exact : Bool) : Value → Value → Bool
  | .atom a, .atom b => a.agree exact b
  | .symbol m, .symbol n => m == n
  | .list f xs, .list g ys => (!exact || f == g) && agreeItems exact xs ys
  | .braces xs, .braces ys => agreeItems exact xs ys
  | .dictionary ps, .dictionary qs => agreePairs exact ps qs
  | .native f h, .native g k => f == g && h == k
  | .closure ps b s i, .closure qs c t j => s == t && i == j && ps == qs && agree true b c
  | .nothing, .nothing => true
  | _, _ => false

/-- Equality element by element. -/
def agreeItems (exact : Bool) : List Value → List Value → Bool
  | [], [] => true
  | x :: xs, y :: ys => agree exact x y && agreeItems exact xs ys
  | _, _ => false

/-- Equality pair by pair. -/
def agreePairs (exact : Bool) : List (String × Value) → List (String × Value) → Bool
  | [], [] => true
  | (j, x) :: ps, (k, y) :: qs => j == k && agree exact x y && agreePairs exact ps qs
  | _, _ => false

end

mutual

/-- Equality of values with so many frames of the host. A comparison takes one frame, six in all
around the items of two lists, and five around the pairs of two dictionaries. What has another
length is not gone into. -/
def sameWithin : Value → Value → (frames : Nat) → Except HostError Bool
  | .list _ xs, .list _ ys, frames => spend .recursion 6 frames fun left =>
    if xs.length = ys.length then sameItems xs ys left else .ok false
  | .braces xs, .braces ys, frames => spend .recursion 6 frames fun left =>
    if xs.length = ys.length then sameItems xs ys left else .ok false
  | .dictionary ps, .dictionary qs, frames => spend .recursion 5 frames fun left =>
    if ps.length = qs.length then samePairs ps qs left else .ok false
  | v, w, frames => spend .recursion 1 frames fun _ => .ok (agree false v w)

/-- Equality element by element, up to the first difference. -/
def sameItems : List Value → List Value → (frames : Nat) → Except HostError Bool
  | x :: xs, y :: ys, frames => do
    if ← sameWithin x y frames then sameItems xs ys frames else return false
  | _, _, _ => .ok true

/-- Equality pair by pair, up to the first difference. -/
def samePairs :
    List (String × Value) → List (String × Value) → (frames : Nat) → Except HostError Bool
  | (j, x) :: ps, (k, y) :: qs, frames => do
    if j == k then
      if ← sameWithin x y frames then samePairs ps qs frames else return false
    else return false
  | _, _, _ => .ok true

end

/-- The frames that a comparison has. -/
def sameAllowance : Nat := 992

/-- Equality that never relates two kinds of values. -/
def same (v w : Value) : Except HostError Bool := sameWithin v w sameAllowance

/-- The number that a truth value counts as. -/
def truthNumber (b : Bool) : Float := if b then 1 else 0

/-- Equality for which a truth value, standing alone, also equals the number it counts as. -/
def equal : Value → Value → Except HostError Bool
  | .atom (.boolean b), .atom (.number x) => .ok (truthNumber b == x)
  | .atom (.number x), .atom (.boolean b) => .ok (x == truthNumber b)
  | v, w => same v w

/-- The positions of the values that equal none of the values kept before them. -/
def distinct (vs : List Value) : Except HostError (List Nat) := do
  let kept ← vs.zipIdx.foldlM (fun (kept : List (Value × Nat)) vi => do
    if ← kept.anyM fun wi => wi.1.equal vi.1 then return kept else return kept ++ [vi]) []
  return kept.map (·.2)

end Value

end MiniLisp
