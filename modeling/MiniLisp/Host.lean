/-!
# Errors of the host

The interpreter is built on operations that a host offers: arithmetic on doubles, conversions,
sequences, and calls on a stack. Each of them refuses some of its inputs with an error of its own.
The interpreter stands guard before most of them; an error that it does not expect leaves it as it
is.
-/

namespace MiniLisp

/-- What an operation of the host refuses. -/
inductive HostError where
  /-- Calls that are nested deeper than the stack is high. -/
  | recursion
  /-- A division by zero. -/
  | division
  /-- A function where it has no value. -/
  | domain
  /-- A function whose value is too large. -/
  | range
  /-- The whole number of what is not a number. -/
  | integerOfNaN
  /-- The whole number of an infinity. -/
  | integerOfInfinity
  /-- An index beyond one of the ends of a sequence of some kind. -/
  | index (sequence : String)
  /-- More or fewer values than there are names for them. -/
  | unpacking (due given : Nat)
deriving DecidableEq

namespace HostError

/-- The kinds of errors that the host tells apart. -/
inductive Kind where
  | recursion
  | division
  | value
  | overflow
  | index
deriving DecidableEq

/-- The kind of an error. -/
def kind : HostError → Kind
  | recursion => .recursion
  | division => .division
  | domain | integerOfNaN | unpacking .. => .value
  | range | integerOfInfinity => .overflow
  | index _ => .index

/-- The wording of an error. -/
def message : HostError → String
  | recursion => "maximum recursion depth exceeded"
  | division => "float division by zero"
  | domain => "math domain error"
  | range => "math range error"
  | integerOfNaN => "cannot convert float NaN to integer"
  | integerOfInfinity => "cannot convert float infinity to integer"
  | index sequence => sequence ++ " index out of range"
  | unpacking due given =>
    if given < due then
      "not enough values to unpack (expected " ++ toString due ++ ", got " ++ toString given ++ ")"
    else "too many values to unpack (expected " ++ toString due ++ ")"

end HostError

/-- Spends frames of the stack, if there are so many, and goes on with those that are left. -/
def spend {ε α : Type} (spent : ε) (cost frames : Nat) (rest : Nat → Except ε α) : Except ε α :=
  if cost ≤ frames then rest (frames - cost) else .error spent

/-- A result, if there are the frames that it takes. -/
def afford {ε α : Type} (spent : ε) (cost frames : Nat) (a : α) : Except ε α :=
  spend spent cost frames fun _ => .ok a

section Afford

variable {ε α β : Type} {spent : ε} {a b : α}

theorem afford_of_le {cost frames : Nat} (h : cost ≤ frames) : afford spent cost frames a = .ok a :=
  if_pos h

theorem afford_of_lt {cost frames : Nat} (h : frames < cost) :
    afford spent cost frames a = .error spent :=
  if_neg (Nat.not_le.2 h)

variable (spent) (a) (c d frames : Nat)

theorem spend_afford :
    spend spent c frames (fun left => afford spent d left a) = afford spent (c + d) frames a := by
  unfold afford spend
  by_cases hc : c ≤ frames
  · have hiff : d ≤ frames - c ↔ c + d ≤ frames := by omega
    simp only [if_pos hc, hiff]
  · rw [if_neg hc, if_neg (by omega)]

/-- Two results, one after the other, with the same frames. -/
theorem afford_bind (b : β) :
    (afford spent c frames a >>= fun _ => afford spent d frames b) =
      afford spent (max c d) frames b := by
  rcases Nat.lt_or_ge frames c with hlt | hle
  · rw [afford_of_lt hlt, afford_of_lt (Nat.lt_of_lt_of_le hlt (Nat.le_max_left c d))]
    rfl
  · have hiff : max c d ≤ frames ↔ d ≤ frames := by omega
    rw [afford_of_le hle]
    unfold afford spend
    simp only [hiff]
    rfl

end Afford

end MiniLisp
