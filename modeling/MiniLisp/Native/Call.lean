import MiniLisp.Fault
import MiniLisp.Number.Arithmetic
import MiniLisp.Number.Numeral
import MiniLisp.Sequence
import MiniLisp.Text.Blank

/-!
# Calls of native functions

What each native gives for its arguments. No native takes a value of one kind for a value of
another: every mismatch is a fault. What the host refuses in a native becomes a fault of its own
(`Fault.leaked`), which all the checks are there to rule out.
-/

namespace MiniLisp

namespace Operator

/-- The value of an operator on two numbers. -/
def apply (op : Operator) (x y : Float) : Except HostError Value :=
  match op with
  | add => .ok (.number (x + y))
  | sub => .ok (.number (x - y))
  | mul => .ok (.number (x * y))
  | div => (Number.quotient x y).map .number
  | mod => (Number.modulo x y).map .number
  | pow => (Number.power x y).map .number
  | eq => .ok (.boolean (x == y))
  | neq => .ok (.boolean (x != y))
  | lt => .ok (.boolean (x < y))
  | gt => .ok (.boolean (y < x))
  | lte => .ok (.boolean (x ≤ y))
  | gte => .ok (.boolean (y ≤ x))

/-- A call of an operator. -/
def call (op : Operator) : Value → Value → Except Fault Value
  | .atom (.number x), .atom (.number y) => (op.apply x y).mapError .leaked
  | x, y => .error (.notNumbers op x y)

end Operator

namespace Native

/-! ## Sequences -/

/-- The index that a value gives. -/
def index (fn : Native) (v : Value) : Except Fault Int :=
  match v with
  | .atom (.number x) =>
    if Number.isInteger x then (Number.toInt x).mapError .leaked else .error (.badIndex fn v)
  | _ => .error (.badIndex fn v)

/-- The length of a list or text. -/
def lengthOf : Value → Except Fault Value
  | .list _ items => .ok (.number (Number.ofNat items.length))
  | .atom (.text s) => .ok (.number (Number.ofNat s.length))
  | v => .error (.notSequence .length v)

/-- The element of `xs`, a sequence of some kind, at an index that does not count from the end. -/
def element {α : Type} (kind : String) (xs : List α) (give : α → Value) (i : Int) :
    Except Fault Value :=
  if 0 ≤ i ∧ i < xs.length then ((Sequence.pick kind xs i).map give).mapError .leaked
  else .error (.outOfRange i xs.length)

/-- The text of one character. -/
def charText (c : Char) : Value := .text (String.ofList [c])

/-- One element of a list, or one character of a text. -/
def nthOf (seq i : Value) : Except Fault Value :=
  match seq with
  | .list _ items => do element "tuple" items id (← index .nth i)
  | .atom (.text s) => do element "string" s.toList charText (← index .nth i)
  | v => .error (.notSequence .nth v)

/-- The elements of a list, or the characters of a text, between two indices. -/
def sliceOf (seq low high : Value) : Except Fault Value := do
  let low ← index .slice low
  let high ← index .slice high
  match seq with
  | .list flavor items => return .list flavor (Sequence.slice items low high)
  | .atom (.text s) => return .text (String.ofList (Sequence.slice s.toList low high))
  | v => throw (.notSequence .slice v)

/-- The elements of several lists one after the other. -/
def joinItems : List Value → Except Fault (List Value)
  | [] => .ok []
  | .list _ items :: rest => (joinItems rest).map (items ++ ·)
  | v :: _ => .error (.notJoinableToList v)

/-- The characters of several texts one after the other. -/
def joinChars : List Value → Except Fault (List Char)
  | [] => .ok []
  | .atom (.text s) :: rest => (joinChars rest).map (s.toList ++ ·)
  | v :: _ => .error (.notJoinableToText v)

/-- Lists, or texts, one after the other; the first one decides which, and the flavor of a list. -/
def joined (first : Value) (rest : List Value) : Except Fault Value :=
  match first with
  | .list flavor _ => (joinItems (first :: rest)).map (.list flavor)
  | .atom (.text _) => (joinChars (first :: rest)).map fun cs => .text (String.ofList cs)
  | v => .error (.notJoinable v)

/-! ## Readers of numbers -/

/-- The number that a text writes as a whole number. It has no negative zero. -/
def readInteger (s : String) : Except Fault Value :=
  match Numeral.read .whole (Text.strip s.toList) with
  | none => .error (.notInteger s)
  | some n =>
    if Numeral.digitLimit < n.whole.length then .error (.tooManyDigits n.whole.length)
    else if n.toFloat.isInf then .error .tooLarge
    else if n.decimal.coefficient = 0 then .ok (.number n.decimal.toFloat)
    else .ok (.number n.toFloat)

/-- The number that a text writes. -/
def readDecimal (s : String) : Except Fault Value :=
  match Numeral.read .decimal (Text.strip s.toList) with
  | none => .error (.notDecimal s)
  | some n => .ok (.number n.toFloat)

/-! ## All natives -/

/-- What a native does with its arguments. It takes them apart as if their number were right. -/
def run (fn : Native) (args : List Value) : Except Fault Value :=
  match fn, args with
  | operator op, [x, y] => op.call x y
  | list, args => .ok (.list .plain args)
  | vector, args => .ok (.list .vector args)
  | length, [seq] => lengthOf seq
  | nth, [seq, i] => nthOf seq i
  | slice, [seq, low, high] => sliceOf seq low high
  | concat, first :: rest => joined first rest
  | join, first :: rest => joined first rest
  | parseInteger, .atom (.text s) :: _ => readInteger s
  | parseInteger, v :: _ => .error (.notText parseInteger v)
  | parseFloat, .atom (.text s) :: _ => readDecimal s
  | parseFloat, v :: _ => .error (.notText parseFloat v)
  | print, v :: _ => .ok v
  | operator _, args => .error (.leaked (.unpacking 2 args.length))
  | length, args => .error (.leaked (.unpacking 1 args.length))
  | nth, args => .error (.leaked (.unpacking 2 args.length))
  | slice, args => .error (.leaked (.unpacking 3 args.length))
  | _, [] => .error (.leaked (.index "list"))

/-- What a native gives for its arguments. -/
def call (fn : Native) (args : List Value) : Except Fault Value :=
  if fn.arity.allows args.length then fn.run args
  else .error (.nativeArity fn args.length)

end Native

end MiniLisp
