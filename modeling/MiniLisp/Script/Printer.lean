import MiniLisp.Host
import MiniLisp.Script.Basic
import MiniLisp.Value.Printer

/-!
# The text of scripts

An operand that is itself composed of parts stands in round brackets, so that no text depends on
which operator binds tighter. A text is written on the stack of the host, part by part; a tree that
is nested too deeply has none.
-/

namespace MiniLisp

/-- Numbers of scripts keep the sign of zero, which a division can show. -/
def Layout.script : Layout := { Layout.canonical with signedZero := true }

namespace Script

/-- A text in round brackets where it is nested. -/
def wrap (nested : Bool) (cs : List Char) : List Char :=
  if nested then Bracket.round.surround cs else cs

/-- Texts with a comma and a blank between two. -/
def listed (texts : List (List Char)) : List Char :=
  List.intercalate [',', ' '] texts

/-- The text of a literal; a negative number is wrapped where it is nested. -/
def literalChars (nested : Bool) : Atom → List Char
  | .number x =>
    let cs := Layout.script.numberText x
    wrap (nested && cs.head? == some '-') cs
  | a => a.chars

mutual

/-- The text of a script, as characters. -/
def chars (nested : Bool) : Script → List Char
  | .literal a => literalChars nested a
  | .identifier name => name.toList
  | .binary op left right =>
    wrap nested (chars true left ++ [' '] ++ op.toList ++ [' '] ++ chars true right)
  | .array items => Bracket.square.surround (listed (itemChars items))
  | .call callee args => chars true callee ++ Bracket.round.surround (listed (itemChars args))
  | .function params body =>
    wrap nested
      (Bracket.round.surround (listed (params.map String.toList)) ++ " => ".toList ++
        chars true body)
  | .sequence items => Bracket.round.surround (listed (itemChars items))
  | .conditional test yes no =>
    wrap nested
      (chars true test ++ " ? ".toList ++ chars true yes ++ " : ".toList ++ chars true no)
  | .assignment target value =>
    wrap nested (chars true target ++ " = ".toList ++ chars true value)
  | .hole => []

/-- The texts of several nested scripts. -/
def itemChars : List Script → List (List Char)
  | [] => []
  | s :: rest => chars true s :: itemChars rest

end

/-- The text of a script. -/
def toText (s : Script) : String := String.ofList (s.chars false)

/-- Why a tree has no text. -/
inductive PrintError where
  /-- There is a hole in it. -/
  | hole
  /-- It is nested too deeply for the stack of the host. -/
  | host (e : HostError)
deriving DecidableEq

/-- The wording of a refusal. -/
def PrintError.message : PrintError → String
  | .hole => "Cannot serialize None"
  | .host e => e.message

mutual

/-- Goes through a tree from left to right, as its text is written, with so many frames of the host.
Every tree takes a frame, and one with a list of parts takes two more around them. -/
def walk : Script → (frames : Nat) → Except PrintError Unit
  | .literal _, frames => spend (.host .recursion) 1 frames fun _ => .ok ()
  | .identifier _, frames => spend (.host .recursion) 1 frames fun _ => .ok ()
  | .binary _ left right, frames => spend (.host .recursion) 1 frames fun frames => do
    walk left frames
    walk right frames
  | .array items, frames => spend (.host .recursion) 3 frames fun frames => walkAll items frames
  | .call callee args, frames => spend (.host .recursion) 1 frames fun frames => do
    walk callee frames
    spend (.host .recursion) 2 frames fun frames => walkAll args frames
  | .function _ body, frames => spend (.host .recursion) 1 frames fun frames => walk body frames
  | .sequence items, frames => spend (.host .recursion) 3 frames fun frames => walkAll items frames
  | .conditional test yes no, frames => spend (.host .recursion) 1 frames fun frames => do
    walk test frames
    walk yes frames
    walk no frames
  | .assignment target value, frames => spend (.host .recursion) 1 frames fun frames => do
    walk target frames
    walk value frames
  | .hole, frames => spend (.host .recursion) 1 frames fun _ => .error .hole

/-- Goes through several trees. -/
def walkAll : List Script → (frames : Nat) → Except PrintError Unit
  | [], _ => .ok ()
  | s :: rest, frames => do
    walk s frames
    walkAll rest frames

end

/-- The frames that writing a text has. -/
def printAllowance : Nat := 990

/-- The text of a script, if there is a way through it. -/
def print (s : Script) : Except PrintError String := do
  s.walk printAllowance
  return s.toText

end Script

end MiniLisp
