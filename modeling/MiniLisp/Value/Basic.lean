import MiniLisp.Native.Basic

/-!
# Values

Code is data: what the reader gives, what the evaluator takes and what it gives back are values of
one type.
-/

namespace MiniLisp

/-- The values without parts. -/
inductive Atom where
  | number (x : Float)
  | boolean (b : Bool)
  | text (s : String)
deriving DecidableEq

/-- The pairs of brackets. -/
inductive Bracket where
  | round
  | square
  | curly
deriving DecidableEq

namespace Bracket

/-- The opening character. -/
def opening : Bracket → Char
  | round => '('
  | square => '['
  | curly => '\x7b'

/-- The closing character. -/
def closing : Bracket → Char
  | round => ')'
  | square => ']'
  | curly => '\x7d'

/-- A text between brackets. -/
def surround (b : Bracket) (cs : List Char) : List Char :=
  [b.opening] ++ cs ++ [b.closing]

end Bracket

/-- Lists come in two flavors: a plain list is an application when it is evaluated, a vector is
the list of its evaluated elements. -/
inductive Flavor where
  | plain
  | vector
deriving DecidableEq

/-- The brackets that a list of this flavor stands in. -/
def Flavor.bracket : Flavor → Bracket
  | plain => .round
  | vector => .square

/-- Scopes are known by the number of scopes that were made before them. -/
abbrev ScopeId := Nat

/-- Values, expressions among them. -/
inductive Value where
  | atom (a : Atom)
  | symbol (name : String)
  | list (flavor : Flavor) (items : List Value)
  /-- A dictionary as it is written: keys and values in turn, not yet checked. -/
  | braces (entries : List Value)
  /-- A dictionary: keys with their values, in the order of writing. -/
  | dictionary (pairs : List (String × Value))
  /-- A native function; `home` tells the sets of natives apart. -/
  | native (fn : Native) (home : Nat)
  /-- A function with the scope that it was made in; `serial` tells the functions made there
  apart. -/
  | closure (params : List String) (body : Value) (scope : ScopeId) (serial : Nat)
  /-- The absence of a value, which no program can write. -/
  | nothing

namespace Value

/-- A number as a value. -/
abbrev number (x : Float) : Value := atom (.number x)

/-- A truth value as a value. -/
abbrev boolean (b : Bool) : Value := atom (.boolean b)

/-- A text as a value. -/
abbrev text (s : String) : Value := atom (.text s)

instance : Inhabited Value := ⟨nothing⟩

end Value

end MiniLisp
