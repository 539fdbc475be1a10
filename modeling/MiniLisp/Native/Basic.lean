/-!
# Native functions

The functions that a global scope starts with: their names and how many arguments they take.
-/

namespace MiniLisp

/-- The functions of two numbers. -/
inductive Operator where
  | add | sub | mul | div | mod | pow
  | eq | neq | lt | gt | lte | gte
deriving DecidableEq

namespace Operator

/-- The name that programs use. -/
def name : Operator → String
  | add => "add"
  | sub => "sub"
  | mul => "mul"
  | div => "div"
  | mod => "mod"
  | pow => "pow"
  | eq => "eq"
  | neq => "neq"
  | lt => "lt"
  | gt => "gt"
  | lte => "lte"
  | gte => "gte"

/-- The operators in the order of their bindings. -/
def all : List Operator :=
  [add, sub, mul, div, mod, pow, eq, neq, lt, gt, lte, gte]

end Operator

/-- How many arguments a function takes. -/
inductive Arity where
  | exactly (n : Nat)
  | atLeast (n : Nat)

/-- Whether a function takes so many arguments. -/
def Arity.allows : Arity → Nat → Bool
  | exactly n, given => given == n
  | atLeast n, given => n ≤ given

/-- The native functions. -/
inductive Native where
  /-- A function of two numbers. -/
  | operator (op : Operator)
  /-- The list of its arguments. -/
  | list
  /-- The vector of its arguments. -/
  | vector
  /-- The length of a list or text. -/
  | length
  /-- One element of a list or text. -/
  | nth
  /-- A run of elements of a list or text. -/
  | slice
  /-- Lists or texts one after the other. -/
  | concat
  /-- The same under another name. -/
  | join
  /-- The number that a text writes as a whole number. -/
  | parseInteger
  /-- The number that a text writes. -/
  | parseFloat
  /-- Writes a line of output. -/
  | print
deriving DecidableEq

namespace Native

/-- The name that programs use. -/
def name : Native → String
  | operator op => op.name
  | list => "list"
  | vector => "vector"
  | length => "length"
  | nth => "nth"
  | slice => "slice"
  | concat => "concat"
  | join => "join"
  | parseInteger => "parse-integer"
  | parseFloat => "parse-float"
  | print => "print"

/-- The natives that are not operators, in the order of their bindings. -/
def others : List Native :=
  [list, vector, length, nth, slice, concat, join, parseInteger, parseFloat, print]

/-- The natives in the order of their bindings. -/
def all : List Native := Operator.all.map operator ++ others

/-- The native of a name. -/
def ofName? (word : String) : Option Native :=
  all.find? (·.name == word)

/-- How many arguments a native takes. -/
def arity : Native → Arity
  | operator _ => .exactly 2
  | list => .atLeast 0
  | vector => .atLeast 0
  | length => .exactly 1
  | nth => .exactly 2
  | slice => .exactly 3
  | concat => .atLeast 1
  | join => .atLeast 1
  | parseInteger => .exactly 1
  | parseFloat => .exactly 1
  | print => .exactly 1

theorem ofName?_name (fn : Native) : ofName? fn.name = some fn := by
  cases fn with
  | operator op => cases op <;> rfl
  | _ => rfl

end Native

end MiniLisp
