/-!
# Special forms

The six words that begin an expression with evaluation rules of its own.
-/

namespace MiniLisp

/-- The special forms. -/
inductive Form where
  /-- Binds a name in the current scope. -/
  | define
  /-- Gives a bound name a new value. -/
  | assign
  /-- Evaluates expressions in order. -/
  | sequence
  /-- Chooses between two expressions. -/
  | choose
  /-- Makes a function. -/
  | lambda
  /-- Gives an expression as data. -/
  | quote
deriving DecidableEq

namespace Form

/-- The word that begins the form. -/
def name : Form → String
  | define => "def"
  | assign => "set"
  | sequence => "do"
  | choose => "if"
  | lambda => "lambda"
  | quote => "quote"

/-- The forms in their usual order. -/
def all : List Form := [define, assign, sequence, choose, lambda, quote]

/-- The form that a word begins. -/
def ofName? (word : String) : Option Form :=
  all.find? (·.name == word)

theorem ofName?_name (f : Form) : ofName? f.name = some f := by
  cases f <;> rfl

theorem name_of_ofName? {word : String} {f : Form} (h : ofName? word = some f) : f.name = word := by
  simpa using List.find?_some h

end Form

end MiniLisp
