import MiniLisp.Number.Layout
import MiniLisp.Text.Inspect
import MiniLisp.Value.Basic

/-!
# The diagnostic text of values

How listings of scopes show a value: the kind of every compound value is spelled out.
-/

namespace MiniLisp

/-- Texts one after the other, with a comma and a blank between two. -/
def commaSeparated (texts : List String) : String :=
  String.intercalate ", " texts

/-- The diagnostic text of an atom. -/
def Atom.inspect : Atom → String
  | .number x => String.ofList (Layout.diagnostic.numberText x)
  | .boolean b => if b then "True" else "False"
  | .text s => Text.inspect s

/-- The diagnostic name of a flavor. -/
def Flavor.inspect : Flavor → String
  | .plain => "list"
  | .vector => "vector"

namespace Value

mutual

/-- The diagnostic text of a value. -/
def inspect : Value → String
  | .atom a => a.inspect
  | .symbol name => "Symbol(" ++ Text.inspect name ++ ")"
  | .list flavor items =>
    "List([" ++ commaSeparated (inspectItems items) ++ "], " ++ flavor.inspect ++ ")"
  | .braces entries => "DictionaryLiteral([" ++ commaSeparated (inspectItems entries) ++ "])"
  | .dictionary pairs => "Dictionary([" ++ commaSeparated (inspectPairs pairs) ++ "])"
  | .native fn _ => "<native " ++ fn.name ++ ">"
  | .closure params _ _ _ => "<Lambda (" ++ String.intercalate " " params ++ ")>"
  | .nothing => "None"

/-- The diagnostic texts of several values. -/
def inspectItems : List Value → List String
  | [] => []
  | v :: rest => inspect v :: inspectItems rest

/-- The diagnostic texts of keys with their values. -/
def inspectPairs : List (String × Value) → List String
  | [] => []
  | (key, v) :: rest => ("(" ++ Text.inspect key ++ ", " ++ inspect v ++ ")") :: inspectPairs rest

end

/-- The diagnostic text, but the bare text of a text and the bare name of a symbol. -/
def display : Value → String
  | .atom (.text s) => s
  | .symbol name => name
  | v => v.inspect

end Value

end MiniLisp
