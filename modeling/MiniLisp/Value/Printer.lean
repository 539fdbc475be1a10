import MiniLisp.Number.Layout
import MiniLisp.Text.Quoted
import MiniLisp.Value.Basic

/-!
# The canonical text of values

Every value has exactly one canonical text. It is what `print` writes and what error messages show.
-/

namespace MiniLisp

/-- Texts one after the other, with a blank between two. -/
def spaced (texts : List (List Char)) : List Char :=
  List.intercalate [' '] texts

/-- The canonical text of an atom. -/
def Atom.chars : Atom → List Char
  | .number x => Layout.canonical.numberText x
  | .boolean b => (if b then "true" else "false").toList
  | .text s => Text.quoted s.toList

namespace Value

mutual

/-- The canonical text of a value, as characters. -/
def chars : Value → List Char
  | .atom a => a.chars
  | .symbol name => name.toList
  | .list flavor items => flavor.bracket.surround (spaced (itemChars items))
  | .braces entries => Bracket.curly.surround (spaced (itemChars entries))
  | .dictionary pairs => Bracket.curly.surround (spaced (pairChars pairs))
  | .native fn _ => "<native ".toList ++ fn.name.toList ++ ['>']
  | .closure params body _ _ =>
    "(lambda ".toList ++ Bracket.round.surround (spaced (params.map String.toList)) ++ [' '] ++
      chars body ++ [')']
  | .nothing => "None".toList

/-- The canonical texts of several values. -/
def itemChars : List Value → List (List Char)
  | [] => []
  | v :: rest => chars v :: itemChars rest

/-- The canonical texts of keys and values in turn. -/
def pairChars : List (String × Value) → List (List Char)
  | [] => []
  | (key, v) :: rest => Text.quoted key.toList :: chars v :: pairChars rest

end

theorem itemChars_eq_map (vs : List Value) : itemChars vs = vs.map chars := by
  induction vs with
  | nil => rfl
  | cons v rest ih => simp [itemChars, ih]

/-- The canonical text of a value. -/
def toText (v : Value) : String := String.ofList v.chars

end Value

end MiniLisp
