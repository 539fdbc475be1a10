import MiniLisp.Text.Printable
import MiniLisp.Text.Quoted

/-!
# Diagnostic text

How error messages and listings show a text: in single quotes, or in double quotes if that saves
escaping, with an escape for every character that is not printable.
-/

namespace MiniLisp.Text

/-- The quote that a diagnostic text stands in. -/
def inspectQuote (cs : List Char) : Char :=
  if cs.contains '\x27' && !cs.contains '"' then '"' else '\x27'

/-- A character of a diagnostic text that stands between two marks `quote`. -/
def inspectChar (quote c : Char) : List Char :=
  if c = quote ∨ c = '\\' then ['\\', c]
  else if c = '\t' then ['\\', 't']
  else if c = '\n' then ['\\', 'n']
  else if c = '\r' then ['\\', 'r']
  else if isPrintable c then [c]
  else if c.toNat < 0x100 then ['\\', 'x'] ++ hex 2 c.toNat
  else if c.toNat < 0x10000 then ['\\', 'u'] ++ hex 4 c.toNat
  else ['\\', 'U'] ++ hex 8 c.toNat

/-- The diagnostic form of a text. -/
def inspect (s : String) : String :=
  let quote := inspectQuote s.toList
  String.ofList ([quote] ++ s.toList.flatMap (inspectChar quote) ++ [quote])

end MiniLisp.Text
