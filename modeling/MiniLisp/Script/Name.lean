/-!
# Names in scripts

A symbol becomes an identifier: hyphens turn into underscores, which no symbol has, and a word that
the script language keeps for itself gets a mark in front, which no symbol has either.
-/

namespace MiniLisp.Script

/-- The words that are no identifiers of a script, or that a script must not bind. -/
def reservedWords : List String :=
  ["await", "break", "case", "catch", "class", "const", "continue", "debugger", "default",
    "delete", "do", "else", "enum", "export", "extends", "false", "finally", "for", "function",
    "if", "implements", "import", "in", "instanceof", "interface", "let", "new", "null", "package",
    "private", "protected", "public", "return", "static", "super", "switch", "this", "throw",
    "true", "try", "typeof", "var", "void", "while", "with", "yield", "arguments", "eval",
    "undefined", "NaN", "Infinity"]

/-- A name with its hyphens turned into underscores. -/
def underscored (name : String) : String :=
  String.ofList (name.toList.map fun c => if c = '-' then '_' else c)

/-- The identifier of a name. -/
def mangle (name : String) : String :=
  let ident := underscored name
  if reservedWords.contains ident then "$" ++ ident else ident

end MiniLisp.Script
