import MiniLisp.Value.Basic

/-!
# Tokens

A token is a lexeme with its place in the source and the value that it carries.
-/

namespace MiniLisp

namespace Token

/-- The kinds of tokens. -/
inductive Kind where
  | number
  | symbol
  | text
  | quote
  | opener (b : Bracket)
  | closer (b : Bracket)
  /-- The end of the source. -/
  | eof
  /-- A kind that no source has. -/
  | other (name : String)
deriving DecidableEq

namespace Kind

/-- The name of a kind. -/
def name : Kind → String
  | number => "number"
  | symbol => "symbol"
  | text => "string"
  | quote => "quote"
  | opener .round => "lparen"
  | opener .square => "lbracket"
  | opener .curly => "lbrace"
  | closer .round => "rparen"
  | closer .square => "rbracket"
  | closer .curly => "rbrace"
  | eof => "eof"
  | other name => name

/-- The kinds that a source can have. -/
def standard : List Kind :=
  [number, symbol, text, quote, opener .round, opener .square, opener .curly, closer .round,
    closer .square, closer .curly, eof]

/-- The kind of a name. -/
def ofName (word : String) : Kind :=
  (standard.find? (·.name == word)).getD (other word)

end Kind

end Token

/-- A lexeme of the source. -/
structure Token where
  kind : Token.Kind
  /-- The characters of the source. -/
  text : String
  /-- How many characters stand before it. -/
  position : Nat
  /-- The number, the text without its quotes, or the name of the symbol. -/
  value : Value := .nothing

namespace Token

/-- The token that ends a source of the given length. -/
def ending (position : Nat) : Token := { kind := .eof, text := "", position }

/-- How a token is called. -/
def describe (t : Token) : String :=
  if t.kind = .eof then "end of input" else t.text

end Token

end MiniLisp
