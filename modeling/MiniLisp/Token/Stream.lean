import MiniLisp.Value.Reader

/-!
# Token streams

A stream is a list of tokens that ends in an end token, with the number of tokens that are taken
already.
-/

namespace MiniLisp

/-- Tokens with a place among them. -/
structure Stream where
  tokens : List Token
  index : Nat

namespace Stream

/-- A stream at its beginning; an end token is added where there is none. -/
def ofTokens (tokens : List Token) : Stream :=
  match tokens.getLast? with
  | none => ⟨[Token.ending 0], 0⟩
  | some last =>
    if last.kind = .eof then ⟨tokens, 0⟩
    else ⟨tokens ++ [Token.ending (last.position + last.text.length)], 0⟩

/-- The tokens that are not taken yet. -/
def rest (s : Stream) : List Token := s.tokens.drop s.index

/-- The token at the place of the stream. -/
def peek (s : Stream) : Token := s.rest.headD (Token.ending 0)

/-- Whether the stream is at an end token. -/
def atEnd (s : Stream) : Bool := s.peek.kind = .eof

/-- Takes a token; an end token stays. -/
def advance (s : Stream) : Token × Stream :=
  (s.peek, if s.atEnd then s else { s with index := s.index + 1 })

/-- The stream with only the tokens `rest` left. -/
def leave (s : Stream) (rest : List Token) : Stream :=
  { s with index := s.tokens.length - rest.length }

/-- Reads one expression. -/
def parseExpr (s : Stream) : Except Reader.Halt Value × Stream :=
  let reading := Reader.readExpr s.rest
  (reading.result, s.leave reading.rest)

/-- Reads one expression that ends the stream. -/
def parse (s : Stream) : Except ParseError Value × Stream :=
  let reading := Reader.readAll s.rest
  (reading.result, s.leave reading.rest)

end Stream

end MiniLisp
