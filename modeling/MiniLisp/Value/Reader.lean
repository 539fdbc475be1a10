import MiniLisp.Host
import MiniLisp.Text.Inspect
import MiniLisp.Token.Basic

/-!
# From tokens to values

The grammar of one expression:

    expr := number | symbol | text
          | ' expr              the list (quote expr)
          | ( expr … )          a list, not empty
          | [ expr … ]          a vector
          | { expr … }          a dictionary as written

The reader takes one token after the other and keeps a stack of the quotes and brackets that are
still open. A value that is finished closes the quotes above the next bracket and becomes an item
of it; without a bracket it is the result. The reader stops at the first token that cannot
continue any expression, and tells where.

The levels stand on the stack of the host. Where it is spent, reading one expression ends in an error
of the host (`Reader.Halt.exhausted`); reading all tokens makes a refusal of it
(`ParseError.tooDeep`).
-/

namespace MiniLisp

/-- Why tokens are refused. -/
inductive ParseError where
  /-- There is no expression at all. -/
  | emptyInput
  /-- A closing bracket that nothing opened, or an opening one that nothing closes. -/
  | unmatched (text : String) (position : Nat)
  /-- A closing bracket where another one was due. -/
  | mismatched (text : String) (position : Nat) (due : Bracket)
  /-- A quote before the end. -/
  | danglingQuote (position : Nat)
  /-- Round brackets with nothing between them. -/
  | emptyForm (position : Nat)
  /-- The end, or a token of a kind that no source has. -/
  | unexpectedEnd
  | tooDeep
  /-- A token behind the expression. -/
  | trailing (text : String) (position : Nat)
deriving DecidableEq

/-- The wording of a refusal. -/
def ParseError.message : ParseError → String
  | .emptyInput => "Empty input: expected an expression"
  | .unmatched text position => "Unmatched " ++ Text.inspect text ++ " at " ++ toString position
  | .mismatched text position due =>
    "Mismatched " ++ Text.inspect text ++ " at " ++ toString position ++ ": expected " ++
      Text.inspect due.closing.toString
  | .danglingQuote position => "Quote at " ++ toString position ++ " has nothing to quote"
  | .emptyForm position => "Empty symbolic expression at " ++ toString position
  | .unexpectedEnd => "Unexpected end of input"
  | .tooDeep => "Expression is nested too deeply"
  | .trailing text position =>
    "Input must be a single expression: unexpected " ++ Text.inspect text ++ " at " ++
      toString position

namespace Reader

/-- Why an expression cannot be read. -/
inductive Halt where
  /-- The tokens are refused. -/
  | refused (e : ParseError)
  /-- The stack of the host is spent. -/
  | exhausted
deriving DecidableEq

/-- What a halt is as a refusal. -/
def Halt.refusal : Halt → ParseError
  | refused e => e
  | exhausted => .tooDeep

/-- A construct whose end is not read yet. -/
inductive Level where
  | quote
  /-- A bracket with its opening token and the items so far, the last one first. -/
  | bracket (b : Bracket) (opener : Token) (items : List Value)

/-- How much of the allowance a level takes. -/
def Level.weight : Level → Nat
  | quote => 1
  | bracket .. => 2

/-- The allowance for nested levels. -/
def allowance : Nat := 992

/-- How much of the allowance a stack of levels takes. -/
def weight (stack : List Level) : Nat := (stack.map Level.weight).foldr (· + ·) 0

/-- The value of a quoted expression. -/
def quoted (v : Value) : Value := .list .plain [.symbol "quote", v]

/-- The value of a symbol. -/
def symbolValue (name : String) : Value :=
  if name = "true" then .boolean true
  else if name = "false" then .boolean false
  else .symbol name

/-- The value of closed brackets. -/
def close (b : Bracket) (items : List Value) : Value :=
  match b with
  | .round => .list .plain items
  | .square => .list .vector items
  | .curly => .braces items

/-- What a finished value makes of the open levels: the result, or the levels to go on with. -/
def finish (v : Value) : List Level → Except Value (List Level)
  | [] => .error v
  | .quote :: stack => finish (quoted v) stack
  | .bracket b opener items :: stack => .ok (.bracket b opener (v :: items) :: stack)

/-- What one token makes of the open levels. -/
inductive Step where
  /-- The token is taken. -/
  | next (stack : List Level)
  /-- The token is taken and finishes the expression. -/
  | done (v : Value)
  /-- The token is taken, and reading halts. -/
  | halt (e : Halt)
  /-- The token is refused and stays. -/
  | stop (e : ParseError)

/-- The token is taken and refused. -/
abbrev Step.refuse (e : ParseError) : Step := .halt (.refused e)

/-- A finished value as a step. -/
def give (v : Value) (stack : List Level) : Step :=
  match finish v stack with
  | .error v => .done v
  | .ok stack => .next stack

/-- Opens a level. -/
def enter (level : Level) (stack : List Level) : Step :=
  if weight (level :: stack) ≤ allowance then .next (level :: stack) else .halt .exhausted

/-- Whether the tokens are at their end. -/
def atEnd : List Token → Bool
  | [] => true
  | t :: _ => t.kind = .eof

/-- The step of a token that begins an expression; `rest` are the tokens after it. -/
def beginWith (t : Token) (rest : List Token) (stack : List Level) : Step :=
  match t.kind with
  | .number => give t.value stack
  | .text => give t.value stack
  | .symbol => give (symbolValue t.text) stack
  | .quote => if atEnd rest then .refuse (.danglingQuote t.position) else enter .quote stack
  | .opener b => enter (.bracket b t []) stack
  | .closer _ => .refuse (.unmatched t.text t.position)
  | .eof => .stop .unexpectedEnd
  | .other _ => .refuse .unexpectedEnd

/-- The step of a token where an item or the closing bracket is due. -/
def continueWith (t : Token) (rest : List Token) (b : Bracket) (opener : Token)
    (items : List Value) (stack : List Level) : Step :=
  match t.kind with
  | .closer b' =>
    if b' ≠ b then .stop (.mismatched t.text t.position b)
    else if b = .round ∧ items = [] then .refuse (.emptyForm opener.position)
    else give (close b items.reverse) stack
  | .eof => .stop (.unmatched opener.text opener.position)
  | _ => beginWith t rest (.bracket b opener items :: stack)

/-- The step of a token. -/
def step (t : Token) (rest : List Token) : List Level → Step
  | .bracket b opener items :: stack => continueWith t rest b opener items stack
  | stack => beginWith t rest stack

/-- What the reader gives: a value or why there is none, and the tokens that it did not take. -/
structure Reading (ε : Type) where
  result : Except ε Value
  rest : List Token

/-- Reads tokens until the expression is finished or refused. -/
def run : List Level → List Token → Reading Halt
  | .bracket _ opener _ :: _, [] =>
    ⟨.error (.refused (.unmatched opener.text opener.position)), []⟩
  | _, [] => ⟨.error (.refused .unexpectedEnd), []⟩
  | stack, t :: rest =>
    match step t rest stack with
    | .next stack => run stack rest
    | .done v => ⟨.ok v, rest⟩
    | .halt e => ⟨.error e, rest⟩
    | .stop e => ⟨.error (.refused e), t :: rest⟩

/-- Reads one expression and leaves what follows it. -/
def readExpr (tokens : List Token) : Reading Halt := run [] tokens

/-- Reads tokens that are one expression from beginning to end. -/
def readAll (tokens : List Token) : Reading ParseError :=
  if atEnd tokens then ⟨.error .emptyInput, tokens⟩
  else
    match readExpr tokens with
    | ⟨.error e, rest⟩ => ⟨.error e.refusal, rest⟩
    | ⟨.ok v, rest⟩ =>
      match rest with
      | [] => ⟨.ok v, []⟩
      | t :: _ =>
        if t.kind = .eof then ⟨.ok v, rest⟩ else ⟨.error (.trailing t.text t.position), rest⟩

end Reader

/-- The value that tokens write. -/
def parse (tokens : List Token) : Except ParseError Value :=
  (Reader.readAll tokens).result

end MiniLisp
