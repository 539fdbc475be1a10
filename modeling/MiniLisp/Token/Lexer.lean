import MiniLisp.Number.Numeral
import MiniLisp.Text.Blank
import MiniLisp.Text.Inspect
import MiniLisp.Token.Basic

/-!
# From text to tokens

The source is cut into lexemes from left to right. A gap (blanks or a comment) gives no token. A
word is taken as long as it goes and judged as a whole, so that `1.` and `foo-` fail as they stand
and do not fall apart into smaller lexemes. The first lexeme that cannot be judged is the error.
-/

namespace MiniLisp

/-- Why a lexeme is refused. -/
inductive LexCause where
  /-- A character that begins no lexeme. -/
  | unexpected
  /-- A text without its closing quote. -/
  | unterminated
  /-- A text with an escape that has no meaning. -/
  | unknownEscape (c : Char)
  | leadingHyphen
  | trailingHyphen
  | leadingPoint
  | trailingPoint
  /-- Any other word that is neither a number nor a symbol. -/
  | malformed
deriving DecidableEq

/-- A refused lexeme with its place. -/
structure LexError where
  cause : LexCause
  lexeme : String
  position : Nat
deriving DecidableEq

/-- The wording of a refusal. -/
def LexError.message (e : LexError) : String :=
  let word := Text.inspect e.lexeme
  let place := toString e.position
  match e.cause with
  | .unexpected => "Unexpected character at " ++ place ++ ": " ++ word
  | .unterminated => "Unterminated string starting at " ++ place
  | .unknownEscape c => "Unknown escape sequence \\" ++ c.toString ++ " in string"
  | .leadingHyphen => "Symbol cannot begin with a hyphen: " ++ word
  | .trailingHyphen => "Symbol cannot end with a hyphen: " ++ word
  | .leadingPoint => "Number cannot begin with a decimal point: " ++ word
  | .trailingPoint => "Number cannot end with a decimal point: " ++ word
  | .malformed => "Malformed number or symbol: " ++ word

namespace Lexer

/-! ## Words -/

/-- The characters of numbers and symbols. -/
def isWordChar (c : Char) : Bool :=
  c.isAlphanum || c == '.' || c == '-'

/-- A letter, then letters, digits and hyphens, but no hyphen at the end. -/
def isSymbol : List Char → Bool
  | [] => false
  | c :: cs =>
    c.isAlpha && cs.all (fun d => d.isAlphanum || d == '-') && (c :: cs).getLast? != some '-'

/-- What is wrong with a word that is neither a number nor a symbol. -/
def wordFault (word : List Char) : LexCause :=
  if word.head? = some '-' ∧ (word.drop 1).head?.any Char.isAlpha then .leadingHyphen
  else if word.head?.any Char.isAlpha ∧ word.getLast? = some '-' then .trailingHyphen
  else if word.head? = some '.' then .leadingPoint
  else if word.getLast? = some '.' then .trailingPoint
  else .malformed

/-! ## Lexemes -/

/-- What a lexeme is. -/
inductive Lexeme where
  /-- Blanks or a comment. -/
  | gap
  | token (kind : Token.Kind) (value : Value)
  | bad (cause : LexCause)

/-- Judges a word. -/
def judgeWord (word : List Char) : Lexeme :=
  match Numeral.read .word word with
  | some n => .token .number (.number n.toFloat)
  | none =>
    if isSymbol word then .token .symbol (.text (String.ofList word)) else .bad (wordFault word)

/-- The characters between two quotes and what follows the second one. A backslash takes the next
character with it, which may not be a line end. -/
def textBody : List Char → Option (List Char × List Char)
  | [] => none
  | '"' :: rest => some ([], rest)
  | ['\\'] => none
  | '\\' :: c :: rest =>
    if c = '\n' then none
    else (textBody rest).map fun (body, after) => ('\\' :: c :: body, after)
  | c :: rest => (textBody rest).map fun (body, after) => (c :: body, after)

/-- Judges the characters between two quotes. -/
def judgeText (body : List Char) : Lexeme :=
  match Text.unescape body with
  | .ok cs => .token .text (.text (String.ofList cs))
  | .error c => .bad (.unknownEscape c)

/-- The kind of a token of one character. -/
def mark? (c : Char) : Option Token.Kind :=
  if c = '\x27' then some .quote
  else if c = '(' then some (.opener .round)
  else if c = ')' then some (.closer .round)
  else if c = '[' then some (.opener .square)
  else if c = ']' then some (.closer .square)
  else if c = '\x7b' then some (.opener .curly)
  else if c = '\x7d' then some (.closer .curly)
  else none

/-- A lexeme with its characters and the characters after it. -/
structure Cut where
  lexeme : Lexeme
  text : List Char
  rest : List Char

/-- Cuts off a run of characters after the first one. -/
def cutRun (lexeme : List Char → Lexeme) (p : Char → Bool) (c : Char) (cs : List Char) : Cut :=
  let text := c :: cs.takeWhile p
  ⟨lexeme text, text, cs.dropWhile p⟩

/-- Cuts off a text, whose opening quote is taken off already. -/
def cutText (cs : List Char) : Cut :=
  match textBody cs with
  | some (body, after) => ⟨judgeText body, '"' :: (body ++ ['"']), after⟩
  | none => ⟨.bad .unterminated, '"' :: cs, []⟩

/-- Cuts off the first lexeme of a source that is not empty. -/
def cut (c : Char) (cs : List Char) : Cut :=
  if Text.isBlank c then cutRun (fun _ => .gap) Text.isBlank c cs
  else if c = ';' then cutRun (fun _ => .gap) (· != '\n') c cs
  else if c = '"' then cutText cs
  else if isWordChar c then cutRun judgeWord isWordChar c cs
  else match mark? c with
    | some kind => ⟨.token kind .nothing, [c], cs⟩
    | none => ⟨.bad .unexpected, [c], cs⟩

theorem textBody_eq {cs body after : List Char} (h : textBody cs = some (body, after)) :
    cs = body ++ '"' :: after := by
  fun_induction textBody cs generalizing body after with
  | case1 => simp at h
  | case2 rest => simp_all
  | case3 => simp at h
  | case4 => simp at h
  | case5 c rest _ ih =>
    simp only [Option.map_eq_some_iff, Prod.exists, Prod.mk.injEq] at h
    obtain ⟨b, a, hb, rfl, rfl⟩ := h
    simp [ih hb]
  | case6 c rest _ _ _ ih =>
    simp only [Option.map_eq_some_iff, Prod.exists, Prod.mk.injEq] at h
    obtain ⟨b, a, hb, rfl, rfl⟩ := h
    simp [ih hb]

/-- Cutting loses nothing. -/
theorem text_append_rest (c : Char) (cs : List Char) :
    (cut c cs).text ++ (cut c cs).rest = c :: cs := by
  unfold cut
  split
  · simp [cutRun]
  split
  · simp [cutRun]
  split
  · rename_i hc
    unfold cutText
    split
    · rename_i h
      simp [textBody_eq h, hc]
    · simp [hc]
  split
  · simp [cutRun]
  split <;> simp

/-- Every lexeme has a character. -/
theorem text_ne_nil (c : Char) (cs : List Char) : (cut c cs).text ≠ [] := by
  unfold cut cutRun cutText
  repeat' split
  all_goals simp

theorem length_rest_lt (c : Char) (cs : List Char) :
    (cut c cs).rest.length < (c :: cs).length := by
  have h := congrArg List.length (text_append_rest c cs)
  have h' := List.length_pos_iff.2 (text_ne_nil c cs)
  rw [List.length_append] at h
  omega

/-- The tokens of a source that stands `position` characters into the whole. -/
def scan (position : Nat) : List Char → Except LexError (List Token)
  | [] => .ok [Token.ending position]
  | c :: cs =>
    let head := cut c cs
    let next := position + head.text.length
    match head.lexeme with
    | .gap => scan next head.rest
    | .token kind value =>
      (scan next head.rest).map ({ kind, text := String.ofList head.text, position, value } :: ·)
    | .bad cause => .error { cause, lexeme := String.ofList head.text, position }
termination_by cs => cs.length
decreasing_by all_goals exact length_rest_lt c cs

end Lexer

/-- The tokens of a source, with the end as the last one. -/
def lex (source : String) : Except LexError (List Token) :=
  Lexer.scan 0 source.toList

end MiniLisp
