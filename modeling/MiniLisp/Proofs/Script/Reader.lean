import MiniLisp.Number.Numeral
import MiniLisp.Script.Lowering
import MiniLisp.Script.Printer

/-!
# Reading scripts

The grammar of JavaScript expressions, as far as it is about the kinds of expressions that scripts
have. `Script.lex` cuts a text into lexemes, always as long as they can be. `Script.Derives` tells
which expression some lexemes write, at each level of precedence. A text reads as a script if its
lexemes write the script (`Script.Reads`).
-/

namespace MiniLisp.Script

/-! ## Lexemes -/

/-- The lexemes of scripts. -/
inductive Token where
  | number (x : Float)
  | text (s : String)
  | word (name : String)
  | opening (b : Bracket)
  | closing (b : Bracket)
  /-- Punctuation other than brackets. -/
  | sign (s : String)

/-- The characters between lexemes. -/
def spaces : List Char :=
  [' ', '\t', '\n', '\r', '\x0b', '\x0c', '\u00a0', '\ufeff', '\u2028', '\u2029']

/-- Whether a character can stand between lexemes. -/
def isSpace (c : Char) : Bool := spaces.contains c

/-- The characters that words begin with. -/
def isWordStart (c : Char) : Bool := c.isAlpha || c == '_' || c == '$'

/-- The characters that words go on with. -/
def isWordChar (c : Char) : Bool := c.isAlphanum || c == '_' || c == '$'

/-- Punctuation and the marks of comments, where nothing stands behind its own beginning. -/
def signs : List String :=
  [">>>=", "...", "===", "!==", "**=", "<<=", ">>=", ">>>", "&&=", "||=", "??=", "//", "/*", "=>",
    "==", "!=", "<=", ">=", "&&", "||", "??", "?.", "++", "--", "+=", "-=", "*=", "/=", "%=", "&=",
    "|=", "^=", "<<", ">>", "**", ".", ";", ",", "<", ">", "+", "-", "*", "/", "%", "&", "|", "^",
    "!", "~", "?", ":", "="]

/-- The bracket that a character is. -/
def bracket? (c : Char) : Option Token :=
  match c with
  | '(' => some (.opening .round)
  | ')' => some (.closing .round)
  | '[' => some (.opening .square)
  | ']' => some (.closing .square)
  | '\x7b' => some (.opening .curly)
  | '\x7d' => some (.closing .curly)
  | _ => none

/-- Takes a number off, as far as it could go: digits, letters and points, and a sign behind the
mark of an exponent. -/
def numeralChars : (mark : Bool) → List Char → List Char × List Char
  | _, [] => ([], [])
  | mark, c :: cs =>
    if isWordChar c || c == '.' || mark && (c == '+' || c == '-') then
      let (front, rest) := numeralChars (c == 'e' || c == 'E') cs
      (c :: front, rest)
    else ([], c :: cs)

/-- Whether a digit follows a zero at the beginning. Such digits are not read as a decimal. -/
def leadingZero : List Char → Bool
  | '0' :: c :: _ => c.isDigit
  | _ => false

/-- Numbers of scripts: digits, a fraction and an exponent. -/
def numeralForm : Numeral.Form := { plus := false, fraction := true, exponent := true }

/-- The value of a hexadecimal digit. -/
def hexDigit? (c : Char) : Option Nat :=
  if '0' ≤ c && c ≤ '9' then some (c.toNat - '0'.toNat)
  else if 'a' ≤ c && c ≤ 'f' then some (c.toNat - 'a'.toNat + 10)
  else if 'A' ≤ c && c ≤ 'F' then some (c.toNat - 'A'.toNat + 10)
  else none

/-- The character with a number in hexadecimal digits. -/
def hexChar? (digits : List Char) : Option Char := do
  let values ← digits.mapM hexDigit?
  let n := values.foldl (fun n d => 16 * n + d) 0
  if n.isValidChar then some (Char.ofNat n) else none

/-- The character that an escape of one character stands for. -/
def escapeMeaning? (c : Char) : Option Char :=
  match c with
  | 'b' => some '\x08'
  | 'f' => some '\x0c'
  | 'n' => some '\n'
  | 'r' => some '\r'
  | 't' => some '\t'
  | 'v' => some '\x0b'
  | 'u' | 'x' | '\n' | '\r' | '\u2028' | '\u2029' => none
  | c => if c.isDigit then none else some c

/-- The characters up to the double quote that ends a text, and what follows it. -/
def textBody : List Char → Option (List Char × List Char)
  | [] => none
  | '"' :: rest => some ([], rest)
  | '\\' :: 'u' :: d₁ :: d₂ :: d₃ :: d₄ :: rest => do
    let c ← hexChar? [d₁, d₂, d₃, d₄]
    (textBody rest).map fun (body, after) => (c :: body, after)
  | '\\' :: e :: rest => do
    let c ← escapeMeaning? e
    (textBody rest).map fun (body, after) => (c :: body, after)
  | c :: rest =>
    if c = '\n' || c = '\r' || c = '\\' then none
    else (textBody rest).map fun (body, after) => (c :: body, after)

/-- Takes a lexeme off. -/
def cut : List Char → Option (Token × List Char)
  | [] => none
  | c :: cs =>
    if isWordStart c then
      some (.word (String.ofList (c :: cs.takeWhile isWordChar)), cs.dropWhile isWordChar)
    else if c.isDigit then
      let (front, rest) := numeralChars false (c :: cs)
      if leadingZero front then none
      else (Numeral.read numeralForm front).map fun n => (.number n.toFloat, rest)
    else if c = '"' then
      (textBody cs).map fun (body, rest) => (.text (String.ofList body), rest)
    else
      match bracket? c with
      | some t => some (t, cs)
      | none =>
        (signs.find? fun s => s.toList.isPrefixOf (c :: cs)).map fun s =>
          (.sign s, (c :: cs).drop s.toList.length)

theorem length_numeralChars (mark : Bool) (cs : List Char) :
    (numeralChars mark cs).2.length ≤ cs.length := by
  induction cs generalizing mark with
  | nil => simp [numeralChars]
  | cons c cs ih =>
    unfold numeralChars
    split
    · exact Nat.le_succ_of_le (ih _)
    · exact Nat.le_refl _

theorem length_textBody {cs body rest : List Char} (h : textBody cs = some (body, rest)) :
    rest.length < cs.length := by
  fun_induction textBody cs generalizing body with
  | case1 => cases h
  | case2 rest' =>
    cases h
    exact Nat.lt_succ_self _
  | case3 d₁ d₂ d₃ d₄ rest' ih =>
    obtain ⟨c, -, h⟩ := Option.bind_eq_some_iff.1 h
    obtain ⟨⟨body', after⟩, hbody, h⟩ := Option.map_eq_some_iff.1 h
    cases h
    have := ih hbody
    simp only [List.length_cons]
    omega
  | case4 e rest' _ ih =>
    obtain ⟨c, -, h⟩ := Option.bind_eq_some_iff.1 h
    obtain ⟨⟨body', after⟩, hbody, h⟩ := Option.map_eq_some_iff.1 h
    cases h
    have := ih hbody
    simp only [List.length_cons]
    omega
  | case5 => cases h
  | case6 c rest' _ _ _ _ ih =>
    obtain ⟨⟨body', after⟩, hbody, h⟩ := Option.map_eq_some_iff.1 h
    cases h
    exact Nat.lt_succ_of_lt (ih hbody)

/-- Every lexeme takes a character. -/
theorem length_cut {cs rest : List Char} {t : Token} (h : cut cs = some (t, rest)) :
    rest.length < cs.length := by
  cases cs with
  | nil => cases h
  | cons c cs =>
    rw [cut] at h
    split at h
    · cases h
      exact Nat.lt_succ_of_le (List.dropWhile_suffix _).length_le
    split at h
    · rename_i hdigit
      dsimp only at h
      split at h
      · cases h
      obtain ⟨n, -, h⟩ := Option.map_eq_some_iff.1 h
      cases h
      have hword : isWordChar c = true := by simp [isWordChar, Char.isAlphanum, hdigit]
      have hlt : (numeralChars false (c :: cs)).2.length < (c :: cs).length := by
        rw [numeralChars, if_pos (by simp [hword])]
        exact Nat.lt_succ_of_le (length_numeralChars _ _)
      exact hlt
    split at h
    · obtain ⟨⟨body, after⟩, hbody, h⟩ := Option.map_eq_some_iff.1 h
      cases h
      exact Nat.lt_succ_of_lt (length_textBody hbody)
    split at h
    · cases h
      exact Nat.lt_succ_self _
    · obtain ⟨s, hs, h⟩ := Option.map_eq_some_iff.1 h
      cases h
      have hpos : ∀ s ∈ signs, 0 < s.toList.length := by decide
      have := hpos s (List.mem_of_find?_eq_some hs)
      simp only [List.length_drop, List.length_cons]
      omega

/-- The lexemes of a text. -/
def lex (cs : List Char) : Option (List Token) :=
  match cs with
  | [] => some []
  | c :: rest =>
    if isSpace c then lex rest
    else
      match h : cut (c :: rest) with
      | none => none
      | some (t, after) =>
        have := length_cut h
        (lex after).map (t :: ·)
termination_by cs.length
decreasing_by
  · exact Nat.lt_succ_self _
  · exact this

/-! ## Expressions -/

/-- The words that are literals. -/
def literalWords : List String := ["true", "false", "NaN", "Infinity"]

/-- The literal that a lexeme writes. -/
def Token.literal? : Token → Option Atom
  | .number x => some (.number x)
  | .text s => some (.text s)
  | .word "true" => some (.boolean true)
  | .word "false" => some (.boolean false)
  | .word "NaN" => some (.number (0 / 0))
  | .word "Infinity" => some (.number (1 / 0))
  | _ => none

/-! Levels of precedence, from the loosest to the tightest. -/

namespace Level

abbrev comma : Nat := 0
abbrev assignment : Nat := 1
abbrev conditional : Nat := 2
abbrev equality : Nat := 3
abbrev relational : Nat := 4
abbrev additive : Nat := 5
abbrev multiplicative : Nat := 6
abbrev power : Nat := 7
abbrev unary : Nat := 8
abbrev call : Nat := 9

/-- The level of an operation, and those of its operands. -/
def ofOperator : Operator → Nat
  | .eq | .neq => equality
  | .lt | .gt | .lte | .gte => relational
  | .add | .sub => additive
  | .mul | .div | .mod => multiplicative
  | .pow => power

/-- Only powers group to the right, and their bases have no sign. -/
def ofLeft : Operator → Nat
  | .pow => call
  | op => ofOperator op

def ofRight : Operator → Nat
  | .pow => power
  | op => ofOperator op + 1

end Level

/-- Lexemes in brackets. -/
def Token.surround (b : Bracket) (ts : List Token) : List Token :=
  .opening b :: (ts ++ [.closing b])

/-- Lexemes with a comma between two parts. -/
def Token.listed (parts : List (List Token)) : List Token :=
  List.intercalate [.sign ","] parts

mutual

/-- The lexemes write the expression at a level of precedence, or at a tighter one. -/
inductive Derives : Nat → List Token → Script → Prop
  | literal {l : Nat} {t : Token} {a : Atom} (h : t.literal? = some a) :
      Derives l [t] (.literal a)
  | negative {l : Nat} {t : Token} {x : Float} (hl : l ≤ Level.unary)
      (h : t.literal? = some (.number x)) : Derives l [.sign "-", t] (.literal (.number (-x)))
  | identifier {l : Nat} {name : String} (h : name ∉ literalWords) :
      Derives l [.word name] (.identifier name)
  | group {l : Nat} {ts : List Token} {s : Script} (h : Derives Level.comma ts s) :
      Derives l (Token.surround .round ts) s
  | array {l : Nat} {ts : List Token} {items : List Script} (h : DerivesList ts items) :
      Derives l (Token.surround .square ts) (.array items)
  | call {l : Nat} {ts us : List Token} {callee : Script} {args : List Script}
      (hcallee : Derives Level.call ts callee) (hargs : DerivesList us args) :
      Derives l (ts ++ Token.surround .round us) (.call callee args)
  | binary {l : Nat} {ts us : List Token} {left right : Script} (op : Operator)
      (hl : l ≤ Level.ofOperator op) (hleft : Derives (Level.ofLeft op) ts left)
      (hright : Derives (Level.ofRight op) us right) :
      Derives l (ts ++ .sign op.sign :: us) (.binary op.sign left right)
  | conditional {l : Nat} {ts us vs : List Token} {test yes no : Script}
      (hl : l ≤ Level.conditional) (htest : Derives (Level.conditional + 1) ts test)
      (hyes : Derives Level.assignment us yes) (hno : Derives Level.assignment vs no) :
      Derives l (ts ++ .sign "?" :: (us ++ .sign ":" :: vs)) (.conditional test yes no)
  | function {l : Nat} {ts : List Token} {params : List String} {body : Script}
      (hl : l ≤ Level.assignment) (hparams : ∀ p ∈ params, p ∉ literalWords)
      (hbody : Derives Level.assignment ts body) :
      Derives l (Token.surround .round (Token.listed (params.map fun p => [.word p])) ++
        .sign "=>" :: ts) (.function params body)
  /-- A single parameter needs no brackets. -/
  | function₁ {l : Nat} {ts : List Token} {param : String} {body : Script}
      (hl : l ≤ Level.assignment) (hparam : param ∉ literalWords)
      (hbody : Derives Level.assignment ts body) :
      Derives l (.word param :: .sign "=>" :: ts) (.function [param] body)
  | assignment {l : Nat} {ts us : List Token} {name : String} {value : Script}
      (hl : l ≤ Level.assignment) (htarget : Derives Level.call ts (.identifier name))
      (hvalue : Derives Level.assignment us value) :
      Derives l (ts ++ .sign "=" :: us) (.assignment (.identifier name) value)
  | sequence {ts : List Token} {items : List Script} (h : DerivesList ts items)
      (hlength : 2 ≤ items.length) : Derives Level.comma ts (.sequence items)

/-- The lexemes write the expressions, with commas between them. -/
inductive DerivesList : List Token → List Script → Prop
  | nil : DerivesList [] []
  | single {ts : List Token} {s : Script} (h : Derives Level.assignment ts s) : DerivesList ts [s]
  | cons {ts us : List Token} {s : Script} {rest : List Script}
      (h : Derives Level.assignment ts s) (hrest : DerivesList us rest) (hne : rest ≠ []) :
      DerivesList (ts ++ .sign "," :: us) (s :: rest)

end

/-- Whether a name is an identifier, and no literal. -/
def isIdentifier (name : String) : Bool :=
  match name.toList with
  | [] => false
  | c :: cs => (c.isAlpha || c == '$') && cs.all isWordChar && !literalWords.contains name

/-- Whether a literal is not NaN, which has no literal. -/
def notNaN : Atom → Bool
  | .number x => !x.isNaN
  | _ => true

mutual

/-- Whether a tree has proper identifiers, operators, sequences, targets and literals. -/
def wellFormed : Script → Bool
  | .literal a => notNaN a
  | .identifier name => isIdentifier name
  | .binary op left right =>
    (Operator.all.map Operator.sign).contains op && wellFormed left && wellFormed right
  | .array items => wellFormedAll items
  | .call callee args => wellFormed callee && wellFormedAll args
  | .function params body => params.all isIdentifier && wellFormed body
  | .sequence items => 2 ≤ items.length && wellFormedAll items
  | .conditional test yes no => wellFormed test && wellFormed yes && wellFormed no
  | .assignment (.identifier name) value => isIdentifier name && wellFormed value
  | .assignment _ _ => false
  | .hole => false

/-- Whether several trees are well formed. -/
def wellFormedAll : List Script → Bool
  | [] => true
  | s :: rest => wellFormed s && wellFormedAll rest

end

/-! ## The lexemes that are printed -/

/-- The lexemes of a sign. -/
def signTokens : Float.Model.UnpackedFloat.Sign → List Token
  | .positive => []
  | .negative => [.sign "-"]

/-- The lexemes of a number. -/
def numberTokens (x : Float) : List Token :=
  match x.toModel.unpack with
  | .notANumber => [.word "NaN"]
  | .infinity s => signTokens s ++ [.word "Infinity"]
  | .zero s => signTokens s ++ [.number 0]
  | .finite s _ _ _ => signTokens s ++ [.number x.abs]

/-- Lexemes in round brackets where they are nested. -/
def wrapTokens (nested : Bool) (ts : List Token) : List Token :=
  if nested then Token.surround .round ts else ts

/-- The lexemes of a literal. -/
def literalTokens (nested : Bool) : Atom → List Token
  | .number x =>
    wrapTokens (nested && (Layout.script.numberText x).head? == some '-') (numberTokens x)
  | .boolean b => [.word (if b then "true" else "false")]
  | .text s => [.text s]

mutual

/-- The lexemes of a script. -/
def tokens (nested : Bool) : Script → List Token
  | .literal a => literalTokens nested a
  | .identifier name => [.word name]
  | .binary op left right => wrapTokens nested (tokens true left ++ .sign op :: tokens true right)
  | .array items => Token.surround .square (Token.listed (itemTokens items))
  | .call callee args =>
    tokens true callee ++ Token.surround .round (Token.listed (itemTokens args))
  | .function params body =>
    wrapTokens nested (Token.surround .round (Token.listed (params.map fun p => [.word p])) ++
      .sign "=>" :: tokens true body)
  | .sequence items => Token.surround .round (Token.listed (itemTokens items))
  | .conditional test yes no =>
    wrapTokens nested
      (tokens true test ++ .sign "?" :: (tokens true yes ++ .sign ":" :: tokens true no))
  | .assignment target value =>
    wrapTokens nested (tokens true target ++ .sign "=" :: tokens true value)
  | .hole => []

/-- The lexemes of several nested scripts. -/
def itemTokens : List Script → List (List Token)
  | [] => []
  | s :: rest => tokens true s :: itemTokens rest

end

end MiniLisp.Script
