/-!
# Double-quoted text

The written form of a text value: double quotes around it, and an escape for each character that
cannot stand there as it is. `unescape` reads the escapes that a source text may use.
-/

namespace MiniLisp.Text

/-- The hexadecimal digits of `n`, filled up with zeros to `width`. -/
def hex (width n : Nat) : List Char :=
  let digits := Nat.toDigits 16 n
  List.replicate (width - digits.length) '0' ++ digits

/-- A character inside double quotes. -/
def escape (c : Char) : List Char :=
  if c = '"' then ['\\', '"']
  else if c = '\\' then ['\\', '\\']
  else if c = '\n' then ['\\', 'n']
  else if c = '\r' then ['\\', 'r']
  else if c = '\t' then ['\\', 't']
  else if c = '\x08' then ['\\', 'b']
  else if c = '\x0c' then ['\\', 'f']
  else if c.toNat < 0x20 then ['\\', 'u'] ++ hex 4 c.toNat
  else [c]

/-- A text in double quotes. -/
def quoted (cs : List Char) : List Char :=
  ['"'] ++ cs.flatMap escape ++ ['"']

/-- The character that an escape of the source language stands for. -/
def escapeMeaning? (c : Char) : Option Char :=
  if c = '"' then some '"'
  else if c = '\\' then some '\\'
  else if c = 'n' then some '\n'
  else if c = 't' then some '\t'
  else if c = 'r' then some '\r'
  else none

/-- Replaces every escape by its character; the error is the first one that has no meaning. -/
def unescape : List Char → Except Char (List Char)
  | '\\' :: c :: rest =>
    match escapeMeaning? c with
    | some d => (unescape rest).map (d :: ·)
    | none => .error c
  | c :: rest => (unescape rest).map (c :: ·)
  | [] => .ok []

end MiniLisp.Text
