import MiniLisp.Value.Basic

/-!
# Script trees

Expressions of JavaScript, as far as the lowering of programs needs them: a whole program becomes
one expression.
-/

namespace MiniLisp

/-- Script expressions. -/
inductive Script where
  | literal (a : Atom)
  | identifier (name : String)
  | binary (op : String) (left right : Script)
  | array (items : List Script)
  | call (callee : Script) (args : List Script)
  /-- An arrow function. -/
  | function (params : List String) (body : Script)
  /-- Expressions with commas between them. -/
  | sequence (items : List Script)
  | conditional (test yes no : Script)
  | assignment (target value : Script)
  /-- A place without an expression. It has no text. -/
  | hole

namespace Script

instance : Inhabited Script := ⟨hole⟩

end Script

end MiniLisp
