import MiniLisp.Value.Inspect

/-!
# Scopes and the store

A scope binds names to values, in the order in which the names were first bound. The store holds
all scopes that were ever made, known by their numbers, and the text that programs have written.
Closures hold the number of a scope, so a scope is shared by all that refer to it. A scope counts the
closures made in it, which tells them apart.
-/

namespace MiniLisp

/-- Names with their values, in the order of first binding, and the scope around them. -/
structure Scope where
  parent : Option ScopeId
  bindings : List (String × Value)
  /-- How many closures were made in it. -/
  made : Nat := 0

/-- Binds a name: a new name goes last, a known one keeps its place. -/
def rebind (name : String) (v : Value) : List (String × Value) → List (String × Value)
  | [] => [(name, v)]
  | (n, w) :: rest => if n = name then (n, v) :: rest else (n, w) :: rebind name v rest

namespace Scope

/-- Whether a scope itself binds a name. -/
def binds (s : Scope) (name : String) : Bool := (s.bindings.lookup name).isSome

/-- Binds a name in a scope. -/
def define (s : Scope) (name : String) (v : Value) : Scope :=
  { s with bindings := rebind name v s.bindings }

/-- The listing of a scope. -/
def listing (s : Scope) : String :=
  let entries := s.bindings.map fun (name, v) => name ++ ": " ++ v.inspect
  "\x7b" ++ commaSeparated entries ++ "\x7d" ++ if s.parent.isSome then " -> ..." else ""

end Scope

/-- All scopes, and the text that was written. -/
structure Store where
  scopes : Array Scope := #[]
  output : String := ""

namespace Store

/-- The scopes from one scope outwards, at most `limit` of them. -/
def chainUpTo (st : Store) : (limit : Nat) → ScopeId → List ScopeId
  | 0, _ => []
  | limit + 1, id =>
    match st.scopes[id]? with
    | none => []
    | some s =>
      match s.parent with
      | none => [id]
      | some parent => id :: st.chainUpTo limit parent

/-- The scopes from one scope outwards. A scope is made after the scope around it, so there are no
more than its number tells. -/
def chain (st : Store) (id : ScopeId) : List ScopeId := st.chainUpTo (id + 1) id

/-- Whether a scope itself binds a name. -/
def binds (st : Store) (id : ScopeId) (name : String) : Bool :=
  st.scopes[id]?.any (·.binds name)

/-- The nearest scope, from `id` outwards, that binds a name. -/
def owner? (st : Store) (id : ScopeId) (name : String) : Option ScopeId :=
  (st.chain id).find? (st.binds · name)

/-- The value that a scope itself gives to a name. -/
def valueAt? (st : Store) (id : ScopeId) (name : String) : Option Value :=
  st.scopes[id]?.bind (·.bindings.lookup name)

/-- The value of a name, seen from a scope. -/
def get? (st : Store) (id : ScopeId) (name : String) : Option Value :=
  (st.owner? id name).bind (st.valueAt? · name)

/-- Binds a name in a scope, whatever is bound around it. -/
def define (st : Store) (id : ScopeId) (name : String) (v : Value) : Store :=
  { st with scopes := st.scopes.modify id (·.define name v) }

/-- Binds several names in order. -/
def defineAll (st : Store) (id : ScopeId) (pairs : List (String × Value)) : Store :=
  pairs.foldl (fun st (name, v) => st.define id name v) st

/-- Gives a name a new value where it is bound. -/
def assign? (st : Store) (id : ScopeId) (name : String) (v : Value) : Option Store :=
  (st.owner? id name).map (st.define · name v)

/-- How many closures were made in a scope. -/
def made (st : Store) (id : ScopeId) : Nat := (st.scopes[id]?.map Scope.made).getD 0

/-- Counts one more closure of a scope. -/
def mint (st : Store) (id : ScopeId) : Store :=
  { st with scopes := st.scopes.modify id fun s => { s with made := s.made + 1 } }

/-- The number that the next scope will have. -/
def next (st : Store) : ScopeId := st.scopes.size

/-- Makes a scope. -/
def push (st : Store) (s : Scope) : Store := { st with scopes := st.scopes.push s }

/-- Makes an empty scope. -/
def pushEmpty (st : Store) (parent : Option ScopeId) : Store := st.push { parent, bindings := [] }

/-- Adds to the text that was written. -/
def write (st : Store) (text : String) : Store := { st with output := st.output ++ text }

/-- The bindings of the natives of one home. -/
def nativeBindings (home : Nat) : List (String × Value) :=
  Native.all.map fun fn => (fn.name, .native fn home)

/-- Makes a scope that binds the natives and has no scope around it. -/
def pushGlobal (st : Store) (home : Nat) : Store :=
  st.push { parent := none, bindings := nativeBindings home }

/-- How many scopes stand around a scope. -/
def depth (st : Store) (id : ScopeId) : Nat := (st.chain id).length - 1

/-- The bindings of a scope. -/
def bindings (st : Store) (id : ScopeId) : List (String × Value) :=
  (st.scopes[id]?.map Scope.bindings).getD []

/-- The listing of a scope. -/
def listing (st : Store) (id : ScopeId) : String :=
  (st.scopes[id]?.map Scope.listing).getD ""

/-- The short description of a scope. -/
def summary (st : Store) (id : ScopeId) : String :=
  "<Environment depth=" ++ toString (st.depth id) ++ " vars=" ++
    toString (st.bindings id).length ++ ">"

end Store

end MiniLisp
