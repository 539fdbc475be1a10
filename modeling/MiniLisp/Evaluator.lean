import MiniLisp.Native.Call
import MiniLisp.Store

/-!
# Evaluation

Two quantities bound an evaluation. The call depth bounds the calls of closures that are nested in
one another. The frames bound the activations of the functions below that are nested in one
another: each of them spends one frame for all that it does, and without a frame it ends in
`Fault.frameLimit`. Frames are the argument of the recursion, so evaluation is total. To write the
text of a value, for `print` or in the wording of a fault, takes frames as well, one for each level
of the value; where they are not left, the evaluation ends in `Fault.textLimit`.

An evaluation that ends in a fault keeps all that it has bound and written until then.
-/

namespace MiniLisp

/-- Computations that read and change the store and may end in a fault. -/
abbrev Eval := EStateM Fault Store

namespace Eval

/-- The value of a name. -/
def lookup (scope : ScopeId) (name : String) : Eval Value := fun st =>
  match st.get? scope name with
  | some v => .ok v st
  | none => .error (.unbound name) st

/-- Binds a name in a scope. -/
def define (scope : ScopeId) (name : String) (v : Value) : Eval Unit := fun st =>
  .ok () (st.define scope name v)

/-- Gives a bound name a new value. -/
def assign (scope : ScopeId) (name : String) (v : Value) : Eval Unit := fun st =>
  match st.assign? scope name v with
  | some st => .ok () st
  | none => .error (.unboundTarget name) st

/-- Makes a closure in a scope. -/
def make (scope : ScopeId) (params : List String) (body : Value) : Eval Value := fun st =>
  .ok (.closure params body scope (st.made scope)) (st.mint scope)

/-- Makes a scope with bindings for parameters, where the last of two equal names counts. -/
def enter (parent : ScopeId) (params : List String) (args : List Value) : Eval ScopeId := fun st =>
  .ok st.next ((st.pushEmpty (some parent)).defineAll st.next (params.zip args))

/-- Ends in a fault whose wording is written with the frames left. -/
def refuse {α : Type} (frames : Nat) (e : Fault) : Eval α := throw (e.within frames)

/-- Writes the text of a value on a line of its own. -/
def writeLine (frames : Nat) (v : Value) : Eval Unit := fun st =>
  if v.fits frames then .ok () (st.write (v.toText ++ "\n")) else .error .textLimit st

/-- Calls a native. -/
def native (frames : Nat) (fn : Native) (args : List Value) : Eval Value :=
  match fn.call args with
  | .ok v => do
    if fn = .print then writeLine frames v
    return v
  | .error e => refuse frames e

/-- Computes a value for every element of a list, from left to right. -/
def each (f : Value → Eval Value) : List Value → Eval (List Value)
  | [] => pure []
  | v :: rest => do
    let w ← f v
    let ws ← each f rest
    return w :: ws

/-- Computes the values of a dictionary, whose keys and values stand in turn. -/
def eachPair (frames : Nat) (f : Value → Eval Value) : List Value → Eval (List (String × Value))
  | .atom (.text key) :: v :: rest => do
    let w ← f v
    let ws ← eachPair frames f rest
    return (key, w) :: ws
  | key :: _ :: _ => refuse frames (.badKey key)
  | [key] => refuse frames (.loneKey key)
  | [] => pure []

/-- Computes values in order and gives the last one. -/
def inOrder (f : Value → Eval Value) : List Value → Eval Value
  | [] => throw (.formArity .sequence)
  | [v] => f v
  | v :: rest => do
    let _ ← f v
    inOrder f rest

end Eval

open Eval

mutual

/-- Evaluates an expression in a scope. -/
def evaluate (frames depth : Nat) (scope : ScopeId) (expr : Value) : Eval Value :=
  match frames with
  | 0 => throw .frameLimit
  | frames + 1 =>
    match expr with
    | .symbol name => lookup scope name
    | .list .vector items => do return .list .vector (← evaluateAll frames depth scope items)
    | .list .plain items => evaluateApplication frames depth scope items
    | .braces entries => evaluateDictionary frames depth scope entries
    | v => pure v

/-- Evaluates expressions from left to right. -/
def evaluateAll (frames depth : Nat) (scope : ScopeId) (items : List Value) : Eval (List Value) :=
  match frames with
  | 0 => throw .frameLimit
  | frames + 1 => each (evaluate frames depth scope) items

/-- Evaluates a special form or the call of a function. -/
def evaluateApplication (frames depth : Nat) (scope : ScopeId) (items : List Value) :
    Eval Value :=
  match frames with
  | 0 => throw .frameLimit
  | frames + 1 =>
    match items with
    | [] => throw .emptyApplication
    | .symbol name :: operands =>
      match Form.ofName? name with
      | some form => evaluateForm frames depth scope form operands
      | none => do
        let fn ← lookup scope name
        let args ← evaluateAll frames depth scope operands
        apply frames depth fn args
    | .list .plain head :: operands => do
      let fn ← evaluate frames depth scope (.list .plain head)
      let args ← evaluateAll frames depth scope operands
      apply frames depth fn args
    | head :: _ => refuse frames (.badHead head)

/-- Evaluates a dictionary. -/
def evaluateDictionary (frames depth : Nat) (scope : ScopeId) (entries : List Value) :
    Eval Value :=
  match frames with
  | 0 => throw .frameLimit
  | frames + 1 =>
    match entries.getLast? with
    | some key =>
      if entries.length % 2 ≠ 0 then refuse frames (.loneKey key)
      else do return .dictionary (← eachPair frames (evaluate frames depth scope) entries)
    | none => pure (.dictionary [])

/-- Evaluates a special form. -/
def evaluateForm (frames depth : Nat) (scope : ScopeId) (form : Form) (operands : List Value) :
    Eval Value :=
  match frames with
  | 0 => throw .frameLimit
  | frames + 1 =>
    match form, operands with
    | .define, [.symbol name, expr] => do
      let v ← evaluate frames depth scope expr
      define scope name v
      return v
    | .define, [target, _] => refuse frames (.badTarget .define target)
    | .assign, [.symbol name, expr] => do
      let v ← evaluate frames depth scope expr
      assign scope name v
      return v
    | .assign, [target, _] => refuse frames (.badTarget .assign target)
    | .sequence, exprs => inOrder (evaluate frames depth scope) exprs
    | .choose, [condition, yes, no] => do
      match ← evaluate frames depth scope condition with
      | .atom (.boolean b) => evaluate frames depth scope (if b then yes else no)
      | v => refuse frames (.badCondition v)
    | .lambda, [params, body] =>
      match params.params with
      | .ok names => make scope names body
      | .error cause => refuse frames (.badParams cause)
    | .quote, [v] => pure v
    | form, _ => throw (.formArity form)

/-- Applies a function to arguments. -/
def apply (frames depth : Nat) (fn : Value) (args : List Value) : Eval Value :=
  match frames with
  | 0 => throw .frameLimit
  | frames + 1 =>
    match fn with
    | .closure params body scope _ => applyClosure frames depth params body scope args
    | .native fn _ => native frames fn args
    | v => refuse frames (.notFunction v)

/-- Applies a closure: its body is evaluated in a new scope inside the scope of the closure. -/
def applyClosure (frames depth : Nat) (params : List String) (body : Value) (scope : ScopeId)
    (args : List Value) : Eval Value :=
  match frames with
  | 0 => throw .frameLimit
  | frames + 1 =>
    match depth with
    | 0 => throw .callDepth
    | depth + 1 => do
      if args.length ≠ params.length then throw (.closureArity params.length args.length)
      let inner ← enter scope params args
      evaluate frames depth inner body

end

/-- The frames that every evaluation has. -/
def baseFrames : Nat := 1000

/-- The frames that each unit of call depth adds. -/
def framesPerCall : Nat := 50

/-- The frames of an evaluation. -/
def frameAllowance (depth : Nat) : Nat := baseFrames + framesPerCall * depth

/-- The frames of an evaluation that its activations cannot spend. They are for the calls around the
evaluation, and for those that an activation makes to look up a name, to bind one or to compute the
value of a native. -/
def reservedFrames : Nat := 30

/-- The frames that the activations of an evaluation can spend. -/
def activationFrames (depth : Nat) : Nat := frameAllowance depth - reservedFrames

/-- The most frames that an evaluation can be given. -/
def maxFrames : Nat := 0x7fffffff

/-- Evaluates an expression in a scope, with nested calls of closures up to `depth`. -/
def Store.evaluate (st : Store) (depth : Nat) (scope : ScopeId) (expr : Value) :
    EStateM.Result Fault Store Value :=
  if maxFrames < frameAllowance depth then .error .tooManyFrames st
  else MiniLisp.evaluate (activationFrames depth) depth scope expr st

end MiniLisp
