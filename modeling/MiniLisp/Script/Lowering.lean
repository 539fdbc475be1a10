import MiniLisp.Fault
import MiniLisp.Script.Basic
import MiniLisp.Script.Name

/-!
# From programs to scripts

Nothing is evaluated: the lowering follows the tree as it was read.

    number, text, boolean          a literal
    symbol                         an identifier
    (add a b) … (gte a b)          a binary operation
    add … gte as a value           an arrow function of two parameters
    (list …) (vector …) […]        an array
    (do …)                         a sequence
    (if c a b)                     a conditional
    (def x v) (set x v)            an assignment
    (lambda (p …) body)            an arrow function
    (f a …)                        a call

The names that a program or the body of a function defines become the parameters of an arrow
function around it, which is called at once. A name that has a value outside (a binding around, or
an operator) is passed in as an argument, so that reads before the definition see that value.

As in the evaluator, every function below spends one frame for all that it does. The search for
the definitions of a scope and the texts in the wording of a refusal take one frame for each level
of the tree.
-/

namespace MiniLisp

/-- The sign of an operator in scripts. -/
def Operator.sign : Operator → String
  | add => "+"
  | sub => "-"
  | mul => "*"
  | div => "/"
  | mod => "%"
  | pow => "**"
  | eq => "==="
  | neq => "!=="
  | lt => "<"
  | gt => ">"
  | lte => "<="
  | gte => ">="

/-- Why a program has no script. -/
inductive LoweringError where
  /-- A definition of a native that is no operator. -/
  | nativeDefined (name : String)
  /-- A definition in a function, of a name with a value outside that is assigned somewhere. -/
  | reassignedShadow (name : String)
  /-- A native that is no operator, as a value. -/
  | nativeValue (name : String)
  /-- The name of a special form, as a value. -/
  | formValue (name : String)
  /-- A call of a native that scripts do not have. -/
  | nativeCall (name : String)
  | arity (name : String) (due given : Nat)
  | badTarget (form : Form) (v : Value)
  /-- Quoted data that is no atom. -/
  | quotedData (v : Value)
  | emptySequence
  | badHead (head : Value)
  | emptyList
  | dictionary
  /-- A value that is no expression. -/
  | notExpression (v : Value)
  | badParams (cause : ParamFault)
  | tooDeep

/-- The wording of a refusal. -/
def LoweringError.message : LoweringError → String
  | .nativeDefined name => "Cannot lower a definition of builtin " ++ name
  | .reassignedShadow name =>
    "Cannot lower a definition of " ++ name ++ " that shadows a reassigned binding"
  | .nativeValue name => "Builtin " ++ name ++ " cannot be used as a value"
  | .formValue name => "Special form " ++ name ++ " cannot be used as a value"
  | .nativeCall name => "Builtin " ++ name ++ " has no JavaScript lowering"
  | .arity name due given => Fault.arityMessage name (.exactly due) given
  | .badTarget form v => form.name ++ " target must be a symbol, got " ++ v.toText
  | .quotedData v => "Cannot lower quoted data " ++ v.toText
  | .emptySequence => "do requires at least 1 expression"
  | .badHead head => "A symbolic expression must begin with a symbol, got " ++ head.toText
  | .emptyList => "Cannot lower an empty list"
  | .dictionary => "Dictionaries have no JavaScript lowering"
  | .notExpression v => "Cannot lower " ++ v.toText
  | .badParams cause => cause.message
  | .tooDeep => "Expression is nested too deeply"

/-- The values whose texts the wording shows. -/
def LoweringError.shown : LoweringError → List Value
  | .badTarget _ v | .quotedData v | .badHead v | .notExpression v => [v]
  | .badParams cause => [cause.found]
  | _ => []

/-! ## Definitions and assignments in a tree -/

namespace Value

/-- The name that a list binds, if it is the given form with a symbol and one more part. -/
def target? (form : Form) : List Value → Option String
  | [.symbol head, .symbol name, _] => if head = form.name then some name else none
  | _ => none

/-- Whether a search for bindings stays out of a list: out of quoted data always, and out of
functions unless `nested`. -/
def closed (nested : Bool) : List Value → Bool
  | .symbol head :: _ => head == Form.quote.name || (head == Form.lambda.name && !nested)
  | _ => false

mutual

/-- The names that the given form binds in a tree, in the order of the tree. -/
def targets (form : Form) (nested : Bool) : Value → List String
  | .list .plain items =>
    if closed nested items then []
    else (target? form items).toList ++ targetsAll form nested items
  | .list .vector items => targetsAll form nested items
  | .braces entries => targetsAll form nested entries
  | _ => []

/-- The names that the given form binds in several trees. -/
def targetsAll (form : Form) (nested : Bool) : List Value → List String
  | [] => []
  | v :: rest => targets form nested v ++ targetsAll form nested rest

end

mutual

/-- Whether the frames suffice for the search for bindings: it takes one for each level that it
goes into. -/
def searchFits (nested : Bool) : Value → (frames : Nat) → Bool
  | _, 0 => false
  | .list .plain items, frames + 1 => closed nested items || searchAllFit nested items frames
  | .list .vector items, frames + 1 => searchAllFit nested items frames
  | .braces entries, frames + 1 => searchAllFit nested entries frames
  | _, _ + 1 => true

/-- Whether the frames suffice for the search in each of several trees. -/
def searchAllFit (nested : Bool) : List Value → (frames : Nat) → Bool
  | [], _ => true
  | v :: rest, frames => searchFits nested v frames && searchAllFit nested rest frames

end

end Value

namespace Lowering

/-- Refuses with a wording that is written with the frames left. -/
def refuse {α : Type} (frames : Nat) (e : LoweringError) : Except LoweringError α :=
  .error (if e.shown.all (·.fits frames) then e else .tooDeep)

/-- What is known of the names at a place of the program. -/
structure Names where
  /-- The parameters and definitions around. -/
  bound : List String
  /-- The names that are assigned anywhere in the program. -/
  assigned : List String

/-- Names with some more bound. -/
def Names.extend (names : Names) (more : List String) : Names :=
  { names with bound := names.bound ++ more }

/-- The native that a name stands for, where nothing binds the name. -/
def Names.native? (names : Names) (name : String) : Option Native :=
  if names.bound.contains name then none else Native.ofName? name

/-- An operator as a function. -/
def operatorFunction (op : Operator) : Script :=
  .function ["a", "b"] (.binary op.sign (.identifier "a") (.identifier "b"))

/-- The value that a defined name has before its definition runs. -/
def initialValue (outer : Names) (toplevel : Bool) (name : String) :
    Except LoweringError (Option Script) :=
  let guarded (s : Script) : Except LoweringError (Option Script) :=
    if !toplevel && outer.assigned.contains name then .error (.reassignedShadow name)
    else .ok (some s)
  if outer.bound.contains name then guarded (.identifier (Script.mangle name))
  else
    match Native.ofName? name with
    | some (.operator op) => guarded (operatorFunction op)
    | some _ => .error (.nativeDefined name)
    | none => .ok none

/-- Applies a function to the elements of a list until one is refused. -/
def each {α β : Type} (f : α → Except LoweringError β) : List α → Except LoweringError (List β)
  | [] => .ok []
  | x :: rest => do
    let y ← f x
    let ys ← each f rest
    return y :: ys

/-- Defined names with their initial values. -/
def initialValues (outer : Names) (toplevel : Bool) (defs : List String) :
    Except LoweringError (List (String × Option Script)) :=
  each (fun name => return (name, ← initialValue outer toplevel name)) defs

/-- A function around a scope, called at once: names with an initial value come first. -/
def wrapper (initial : List (String × Option Script)) (body : Script) : Script :=
  if initial.isEmpty then body
  else
    let given := initial.filter (·.2.isSome)
    let fresh := initial.filter (·.2.isNone)
    .call (.function ((given ++ fresh).map fun d => Script.mangle d.1) body)
      (given.filterMap (·.2))

/-- The script of a symbol. -/
def lowerSymbol (names : Names) (name : String) : Except LoweringError Script :=
  match names.native? name with
  | some (.operator op) => .ok (operatorFunction op)
  | some _ => .error (.nativeValue name)
  | none =>
    if !names.bound.contains name && (Form.ofName? name).isSome then .error (.formValue name)
    else .ok (.identifier (Script.mangle name))

/-- Refuses a number of parts other than `due`. -/
def expect (name : String) (parts : List Value) (due : Nat) : Except LoweringError Unit :=
  if parts.length = due then .ok () else .error (.arity name due parts.length)

/-- The names that a scope defines, each once, in the order of first definition. -/
def definitions (params : List String) (body : Value) : List String :=
  (body.targets .define false).eraseDups.filter (!params.contains ·)

mutual

/-- The script of an expression. -/
def lower (frames : Nat) (names : Names) (expr : Value) : Except LoweringError Script :=
  match frames with
  | 0 => .error .tooDeep
  | frames + 1 =>
    match expr with
    | .atom a => .ok (.literal a)
    | .symbol name => lowerSymbol names name
    | .list .vector items => do return .array (← lowerAll frames names items)
    | .list .plain [] => .error .emptyList
    | .list .plain (head :: operands) => lowerApplication frames names head operands
    | .braces _ => .error .dictionary
    | v => refuse frames (.notExpression v)

/-- The scripts of expressions, from left to right. -/
def lowerAll (frames : Nat) (names : Names) (exprs : List Value) :
    Except LoweringError (List Script) :=
  match frames with
  | 0 => .error .tooDeep
  | frames + 1 => each (lower frames names) exprs

/-- The script of a special form or of the call of a function. -/
def lowerApplication (frames : Nat) (names : Names) (head : Value) (operands : List Value) :
    Except LoweringError Script :=
  match frames with
  | 0 => .error .tooDeep
  | frames + 1 =>
    match head with
    | .symbol name =>
      match Form.ofName? name with
      | some form => lowerForm frames names form operands
      | none =>
        match names.native? name with
        | some (.operator op) => do
          expect name operands 2
          match ← lowerAll frames names operands with
          | [left, right] => return .binary op.sign left right
          | _ => throw (.arity name 2 operands.length)
        | some .list => do return .array (← lowerAll frames names operands)
        | some .vector => do return .array (← lowerAll frames names operands)
        | some _ => .error (.nativeCall name)
        | none => do
          return .call (.identifier (Script.mangle name)) (← lowerAll frames names operands)
    | .list .plain _ => do
      let callee ← lower frames names head
      return .call callee (← lowerAll frames names operands)
    | head => refuse frames (.badHead head)

/-- The script of a special form. -/
def lowerForm (frames : Nat) (names : Names) (form : Form) (operands : List Value) :
    Except LoweringError Script :=
  match frames with
  | 0 => .error .tooDeep
  | frames + 1 =>
    match form, operands with
    | .quote, [.atom a] => .ok (.literal a)
    | .quote, [v] => refuse frames (.quotedData v)
    | .quote, _ => .error (.arity "quote" 1 operands.length)
    | .sequence, [] => .error .emptySequence
    | .sequence, [expr] => lower frames names expr
    | .sequence, _ => do return .sequence (← lowerAll frames names operands)
    | .choose, [_, _, _] => do
      match ← lowerAll frames names operands with
      | [test, yes, no] => return .conditional test yes no
      | _ => throw (.arity "if" 3 operands.length)
    | .choose, _ => .error (.arity "if" 3 operands.length)
    | .define, _ => lowerBinding frames names .define operands
    | .assign, _ => lowerBinding frames names .assign operands
    | .lambda, [params, body] =>
      match params.params with
      | .error cause => refuse frames (.badParams cause)
      | .ok params => do
        return .function (params.map Script.mangle) (← lowerScope frames names false params body)
    | .lambda, _ => .error (.arity "lambda" 2 operands.length)

/-- The script of a definition or an assignment. -/
def lowerBinding (frames : Nat) (names : Names) (form : Form) (operands : List Value) :
    Except LoweringError Script :=
  match frames with
  | 0 => .error .tooDeep
  | frames + 1 =>
    match operands with
    | [.symbol name, expr] => do
      return .assignment (.identifier (Script.mangle name)) (← lower frames names expr)
    | [target, _] => refuse frames (.badTarget form target)
    | _ => .error (.arity form.name 2 operands.length)

/-- The script of a program or of the body of a function with its definitions. -/
def lowerScope (frames : Nat) (outer : Names) (toplevel : Bool) (params : List String)
    (body : Value) : Except LoweringError Script :=
  match frames with
  | 0 => .error .tooDeep
  | frames + 1 => do
    if !body.searchFits false frames then throw .tooDeep
    let defs := definitions params body
    let initial ← initialValues outer toplevel defs
    let lowered ← lower frames ((outer.extend params).extend defs) body
    return wrapper initial lowered

end

/-- The frames of a lowering. -/
def allowance : Nat := 990

end Lowering

/-- The script of a program. -/
def Value.toScript (program : Value) : Except LoweringError Script :=
  if program.searchFits true Lowering.allowance then
    Lowering.lowerScope Lowering.allowance ⟨[], program.targets .assign true⟩ true [] program
  else .error .tooDeep

end MiniLisp
