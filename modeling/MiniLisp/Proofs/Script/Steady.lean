import MiniLisp.Script.Lowering

/-!
# Programs whose names are steady

A scope of a script holds a copy of what a name that the scope is going to define meant outside
when the scope was entered. The copy is only good as long as the name keeps that meaning outside.
Likewise a native that no scope binds is written into the script as an operator or an array, so an
assignment to it is without effect on the script.

`Value.steady` follows a program in the order of evaluation and tells whether every read of a name
comes at a place where neither can matter. At each place, three sets of names are known:

* `barred`: the names that may not be read here,
* `pending`: the names that the scope may still be about to define, and that may get another
  meaning outside in the meantime; a function made here may not read them,
* `shifting`: the names that may get another meaning around a function made here.

A function that is the value of a definition does not run before its name is bound, so it may read
that name, as recursive functions do.
-/

namespace MiniLisp

namespace Value

mutual

/-- The names that an expression has surely defined in its scope once it has a value. -/
def sure : Value → List String
  | .list .vector items => sureAll items
  | .list .plain (.symbol head :: operands) =>
    match Form.ofName? head, operands with
    | some .define, [.symbol name, expr] => name :: sure expr
    | some .assign, [_, expr] => sure expr
    | some .sequence, exprs => sureAll exprs
    | some .choose, [condition, yes, no] =>
      sure condition ++ (sure yes).filter (sure no).contains
    | none, operands => sureAll operands
    | _, _ => []
  | .list .plain items => sureAll items
  | _ => []

/-- The names that several expressions have surely defined. -/
def sureAll : List Value → List String
  | [] => []
  | v :: rest => sure v ++ sureAll rest

end

mutual

/-- The names that are assigned at places where nothing binds them. -/
def strays (bound : List String) : Value → List String
  | .list .vector items => straysAll bound items
  | .list .plain (.symbol head :: operands) =>
    match Form.ofName? head, operands with
    | some .assign, [.symbol name, expr] =>
      (if bound.contains name then [] else [name]) ++ strays bound expr
    | some .lambda, [params, body] =>
      match params.params with
      | .ok params => strays (bound ++ params ++ Lowering.definitions params body) body
      | .error _ => []
    | some .quote, _ => []
    | _, operands => straysAll bound operands
  | .list .plain items => straysAll bound items
  | _ => []

/-- The names that several expressions assign where nothing binds them. -/
def straysAll (bound : List String) : List Value → List String
  | [] => []
  | v :: rest => strays bound v ++ straysAll bound rest

end

end Value

/-- What is known of the names at a place of a program. -/
structure Outlook where
  barred : List String
  pending : List String
  shifting : List String

namespace Outlook

/-- The outlook once the scope has bound some names. -/
def binding (o : Outlook) (names : List String) : Outlook :=
  { o with
    barred := o.barred.filter (!names.contains ·)
    pending := o.pending.filter (!names.contains ·) }

/-- The outlook after an expression was evaluated. -/
def after (o : Outlook) (expr : Value) : Outlook := o.binding expr.sure

/-- The outlook where the body of a function begins. -/
def enter (o : Outlook) (params : List String) (body : Value) : Outlook :=
  let defs := Lowering.definitions params body
  { barred := (o.barred ++ o.pending).filter (!params.contains ·)
    pending := defs.filter o.shifting.contains
    shifting :=
      o.shifting.filter (!(params ++ defs).contains ·) ++ body.targets .define false }

/-- The outlook where a program begins. -/
def initial (program : Value) : Outlook :=
  let stray := (program.strays (Lowering.definitions [] program)).filter
    fun name => (Native.ofName? name).isSome
  { barred := stray, pending := [], shifting := stray ++ program.targets .define false }

end Outlook

namespace Value

/-- Whether an expression makes a function. -/
def makesFunction : Value → Bool
  | .list .plain (.symbol head :: _) => Form.ofName? head == some .lambda
  | _ => false

mutual

/-- Whether no barred name is read. -/
def timely (o : Outlook) : Value → Bool
  | .symbol name => !o.barred.contains name
  | .list .vector items => timelyAll o items
  | .list .plain (.symbol head :: operands) =>
    match Form.ofName? head, operands with
    | some .define, [.symbol name, expr] =>
      timely (if expr.makesFunction then o.binding [name] else o) expr
    | some .assign, [_, expr] => timely o expr
    | some .sequence, exprs => timelyAll o exprs
    | some .choose, [condition, yes, no] =>
      timely o condition && timely (o.after condition) yes && timely (o.after condition) no
    | some .lambda, [params, body] =>
      match params.params with
      | .ok params => timely (o.enter params body) body
      | .error _ => true
    | none, operands => !o.barred.contains head && timelyAll o operands
    | _, _ => true
  | .list .plain items => timelyAll o items
  | _ => true

/-- Whether several expressions, evaluated in order, read no barred name. -/
def timelyAll (o : Outlook) : List Value → Bool
  | [] => true
  | v :: rest => timely o v && timelyAll (o.after v) rest

end

/-- Whether every read of a name in a program finds the same in the script of the program. -/
def steady (program : Value) : Bool := program.timely (.initial program)

mutual

/-- Whether no function in a program repeats a parameter. -/
def distinctParams : Value → Bool
  | .list .vector items => distinctParamsAll items
  | .list .plain (.symbol head :: operands) =>
    match Form.ofName? head, operands with
    | some .lambda, [params, body] =>
      match params.params with
      | .ok params => decide params.Nodup && distinctParams body
      | .error _ => true
    | some .quote, _ => true
    | _, operands => distinctParamsAll operands
  | .list .plain items => distinctParamsAll items
  | _ => true

/-- Whether no function in several expressions repeats a parameter. -/
def distinctParamsAll : List Value → Bool
  | [] => true
  | v :: rest => distinctParams v && distinctParamsAll rest

end

/-! ## Forms that leave their operands in place -/

section Operands

variable {word : String} {operands : List Value}

theorem sure_application (hw : Form.ofName? word = none) :
    (list .plain (.symbol word :: operands)).sure = sureAll operands := by
  simp [sure, hw]

theorem sure_sequence (hw : Form.ofName? word = some .sequence) :
    (list .plain (.symbol word :: operands)).sure = sureAll operands := by
  simp [sure, hw]

theorem distinctParams_operands (hq : Form.ofName? word ≠ some .quote)
    (hl : Form.ofName? word ≠ some .lambda) :
    (list .plain (.symbol word :: operands)).distinctParams = distinctParamsAll operands := by
  simp [distinctParams, hl]

theorem strays_operands (bound : List String) (hq : Form.ofName? word ≠ some .quote)
    (hl : Form.ofName? word ≠ some .lambda) (ha : Form.ofName? word ≠ some .assign) :
    (list .plain (.symbol word :: operands)).strays bound = straysAll bound operands := by
  simp [strays, hl, ha]

theorem timely_application (o : Outlook) (hw : Form.ofName? word = none) :
    (list .plain (.symbol word :: operands)).timely o =
      (!o.barred.contains word && timelyAll o operands) := by
  simp [timely, hw]

theorem timely_sequence (o : Outlook) (hw : Form.ofName? word = some .sequence) :
    (list .plain (.symbol word :: operands)).timely o = timelyAll o operands := by
  simp [timely, hw]

end Operands

end Value

end MiniLisp
