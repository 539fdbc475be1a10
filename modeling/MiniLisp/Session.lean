import MiniLisp.Evaluator
import MiniLisp.Script.Lowering
import MiniLisp.Script.Printer
import MiniLisp.Settings
import MiniLisp.Token.Lexer
import MiniLisp.Value.Reader

/-!
# Sessions

An interpreter is a global scope of a store. It evaluates and compiles source texts one after the
other; definitions stay for the texts that follow. What it does is noted in a log.
-/

namespace MiniLisp

/-- Why a source text gives no value or no script. -/
inductive Failure where
  | lexical (e : LexError)
  | syntactic (e : ParseError)
  | fault (e : Fault)
  | lowering (e : LoweringError)
  | printing (e : Script.PrintError)

/-- The wording of a failure. -/
def Failure.message : Failure → String
  | .lexical e => e.message
  | .syntactic e => e.message
  | .fault e => e.message
  | .lowering e => e.message
  | .printing e => e.message

/-- The expression that a source text writes. -/
def readSource (source : String) : Except Failure Value :=
  match lex source with
  | .error e => .error (.lexical e)
  | .ok tokens =>
    match parse tokens with
    | .error e => .error (.syntactic e)
    | .ok v => .ok v

/-- Evaluates an expression in a scope. -/
def Store.run (st : Store) (settings : Settings) (scope : ScopeId) (expr : Value) :
    Except Failure Value × Store :=
  match st.evaluate settings.callDepth scope expr with
  | .ok v st => (.ok v, st)
  | .error e st => (.error (.fault e), st)

/-- Evaluates a source text in a scope. -/
def Store.runSource (st : Store) (settings : Settings) (scope : ScopeId) (source : String) :
    Except Failure Value × Store :=
  match readSource source with
  | .error e => (.error e, st)
  | .ok expr => st.run settings scope expr

/-- The script of an expression. -/
def lowerExpr (expr : Value) : Except Failure Script :=
  match expr.toScript with
  | .ok s => .ok s
  | .error e => .error (.lowering e)

/-- The text of a script. -/
def printScript (s : Script) : Except Failure String :=
  match s.print with
  | .ok text => .ok text
  | .error e => .error (.printing e)

/-- The text of the script of a source text. -/
def compileSource (source : String) : Except Failure String := do
  printScript (← lowerExpr (← readSource source))

/-! ## The log -/

/-- How important a log record is. -/
inductive LogLevel where
  | debug
  | info

/-- The written form of a level. -/
def LogLevel.name : LogLevel → String
  | debug => "DEBUG"
  | info => "INFO"

/-- A record of the log. -/
structure LogRecord where
  level : LogLevel
  /-- The part of the program that speaks. -/
  logger : String
  message : String

/-- The written form of a record. -/
def LogRecord.text (r : LogRecord) : String :=
  r.level.name ++ " " ++ r.logger ++ " " ++ r.message

/-- The record before an evaluation. -/
def evalRecord (source : String) : LogRecord :=
  ⟨.debug, "squirrel.interpreter", "eval: " ++ source⟩

/-- The record of an evaluation that spent all its frames. -/
def exhaustionRecord : LogRecord :=
  ⟨.debug, "squirrel.evaluation.evaluator", "Python recursion limit reached during evaluation"⟩

/-- The record after a compilation. -/
def compileRecord (settings : Settings) (source script : String) : LogRecord :=
  ⟨if settings.traceScripts then .info else .debug, "squirrel.interpreter",
    "compiled " ++ source ++ " -> " ++ script⟩

/-- The log of the evaluation of a source text. -/
def evalLog (source : String) (result : Except Failure Value) : List LogRecord :=
  match result with
  | .error (.fault e) =>
    if e.isFrameLimit then [evalRecord source, exhaustionRecord] else [evalRecord source]
  | _ => [evalRecord source]

/-- The log of the compilation of a source text. -/
def compileLog (settings : Settings) (source : String) (result : Except Failure String) :
    List LogRecord :=
  match result with
  | .ok script => [compileRecord settings source script]
  | .error _ => []

/-! ## Interpreters -/

/-- A global scope with the home of its natives. -/
structure Interpreter where
  root : ScopeId
  home : Nat

/-- Makes interpreters; `shared` ones have the same natives, but each has its own scope. -/
def Interpreter.make (count : Nat) (shared : Bool) : List Interpreter × Store :=
  let homes := (List.range count).map fun i => if shared then 0 else i
  (homes.zipIdx.map fun (home, root) => ⟨root, home⟩, homes.foldl Store.pushGlobal {})

/-- Whether a binding is one that a global scope starts with. -/
def Interpreter.isInitial (i : Interpreter) (binding : String × Value) : Bool :=
  match binding with
  | (name, .native fn home) => name == fn.name && home == i.home
  | _ => false

/-- The global bindings that programs made, sorted by name. -/
def Interpreter.globals (i : Interpreter) (st : Store) : List (String × Value) :=
  ((st.bindings i.root).filter (!i.isInitial ·)).mergeSort fun a b => !decide (b.1 < a.1)

end MiniLisp
