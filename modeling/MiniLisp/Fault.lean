import MiniLisp.Form
import MiniLisp.Host
import MiniLisp.Number.Numeral
import MiniLisp.Text.Inspect
import MiniLisp.Value.Nesting
import MiniLisp.Value.Printer

/-!
# Faults

Why an evaluation ends without a value. A fault holds its cause; its kind and its wording follow
from the cause. Where the wording shows values, it takes frames to write their texts
(`Fault.within`).
-/

namespace MiniLisp

/-- Why something is not the parameter list of a function. -/
inductive ParamFault where
  | notList (v : Value)
  | notSymbol (v : Value)

/-- What was found instead of a list or a symbol. -/
def ParamFault.found : ParamFault → Value
  | .notList v | .notSymbol v => v

/-- The wording of a refused parameter list. -/
def ParamFault.message : ParamFault → String
  | .notList v => "lambda first argument must be a list of symbols, got " ++ v.toText
  | .notSymbol v => "lambda parameters must be symbols, got " ++ v.toText

/-- The names in a list of symbols. -/
def symbolNames : List Value → Except ParamFault (List String)
  | [] => .ok []
  | .symbol name :: rest => (symbolNames rest).map (name :: ·)
  | v :: _ => .error (.notSymbol v)

/-- The parameters that a list of symbols, of either flavor, writes. -/
def Value.params : Value → Except ParamFault (List String)
  | .list _ items => symbolNames items
  | v => .error (.notList v)

/-- Causes of faults. -/
inductive Fault where
  /-- A name that no scope around binds was read. -/
  | unbound (name : String)
  /-- A name that no scope around binds was given a value. -/
  | unboundTarget (name : String)
  | emptyApplication
  /-- An application that begins neither with a symbol nor with an application. -/
  | badHead (head : Value)
  | notFunction (v : Value)
  | closureArity (due given : Nat)
  | nativeArity (fn : Native) (given : Nat)
  /-- A special form with too few or too many parts. -/
  | formArity (form : Form)
  /-- A binding of something that is no symbol. -/
  | badTarget (form : Form) (v : Value)
  | badCondition (v : Value)
  | badParams (cause : ParamFault)
  /-- A dictionary whose last key has no value. -/
  | loneKey (key : Value)
  | badKey (key : Value)
  | notNumbers (op : Operator) (x y : Value)
  | notSequence (fn : Native) (v : Value)
  | badIndex (fn : Native) (v : Value)
  | outOfRange (index : Int) (length : Nat)
  /-- Something that is neither a list nor a text was to be joined. -/
  | notJoinable (v : Value)
  | notJoinableToList (v : Value)
  | notJoinableToText (v : Value)
  | notText (fn : Native) (v : Value)
  | notInteger (s : String)
  | notDecimal (s : String)
  /-- A whole number with too many digits. -/
  | tooManyDigits (count : Nat)
  /-- A whole number beyond the largest double. -/
  | tooLarge
  /-- All nested calls are spent. -/
  | callDepth
  /-- All frames are spent. -/
  | frameLimit
  /-- The text of a value was to be written, and the value nests deeper than the frames left. -/
  | textLimit
  /-- A call depth that asks for more frames than can be given. -/
  | tooManyFrames
  /-- An error of the host that nothing stood guard against. -/
  | leaked (e : HostError)

namespace Fault

/-- The kinds of faults. -/
inductive Kind where
  | unbound
  | type
  | argument
  | format
  | dictionaryKey
  | dictionaryArity
  | exhausted
  | digitLimit
  | overflow
  /-- An error of the host, as it is. -/
  | host (kind : HostError.Kind)
deriving DecidableEq

/-- The kind of a fault. -/
def kind : Fault → Kind
  | unbound _ | unboundTarget _ => .unbound
  | emptyApplication | badHead _ | notFunction _ | badTarget .. | badCondition _ | badParams _ =>
    .type
  | closureArity .. | nativeArity .. | formArity _ | notNumbers .. | notSequence .. | badIndex ..
  | outOfRange .. | notJoinable _ | notJoinableToList _ | notJoinableToText _ | notText .. =>
    .argument
  | notInteger _ | notDecimal _ => .format
  | loneKey _ => .dictionaryArity
  | badKey _ => .dictionaryKey
  | tooManyDigits _ => .digitLimit
  | tooLarge | tooManyFrames => .overflow
  | callDepth | frameLimit | textLimit => .exhausted
  | leaked e => .host e.kind

/-- The wording for a special form with too few or too many parts. -/
def formUsage : Form → String
  | .define => "def requires exactly 2 arguments: (def name value)"
  | .assign => "set requires exactly 2 arguments: (set var value)"
  | .sequence => "do requires at least 1 expression"
  | .choose => "if requires a condition, a then-expression and an else-expression"
  | .lambda => "lambda requires a parameter list and a body: (lambda (params) body)"
  | .quote => "quote expects exactly 1 argument"

/-- The wording for a number of arguments that a function does not take. -/
def arityMessage (name : String) (arity : Arity) (given : Nat) : String :=
  let due := match arity with
    | .exactly n => toString n
    | .atLeast n => "at least " ++ toString n
  name ++ " expects " ++ due ++ " argument(s), got " ++ toString given

/-- The wording of a fault. -/
def message : Fault → String
  | unbound name => "Cannot lookup unbound symbol " ++ name
  | unboundTarget name => "Cannot set unbound symbol " ++ name
  | emptyApplication => "Cannot evaluate an empty list"
  | badHead head => "A symbolic expression must begin with a symbol, got " ++ head.toText
  | notFunction v => "Cannot apply non-function " ++ v.toText
  | closureArity due given => arityMessage "lambda" (.exactly due) given
  | nativeArity fn given => arityMessage fn.name fn.arity given
  | formArity form => formUsage form
  | badTarget form v => form.name ++ " first argument must be a symbol, got " ++ v.toText
  | badCondition v => "if condition must be a boolean, got " ++ v.toText
  | badParams cause => cause.message
  | loneKey key => "Dictionary key " ++ key.toText ++ " has no value"
  | badKey key => "Dictionary keys must be strings, got " ++ key.toText
  | notNumbers op x y =>
    op.name ++ " requires two numbers, got " ++ x.toText ++ " and " ++ y.toText
  | notSequence fn v => fn.name ++ " requires a list or a string, got " ++ v.toText
  | badIndex fn v => fn.name ++ " index must be an integral number, got " ++ v.toText
  | outOfRange index length =>
    "nth index " ++ toString index ++ " out of range for length " ++ toString length
  | notJoinable v => "concat requires lists or strings, got " ++ v.toText
  | notJoinableToList v => "Cannot join a list with " ++ v.toText
  | notJoinableToText v => "Cannot join a string with " ++ v.toText
  | notText fn v => fn.name ++ " requires a string, got " ++ v.toText
  | notInteger s => "Cannot parse " ++ Text.inspect s ++ " as an integer"
  | notDecimal s => "Cannot parse " ++ Text.inspect s ++ " as a number"
  | tooManyDigits count =>
    "Exceeds the limit (" ++ toString Numeral.digitLimit ++
      " digits) for integer string conversion: value has " ++ toString count ++
      " digits; use sys.set_int_max_str_digits() to increase the limit"
  | tooLarge => "int too large to convert to float"
  | callDepth => "Maximum call depth exceeded"
  | frameLimit | textLimit => "Maximum recursion depth exceeded"
  | tooManyFrames => "Python int too large to convert to C int"
  | leaked e => e.message

/-- The values whose texts the wording shows. -/
def shown : Fault → List Value
  | badHead v | notFunction v | badTarget _ v | badCondition v | loneKey v | badKey v
  | notSequence _ v | badIndex _ v | notJoinable v | notJoinableToList v | notJoinableToText v
  | notText _ v => [v]
  | badParams cause => [cause.found]
  | notNumbers _ x y => [x, y]
  | _ => []

/-- The fault that arises where so many frames are left: the wording is written at once, and where
the frames do not suffice for it, that is the fault. -/
def within (e : Fault) (frames : Nat) : Fault :=
  if e.shown.all (·.fits frames) then e else textLimit

/-- Whether a fault tells that the frames did not suffice. -/
def isFrameLimit : Fault → Bool
  | frameLimit | textLimit => true
  | _ => false

end Fault

end MiniLisp
