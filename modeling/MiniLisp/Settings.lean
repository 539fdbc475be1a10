import MiniLisp.Number.Numeral
import MiniLisp.Text.Blank
import MiniLisp.Text.DecimalDigit

/-!
# Settings

Settings come from variables, each a text or not set. A text that makes no sense counts as not set.
-/

namespace MiniLisp

namespace Setting

/-- Digits of any script, where a single underscore may stand between two. -/
def readDigits : List Char → Option (List Nat)
  | [] => none
  | [c] => (Text.decimalDigit? c).map ([·])
  | c :: '_' :: rest =>
    (Text.decimalDigit? c).bind fun d => (readDigits rest).map (d :: ·)
  | c :: rest => (Text.decimalDigit? c).bind fun d => (readDigits rest).map (d :: ·)

/-- The number that digits write. -/
def ofDigits (digits : List Nat) : Nat := digits.foldl (fun n d => 10 * n + d) 0

/-- A whole number without a sign. -/
def readNat (cs : List Char) : Option Nat :=
  (readDigits cs).bind fun digits =>
    if digits.length ≤ Numeral.digitLimit then some (ofDigits digits) else none

/-- A whole number with an optional sign. -/
def readInt : List Char → Option Int
  | '-' :: cs => (readNat cs).map fun n => -(n : Int)
  | '+' :: cs => (readNat cs).map Int.ofNat
  | cs => (readNat cs).map Int.ofNat

/-- A positive whole number, or the default. -/
def positive (raw : Option String) (default : Int) : Int :=
  match raw with
  | none => default
  | some s =>
    match readInt (Text.strip s.toList) with
    | some n => if 0 < n then n else default
    | none => default

theorem positive_pos (raw : Option String) {default : Int} (h : 0 < default) :
    0 < positive raw default := by
  unfold positive
  split
  · exact h
  · split
    · split
      · assumption
      · exact h
    · exact h

/-- The texts that turn a flag on. -/
def truths : List String := ["1", "true", "yes", "on"]

/-- Whether a flag is on. Every letter of the texts that turn it on is the small form of an ASCII
letter only, so ASCII case is enough. -/
def flag (raw : Option String) : Bool :=
  match raw with
  | none => false
  | some s => truths.contains (String.ofList ((Text.strip s.toList).map Char.toLower))

end Setting

/-- The call depth where no variable sets it. -/
def defaultCallDepth : Nat := 1000

/-- The settings of a run. -/
structure Settings where
  /-- How many calls of closures may be nested. -/
  callDepth : Nat := defaultCallDepth
  callDepth_pos : 0 < callDepth := by decide
  /-- Whether compiled scripts are logged at a higher level. -/
  traceScripts : Bool := false

/-- The settings that variables give. -/
def Settings.ofVariables (value? : String → Option String) : Settings where
  callDepth := (Setting.positive (value? "SQUIRREL_MAX_CALL_DEPTH") defaultCallDepth).toNat
  callDepth_pos := Int.pos_iff_toNat_pos.1 (Setting.positive_pos _ (by decide))
  traceScripts := Setting.flag (value? "SQUIRREL_TRACE_CODEGEN")

end MiniLisp
