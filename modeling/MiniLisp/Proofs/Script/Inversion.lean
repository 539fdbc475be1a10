import Mathlib.Data.List.Basic
import MiniLisp.Script.Lowering

/-!
# What the lowering asks for

When a function of the lowering gives a script, it has asked the other functions for the scripts of
the parts, with one frame less. Here each of these functions is opened, once; what later holds of
all scripts is shown from these cases and an induction on the frames.
-/

namespace MiniLisp

open Script (mangle)

theorem Except.bind_eq_ok {ε α β : Type} {x : Except ε α} {f : α → Except ε β} {b : β}
    (h : x >>= f = .ok b) : ∃ a, x = .ok a ∧ f a = .ok b := by
  cases x with
  | error e => cases h
  | ok a => exact ⟨a, rfl, h⟩

theorem Except.eq_ok_of_toOption {ε α : Type} {x : Except ε α} {a : α}
    (h : x.toOption = some a) : x = .ok a := by
  cases x with
  | error e => cases h
  | ok b =>
    cases h
    rfl

namespace Lowering

variable {k : Nat} {names : Names} {s : Script}

/-! ## Names -/

theorem Names.native?_eq_some {name : String} {fn : Native} (h : names.native? name = some fn) :
    name ∉ names.bound ∧ Native.ofName? name = some fn := by
  unfold Names.native? at h
  split at h
  · cases h
  · rename_i hb
    exact ⟨by simpa using hb, h⟩

theorem Names.native?_eq_none {name : String} (h : names.native? name = none) :
    name ∈ names.bound ∨ name ∉ names.bound ∧ Native.ofName? name = none := by
  unfold Names.native? at h
  split at h
  · rename_i hb
    exact .inl (by simpa using hb)
  · rename_i hb
    exact .inr ⟨by simpa using hb, h⟩

/-- What the script of a symbol is. -/
inductive SymbolScript (names : Names) (name : String) : Script → Prop
  | operator {op : Operator} : names.native? name = some (.operator op) →
      SymbolScript names name (operatorFunction op)
  | name : names.native? name = none → SymbolScript names name (.identifier (mangle name))

theorem lowerSymbol_eq_ok {name : String} (h : lowerSymbol names name = .ok s) :
    SymbolScript names name s := by
  unfold lowerSymbol at h
  split at h
  · rename_i op hop
    cases h
    exact .operator hop
  · cases h
  · rename_i hnone
    split at h
    · cases h
    · cases h
      exact .name hnone

/-! ## Lists -/

theorem each_cons_eq_ok {α β : Type} {f : α → Except LoweringError β} {x : α}
    {xs : List α} {ys : List β} (h : each f (x :: xs) = .ok ys) :
    ∃ y rest, f x = .ok y ∧ each f xs = .ok rest ∧ ys = y :: rest := by
  obtain ⟨y, hy, h⟩ := Except.bind_eq_ok h
  obtain ⟨rest, hrest, h⟩ := Except.bind_eq_ok h
  cases h
  exact ⟨y, rest, hy, hrest, rfl⟩

theorem length_of_each {α β : Type} {f : α → Except LoweringError β} {xs : List α}
    {ys : List β} (h : each f xs = .ok ys) : ys.length = xs.length := by
  induction xs generalizing ys with
  | nil =>
    cases h
    rfl
  | cons x xs ih =>
    obtain ⟨y, rest, -, hrest, rfl⟩ := each_cons_eq_ok h
    rw [List.length_cons, List.length_cons, ih hrest]

theorem length_of_lowerAll {es : List Value} {ss : List Script}
    (h : lowerAll k names es = .ok ss) : ss.length = es.length := by
  cases k with
  | zero => cases h
  | succ k => exact length_of_each h

/-! ## Expressions -/

/-- What the script of an expression is, with `k` frames for its parts. -/
inductive ExprScript (k : Nat) (names : Names) : Value → Script → Prop
  | atom (a : Atom) : ExprScript k names (.atom a) (.literal a)
  | symbol {name : String} {s : Script} : SymbolScript names name s →
      ExprScript k names (.symbol name) s
  | vector {items : List Value} {ss : List Script} : lowerAll k names items = .ok ss →
      ExprScript k names (.list .vector items) (.array ss)
  | application {head : Value} {operands : List Value} {s : Script} :
      lowerApplication k names head operands = .ok s →
      ExprScript k names (.list .plain (head :: operands)) s

theorem lower_eq_ok {e : Value} (h : lower (k + 1) names e = .ok s) : ExprScript k names e s := by
  unfold lower at h
  cases e with
  | atom a =>
    cases h
    exact .atom a
  | symbol name => exact .symbol (lowerSymbol_eq_ok h)
  | list flavor items =>
    cases flavor with
    | vector =>
      obtain ⟨ss, hall, h⟩ := Except.bind_eq_ok h
      cases h
      exact .vector hall
    | plain =>
      cases items with
      | nil => cases h
      | cons head operands => exact .application h
  | _ => cases h

/-- What the script of an application is, with `k` frames for its parts. -/
inductive ApplicationScript (k : Nat) (names : Names) : Value → List Value → Script → Prop
  | form {word : String} {form : Form} {operands : List Value} {s : Script} :
      Form.ofName? word = some form → lowerForm k names form operands = .ok s →
      ApplicationScript k names (.symbol word) operands s
  | operation {name : String} {op : Operator} {x y : Value} {s t : Script} :
      Form.ofName? name = none → names.native? name = some (.operator op) →
      lowerAll k names [x, y] = .ok [s, t] →
      ApplicationScript k names (.symbol name) [x, y] (.binary op.sign s t)
  | build {name : String} {fn : Native} {operands : List Value} {ss : List Script} :
      Form.ofName? name = none → names.native? name = some fn → fn = .list ∨ fn = .vector →
      lowerAll k names operands = .ok ss →
      ApplicationScript k names (.symbol name) operands (.array ss)
  | call {name : String} {operands : List Value} {ss : List Script} :
      Form.ofName? name = none → names.native? name = none →
      lowerAll k names operands = .ok ss →
      ApplicationScript k names (.symbol name) operands (.call (.identifier (mangle name)) ss)
  | callValue {head operands : List Value} {s : Script} {ss : List Script} :
      lower k names (.list .plain head) = .ok s → lowerAll k names operands = .ok ss →
      ApplicationScript k names (.list .plain head) operands (.call s ss)

theorem lowerApplication_eq_ok {head : Value} {operands : List Value}
    (h : lowerApplication (k + 1) names head operands = .ok s) :
    ApplicationScript k names head operands s := by
  unfold lowerApplication at h
  cases head with
  | symbol name =>
    dsimp only at h
    split at h
    · rename_i form hform
      exact .form hform h
    rename_i hform
    split at h
    · rename_i op hop
      obtain ⟨_, -, h⟩ := Except.bind_eq_ok h
      obtain ⟨ss, hall, h⟩ := Except.bind_eq_ok h
      split at h
      · cases h
        obtain ⟨x, y, rfl⟩ := List.length_eq_two.1 (length_of_lowerAll hall).symm
        exact .operation hform hop hall
      · cases h
    · rename_i hfn
      obtain ⟨ss, hall, h⟩ := Except.bind_eq_ok h
      cases h
      exact .build hform hfn (.inl rfl) hall
    · rename_i hfn
      obtain ⟨ss, hall, h⟩ := Except.bind_eq_ok h
      cases h
      exact .build hform hfn (.inr rfl) hall
    · cases h
    · rename_i hnone
      obtain ⟨ss, hall, h⟩ := Except.bind_eq_ok h
      cases h
      exact .call hform hnone hall
  | list flavor items =>
    cases flavor with
    | vector => cases h
    | plain =>
      obtain ⟨callee, hcallee, h⟩ := Except.bind_eq_ok h
      obtain ⟨ss, hall, h⟩ := Except.bind_eq_ok h
      cases h
      exact .callValue hcallee hall
  | _ => cases h

theorem lowerBinding_eq_ok {form : Form} {operands : List Value}
    (h : lowerBinding (k + 1) names form operands = .ok s) :
    ∃ name e t, operands = [.symbol name, e] ∧ lower k names e = .ok t ∧
      s = .assignment (.identifier (mangle name)) t := by
  unfold lowerBinding at h
  split at h
  · rename_i name expr
    obtain ⟨t, ht, h⟩ := Except.bind_eq_ok h
    cases h
    exact ⟨name, expr, t, rfl, ht, rfl⟩
  · cases h
  · cases h

/-- What the script of a special form is, with `k` frames for its parts. -/
inductive FormScript (k : Nat) (names : Names) : Form → List Value → Script → Prop
  | quote (a : Atom) : FormScript k names .quote [.atom a] (.literal a)
  | single {e : Value} {s : Script} : lower k names e = .ok s → FormScript k names .sequence [e] s
  | sequence {exprs : List Value} {ss : List Script} : 2 ≤ exprs.length →
      lowerAll k names exprs = .ok ss → FormScript k names .sequence exprs (.sequence ss)
  | choose {e yes no : Value} {s t u : Script} : lowerAll k names [e, yes, no] = .ok [s, t, u] →
      FormScript k names .choose [e, yes, no] (.conditional s t u)
  | binding {form : Form} {operands : List Value} {s : Script} :
      form = .define ∨ form = .assign → lowerBinding k names form operands = .ok s →
      FormScript k names form operands s
  | function {list body : Value} {params : List String} {s : Script} :
      list.params = .ok params → lowerScope k names false params body = .ok s →
      FormScript k names .lambda [list, body] (.function (params.map mangle) s)

theorem lowerForm_eq_ok {form : Form} {operands : List Value}
    (h : lowerForm (k + 1) names form operands = .ok s) : FormScript k names form operands s := by
  unfold lowerForm at h
  split at h
  · cases h
    exact .quote _
  · cases h
  · cases h
  · cases h
  · exact .single h
  · rename_i hnil hsingle
    obtain ⟨ss, hall, h⟩ := Except.bind_eq_ok h
    cases h
    refine .sequence ?_ hall
    rcases operands with _ | ⟨e, _ | ⟨e', rest⟩⟩
    · exact absurd rfl hnil
    · exact absurd rfl (hsingle e)
    · exact Nat.le_add_left 2 rest.length
  · obtain ⟨ss, hall, h⟩ := Except.bind_eq_ok h
    split at h
    · cases h
      exact .choose hall
    · cases h
  · cases h
  · exact .binding (.inl rfl) h
  · exact .binding (.inr rfl) h
  · split at h
    · cases h
    · rename_i params hparams
      obtain ⟨t, ht, h⟩ := Except.bind_eq_ok h
      cases h
      exact .function hparams ht
  · cases h

/-- The script of a scope is a wrapper around the script of its body. -/
theorem lowerScope_eq_ok {outer : Names} {toplevel : Bool} {params : List String} {body : Value}
    (h : lowerScope (k + 1) outer toplevel params body = .ok s) :
    ∃ initial t, initialValues outer toplevel (definitions params body) = .ok initial ∧
      lower k ((outer.extend params).extend (definitions params body)) body = .ok t ∧
      s = wrapper initial t := by
  unfold lowerScope at h
  dsimp only at h
  split at h
  · cases h
  obtain ⟨initial, hinitial, h⟩ := Except.bind_eq_ok h
  obtain ⟨t, ht, h⟩ := Except.bind_eq_ok h
  cases h
  exact ⟨initial, t, hinitial, ht, rfl⟩

end Lowering

/-- The script of a program is that of a scope without parameters. -/
theorem Value.toScript_eq_ok {program : Value} {s : Script} (h : program.toScript = .ok s) :
    Lowering.lowerScope Lowering.allowance ⟨[], program.targets .assign true⟩ true [] program =
      .ok s := by
  unfold Value.toScript at h
  split at h
  · exact h
  · cases h

end MiniLisp
