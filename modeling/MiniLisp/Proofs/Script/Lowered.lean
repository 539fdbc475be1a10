import Mathlib.Data.List.Nodup
import MiniLisp.Proofs.Script.Translation

/-!
# What the lowering accepts

`Lowered names e s` says that the lowering makes the script `s` of the expression `e` where `names`
are bound. It has one rule for each kind of expression, without frames and without a condition that
the lowering does not check, so that what holds of every script is shown by induction on the rules.
The script of a program is the script of a scope (`loweredScope_of_toScript`): a wrapper around the
script of the body (`wrapper_eq`), for the names that the scope defines.
-/

namespace MiniLisp

open Script (mangle Plain)
open Lowering

/-! ## Names and their identifiers -/

theorem mem_map_mangle {xs : List String} {n : String} (hxs : ∀ x ∈ xs, Plain x) (hn : Plain n) :
    mangle n ∈ xs.map mangle ↔ n ∈ xs := by
  refine ⟨fun h => ?_, List.mem_map_of_mem⟩
  obtain ⟨x, hx, heq⟩ := List.mem_map.1 h
  rwa [← Script.mangle_inj (hxs x hx) hn heq]

theorem nodup_map_mangle {xs : List String} (hxs : ∀ x ∈ xs, Plain x) (hnodup : xs.Nodup) :
    (xs.map mangle).Nodup :=
  List.Nodup.map_on (fun x hx y hy h => Script.mangle_inj (hxs x hx) (hxs y hy) h) hnodup

/-! ## The initial values of a scope -/

/-- The names of a wrapper, those with an initial value first. -/
def wrapperNames (initial : List (String × Option Script)) : List String :=
  (initial.filter (·.2.isSome) ++ initial.filter (·.2.isNone)).map Prod.fst

theorem initialValues_eq_ok {outer : Names} {toplevel : Bool} {defs : List String}
    {initial : List (String × Option Script)}
    (h : initialValues outer toplevel defs = .ok initial) :
    initial.map Prod.fst = defs ∧
      ∀ d ∈ initial, initialValue outer toplevel d.1 = .ok d.2 := by
  induction defs generalizing initial with
  | nil =>
    cases h
    exact ⟨rfl, fun d hd => by cases hd⟩
  | cons name defs ih =>
    obtain ⟨d, rest, hd, hrest, rfl⟩ := Lowering.each_cons_eq_ok h
    obtain ⟨init, hinit, hd⟩ := Except.bind_eq_ok hd
    cases hd
    obtain ⟨hmap, hall⟩ := ih hrest
    refine ⟨by simp [hmap], fun d hd => ?_⟩
    rcases List.mem_cons.1 hd with rfl | hd
    · exact hinit
    · exact hall d hd

/-- The three kinds of initial values. A name that is assigned gets none in a function. -/
theorem initialValue_cases {bound assigned : List String} {toplevel : Bool} {n : String}
    {init : Option Script} (h : initialValue ⟨bound, assigned⟩ toplevel n = .ok init) :
    (n ∈ bound ∧ init = some (.identifier (mangle n)) ∧ (toplevel = false → n ∉ assigned)) ∨
      (n ∉ bound ∧ (∃ op, Native.ofName? n = some (.operator op) ∧
        init = some (operatorFunction op)) ∧ (toplevel = false → n ∉ assigned)) ∨
      (n ∉ bound ∧ Native.ofName? n = none ∧ init = none) := by
  have hguard {s : Script}
      (h : (if !toplevel && assigned.contains n then .error (.reassignedShadow n)
        else .ok (some s)) = Except.ok (ε := LoweringError) init) :
      init = some s ∧ (toplevel = false → n ∉ assigned) := by
    split at h
    · cases h
    · rename_i hn
      cases h
      exact ⟨rfl, fun ht hmem => hn (by simp [ht, hmem])⟩
  unfold initialValue at h
  dsimp only at h
  by_cases hb : n ∈ bound
  · rw [if_pos (by simpa using hb)] at h
    exact .inl ⟨hb, hguard h⟩
  · rw [if_neg (by simpa using hb)] at h
    cases hn : Native.ofName? n with
    | none =>
      rw [hn] at h
      cases h
      exact .inr (.inr ⟨hb, rfl, rfl⟩)
    | some fn =>
      rw [hn] at h
      cases fn with
      | operator op =>
        obtain ⟨hinit, hassigned⟩ := hguard h
        exact .inr (.inl ⟨hb, ⟨op, rfl, hinit⟩, hassigned⟩)
      | _ => cases h

theorem wrapperNames_perm (initial : List (String × Option Script)) :
    (wrapperNames initial).Perm (initial.map Prod.fst) := by
  unfold wrapperNames
  refine List.Perm.map _ ?_
  have h := List.filter_append_perm (fun d : String × Option Script => d.2.isSome) initial
  refine List.Perm.trans (List.Perm.of_eq ?_) h
  congr 1
  refine List.filter_congr fun d _ => ?_
  cases d.2 <;> rfl

section ScopeNames

variable {outer : Names} {toplevel : Bool} {params : List String} {body : Value}
  {initial : List (String × Option Script)}

theorem mem_wrapperNames
    (h : initialValues outer toplevel (definitions params body) = .ok initial) {n : String} :
    n ∈ wrapperNames initial ↔ n ∈ definitions params body := by
  rw [(wrapperNames_perm initial).mem_iff, (initialValues_eq_ok h).1]

theorem mem_scopeNames (h : initialValues outer toplevel (definitions params body) = .ok initial)
    {n : String} : n ∈ params ++ wrapperNames initial ↔ n ∈ params ++ definitions params body := by
  rw [List.mem_append, List.mem_append, mem_wrapperNames h]

theorem nodup_wrapperNames
    (h : initialValues outer toplevel (definitions params body) = .ok initial) :
    (wrapperNames initial).Nodup := by
  rw [(wrapperNames_perm initial).nodup_iff, (initialValues_eq_ok h).1]
  exact nodup_definitions params body

theorem nodup_scopeNames (h : initialValues outer toplevel (definitions params body) = .ok initial)
    (hparams : params.Nodup) : (params ++ wrapperNames initial).Nodup := by
  rw [List.nodup_append]
  refine ⟨hparams, nodup_wrapperNames h, fun a ha b hb hab => ?_⟩
  subst hab
  exact (mem_definitions.1 ((mem_wrapperNames h).1 hb)).2 ha

theorem nodup_map_wrapperNames
    (h : initialValues outer toplevel (definitions params body) = .ok initial)
    (hplain : ∀ n ∈ definitions params body, Plain n) :
    ((wrapperNames initial).map mangle).Nodup :=
  nodup_map_mangle (fun n hn => hplain n ((mem_wrapperNames h).1 hn)) (nodup_wrapperNames h)

/-- The arguments of a wrapper. -/
theorem argument_cases (h : initialValues outer toplevel (definitions params body) = .ok initial)
    {t : Script} (ht : t ∈ (initial.filter (·.2.isSome)).filterMap Prod.snd) :
    (∃ n ∈ definitions params body, t = .identifier (mangle n)) ∨ ∃ op, t = operatorFunction op := by
  obtain ⟨d, hd, hdt⟩ := List.mem_filterMap.1 ht
  have hmem := (List.mem_filter.1 hd).1
  obtain ⟨hnames, hvalues⟩ := initialValues_eq_ok h
  have hinit := hvalues d hmem
  rw [hdt] at hinit
  rcases initialValue_cases hinit with ⟨-, heq, -⟩ | ⟨-, ⟨op, -, heq⟩, -⟩ | ⟨-, -, heq⟩
  · exact .inl ⟨d.1, hnames ▸ List.mem_map_of_mem hmem, Option.some.inj heq⟩
  · exact .inr ⟨op, Option.some.inj heq⟩
  · cases heq

end ScopeNames

/-- A scope without definitions has no wrapper. -/
theorem wrapper_eq (initial : List (String × Option Script)) (s : Script) :
    wrapper initial s = if initial = [] then s
      else .call (.function ((wrapperNames initial).map mangle) s)
        ((initial.filter (·.2.isSome)).filterMap Prod.snd) := by
  cases initial with
  | nil => rfl
  | cons d initial => simp [wrapper, wrapperNames, Function.comp_def]

/-! ## Expressions and their scripts -/

mutual

/-- A script is what the lowering makes of an expression. -/
inductive Lowered : Names → Value → Script → Prop
  | atom {names : Names} {a : Atom} : Lowered names (.atom a) (.literal a)
  | name {names : Names} {name : String} : names.native? name = none →
      Lowered names (.symbol name) (.identifier (mangle name))
  | operator {names : Names} {name : String} {op : Operator} :
      names.native? name = some (.operator op) →
      Lowered names (.symbol name) (operatorFunction op)
  | vector {names : Names} {items : List Value} {ss : List Script} :
      LoweredAll names items ss → Lowered names (.list .vector items) (.array ss)
  | operation {names : Names} {name : String} {op : Operator} {x y : Value} {s t : Script} :
      Form.ofName? name = none → names.native? name = some (.operator op) →
      LoweredAll names [x, y] [s, t] →
      Lowered names (.list .plain [.symbol name, x, y]) (.binary op.sign s t)
  | build {names : Names} {name : String} {fn : Native} {operands : List Value}
      {ss : List Script} :
      Form.ofName? name = none → names.native? name = some fn → fn = .list ∨ fn = .vector →
      LoweredAll names operands ss →
      Lowered names (.list .plain (.symbol name :: operands)) (.array ss)
  | call {names : Names} {name : String} {operands : List Value} {ss : List Script} :
      Form.ofName? name = none → names.native? name = none → LoweredAll names operands ss →
      Lowered names (.list .plain (.symbol name :: operands)) (.call (.identifier (mangle name)) ss)
  | callValue {names : Names} {head operands : List Value} {s : Script} {ss : List Script} :
      LoweredAll names (.list .plain head :: operands) (s :: ss) →
      Lowered names (.list .plain (.list .plain head :: operands)) (.call s ss)
  | quote {names : Names} {word : String} {a : Atom} : Form.ofName? word = some .quote →
      Lowered names (.list .plain [.symbol word, .atom a]) (.literal a)
  | single {names : Names} {word : String} {e : Value} {s : Script} :
      Form.ofName? word = some .sequence → Lowered names e s →
      Lowered names (.list .plain [.symbol word, e]) s
  | sequence {names : Names} {word : String} {exprs : List Value} {ss : List Script} :
      Form.ofName? word = some .sequence → LoweredAll names exprs ss →
      Lowered names (.list .plain (.symbol word :: exprs)) (.sequence ss)
  | choose {names : Names} {word : String} {e yes no : Value} {s t u : Script} :
      Form.ofName? word = some .choose → LoweredAll names [e, yes, no] [s, t, u] →
      Lowered names (.list .plain [.symbol word, e, yes, no]) (.conditional s t u)
  | define {names : Names} {word name : String} {e : Value} {s : Script} :
      Form.ofName? word = some .define → Lowered names e s →
      Lowered names (.list .plain [.symbol word, .symbol name, e])
        (.assignment (.identifier (mangle name)) s)
  | assign {names : Names} {word name : String} {e : Value} {s : Script} :
      Form.ofName? word = some .assign → Lowered names e s →
      Lowered names (.list .plain [.symbol word, .symbol name, e])
        (.assignment (.identifier (mangle name)) s)
  | function {names : Names} {word : String} {list body : Value} {params : List String}
      {s : Script} :
      Form.ofName? word = some .lambda → list.params = .ok params →
      LoweredScope names false params body s →
      Lowered names (.list .plain [.symbol word, list, body]) (.function (params.map mangle) s)

/-- Scripts are what the lowering makes of expressions. -/
inductive LoweredAll : Names → List Value → List Script → Prop
  | nil {names : Names} : LoweredAll names [] []
  | cons {names : Names} {e : Value} {es : List Value} {s : Script} {ss : List Script} :
      Lowered names e s → LoweredAll names es ss → LoweredAll names (e :: es) (s :: ss)

/-- A script is what the lowering makes of a program or of the body of a function. -/
inductive LoweredScope : Names → Bool → List String → Value → Script → Prop
  | mk {outer : Names} {toplevel : Bool} {params : List String} {body : Value} {s : Script}
      {initial : List (String × Option Script)} :
      initialValues outer toplevel (definitions params body) = .ok initial →
      Lowered ((outer.extend params).extend (definitions params body)) body s →
      LoweredScope outer toplevel params body (wrapper initial s)

end

/-- The functions of the lowering, with so many frames, give what the rules give. -/
structure LowersByRule (k : Nat) : Prop where
  expr : ∀ {names : Names} {e : Value} {s : Script},
    lower k names e = .ok s → Lowered names e s
  all : ∀ {names : Names} {es : List Value} {ss : List Script},
    lowerAll k names es = .ok ss → LoweredAll names es ss
  application : ∀ {names : Names} {head : Value} {es : List Value} {s : Script},
    lowerApplication k names head es = .ok s → Lowered names (.list .plain (head :: es)) s
  form : ∀ {names : Names} {word : String} {form : Form} {es : List Value} {s : Script},
    Form.ofName? word = some form → lowerForm k names form es = .ok s →
    Lowered names (.list .plain (.symbol word :: es)) s
  binding : ∀ {names : Names} {form : Form} {es : List Value} {s : Script},
    lowerBinding k names form es = .ok s →
    ∃ name e t, es = [.symbol name, e] ∧ s = .assignment (.identifier (mangle name)) t ∧
      Lowered names e t
  scope : ∀ {outer : Names} {toplevel : Bool} {params : List String} {body : Value} {s : Script},
    lowerScope k outer toplevel params body = .ok s → LoweredScope outer toplevel params body s

section Steps

variable {k : Nat} {names : Names} {s : Script}

theorem lowered_symbol {name : String} (hs : SymbolScript names name s) :
    Lowered names (.symbol name) s := by
  cases hs with
  | operator hop => exact .operator hop
  | name hnone => exact .name hnone

theorem lowered_expr_succ (ih : LowersByRule k) {e : Value}
    (hs : lower (k + 1) names e = .ok s) : Lowered names e s := by
  cases lower_eq_ok hs with
  | atom a => exact .atom
  | symbol hname => exact lowered_symbol hname
  | vector hall => exact .vector (ih.all hall)
  | application happ => exact ih.application happ

theorem lowered_all_succ (ih : LowersByRule k) {es : List Value} {ss : List Script}
    (hs : lowerAll (k + 1) names es = .ok ss) : LoweredAll names es ss := by
  unfold lowerAll at hs
  induction es generalizing ss with
  | nil =>
    cases hs
    exact .nil
  | cons e es ihs =>
    obtain ⟨s, rest, he, hes, rfl⟩ := each_cons_eq_ok hs
    exact .cons (ih.expr he) (ihs hes)

theorem lowered_application_succ (ih : LowersByRule k) {head : Value} {es : List Value}
    (hs : lowerApplication (k + 1) names head es = .ok s) :
    Lowered names (.list .plain (head :: es)) s := by
  cases lowerApplication_eq_ok hs with
  | form hword hform => exact ih.form hword hform
  | operation hword hop hall => exact .operation hword hop (ih.all hall)
  | build hword hfn hkind hall => exact .build hword hfn hkind (ih.all hall)
  | call hword hnone hall => exact .call hword hnone (ih.all hall)
  | callValue hcallee hall => exact .callValue (.cons (ih.expr hcallee) (ih.all hall))

theorem lowered_binding_succ (ih : LowersByRule k) {form : Form} {es : List Value}
    (hs : lowerBinding (k + 1) names form es = .ok s) :
    ∃ name e t, es = [.symbol name, e] ∧ s = .assignment (.identifier (mangle name)) t ∧
      Lowered names e t := by
  obtain ⟨name, e, t, hes, ht, heq⟩ := lowerBinding_eq_ok hs
  exact ⟨name, e, t, hes, heq, ih.expr ht⟩

theorem lowered_form_succ (ih : LowersByRule k) {word : String} {form : Form} {es : List Value}
    (hw : Form.ofName? word = some form) (hs : lowerForm (k + 1) names form es = .ok s) :
    Lowered names (.list .plain (.symbol word :: es)) s := by
  cases lowerForm_eq_ok hs with
  | quote a => exact .quote hw
  | single he => exact .single hw (ih.expr he)
  | sequence _ hall => exact .sequence hw (ih.all hall)
  | choose hall => exact .choose hw (ih.all hall)
  | binding hform hbinding =>
    obtain ⟨name, e, t, rfl, rfl, ht⟩ := ih.binding hbinding
    rcases hform with rfl | rfl
    · exact .define hw ht
    · exact .assign hw ht
  | function hparams hscope => exact .function hw hparams (ih.scope hscope)

theorem lowered_scope_succ (ih : LowersByRule k) {outer : Names} {toplevel : Bool}
    {params : List String} {body : Value}
    (hs : lowerScope (k + 1) outer toplevel params body = .ok s) :
    LoweredScope outer toplevel params body s := by
  obtain ⟨initial, t, hinitial, ht, rfl⟩ := lowerScope_eq_ok hs
  exact .mk hinitial (ih.expr ht)

theorem lowersByRule (k : Nat) : LowersByRule k := by
  induction k with
  | zero => constructor <;> intros <;> rename_i hs <;> cases hs
  | succ k ih =>
    exact {
      expr := lowered_expr_succ ih
      all := lowered_all_succ ih
      application := lowered_application_succ ih
      form := lowered_form_succ ih
      binding := lowered_binding_succ ih
      scope := lowered_scope_succ ih }

end Steps

/-- The script of a program is that of a scope without parameters. -/
theorem loweredScope_of_toScript {program : Value} {s : Script} (h : program.toScript = .ok s) :
    LoweredScope ⟨[], program.targets .assign true⟩ true [] program s :=
  (lowersByRule _).scope (Value.toScript_eq_ok h)

/-- The script of a source text, if it has one. -/
def scriptOf (source : String) : Option Script := do
  let program ← (readSource source).toOption
  program.toScript.toOption

theorem exists_of_scriptOf {source : String} {test : Script → Bool}
    (h : (scriptOf source).any test = true) :
    ∃ program s, readSource source = .ok program ∧ program.toScript = .ok s ∧ test s = true := by
  obtain ⟨s, hs, htest⟩ := (Option.any_eq_true _ _).1 h
  obtain ⟨program, hread, hs⟩ := Option.bind_eq_some_iff.1 hs
  exact ⟨program, s, Except.eq_ok_of_toOption hread, Except.eq_ok_of_toOption hs, htest⟩

end MiniLisp
