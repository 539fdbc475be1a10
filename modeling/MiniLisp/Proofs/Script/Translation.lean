import Mathlib.Data.List.Forall2
import MiniLisp.Proofs.Script.Inversion
import MiniLisp.Proofs.Script.Name
import MiniLisp.Proofs.Script.Steady

/-!
# The lowering as a relation

`Lowers w c e s` says that `s` is the script of the expression `e` at a site `c` of a program, with
all that makes the script do what the expression does: names are plain, no barred name is read,
parameters are distinct. It has one rule for each kind of expression and no bound on frames, so
later proofs never open the lowering function. Whatever the lowering accepts is related
(`lowers_of_toScript`), if the program is well read, steady and without repeated parameters.
-/

namespace MiniLisp

open Script (mangle Plain)
open Lowering

/-- What a whole program writes with assignments. -/
structure Writes where
  /-- The natives that are assigned at places where nothing binds them. -/
  stray : List String
  /-- The names that are assigned anywhere. -/
  assigned : List String

/-- What is known at a place of a program. -/
structure Site where
  /-- The parameters and definitions of the scope. -/
  own : List String
  /-- The names of the scope and of the scopes around it. -/
  bound : List String
  outlook : Outlook

/-- What a program writes. -/
def Writes.ofProgram (program : Value) : Writes where
  stray := (Outlook.initial program).barred
  assigned := program.targets .assign true

namespace Site

/-- The site once the scope has bound some names. -/
def binding (c : Site) (names : List String) : Site :=
  { c with outlook := c.outlook.binding names }

/-- The site after an expression was evaluated. -/
def after (c : Site) (expr : Value) : Site := c.binding expr.sure

/-- The site where the body of a function begins. -/
def enter (c : Site) (params : List String) (body : Value) : Site where
  own := params ++ definitions params body
  bound := c.bound ++ params ++ definitions params body
  outlook := c.outlook.enter params body

/-- The site where a program begins. -/
def initial (program : Value) : Site where
  own := definitions [] program
  bound := definitions [] program
  outlook := .initial program

end Site

mutual

/-- A script does at a site what an expression does. -/
inductive Lowers (w : Writes) : Site → Value → Script → Prop
  | atom {c : Site} {a : Atom} : Lowers w c (.atom a) (.literal a)
  | name {c : Site} {name : String} : name ∈ c.bound → Plain name →
      name ∉ c.outlook.barred → Lowers w c (.symbol name) (.identifier (mangle name))
  | operator {c : Site} {name : String} {op : Operator} : name ∉ c.bound →
      Native.ofName? name = some (.operator op) → name ∉ c.outlook.barred →
      Lowers w c (.symbol name) (operatorFunction op)
  | unbound {c : Site} {name : String} : name ∉ c.bound → Native.ofName? name = none →
      Lowers w c (.symbol name) (.identifier (mangle name))
  | vector {c : Site} {items : List Value} {ss : List Script} : LowersAll w c items ss →
      Lowers w c (.list .vector items) (.array ss)
  | operation {c : Site} {name : String} {op : Operator} {x y : Value} {s t : Script} :
      Form.ofName? name = none → name ∉ c.bound → Native.ofName? name = some (.operator op) →
      name ∉ c.outlook.barred → LowersAll w c [x, y] [s, t] →
      Lowers w c (.list .plain [.symbol name, x, y]) (.binary op.sign s t)
  | build {c : Site} {name : String} {fn : Native} {operands : List Value} {ss : List Script} :
      Form.ofName? name = none → name ∉ c.bound → Native.ofName? name = some fn →
      fn = .list ∨ fn = .vector → name ∉ c.outlook.barred → LowersAll w c operands ss →
      Lowers w c (.list .plain (.symbol name :: operands)) (.array ss)
  | callName {c : Site} {name : String} {operands : List Value} {ss : List Script} :
      Form.ofName? name = none → name ∈ c.bound → Plain name → name ∉ c.outlook.barred →
      LowersAll w c operands ss →
      Lowers w c (.list .plain (.symbol name :: operands)) (.call (.identifier (mangle name)) ss)
  | callUnbound {c : Site} {name : String} {operands : List Value} {ss : List Script} :
      Form.ofName? name = none → name ∉ c.bound → Native.ofName? name = none →
      LowersAll w c operands ss →
      Lowers w c (.list .plain (.symbol name :: operands)) (.call (.identifier (mangle name)) ss)
  | callValue {c : Site} {head operands : List Value} {s : Script} {ss : List Script} :
      LowersAll w c (.list .plain head :: operands) (s :: ss) →
      Lowers w c (.list .plain (.list .plain head :: operands)) (.call s ss)
  | quote {c : Site} {head : String} {a : Atom} : Form.ofName? head = some .quote →
      Lowers w c (.list .plain [.symbol head, .atom a]) (.literal a)
  | single {c : Site} {head : String} {e : Value} {s : Script} :
      Form.ofName? head = some .sequence → Lowers w c e s →
      Lowers w c (.list .plain [.symbol head, e]) s
  | sequence {c : Site} {head : String} {exprs : List Value} {ss : List Script} :
      Form.ofName? head = some .sequence → exprs ≠ [] → LowersAll w c exprs ss →
      Lowers w c (.list .plain (.symbol head :: exprs)) (.sequence ss)
  | choose {c : Site} {head : String} {e yes no : Value} {s t u : Script} :
      Form.ofName? head = some .choose → Lowers w c e s → Lowers w (c.after e) yes t →
      Lowers w (c.after e) no u →
      Lowers w c (.list .plain [.symbol head, e, yes, no]) (.conditional s t u)
  | define {c : Site} {head name : String} {e : Value} {s : Script} :
      Form.ofName? head = some .define → name ∈ c.own → name ∈ c.outlook.shifting →
      Plain name → Lowers w c e s →
      Lowers w c (.list .plain [.symbol head, .symbol name, e])
        (.assignment (.identifier (mangle name)) s)
  | defineFunction {c : Site} {head name word : String} {list body : Value}
      {params : List String} {s : Script} :
      Form.ofName? head = some .define → name ∈ c.own → name ∈ c.outlook.shifting →
      Plain name → Form.ofName? word = some .lambda → list.params = .ok params →
      LowersBody w (c.binding [name]) params body s →
      Lowers w c
        (.list .plain [.symbol head, .symbol name, .list .plain [.symbol word, list, body]])
        (.assignment (.identifier (mangle name)) (.function (params.map mangle) s))
  | assign {c : Site} {head name : String} {e : Value} {s : Script} :
      Form.ofName? head = some .assign → name ∈ w.assigned →
      (name ∉ c.bound → (Native.ofName? name).isSome = true → name ∈ w.stray) → Plain name →
      Lowers w c e s →
      Lowers w c (.list .plain [.symbol head, .symbol name, e])
        (.assignment (.identifier (mangle name)) s)
  | function {c : Site} {head : String} {list body : Value} {params : List String} {s : Script} :
      Form.ofName? head = some .lambda → list.params = .ok params →
      LowersBody w c params body s →
      Lowers w c (.list .plain [.symbol head, list, body]) (.function (params.map mangle) s)

/-- Scripts do what expressions do, one after the other. -/
inductive LowersAll (w : Writes) : Site → List Value → List Script → Prop
  | nil {c : Site} : LowersAll w c [] []
  | cons {c : Site} {e : Value} {es : List Value} {s : Script} {ss : List Script} :
      Lowers w c e s → LowersAll w (c.after e) es ss → LowersAll w c (e :: es) (s :: ss)

/-- A script does what the body of a function does that is made at a site. -/
inductive LowersBody (w : Writes) : Site → List String → Value → Script → Prop
  | mk {c : Site} {params : List String} {body : Value} {s : Script}
      {initial : List (String × Option Script)} :
      params.Nodup → (∀ p ∈ params ++ definitions params body, Plain p) →
      initialValues ⟨c.bound, w.assigned⟩ false (definitions params body) = .ok initial →
      Lowers w (c.enter params body) body s → LowersBody w c params body (wrapper initial s)

end

/-- An expression that makes a function has the rule for functions only. -/
theorem Lowers.of_makesFunction {w : Writes} {c : Site} {e : Value} {s : Script}
    (h : Lowers w c e s) (he : e.makesFunction = true) :
    ∃ word list body params t, e = .list .plain [.symbol word, list, body] ∧
      Form.ofName? word = some .lambda ∧ list.params = .ok params ∧
      LowersBody w c params body t ∧ s = .function (params.map mangle) t := by
  cases h with
  | function hword hparams hbody => exact ⟨_, _, _, _, _, rfl, hword, hparams, hbody, rfl⟩
  | _ => simp_all [Value.makesFunction]

/-! ## Parts of a sound program -/

/-- What the lowering relies on without checking it, of an expression at a site. -/
structure Sound (w : Writes) (c : Site) (e : Value) : Prop where
  read : e.wellRead = true
  distinct : e.distinctParams = true
  timely : e.timely c.outlook = true
  stray : ∀ n ∈ e.strays c.bound, (Native.ofName? n).isSome = true → n ∈ w.stray
  assigned : ∀ n ∈ e.targets .assign true, n ∈ w.assigned
  defined : ∀ n ∈ e.targets .define false, n ∈ c.own ∧ n ∈ c.outlook.shifting

/-- The same of several expressions that are evaluated in order. -/
structure SoundAll (w : Writes) (c : Site) (es : List Value) : Prop where
  read : Value.wellReadAll es = true
  distinct : Value.distinctParamsAll es = true
  timely : Value.timelyAll c.outlook es = true
  stray : ∀ n ∈ Value.straysAll c.bound es, (Native.ofName? n).isSome = true → n ∈ w.stray
  assigned : ∀ n ∈ Value.targetsAll .assign true es, n ∈ w.assigned
  defined : ∀ n ∈ Value.targetsAll .define false es, n ∈ c.own ∧ n ∈ c.outlook.shifting

/-! ### Names of forms -/

theorem closed_cons_eq_false {word : String} {es : List Value} {nested : Bool}
    (hq : Form.ofName? word ≠ some .quote) (hl : nested = true ∨ Form.ofName? word ≠ some .lambda) :
    Value.closed nested (.symbol word :: es) = false := by
  have hquote : word ≠ Form.quote.name := fun h => hq (h ▸ Form.ofName?_name .quote)
  rw [Value.closed, Bool.or_eq_false_iff, Bool.and_eq_false_iff, beq_eq_false_iff_ne,
    beq_eq_false_iff_ne]
  refine ⟨hquote, ?_⟩
  rcases hl with rfl | hl
  · exact .inr rfl
  · exact .inl fun h => hl (h ▸ Form.ofName?_name .lambda)

theorem mem_targets_of_operand {word n : String} {es : List Value} {form : Form} {nested : Bool}
    (hc : Value.closed nested (.symbol word :: es) = false)
    (hn : n ∈ Value.targetsAll form nested es) :
    n ∈ (Value.list .plain (.symbol word :: es)).targets form nested := by
  simp [Value.targets, Value.targetsAll, hc, hn]

theorem mem_targets_of_target {word n : String} {e : Value} {form : Form} {nested : Bool}
    (hc : Value.closed nested [.symbol word, .symbol n, e] = false)
    (hw : Form.ofName? word = some form) :
    n ∈ (Value.list .plain [.symbol word, .symbol n, e]).targets form nested := by
  simp [Value.targets, hc, Value.target?, Form.name_of_ofName? hw]

namespace Value

variable {word : String} {operands : List Value}

theorem targets_of_closed (h : Form.ofName? word = some .quote ∨ Form.ofName? word = some .lambda) :
    (list .plain (.symbol word :: operands)).targets .define false = [] := by
  rcases h with h | h <;> simp [targets, closed, ← Form.name_of_ofName? h]

theorem targets_of_open (hq : Form.ofName? word ≠ some .quote)
    (hl : Form.ofName? word ≠ some .lambda) :
    (list .plain (.symbol word :: operands)).targets .define false =
      (target? .define (.symbol word :: operands)).toList ++ targetsAll .define false operands := by
  rw [targets, closed_cons_eq_false hq (.inr hl), targetsAll]
  simp [targets]

theorem target?_eq_none
    (hd : ∀ name expr, Form.ofName? word = some .define → operands ≠ [.symbol name, expr]) :
    target? .define (.symbol word :: operands) = none := by
  unfold target?
  split
  · rename_i heq
    cases heq
    refine if_neg fun hword => hd _ _ ?_ rfl
    rw [hword, Form.ofName?_name]
  · rfl

end Value

/-! ### Symbols of well-read trees -/

theorem isSymbolName_of_symbolNames {items : List Value} {names : List String}
    (hr : Value.wellReadAll items = true) (h : symbolNames items = .ok names) :
    ∀ n ∈ names, Value.isSymbolName n = true := by
  induction items generalizing names with
  | nil =>
    cases h
    intro n hn
    cases hn
  | cons v rest ih =>
    simp only [Value.wellReadAll, Bool.and_eq_true] at hr
    cases v with
    | symbol name =>
      rw [symbolNames] at h
      cases hs : symbolNames rest with
      | error e => rw [hs] at h; cases h
      | ok more =>
        rw [hs] at h
        cases h
        intro n hn
        rcases List.mem_cons.1 hn with rfl | hn
        · simpa only [Value.wellRead] using hr.1
        · exact ih hr.2 hs n hn
    | _ => cases h

theorem isSymbolName_of_params {list : Value} {params : List String} (hr : list.wellRead = true)
    (h : list.params = .ok params) : ∀ n ∈ params, Value.isSymbolName n = true := by
  cases list with
  | list flavor items =>
    cases flavor with
    | plain =>
      exact isSymbolName_of_symbolNames (Value.wellReadAll_iff.2 (Value.wellRead_plain hr).2) h
    | vector =>
      exact isSymbolName_of_symbolNames (Value.wellReadAll_iff.2 (Value.wellRead_vector hr)) h
  | _ => cases h

theorem isSymbolName_of_target? {form : Form} {items : List Value} {n : String}
    (hr : ∀ v ∈ items, v.wellRead = true) (h : Value.target? form items = some n) :
    Value.isSymbolName n = true := by
  unfold Value.target? at h
  split at h
  · split at h
    · cases h
      simpa only [Value.wellRead] using hr (.symbol n) (by simp)
    · cases h
  · cases h

mutual

theorem isSymbolName_of_mem_targets {form : Form} {nested : Bool} {n : String} :
    (e : Value) → e.wellRead = true → n ∈ e.targets form nested → Value.isSymbolName n = true
  | .list .plain items, hr, hn => by
    have hitems := (Value.wellRead_plain hr).2
    rw [Value.targets] at hn
    split at hn
    · cases hn
    · rcases List.mem_append.1 hn with hn | hn
      · exact isSymbolName_of_target? hitems (by simpa using hn)
      · exact isSymbolName_of_mem_targetsAll items (Value.wellReadAll_iff.2 hitems) hn
  | .list .vector items, hr, hn => by
    rw [Value.targets] at hn
    exact isSymbolName_of_mem_targetsAll items
      (Value.wellReadAll_iff.2 (Value.wellRead_vector hr)) hn
  | .braces entries, hr, hn => by
    rw [Value.targets] at hn
    rw [Value.wellRead] at hr
    exact isSymbolName_of_mem_targetsAll entries hr hn
  | .atom _, _, hn | .symbol _, _, hn | .dictionary _, _, hn | .native .., _, hn
  | .closure .., _, hn | .nothing, _, hn => by simp [Value.targets] at hn

theorem isSymbolName_of_mem_targetsAll {form : Form} {nested : Bool} {n : String} :
    (es : List Value) → Value.wellReadAll es = true → n ∈ Value.targetsAll form nested es →
      Value.isSymbolName n = true
  | [], _, hn => by cases hn
  | e :: es, hr, hn => by
    simp only [Value.wellReadAll, Bool.and_eq_true] at hr
    rw [Value.targetsAll] at hn
    rcases List.mem_append.1 hn with hn | hn
    · exact isSymbolName_of_mem_targets e hr.1 hn
    · exact isSymbolName_of_mem_targetsAll es hr.2 hn

end

theorem mem_definitions {params : List String} {body : Value} {n : String} :
    n ∈ definitions params body ↔ n ∈ body.targets .define false ∧ n ∉ params := by
  simp [definitions]

theorem plain_of_params {list : Value} {params : List String} (hr : list.wellRead = true)
    (h : list.params = .ok params) : ∀ n ∈ params, Plain n :=
  fun n hn => Script.plain_of_isSymbolName (isSymbolName_of_params hr h n hn)

theorem plain_of_mem_definitions {params : List String} {body : Value}
    (hr : body.wellRead = true) : ∀ n ∈ definitions params body, Plain n :=
  fun _ hn => Script.plain_of_isSymbolName
    (isSymbolName_of_mem_targets body hr (mem_definitions.1 hn).1)

theorem nodup_eraseDups (xs : List String) : xs.eraseDups.Nodup := by
  induction hk : xs.length using Nat.strongRecOn generalizing xs with
  | _ k ih =>
    cases xs with
    | nil => simp
    | cons x xs =>
      have hlt : (xs.filter fun y => !y == x).length < k := by
        rw [← hk]
        exact Nat.lt_succ_of_le (List.length_filter_le _ xs)
      rw [List.eraseDups_cons, List.nodup_cons]
      exact ⟨by simp, ih _ hlt _ rfl⟩

theorem nodup_definitions (params : List String) (body : Value) :
    (definitions params body).Nodup :=
  (nodup_eraseDups _).filter _

section Parts

variable {w : Writes} {c : Site} {e e' : Value} {es : List Value} {word name : String}

theorem SoundAll.head (h : SoundAll w c (e :: es)) : Sound w c e where
  read := by have := h.read; simp only [Value.wellReadAll, Bool.and_eq_true] at this; exact this.1
  distinct := by
    have := h.distinct; simp only [Value.distinctParamsAll, Bool.and_eq_true] at this; exact this.1
  timely := by have := h.timely; simp only [Value.timelyAll, Bool.and_eq_true] at this; exact this.1
  stray n hn := h.stray n (by simp [Value.straysAll, hn])
  assigned n hn := h.assigned n (by simp [Value.targetsAll, hn])
  defined n hn := h.defined n (by simp [Value.targetsAll, hn])

theorem SoundAll.tail (h : SoundAll w c (e :: es)) : SoundAll w (c.after e) es where
  read := by have := h.read; simp only [Value.wellReadAll, Bool.and_eq_true] at this; exact this.2
  distinct := by
    have := h.distinct; simp only [Value.distinctParamsAll, Bool.and_eq_true] at this; exact this.2
  timely := by have := h.timely; simp only [Value.timelyAll, Bool.and_eq_true] at this; exact this.2
  stray n hn := h.stray n (by simp only [Value.straysAll, List.mem_append]; exact .inr hn)
  assigned n hn := h.assigned n (by simp [Value.targetsAll, hn])
  defined n hn := h.defined n (by simp [Value.targetsAll, hn])

theorem Sound.vector (h : Sound w c (.list .vector es)) : SoundAll w c es where
  read := by simpa only [Value.wellRead] using h.read
  distinct := by simpa only [Value.distinctParams] using h.distinct
  timely := by simpa only [Value.timely] using h.timely
  stray := by simpa only [Value.strays] using h.stray
  assigned := by simpa only [Value.targets] using h.assigned
  defined := by simpa only [Value.targets] using h.defined

/-- Everything but timeliness passes to the operands of a form that makes no function. -/
theorem Sound.operands (h : Sound w c (.list .plain (.symbol word :: es)))
    (hq : Form.ofName? word ≠ some .quote) (hl : Form.ofName? word ≠ some .lambda)
    (hs : Value.straysAll c.bound es ⊆ (Value.list .plain (.symbol word :: es)).strays c.bound)
    (ht : Value.timelyAll c.outlook es = true) : SoundAll w c es where
  read := Value.wellReadAll_iff.2 fun v hv =>
    (Value.wellRead_plain h.read).2 v (List.mem_cons_of_mem _ hv)
  distinct := Value.distinctParams_operands hq hl ▸ h.distinct
  timely := ht
  stray n hn := h.stray n (hs hn)
  assigned n hn := h.assigned n (mem_targets_of_operand (closed_cons_eq_false hq (.inl rfl)) hn)
  defined n hn := h.defined n (mem_targets_of_operand (closed_cons_eq_false hq (.inr hl)) hn)

theorem Sound.application (h : Sound w c (.list .plain (.symbol word :: es)))
    (hw : Form.ofName? word = none) :
    Plain word ∧ word ∉ c.outlook.barred ∧ SoundAll w c es := by
  have ht : word ∉ c.outlook.barred ∧ Value.timelyAll c.outlook es = true := by
    simpa [Value.timely_application _ hw] using h.timely
  have hr := (Value.wellRead_plain h.read).2 (.symbol word) List.mem_cons_self
  refine ⟨Script.plain_of_isSymbolName (by simpa only [Value.wellRead] using hr), ht.1, ?_⟩
  exact h.operands (by simp [hw]) (by simp [hw])
    (by rw [Value.strays_operands] <;> simp [hw]) ht.2

theorem Sound.items {flavor : Flavor} {items : List Value}
    (h : Sound w c (.list .plain (.list flavor items :: es))) :
    SoundAll w c (.list flavor items :: es) where
  read := Value.wellReadAll_iff.2 (Value.wellRead_plain h.read).2
  distinct := by simpa only [Value.distinctParams] using h.distinct
  timely := by simpa only [Value.timely] using h.timely
  stray := by simpa only [Value.strays] using h.stray
  assigned n hn := h.assigned n (by simp [Value.targets, Value.closed, hn])
  defined n hn := h.defined n (by simp [Value.targets, Value.closed, hn])

theorem Sound.sequence (h : Sound w c (.list .plain (.symbol word :: es)))
    (hw : Form.ofName? word = some .sequence) : SoundAll w c es :=
  h.operands (by simp [hw]) (by simp [hw]) (by rw [Value.strays_operands] <;> simp [hw])
    (Value.timely_sequence _ hw ▸ h.timely)

theorem Sound.choose {yes no : Value}
    (h : Sound w c (.list .plain [.symbol word, e, yes, no]))
    (hw : Form.ofName? word = some .choose) :
    Sound w c e ∧ Sound w (c.after e) yes ∧ Sound w (c.after e) no := by
  have ht : (e.timely c.outlook = true ∧ yes.timely (c.outlook.after e) = true) ∧
      no.timely (c.outlook.after e) = true := by simpa [Value.timely, hw] using h.timely
  have hr : ∀ v ∈ [e, yes, no], v.wellRead = true := fun v hv =>
    (Value.wellRead_plain h.read).2 v (List.mem_cons_of_mem _ hv)
  have hd : e.distinctParams = true ∧ yes.distinctParams = true ∧ no.distinctParams = true := by
    have hd := h.distinct
    rw [Value.distinctParams_operands (by simp [hw]) (by simp [hw])] at hd
    simpa [Value.distinctParamsAll] using hd
  have hs : ∀ n, n ∈ e.strays c.bound ∨ n ∈ yes.strays c.bound ∨ n ∈ no.strays c.bound →
      (Native.ofName? n).isSome = true → n ∈ w.stray := fun n hn => h.stray n (by
    rw [Value.strays_operands _ (by simp [hw]) (by simp [hw]) (by simp [hw])]
    simpa [Value.straysAll] using hn)
  have ha := fun n hn => h.assigned n
    (mem_targets_of_operand (closed_cons_eq_false (by simp [hw]) (.inl rfl)) hn)
  have hf := fun n hn => h.defined n
    (mem_targets_of_operand (closed_cons_eq_false (by simp [hw]) (.inr (by simp [hw]))) hn)
  simp only [Value.targetsAll, List.append_nil, List.mem_append] at ha hf
  exact ⟨⟨hr e (by simp), hd.1, ht.1.1, fun n hn => hs n (.inl hn), fun n hn => ha n (.inl hn),
      fun n hn => hf n (.inl hn)⟩,
    ⟨hr yes (by simp), hd.2.1, ht.1.2, fun n hn => hs n (.inr (.inl hn)),
      fun n hn => ha n (.inr (.inl hn)), fun n hn => hf n (.inr (.inl hn))⟩,
    ⟨hr no (by simp), hd.2.2, ht.2, fun n hn => hs n (.inr (.inr hn)),
      fun n hn => ha n (.inr (.inr hn)), fun n hn => hf n (.inr (.inr hn))⟩⟩

theorem Sound.plain_target (h : Sound w c (.list .plain [.symbol word, .symbol name, e])) :
    Plain name :=
  Script.plain_of_isSymbolName
    (by simpa only [Value.wellRead] using (Value.wellRead_plain h.read).2 (.symbol name) (by simp))

/-- What the value of a definition or an assignment inherits, at a site where it is timely. -/
theorem Sound.value {form : Form} (h : Sound w c (.list .plain [.symbol word, .symbol name, e]))
    (hw : Form.ofName? word = some form) (hform : form = .define ∨ form = .assign)
    {o : Outlook} (ht : e.timely o = true) (hshift : o.shifting = c.outlook.shifting) :
    Sound w { c with outlook := o } e := by
  have hq : Form.ofName? word ≠ some .quote := by rcases hform with rfl | rfl <;> simp [hw]
  have hl : Form.ofName? word ≠ some .lambda := by rcases hform with rfl | rfl <;> simp [hw]
  have hr := (Value.wellRead_plain h.read).2 e (by simp)
  refine ⟨hr, ?_, ht, fun n hn => h.stray n ?_, fun n hn => h.assigned n ?_,
    fun n hn => hshift ▸ h.defined n ?_⟩
  · have hd := h.distinct
    rw [Value.distinctParams_operands hq hl] at hd
    simp only [Value.distinctParamsAll, Bool.and_eq_true] at hd
    exact hd.2.1
  · rcases hform with rfl | rfl <;> simp [Value.strays, Value.straysAll, hw, hn]
  · exact mem_targets_of_operand (closed_cons_eq_false hq (.inl rfl))
      (by simp [Value.targetsAll, hn])
  · exact mem_targets_of_operand (closed_cons_eq_false hq (.inr hl))
      (by simp [Value.targetsAll, hn])

theorem Sound.define (h : Sound w c (.list .plain [.symbol word, .symbol name, e]))
    (hw : Form.ofName? word = some .define) : name ∈ c.own ∧ name ∈ c.outlook.shifting :=
  h.defined name (mem_targets_of_target
    (closed_cons_eq_false (by simp [hw]) (.inr (by simp [hw]))) hw)

theorem Sound.assign (h : Sound w c (.list .plain [.symbol word, .symbol name, e]))
    (hw : Form.ofName? word = some .assign) :
    name ∈ w.assigned ∧
      (name ∉ c.bound → (Native.ofName? name).isSome = true → name ∈ w.stray) :=
  ⟨h.assigned name (mem_targets_of_target (closed_cons_eq_false (by simp [hw]) (.inl rfl)) hw),
    fun hb => h.stray name (by simp [Value.strays, hw, hb])⟩

theorem Sound.function {list body : Value} {params : List String}
    (h : Sound w c (.list .plain [.symbol word, list, body]))
    (hw : Form.ofName? word = some .lambda) (hp : list.params = .ok params) :
    params.Nodup ∧ (∀ p ∈ params ++ definitions params body, Plain p) ∧
      Sound w (c.enter params body) body := by
  have hr := (Value.wellRead_plain h.read).2
  have hd : params.Nodup ∧ body.distinctParams = true := by
    simpa [Value.distinctParams, hw, hp] using h.distinct
  have hbody := hr body (by simp)
  refine ⟨hd.1, fun p hp' => ?_, hbody, hd.2, ?_, fun n hn => h.stray n ?_,
    fun n hn => h.assigned n ?_, fun n hn => ⟨?_, ?_⟩⟩
  · rcases List.mem_append.1 hp' with hp' | hp'
    · exact plain_of_params (hr list (by simp)) hp p hp'
    · exact plain_of_mem_definitions hbody p hp'
  · show body.timely (c.outlook.enter params body) = true
    simpa [Value.timely, hw, hp] using h.timely
  · simpa [Value.strays, hw, hp, Site.enter] using hn
  · exact mem_targets_of_operand (closed_cons_eq_false (by simp [hw]) (.inl rfl))
      (by simp [Value.targetsAll, hn])
  · by_cases hnp : n ∈ params
    · exact List.mem_append_left _ hnp
    · exact List.mem_append_right _ (mem_definitions.2 ⟨hn, hnp⟩)
  · exact List.mem_append_right _ hn

end Parts

/-! ## What the lowering accepts -/

/-- The functions of the lowering, with so many frames, give related scripts. -/
structure LoweringSound (w : Writes) (k : Nat) : Prop where
  expr : ∀ {c : Site} {e : Value} {s : Script}, Sound w c e →
    lower k ⟨c.bound, w.assigned⟩ e = .ok s → Lowers w c e s
  items : ∀ {bound : List String} {es : List Value} {ss : List Script},
    lowerAll k ⟨bound, w.assigned⟩ es = .ok ss →
    List.Forall₂ (fun e s => ∀ c : Site, c.bound = bound → Sound w c e → Lowers w c e s) es ss
  application : ∀ {c : Site} {head : Value} {es : List Value} {s : Script},
    Sound w c (.list .plain (head :: es)) →
    lowerApplication k ⟨c.bound, w.assigned⟩ head es = .ok s →
    Lowers w c (.list .plain (head :: es)) s
  form : ∀ {c : Site} {word : String} {form : Form} {es : List Value} {s : Script},
    Sound w c (.list .plain (.symbol word :: es)) → Form.ofName? word = some form →
    lowerForm k ⟨c.bound, w.assigned⟩ form es = .ok s →
    Lowers w c (.list .plain (.symbol word :: es)) s
  binding : ∀ {c : Site} {word : String} {form : Form} {es : List Value} {s : Script},
    Sound w c (.list .plain (.symbol word :: es)) → Form.ofName? word = some form →
    form = .define ∨ form = .assign →
    lowerBinding k ⟨c.bound, w.assigned⟩ form es = .ok s →
    Lowers w c (.list .plain (.symbol word :: es)) s
  scope : ∀ {c : Site} {params : List String} {body : Value} {s : Script}, params.Nodup →
    (∀ p ∈ params ++ definitions params body, Plain p) → Sound w (c.enter params body) body →
    lowerScope k ⟨c.bound, w.assigned⟩ false params body = .ok s → LowersBody w c params body s

section Steps

variable {w : Writes} {k : Nat} {c : Site}

theorem lowers_symbol {name : String} {s : Script} (h : Sound w c (.symbol name))
    (hs : SymbolScript ⟨c.bound, w.assigned⟩ name s) : Lowers w c (.symbol name) s := by
  have hread : name ∉ c.outlook.barred := by simpa [Value.timely] using h.timely
  cases hs with
  | operator hop =>
    obtain ⟨hb, hn⟩ := Names.native?_eq_some hop
    exact .operator hb hn hread
  | name hnone =>
    rcases Names.native?_eq_none hnone with hb | ⟨hb, hn⟩
    · have hplain := Script.plain_of_isSymbolName (by simpa only [Value.wellRead] using h.read)
      exact .name hb hplain hread
    · exact .unbound hb hn

theorem forall₂_of_each (ih : LoweringSound w k) {bound : List String} {es : List Value}
    {ss : List Script} (h : each (lower k ⟨bound, w.assigned⟩) es = .ok ss) :
    List.Forall₂ (fun e s => ∀ c : Site, c.bound = bound → Sound w c e → Lowers w c e s) es ss := by
  induction es generalizing ss with
  | nil =>
    cases h
    exact .nil
  | cons e es ihs =>
    obtain ⟨s, rest, he, hes, rfl⟩ := each_cons_eq_ok h
    refine .cons (fun c hc hsound => ?_) (ihs hes)
    subst hc
    exact ih.expr hsound he

/-- Expressions in order are related to their scripts when each is, at any site. -/
theorem lowersAll_of_forall₂ {bound : List String} {es : List Value} {ss : List Script}
    (h : List.Forall₂ (fun e s => ∀ c : Site, c.bound = bound → Sound w c e → Lowers w c e s)
      es ss) :
    ∀ {c : Site}, c.bound = bound → SoundAll w c es → LowersAll w c es ss := by
  induction h with
  | nil =>
    intro c _ _
    exact .nil
  | cons he _ ih =>
    intro c hc hsound
    exact .cons (he c hc hsound.head) (ih hc hsound.tail)

theorem LoweringSound.all (ih : LoweringSound w k) {es : List Value} {ss : List Script}
    (h : SoundAll w c es) (hs : lowerAll k ⟨c.bound, w.assigned⟩ es = .ok ss) :
    LowersAll w c es ss :=
  lowersAll_of_forall₂ (ih.items hs) rfl h

theorem lowers_expr_succ (ih : LoweringSound w k) {e : Value} {s : Script} (h : Sound w c e)
    (hs : lower (k + 1) ⟨c.bound, w.assigned⟩ e = .ok s) : Lowers w c e s := by
  cases lower_eq_ok hs with
  | atom a => exact .atom
  | symbol hname => exact lowers_symbol h hname
  | vector hall => exact .vector (ih.all h.vector hall)
  | application happ => exact ih.application h happ

theorem lowers_application_succ (ih : LoweringSound w k) {head : Value} {es : List Value}
    {s : Script} (h : Sound w c (.list .plain (head :: es)))
    (hs : lowerApplication (k + 1) ⟨c.bound, w.assigned⟩ head es = .ok s) :
    Lowers w c (.list .plain (head :: es)) s := by
  cases lowerApplication_eq_ok hs with
  | form hw hform => exact ih.form h hw hform
  | operation hw hop hall =>
    obtain ⟨hb, hn⟩ := Names.native?_eq_some hop
    obtain ⟨-, hread, hes⟩ := h.application hw
    exact .operation hw hb hn hread (ih.all hes hall)
  | build hw hfn hkind hall =>
    obtain ⟨hb, hn⟩ := Names.native?_eq_some hfn
    obtain ⟨-, hread, hes⟩ := h.application hw
    exact .build hw hb hn hkind hread (ih.all hes hall)
  | call hw hnone hall =>
    obtain ⟨hplain, hread, hes⟩ := h.application hw
    rcases Names.native?_eq_none hnone with hb | ⟨hb, hn⟩
    · exact .callName hw hb hplain hread (ih.all hes hall)
    · exact .callUnbound hw hb hn (ih.all hes hall)
  | callValue hcallee hall =>
    exact .callValue (.cons (ih.expr h.items.head hcallee) (ih.all h.items.tail hall))

theorem lowers_binding_succ (ih : LoweringSound w k) {word : String} {form : Form}
    {es : List Value} {s : Script} (h : Sound w c (.list .plain (.symbol word :: es)))
    (hw : Form.ofName? word = some form) (hform : form = .define ∨ form = .assign)
    (hs : lowerBinding (k + 1) ⟨c.bound, w.assigned⟩ form es = .ok s) :
    Lowers w c (.list .plain (.symbol word :: es)) s := by
  obtain ⟨name, e, t, rfl, ht, rfl⟩ := lowerBinding_eq_ok hs
  rcases hform with rfl | rfl
  · have htimely :
        e.timely (if e.makesFunction then c.outlook.binding [name] else c.outlook) = true := by
      simpa [Value.timely, hw] using h.timely
    cases hfn : e.makesFunction with
    | false =>
      rw [hfn, if_neg Bool.false_ne_true] at htimely
      have hvalue := ih.expr (h.value hw (.inl rfl) htimely rfl) ht
      exact .define hw (h.define hw).1 (h.define hw).2 h.plain_target hvalue
    | true =>
      rw [hfn, if_pos rfl] at htimely
      have hvalue := ih.expr (h.value hw (.inl rfl) htimely rfl) ht
      obtain ⟨head, list, body, params, t, rfl, hhead, hparams, hbody, rfl⟩ :=
        hvalue.of_makesFunction hfn
      exact .defineFunction hw (h.define hw).1 (h.define hw).2 h.plain_target hhead hparams hbody
  · have htimely : e.timely c.outlook = true := by simpa [Value.timely, hw] using h.timely
    have hvalue := ih.expr (h.value hw (.inr rfl) htimely rfl) ht
    exact .assign hw (h.assign hw).1 (h.assign hw).2 h.plain_target hvalue

theorem lowers_form_succ (ih : LoweringSound w k) {word : String} {form : Form}
    {es : List Value} {s : Script} (h : Sound w c (.list .plain (.symbol word :: es)))
    (hw : Form.ofName? word = some form)
    (hs : lowerForm (k + 1) ⟨c.bound, w.assigned⟩ form es = .ok s) :
    Lowers w c (.list .plain (.symbol word :: es)) s := by
  cases lowerForm_eq_ok hs with
  | quote a => exact .quote hw
  | single he => exact .single hw (ih.expr (h.sequence hw).head he)
  | sequence htwo hall =>
    exact .sequence hw (List.length_pos_iff.1 (Nat.lt_of_succ_lt htwo))
      (ih.all (h.sequence hw) hall)
  | choose hall =>
    -- both branches stand after the condition, so they do not make one list with it
    obtain ⟨htest, hyes, hno⟩ := h.choose hw
    cases ih.items hall with
    | cons h1 hrest =>
      cases hrest with
      | cons h2 hrest =>
        cases hrest with
        | cons h3 hrest => exact .choose hw (h1 c rfl htest) (h2 _ rfl hyes) (h3 _ rfl hno)
  | binding hform hbinding => exact ih.binding h hw hform hbinding
  | function hparams hscope =>
    obtain ⟨hnodup, hplain, hbody⟩ := h.function hw hparams
    exact .function hw hparams (ih.scope hnodup hplain hbody hscope)

theorem lowersBody_succ (ih : LoweringSound w k) {params : List String} {body : Value}
    {s : Script} (hnodup : params.Nodup)
    (hplain : ∀ p ∈ params ++ definitions params body, Plain p)
    (h : Sound w (c.enter params body) body)
    (hs : lowerScope (k + 1) ⟨c.bound, w.assigned⟩ false params body = .ok s) :
    LowersBody w c params body s := by
  obtain ⟨initial, t, hinitial, ht, rfl⟩ := lowerScope_eq_ok hs
  exact .mk hnodup hplain hinitial (ih.expr h ht)

theorem loweringSound (w : Writes) (k : Nat) : LoweringSound w k := by
  induction k with
  | zero =>
    constructor <;> intros <;> rename_i hs <;> cases hs
  | succ k ih =>
    exact {
      expr := lowers_expr_succ ih
      items := fun hs => forall₂_of_each ih hs
      application := lowers_application_succ ih
      form := lowers_form_succ ih
      binding := lowers_binding_succ ih
      scope := lowersBody_succ ih }

end Steps

theorem sound_program {program : Value} (hread : program.wellRead = true)
    (hdistinct : program.distinctParams = true) (hsteady : program.steady = true) :
    Sound (.ofProgram program) (.initial program) program where
  read := hread
  distinct := hdistinct
  timely := hsteady
  stray n hn hnative := by
    simp only [Writes.ofProgram, Outlook.initial, List.mem_filter]
    exact ⟨hn, hnative⟩
  assigned n hn := hn
  defined n hn := ⟨mem_definitions.2 ⟨hn, by simp⟩, List.mem_append_right _ hn⟩

/-- The script of a program is a wrapper around a script that is related to the program. -/
theorem lowers_of_toScript {program : Value} {s : Script} (hread : program.wellRead = true)
    (hdistinct : program.distinctParams = true) (hsteady : program.steady = true)
    (h : program.toScript = .ok s) :
    ∃ initial t, initialValues ⟨[], program.targets .assign true⟩ true (definitions [] program) =
        .ok initial ∧
      Lowers (.ofProgram program) (.initial program) program t ∧ s = wrapper initial t := by
  obtain ⟨k, hk⟩ : ∃ k, Lowering.allowance = k + 1 := ⟨_, rfl⟩
  have hscope := Value.toScript_eq_ok h
  rw [hk] at hscope
  obtain ⟨initial, t, hinitial, ht, rfl⟩ := lowerScope_eq_ok hscope
  refine ⟨initial, t, hinitial, ?_, rfl⟩
  exact (loweringSound (.ofProgram program) k).expr (sound_program hread hdistinct hsteady)
    (by simpa [Names.extend, Site.initial, Writes.ofProgram] using ht)

end MiniLisp
