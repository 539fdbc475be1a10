import MiniLisp.Proofs.Script.Lowered

/-!
# What binds the identifiers of a script

The functions around a place of a script bind groups of names, their parameters. In a program such
groups are the parameters of a function and the definitions of a scope. `Script.references` lists
the identifiers of a script with the functions that bind them, and `Value.mentioned` lists the
names that a program mentions with the groups that bind them. The two lists agree
(`LoweredScope.traced`), up to the spelling of names: no name is bound by another function than the
one for its group, and the free identifiers of a script are those of the names that nothing binds.
-/

namespace MiniLisp

open Script (mangle Plain)
open Lowering

/-- The place of the first group that has a name. Groups stand in order, the innermost first. -/
def binder? (groups : List (List String)) (name : String) : Option Nat :=
  groups.findIdx? (·.contains name)

section Binder

variable {group : List String} {groups : List (List String)} {name : String}

theorem binder?_of_mem (h : name ∈ group) : binder? (group :: groups) name = some 0 := by
  rw [binder?, List.findIdx?_cons, if_pos (List.contains_iff_mem.2 h)]

theorem binder?_of_not_mem (h : name ∉ group) :
    binder? (group :: groups) name = (binder? groups name).map (· + 1) := by
  rw [binder?, List.findIdx?_cons, if_neg (by rwa [List.contains_iff_mem]), binder?]

theorem isSome_binder?_cons :
    (binder? (group :: groups) name).isSome = true ↔
      (binder? groups name).isSome = true ∨ name ∈ group := by
  by_cases h : name ∈ group
  · simp [binder?_of_mem h, h]
  · simp [binder?_of_not_mem h, h]

end Binder

/-! ## Identifiers of scripts -/

namespace Script

/-- An identifier at a place of a script, with the function that binds it: how many functions lie
between the two, or none if it is free. -/
structure Reference where
  name : String
  binder : Option Nat
deriving DecidableEq

mutual

/-- The identifiers of a script in their order, where the functions around have the parameters
`groups`. -/
def references (groups : List (List String)) : Script → List Reference
  | .literal _ | .hole => []
  | .identifier name => [⟨name, binder? groups name⟩]
  | .binary _ left right => references groups left ++ references groups right
  | .array items => referencesAll groups items
  | .call callee args => references groups callee ++ referencesAll groups args
  | .function params body => references (params :: groups) body
  | .sequence items => referencesAll groups items
  | .conditional test yes no =>
    references groups test ++ (references groups yes ++ references groups no)
  | .assignment target value => references groups target ++ references groups value

/-- The identifiers of several scripts. -/
def referencesAll (groups : List (List String)) : List Script → List Reference
  | [] => []
  | s :: rest => references groups s ++ referencesAll groups rest

end

/-- The identifiers of a script that no function around them binds. -/
def free (s : Script) : List String :=
  ((s.references []).filter (·.binder.isNone)).map (·.name)

end Script

/-! ## Names in programs -/

/-- What a name is mentioned for. -/
inductive Role where
  | read
  | called
  | assigned
  | defined
  /-- A name that a scope defines keeps the meaning that it has outside until then. -/
  | copied
  /-- A parameter of an operator that is used as a function. -/
  | operand
deriving DecidableEq

/-- The roles of the names that an expression uses as they are bound around it. -/
def Role.isUse : Role → Bool
  | read | called | assigned => true
  | defined | copied | operand => false

/-- A place in a program: the groups of names that are bound around it, and how many of them belong
to the innermost scope. -/
structure Place where
  groups : List (List String)
  own : Nat

/-- A name at a place of a program. -/
structure Mention where
  role : Role
  name : String
  place : Place

namespace Place

/-- The group that binds a name. -/
def binder? (place : Place) (name : String) : Option Nat :=
  MiniLisp.binder? place.groups name

/-- The native that a name stands for. -/
def native? (place : Place) (name : String) : Option Native :=
  if (place.binder? name).isSome then none else Native.ofName? name

/-- The place behind the parameters of a function. -/
def function (place : Place) (params : List String) : Place :=
  ⟨params :: place.groups, 1⟩

/-- The place within a scope that defines names. -/
def hoist (place : Place) (defs : List String) : Place :=
  if defs = [] then place else ⟨defs :: place.groups, place.own + 1⟩

/-- The two operands of an operator that is used as a function. -/
def operands (place : Place) : List Mention :=
  [⟨.operand, "a", place.function ["a", "b"]⟩, ⟨.operand, "b", place.function ["a", "b"]⟩]

/-- What a variable mentions. -/
def reading (place : Place) (name : String) : List Mention :=
  match place.native? name with
  | some (.operator _) => place.operands
  | some .list | some .vector => []
  | _ => [⟨.read, name, place⟩]

/-- What the head of a call mentions. -/
def calling (place : Place) (name : String) : List Mention :=
  match place.native? name with
  | some (.operator _) | some .list | some .vector => []
  | _ => [⟨.called, name, place⟩]

/-- What the definition of a name mentions for the meaning that the name has outside. -/
def copying (place : Place) (name : String) : List Mention :=
  if (place.binder? name).isSome then [⟨.copied, name, place⟩]
  else match Native.ofName? name with
    | some (.operator _) => place.operands
    | _ => []

/-- The place outside of a program. -/
def outside : Place := ⟨[], 0⟩

end Place

/-- The group that binds a mentioned name. -/
def Mention.binder? (m : Mention) : Option Nat := m.place.binder? m.name

/-- The identifier of a mentioned name. -/
def Mention.reference (m : Mention) : Script.Reference := ⟨mangle m.name, m.binder?⟩

namespace Value

mutual

/-- The names that the definitions of a scope bind, in their order. A definition may stand anywhere
in the scope, but those in functions belong to other scopes, and quoted data has none. -/
def defs : Value → List String
  | .list .vector items => defsAll items
  | .list .plain (.symbol head :: operands) =>
    match Form.ofName? head, operands with
    | some .quote, _ | some .lambda, _ => []
    | some .define, [.symbol name, expr] => name :: defs expr
    | _, operands => defsAll operands
  | .list .plain items => defsAll items
  | .braces entries => defsAll entries
  | _ => []

/-- The names that the definitions in several expressions of a scope bind. -/
def defsAll : List Value → List String
  | [] => []
  | v :: rest => defs v ++ defsAll rest

end

/-- The names that a scope binds besides its parameters, each where it is defined first. -/
def hoisted (body : Value) (params : List String) : List String :=
  body.defs.eraseDups.filter (· ∉ params)

mutual

/-- The names that an expression mentions at a place. Quoted data mentions none. -/
def mentions (place : Place) : Value → List Mention
  | .symbol name => place.reading name
  | .list .vector items => mentionsAll place items
  | .list .plain (.symbol head :: operands) =>
    match Form.ofName? head, operands with
    | some .quote, _ => []
    | some .define, [.symbol name, expr] => ⟨.defined, name, place⟩ :: mentions place expr
    | some .assign, [.symbol name, expr] => ⟨.assigned, name, place⟩ :: mentions place expr
    | some .lambda, [params, body] =>
      match params.params with
      | .ok params =>
        mentions ((place.function params).hoist (body.hoisted params)) body ++
          (body.hoisted params).flatMap (place.function params).copying
      | .error _ => []
    | none, operands => place.calling head ++ mentionsAll place operands
    | some _, operands => mentionsAll place operands
  | .list .plain items => mentionsAll place items
  | _ => []

/-- The names that several expressions mention. -/
def mentionsAll (place : Place) : List Value → List Mention
  | [] => []
  | v :: rest => mentions place v ++ mentionsAll place rest

end

/-- The names that a program mentions. -/
def mentioned (program : Value) : List Mention :=
  program.mentions (Place.outside.hoist (program.hoisted [])) ++
    (program.hoisted []).flatMap Place.outside.copying

/-- The names that a program reads, calls or assigns where nothing binds them. -/
def openNames (program : Value) : List String :=
  (program.mentioned.filter fun m => m.role.isUse && m.binder?.isNone).map (·.name)

end Value

/-! ## Definitions of a scope -/

namespace Value

variable {word : String} {operands : List Value}

/-- A list that begins with a word has its definitions in its operands, once these are known. -/
theorem targets_define_word (ih : targetsAll .define false operands = defsAll operands) :
    (list .plain (.symbol word :: operands)).targets .define false =
      (list .plain (.symbol word :: operands)).defs := by
  by_cases hclosed : Form.ofName? word = some .quote ∨ Form.ofName? word = some .lambda
  · rw [targets_of_closed hclosed]
    rcases hclosed with hword | hword <;> simp [defs, hword]
  obtain ⟨hq, hl⟩ := not_or.1 hclosed
  rw [targets_of_open hq hl]
  by_cases hd : ∃ name expr, Form.ofName? word = some .define ∧ operands = [.symbol name, expr]
  · obtain ⟨name, expr, hword, rfl⟩ := hd
    have hexpr : expr.targets .define false = expr.defs := by
      simpa [targetsAll, targets, defsAll, defs] using ih
    simp [target?, Form.name_of_ofName? hword, targetsAll, targets, defs, hword, hexpr]
  · have hother : ∀ name expr, Form.ofName? word = some .define →
        operands ≠ [.symbol name, expr] := fun name expr hword heq => hd ⟨name, expr, hword, heq⟩
    rw [target?_eq_none hother, ih]
    -- `hq`, `hl` and `hother` leave the last rule of `defs` only
    simp [defs]

theorem targets_define_items {head : Value} (hhead : ∀ name, head ≠ .symbol name)
    (ih : targetsAll .define false (head :: operands) = defsAll (head :: operands)) :
    (list .plain (head :: operands)).targets .define false =
      (list .plain (head :: operands)).defs := by
  simp [targets, closed, target?, defs, ih, hhead]

mutual

/-- The lowering finds the definitions of a scope, and nothing else. -/
theorem targets_define : (v : Value) → v.targets .define false = v.defs
  | .list .vector items => by rw [targets, defs, targetsAll_define items]
  | .list .plain [] => rfl
  | .list .plain (head :: operands) => by
    by_cases hword : ∃ word, head = .symbol word
    · obtain ⟨word, rfl⟩ := hword
      exact targets_define_word (targetsAll_define operands)
    · exact targets_define_items (fun word heq => hword ⟨word, heq⟩)
        (targetsAll_define (head :: operands))
  | .braces entries => by rw [targets, defs, targetsAll_define entries]
  | .atom _ | .symbol _ | .dictionary _ | .native .. | .closure .. | .nothing => by
    simp [targets, defs]

theorem targetsAll_define : (vs : List Value) → targetsAll .define false vs = defsAll vs
  | [] => rfl
  | v :: rest => by rw [targetsAll, defsAll, targets_define v, targetsAll_define rest]

end

theorem hoisted_eq_definitions (body : Value) (params : List String) :
    body.hoisted params = definitions params body := by
  simp [hoisted, definitions, targets_define]

end Value

/-! ## Groups and parameters -/

namespace Place

/-- A name is bound by the innermost scope. -/
def Owns (place : Place) (name : String) : Prop :=
  ∃ i < place.own, place.binder? name = some i

theorem owns_function {place : Place} {params : List String} {n : String} (h : n ∈ params) :
    (place.function params).Owns n :=
  ⟨0, Nat.one_pos, binder?_of_mem h⟩

theorem owns_hoist_of_mem {place : Place} {defs : List String} {n : String} (h : n ∈ defs) :
    (place.hoist defs).Owns n := by
  rw [hoist, if_neg (List.ne_nil_of_mem h)]
  exact ⟨0, Nat.succ_pos _, binder?_of_mem h⟩

theorem Owns.hoist {place : Place} {n : String} (h : place.Owns n) (defs : List String) :
    (place.hoist defs).Owns n := by
  by_cases hn : n ∈ defs
  · exact owns_hoist_of_mem hn
  obtain ⟨i, hi, hbinder⟩ := h
  by_cases hdefs : defs = []
  · rw [Place.hoist, if_pos hdefs]
    exact ⟨i, hi, hbinder⟩
  · rw [Place.hoist, if_neg hdefs]
    refine ⟨i + 1, Nat.succ_lt_succ hi, ?_⟩
    show MiniLisp.binder? (defs :: place.groups) n = some (i + 1)
    rw [binder?_of_not_mem hn, show MiniLisp.binder? place.groups n = some i from hbinder]
    rfl

end Place

/-- Parameters spell the names of a group, in any order. -/
def Spells (group params : List String) : Prop :=
  ∀ n, Plain n → (mangle n ∈ params ↔ n ∈ group)

/-- No spelling is captured by a function for another group. -/
theorem binder?_of_spells {owns groups : List (List String)} (h : List.Forall₂ Spells owns groups)
    {n : String} (hn : Plain n) : binder? groups (mangle n) = binder? owns n := by
  induction h with
  | nil => rfl
  | @cons group params owns groups hgroup _ ih =>
    by_cases hmem : n ∈ group
    · rw [binder?_of_mem hmem, binder?_of_mem ((hgroup n hn).2 hmem)]
    · rw [binder?_of_not_mem hmem, binder?_of_not_mem (mt (hgroup n hn).1 hmem), ih]

/-- The groups of a place are spelled by the parameters of the functions around its script, and
they hold the names that the lowering knows as bound. -/
structure Matches (names : Names) (place : Place) (groups : List (List String)) : Prop where
  bound : ∀ n, n ∈ names.bound ↔ (place.binder? n).isSome = true
  spells : List.Forall₂ Spells place.groups groups

namespace Matches

variable {names : Names} {place : Place} {groups : List (List String)} {n : String}

theorem binder?_mangle (h : Matches names place groups) (hn : Plain n) :
    MiniLisp.binder? groups (mangle n) = place.binder? n :=
  binder?_of_spells h.spells hn

theorem native?_eq (h : Matches names place groups) (n : String) :
    place.native? n = names.native? n := by
  unfold Place.native? Names.native?
  by_cases hn : n ∈ names.bound
  · rw [if_pos ((h.bound n).1 hn), if_pos (List.contains_iff_mem.2 hn)]
  · rw [if_neg (mt (h.bound n).2 hn), if_neg (by rwa [List.contains_iff_mem])]

theorem cons (h : Matches names place groups) {group params : List String}
    (hspells : Spells group params) (own : Nat) :
    Matches (names.extend group) ⟨group :: place.groups, own⟩ (params :: groups) where
  bound n := by
    show n ∈ names.bound ++ group ↔ (MiniLisp.binder? (group :: place.groups) n).isSome = true
    rw [List.mem_append, isSome_binder?_cons, h.bound n]
    rfl
  spells := .cons hspells h.spells

theorem function (h : Matches names place groups) {params : List String}
    (hparams : ∀ p ∈ params, Plain p) :
    Matches (names.extend params) (place.function params) (params.map mangle :: groups) :=
  h.cons (fun _ hn => mem_map_mangle hparams hn) 1

theorem hoist (h : Matches names place groups) {defs ns : List String} (hdefs : defs ≠ [])
    (hplain : ∀ n ∈ defs, Plain n) (hns : ∀ n, n ∈ ns ↔ n ∈ defs) :
    Matches (names.extend defs) (place.hoist defs) (ns.map mangle :: groups) := by
  rw [Place.hoist, if_neg hdefs]
  refine h.cons (fun n hn => ?_) _
  rw [mem_map_mangle (fun x hx => hplain x ((hns x).1 hx)) hn, hns n]

theorem hoist_nil (h : Matches names place groups) {defs : List String} (hdefs : defs = []) :
    Matches (names.extend defs) (place.hoist defs) groups := by
  rw [Place.hoist, if_pos hdefs, hdefs, show names.extend [] = names by simp [Names.extend]]
  exact h

end Matches

/-! ## Mentions and references -/

/-- References are those of the mentioned names. A name that is defined and an operand are bound
by their own scope, and a name that is copied is bound. -/
structure Traced (ms : List Mention) (rs : List Script.Reference) : Prop where
  references : rs = ms.map Mention.reference
  own : ∀ m ∈ ms, m.role = .defined ∨ m.role = .operand → m.place.Owns m.name
  copied : ∀ m ∈ ms, m.role = .copied → m.binder?.isSome = true

namespace Traced

theorem nil : Traced [] [] :=
  ⟨rfl, List.forall_mem_nil _, List.forall_mem_nil _⟩

theorem append {ms ns : List Mention} {rs ts : List Script.Reference} (h : Traced ms rs)
    (h' : Traced ns ts) : Traced (ms ++ ns) (rs ++ ts) where
  references := by rw [h.references, h'.references, List.map_append]
  own := List.forall_mem_append.2 ⟨h.own, h'.own⟩
  copied := List.forall_mem_append.2 ⟨h.copied, h'.copied⟩

theorem cons {m : Mention} {ms : List Mention} {r : Script.Reference}
    {rs : List Script.Reference} (hr : r = m.reference)
    (hown : m.role = .defined ∨ m.role = .operand → m.place.Owns m.name)
    (hcopied : m.role = .copied → m.binder?.isSome = true) (h : Traced ms rs) :
    Traced (m :: ms) (r :: rs) where
  references := by rw [hr, h.references, List.map_cons]
  own := List.forall_mem_cons.2 ⟨hown, h.own⟩
  copied := List.forall_mem_cons.2 ⟨hcopied, h.copied⟩

/-- What an expression does not use as it is bound around is bound. -/
theorem isSome_binder? {ms : List Mention} {rs : List Script.Reference} (h : Traced ms rs)
    {m : Mention} (hm : m ∈ ms) (huse : m.role.isUse = false) : m.binder?.isSome = true := by
  have hown (hrole : m.role = .defined ∨ m.role = .operand) : m.binder?.isSome = true := by
    obtain ⟨i, -, hi⟩ := h.own m hm hrole
    exact Option.isSome_iff_exists.2 ⟨i, hi⟩
  cases hrole : m.role with
  | defined => exact hown (.inl hrole)
  | operand => exact hown (.inr hrole)
  | copied => exact h.copied m hm hrole
  | read | called | assigned =>
    rw [hrole] at huse
    cases huse

/-- A name that is used as it is bound around. -/
theorem use {names : Names} {place : Place} {groups : List (List String)} {role : Role}
    {n : String} (hmatch : Matches names place groups) (hn : Plain n) (hrole : role.isUse = true) :
    Traced [⟨role, n, place⟩] [⟨mangle n, binder? groups (mangle n)⟩] := by
  refine cons ?_ (fun h => ?_) (fun h => ?_) nil
  · rw [hmatch.binder?_mangle hn]
    rfl
  · rcases h with rfl | rfl <;> cases hrole
  · cases h
    cases hrole

theorem operands (place : Place) (groups : List (List String)) (op : Operator) :
    Traced place.operands ((operatorFunction op).references groups) := by
  have hparam {p : String} (hp : p ∈ ["a", "b"]) (hspelled : mangle p = p) :
      Traced [⟨.operand, p, place.function ["a", "b"]⟩]
        [⟨p, binder? (["a", "b"] :: groups) p⟩] := by
    refine cons ?_ (fun _ => Place.owns_function hp) (fun h => by cases h) nil
    rw [binder?_of_mem hp, Mention.reference, hspelled, Mention.binder?, Place.binder?,
      Place.function, binder?_of_mem hp]
  exact (hparam (by decide) (by decide +kernel)).append (hparam (by decide) (by decide +kernel))

/-- The initial values of the names that a scope defines. The lowering looks for them outside of
the parameters, which the scope does not define. -/
theorem copies {outer : Names} {toplevel : Bool} {params : List String} {place : Place}
    {groups : List (List String)} (hmatch : Matches (outer.extend params) place groups)
    {initial : List (String × Option Script)}
    (h : ∀ d ∈ initial, initialValue outer toplevel d.1 = .ok d.2 ∧ d.1 ∉ params ∧ Plain d.1) :
    Traced ((initial.map Prod.fst).flatMap place.copying)
      (Script.referencesAll groups ((initial.filter (·.2.isSome)).filterMap Prod.snd)) := by
  induction initial with
  | nil => exact nil
  | cons d initial ih =>
    obtain ⟨n, init⟩ := d
    obtain ⟨⟨hinit, hn, hplain⟩, hrest⟩ := List.forall_mem_cons.1 h
    dsimp only at hinit hn hplain
    have hbound : (place.binder? n).isSome = true ↔ n ∈ outer.bound := by
      rw [← hmatch.bound n, Names.extend, List.mem_append, or_iff_left hn]
    rw [List.map_cons, List.flatMap_cons, Place.copying]
    rcases initialValue_cases hinit with ⟨hb, rfl, -⟩ | ⟨hb, ⟨op, hop, rfl⟩, -⟩ | ⟨hb, hnone, rfl⟩
    · rw [if_pos (hbound.2 hb)]
      refine cons ?_ (fun h => ?_) (fun _ => hbound.2 hb) (ih hrest)
      · rw [hmatch.binder?_mangle hplain]
        rfl
      · rcases h with h | h <;> cases h
    · rw [if_neg (mt hbound.1 hb), hop]
      exact append (operands place groups op) (ih hrest)
    · rw [if_neg (mt hbound.1 hb), hnone]
      exact ih hrest

end Traced

/-! ## The identifiers of a lowered program -/

/-- An expression stands at a place: it is a tree that was read, and what it defines is hoisted. -/
structure StandsAt (place : Place) (e : Value) : Prop where
  read : e.wellRead = true
  own : ∀ n ∈ e.targets .define false, place.Owns n

/-- Several expressions stand at a place. -/
structure AllStandAt (place : Place) (es : List Value) : Prop where
  read : Value.wellReadAll es = true
  own : ∀ n ∈ Value.targetsAll .define false es, place.Owns n

section Standing

variable {place : Place} {word name : String} {e : Value} {es : List Value}

theorem AllStandAt.uncons (h : AllStandAt place (e :: es)) :
    StandsAt place e ∧ AllStandAt place es := by
  obtain ⟨hread, hown⟩ := h
  rw [Value.wellReadAll, Bool.and_eq_true] at hread
  rw [Value.targetsAll, List.forall_mem_append] at hown
  exact ⟨⟨hread.1, hown.1⟩, ⟨hread.2, hown.2⟩⟩

theorem StandsAt.items (h : StandsAt place (.list .vector es)) : AllStandAt place es :=
  ⟨Value.wellReadAll_iff.2 (Value.wellRead_vector h.read),
    fun n hn => h.own n (by rwa [Value.targets])⟩

/-- A list whose head is no symbol. -/
theorem StandsAt.callValue {head : List Value}
    (h : StandsAt place (.list .plain (.list .plain head :: es))) :
    AllStandAt place (.list .plain head :: es) :=
  ⟨Value.wellReadAll_iff.2 (Value.wellRead_plain h.read).2,
    fun n hn => h.own n (by simpa [Value.targets, Value.closed, Value.target?] using hn)⟩

theorem StandsAt.operands (h : StandsAt place (.list .plain (.symbol word :: es)))
    (hq : Form.ofName? word ≠ some .quote) (hl : Form.ofName? word ≠ some .lambda) :
    AllStandAt place es :=
  ⟨Value.wellReadAll_iff.2 (List.forall_mem_cons.1 (Value.wellRead_plain h.read).2).2,
    fun n hn => h.own n (mem_targets_of_operand (closed_cons_eq_false hq (.inr hl)) hn)⟩

theorem StandsAt.plain_head (h : StandsAt place (.list .plain (.symbol name :: es))) :
    Plain name :=
  Script.plain_of_isSymbolName (List.forall_mem_cons.1 (Value.wellRead_plain h.read).2).1

/-- The operands of a call of a name. -/
theorem StandsAt.application (h : StandsAt place (.list .plain (.symbol word :: es)))
    (hw : Form.ofName? word = none) : AllStandAt place es :=
  h.operands (by simp [hw]) (by simp [hw])

/-- The target and the value of a definition or an assignment. -/
theorem StandsAt.binding (h : StandsAt place (.list .plain [.symbol word, .symbol name, e]))
    (hq : Form.ofName? word ≠ some .quote) (hl : Form.ofName? word ≠ some .lambda) :
    Plain name ∧ StandsAt place e := by
  obtain ⟨hname, he⟩ := (h.operands hq hl).uncons
  exact ⟨Script.plain_of_isSymbolName hname.read, he.uncons.1⟩

end Standing

mutual

theorem Lowered.traced {names : Names} {place : Place} {groups : List (List String)} {e : Value}
    {s : Script} : Lowered names e s → Matches names place groups → StandsAt place e →
      Traced (e.mentions place) (s.references groups)
  | .atom, _, _ => .nil
  | .name hname, hmatch, hat => by
    rw [Value.mentions, Place.reading, hmatch.native?_eq, hname]
    exact .use hmatch (Script.plain_of_isSymbolName hat.read) rfl
  | .operator hop, hmatch, _ => by
    rw [Value.mentions, Place.reading, hmatch.native?_eq, hop]
    exact .operands place groups _
  | .vector hitems, hmatch, hat => by
    rw [Value.mentions]
    exact hitems.traced hmatch hat.items
  | .operation hw hop hxy, hmatch, hat => by
    have h := hxy.traced hmatch (hat.application hw)
    simpa [Value.mentions, hw, Place.calling, hmatch.native?_eq, hop, Script.references,
      Script.referencesAll] using h
  | .build hw hfn hkind hes, hmatch, hat => by
    have h := hes.traced hmatch (hat.application hw)
    rcases hkind with rfl | rfl <;>
      simpa [Value.mentions, hw, Place.calling, hmatch.native?_eq, hfn, Script.references] using h
  | .call hw hname hes, hmatch, hat => by
    have h := hes.traced hmatch (hat.application hw)
    simp only [Value.mentions, hw, Place.calling, hmatch.native?_eq, hname]
    exact (Traced.use hmatch hat.plain_head rfl).append h
  | .callValue hes, hmatch, hat => by
    have h := hes.traced hmatch hat.callValue
    simpa [Value.mentions, Script.references, Script.referencesAll] using h
  | .quote hw, _, _ => by
    simpa [Value.mentions, hw, Script.references] using Traced.nil
  | .single hw he, hmatch, hat => by
    have h := he.traced hmatch (hat.operands (by simp [hw]) (by simp [hw])).uncons.1
    simpa [Value.mentions, Value.mentionsAll, hw] using h
  | .sequence hw hes, hmatch, hat => by
    have h := hes.traced hmatch (hat.operands (by simp [hw]) (by simp [hw]))
    simpa [Value.mentions, hw, Script.references] using h
  | .choose hw hes, hmatch, hat => by
    have h := hes.traced hmatch (hat.operands (by simp [hw]) (by simp [hw]))
    simpa [Value.mentions, hw, Script.references, Script.referencesAll] using h
  | .define hw he, hmatch, hat => by
    obtain ⟨hname, hvalue⟩ := hat.binding (by simp [hw]) (by simp [hw])
    have hown := hat.own _ (mem_targets_of_target
      (closed_cons_eq_false (by simp [hw]) (.inr (by simp [hw]))) hw)
    simp only [Value.mentions, hw]
    refine .cons ?_ (fun _ => hown) (fun h => by cases h) (he.traced hmatch hvalue)
    rw [hmatch.binder?_mangle hname]
    rfl
  | .assign hw he, hmatch, hat => by
    obtain ⟨hname, hvalue⟩ := hat.binding (by simp [hw]) (by simp [hw])
    simp only [Value.mentions, hw]
    exact (Traced.use hmatch hname rfl).append (he.traced hmatch hvalue)
  | .function hw hparams hbody, hmatch, hat => by
    have hitems := (Value.wellRead_plain hat.read).2
    have hplain := plain_of_params (hitems _ (by simp)) hparams
    simp only [Value.mentions, hw, hparams, Value.hoisted_eq_definitions]
    exact hbody.traced (hmatch.function hplain) (hitems _ (by simp))
      fun p hp => Place.owns_function hp

theorem LoweredAll.traced {names : Names} {place : Place} {groups : List (List String)}
    {es : List Value} {ss : List Script} :
    LoweredAll names es ss → Matches names place groups → AllStandAt place es →
      Traced (Value.mentionsAll place es) (Script.referencesAll groups ss)
  | .nil, _, _ => .nil
  | .cons he hes, hmatch, hat =>
    (he.traced hmatch hat.uncons.1).append (hes.traced hmatch hat.uncons.2)

/-- The identifiers of a program or of the body of a function: those of the wrapped script, then
those of the initial values. -/
theorem LoweredScope.traced {outer : Names} {toplevel : Bool} {params : List String}
    {place : Place} {groups : List (List String)} {body : Value} {s : Script} :
    LoweredScope outer toplevel params body s → Matches (outer.extend params) place groups →
      body.wellRead = true → (∀ p ∈ params, place.Owns p) →
      Traced (body.mentions (place.hoist (definitions params body)) ++
        (definitions params body).flatMap place.copying) (s.references groups)
  | @LoweredScope.mk _ _ _ _ t initial hinitial ht, hmatch, hread, hparams => by
    have hdefs := (initialValues_eq_ok hinitial).1
    have hplain : ∀ n ∈ definitions params body, Plain n := plain_of_mem_definitions hread
    have hat : StandsAt (place.hoist (definitions params body)) body := by
      refine ⟨hread, fun n hn => ?_⟩
      by_cases hp : n ∈ params
      · exact (hparams n hp).hoist _
      · exact Place.owns_hoist_of_mem (mem_definitions.2 ⟨hn, hp⟩)
    have hcopies := Traced.copies hmatch fun d (hd : d ∈ initial) => by
      have hmem : d.1 ∈ definitions params body := hdefs ▸ List.mem_map_of_mem hd
      exact ⟨(initialValues_eq_ok hinitial).2 d hd, (mem_definitions.1 hmem).2, hplain _ hmem⟩
    rw [wrapper_eq]
    by_cases hnil : initial = []
    · have hnone : definitions params body = [] := by rw [← hdefs, hnil, List.map_nil]
      have h := ht.traced (hmatch.hoist_nil hnone) hat
      rw [if_pos hnil, hnone, List.flatMap_nil, List.append_nil]
      rwa [hnone] at h
    · rw [if_neg hnil]
      have hsome : definitions params body ≠ [] := by rwa [← hdefs, ne_eq, List.map_eq_nil_iff]
      rw [hdefs] at hcopies
      exact (ht.traced (hmatch.hoist hsome hplain fun n => mem_wrapperNames hinitial) hat).append
        hcopies

end

/-- The identifiers of a script and the names of its program agree. -/
theorem traced_of_toScript {source : String} {program : Value} {s : Script}
    (hread : readSource source = .ok program) (hs : program.toScript = .ok s) :
    Traced program.mentioned (s.references []) := by
  rw [Value.mentioned, Value.hoisted_eq_definitions]
  refine (loweredScope_of_toScript hs).traced ⟨fun n => ?_, .nil⟩ (wellRead_of_readSource hread)
    (List.forall_mem_nil _)
  simp [Names.extend, Place.outside, Place.binder?, binder?]

/-- The free identifiers of a script are those of the names that the program reads, calls or
assigns where nothing binds them. Each other identifier is bound by the function for the group that
binds its name, and what a scope defines and the operands of an operator are bound by that scope. -/
theorem free_eq_openNames {source : String} {program : Value} {s : Script}
    (hread : readSource source = .ok program) (hs : program.toScript = .ok s) :
    s.free = program.openNames.map mangle ∧
      s.references [] = program.mentioned.map Mention.reference ∧
      ∀ m ∈ program.mentioned, m.role = .defined ∨ m.role = .operand →
        ∃ i < m.place.own, m.binder? = some i := by
  have h := traced_of_toScript hread hs
  refine ⟨?_, h.references, h.own⟩
  rw [Script.free, h.references, List.filter_map, List.map_map, Value.openNames, List.map_map]
  refine congrArg _ (List.filter_congr fun m hm => ?_)
  show m.binder?.isNone = (m.role.isUse && m.binder?.isNone)
  cases huse : m.role.isUse with
  | true => rfl
  | false => rw [Option.isNone_eq_false_iff.2 (h.isSome_binder? hm huse), Bool.and_false]

/-- In the inner scope `add` and `f` are read before they are defined, `if` is a parameter, and
`list` is one in the last function. -/
theorem free_eq_openNames_shadowed :
    ∃ program s, readSource ("(do (def f (lambda (a if) (do (def add (add a x)) (def f (f a))" ++
        " (set if-so (h '2 [if list-1 sub])) add)))" ++
        " ((lambda (list) (list (vector add) (set sub y))) (f if-so 1)))") = .ok program ∧
      program.toScript = .ok s ∧ s.free = ["x", "if_so", "h", "list_1", "sub", "y", "if_so"] ∧
      s.free = program.openNames.map mangle ∧
      s.references [] = program.mentioned.map Mention.reference ∧
      ∀ m ∈ program.mentioned, m.role = .defined ∨ m.role = .operand →
        ∃ i < m.place.own, m.binder? = some i := by
  obtain ⟨program, s, hread, hs, hfree⟩ := exists_of_scriptOf
    (show (scriptOf ("(do (def f (lambda (a if) (do (def add (add a x)) (def f (f a))" ++
        " (set if-so (h '2 [if list-1 sub])) add)))" ++
        " ((lambda (list) (list (vector add) (set sub y))) (f if-so 1)))")).any
      (fun s => decide (s.free = ["x", "if_so", "h", "list_1", "sub", "y", "if_so"])) = true
      by decide +kernel)
  exact ⟨program, s, hread, hs, of_decide_eq_true hfree, free_eq_openNames hread hs⟩

end MiniLisp
