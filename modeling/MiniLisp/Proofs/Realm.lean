import MiniLisp.Proofs.Runs
import MiniLisp.Proofs.Script.Translation
import MiniLisp.Proofs.Visibility

/-!
# Realms

A run comes to code in two ways: the code is part of the expression that is evaluated, or it is the
body of a closure that is called. A closure comes from a function in code that ran, or it was there
before. A `Realm` says which scopes are in sight, what code is like and what the bodies of functions
are like, and its laws say that code passes this on to its parts. Then all values that a run passes
on and all that it binds are of the realm, however the run ends, and a binding changes in two ways
only: code that runs in the scope itself defines the name, or some code assigns it where it is bound
(`Realm.sound`).
-/

namespace MiniLisp

open Eval

/-! ## Closures in values -/

namespace Value

mutual

/-- The closures in a value, at any depth, each with its body and its scope. -/
def closures : Value → List (Value × ScopeId)
  | .list _ items => closuresAll items
  | .braces entries => closuresAll entries
  | .dictionary pairs => closuresPairs pairs
  | .closure _ body scope _ => (body, scope) :: closures body
  | _ => []

/-- The closures in several values. -/
def closuresAll : List Value → List (Value × ScopeId)
  | [] => []
  | v :: rest => closures v ++ closuresAll rest

/-- The closures in the values of a dictionary. -/
def closuresPairs : List (String × Value) → List (Value × ScopeId)
  | [] => []
  | (_, v) :: rest => closures v ++ closuresPairs rest

end

theorem mem_closuresAll {vs : List Value} {c : Value × ScopeId} :
    c ∈ closuresAll vs ↔ ∃ v ∈ vs, c ∈ v.closures := by
  induction vs with
  | nil => simp [closuresAll]
  | cons v vs ih => simp [closuresAll, ih]

theorem mem_closuresPairs {pairs : List (String × Value)} {c : Value × ScopeId} :
    c ∈ closuresPairs pairs ↔ ∃ p ∈ pairs, c ∈ p.2.closures := by
  induction pairs with
  | nil => simp [closuresPairs]
  | cons p pairs ih => simp [closuresPairs, ih]

mutual

theorem map_closures : (v : Value) → v.closures.map Prod.snd = v.captured
  | .list _ items | .braces items => by
    rw [closures, captured]
    exact map_closuresAll items
  | .dictionary pairs => by
    rw [closures, captured]
    exact map_closuresPairs pairs
  | .closure _ body scope _ => by
    rw [closures, captured, List.map_cons, map_closures body]
  | .atom _ | .symbol _ | .native .. | .nothing => by simp [closures, captured]

theorem map_closuresAll : (vs : List Value) → (closuresAll vs).map Prod.snd = capturedAll vs
  | [] => rfl
  | v :: vs => by
    rw [closuresAll, capturedAll, List.map_append, map_closures v, map_closuresAll vs]

theorem map_closuresPairs :
    (pairs : List (String × Value)) → (closuresPairs pairs).map Prod.snd = capturedPairs pairs
  | [] => rfl
  | (_, v) :: pairs => by
    rw [closuresPairs, capturedPairs, List.map_append, map_closures v, map_closuresPairs pairs]

end

theorem mem_targetsAll {vs : List Value} {form : Form} {nested : Bool} {n : String} :
    n ∈ targetsAll form nested vs ↔ ∃ v ∈ vs, n ∈ v.targets form nested := by
  induction vs with
  | nil => simp [targetsAll]
  | cons v vs ih => simp [targetsAll, ih]

/-- The search for targets goes into all parts of a list that it does not stay out of. -/
theorem mem_targets_of_closed {vs : List Value} {form : Form} {nested : Bool} {n : String}
    (hopen : closed nested vs = false) (hn : n ∈ targetsAll form nested vs) :
    n ∈ (list .plain vs).targets form nested := by
  rw [targets, if_neg (by simp [hopen])]
  exact List.mem_append_right _ hn

end Value

/-! ## Realms -/

/-- Scopes that are in sight, with all that are still to be made, and what code and bodies are like
there. -/
structure Realm where
  sight : ScopeId → Prop
  base : ScopeId
  fresh : ∀ {id}, base ≤ id → sight id
  /-- The code that may run. -/
  code : Value → Prop
  /-- The bodies that functions may have. -/
  callable : Value → Prop
  /-- The names that code may assign. -/
  assignable : String → Prop
  vector : ∀ {vs}, code (.list .vector vs) → ∀ e ∈ vs, code e
  braces : ∀ {vs}, code (.braces vs) → ∀ e ∈ vs, code e
  application : ∀ {head vs}, code (.list .plain (.list .plain head :: vs)) →
    code (.list .plain head) ∧ ∀ e ∈ vs, code e
  /-- The operands of a call, and the parts of a form that is neither a quotation nor a function. -/
  operands : ∀ {word vs}, code (.list .plain (.symbol word :: vs)) →
    Form.ofName? word ≠ some .quote → Form.ofName? word ≠ some .lambda → ∀ e ∈ vs, code e
  function : ∀ {word params body}, code (.list .plain [.symbol word, params, body]) →
    Form.ofName? word = some .lambda → callable body
  assigned : ∀ {word name e}, code (.list .plain [.symbol word, .symbol name, e]) →
    Form.ofName? word = some .assign → assignable name
  called : ∀ {body}, callable body → code body

namespace Realm

variable (r : Realm)

/-- The closures in a value have scopes in sight and bodies of the realm. -/
def Admits (v : Value) : Prop := ∀ c ∈ v.closures, r.sight c.2 ∧ r.callable c.1

/-- Code of the realm with such closures in it. -/
structure AdmitsCode (expr : Value) : Prop where
  value : r.Admits expr
  code : r.code expr

/-- The scopes in sight lead to no other ones. -/
structure AdmitsStore (st : Store) : Prop where
  base_le : r.base ≤ st.next
  parent : ∀ (id : ScopeId) (s : Scope) (p : ScopeId), r.sight id → st.scopes[id]? = some s →
    s.parent = some p → r.sight p
  bound : ∀ (id : ScopeId) (n : String) (v : Value), r.sight id → st.valueAt? id n = some v →
    r.Admits v

/-- How a store changes while code runs that defines `defs` in `scope`: scopes and closures are only
added, and a name keeps its value, or is defined in that scope, or may be assigned and is bound
before and after. -/
structure Changes (scope : ScopeId) (defs : List String) (st st' : Store) : Prop where
  next_le : st.next ≤ st'.next
  made_le : ∀ id < st.next, st.made id ≤ st'.made id
  value : ∀ (id : ScopeId) (n : String), id < st.next →
    st'.valueAt? id n = st.valueAt? id n ∨ id = scope ∧ n ∈ defs ∨
      r.assignable n ∧ st.binds id n = true ∧ st'.binds id n = true

/-- A computation that stays in the realm, however it ends, and gives results of a kind. -/
def Respects {α : Type} (scope : ScopeId) (defs : List String) (good : α → Prop) (x : Eval α) :
    Prop :=
  ∀ st : Store, r.AdmitsStore st →
    r.AdmitsStore (Outcome.store (x st)) ∧ r.Changes scope defs st (Outcome.store (x st)) ∧
      ∀ a s, x st = .ok a s → good a

variable {r} {scope : ScopeId} {defs : List String} {v : Value} {vs : List Value}

/-! ### Values and code -/

theorem admits_atom (a : Atom) : r.Admits (.atom a) := by
  intro c hc
  simp [Value.closures] at hc

theorem admits_braces : r.Admits (.braces vs) ↔ ∀ v ∈ vs, r.Admits v := by
  simp only [Admits, Value.closures, Value.mem_closuresAll]
  constructor
  · exact fun h v hv c hc => h c ⟨v, hv, hc⟩
  · rintro h c ⟨v, hv, hc⟩
    exact h v hv c hc

theorem admits_list {flavor : Flavor} : r.Admits (.list flavor vs) ↔ ∀ v ∈ vs, r.Admits v :=
  admits_braces

theorem admits_dictionary {pairs : List (String × Value)} :
    r.Admits (.dictionary pairs) ↔ ∀ p ∈ pairs, r.Admits p.2 := by
  simp only [Admits, Value.closures, Value.mem_closuresPairs]
  constructor
  · exact fun h pair hpair c hc => h c ⟨pair, hpair, hc⟩
  · rintro h c ⟨pair, hpair, hc⟩
    exact h pair hpair c hc

theorem admits_closure {params : List String} {body : Value} {serial : Nat} :
    r.Admits (.closure params body scope serial) ↔
      r.sight scope ∧ r.callable body ∧ r.Admits body := by
  simp only [Admits, Value.closures, List.forall_mem_cons, and_assoc]

theorem hereditary_admits : Hereditary r.Admits := ⟨admits_atom, admits_list⟩

namespace AdmitsCode

theorem of_callable (h : r.callable v) (hv : r.Admits v) : r.AdmitsCode v := ⟨hv, r.called h⟩

theorem vector (h : r.AdmitsCode (.list .vector vs)) : ∀ e ∈ vs, r.AdmitsCode e :=
  fun e he => ⟨admits_list.1 h.value e he, r.vector h.code e he⟩

theorem braces (h : r.AdmitsCode (.braces vs)) : ∀ e ∈ vs, r.AdmitsCode e :=
  fun e he => ⟨admits_braces.1 h.value e he, r.braces h.code e he⟩

theorem application {head : List Value}
    (h : r.AdmitsCode (.list .plain (.list .plain head :: vs))) :
    r.AdmitsCode (.list .plain head) ∧ ∀ e ∈ vs, r.AdmitsCode e := by
  obtain ⟨hhead, hrest⟩ := List.forall_mem_cons.1 (admits_list.1 h.value)
  obtain ⟨hheadCode, hrestCode⟩ := r.application h.code
  exact ⟨⟨hhead, hheadCode⟩, fun e he => ⟨hrest e he, hrestCode e he⟩⟩

theorem operands {word : String} (h : r.AdmitsCode (.list .plain (.symbol word :: vs)))
    (hquote : Form.ofName? word ≠ some .quote) (hlambda : Form.ofName? word ≠ some .lambda) :
    ∀ e ∈ vs, r.AdmitsCode e :=
  fun e he => ⟨admits_list.1 h.value e (List.mem_cons_of_mem _ he),
    r.operands h.code hquote hlambda e he⟩

/-- The parts of a form that are evaluated. -/
theorem parts {form : Form} (h : r.AdmitsCode (.list .plain (.symbol form.name :: vs)))
    (hquote : form ≠ .quote) (hlambda : form ≠ .lambda) : ∀ e ∈ vs, r.AdmitsCode e :=
  h.operands (by simpa [Form.ofName?_name] using hquote)
    (by simpa [Form.ofName?_name] using hlambda)

/-- The function that a form makes. -/
theorem lambda {params : Value} {body : Value} {names : List String} {serial : Nat}
    (h : r.AdmitsCode (.list .plain [.symbol Form.lambda.name, params, body]))
    (hscope : r.sight scope) : r.Admits (.closure names body scope serial) :=
  admits_closure.2 ⟨hscope, r.function h.code (Form.ofName?_name _),
    admits_list.1 h.value body (by simp)⟩

end AdmitsCode

/-! ### Stores -/

variable {st st' st'' : Store} {id o : ScopeId} {name : String}

theorem AdmitsStore.get? (h : r.AdmitsStore st) (hid : r.sight id)
    (hv : st.get? id name = some v) : r.Admits v := by
  obtain ⟨o, ho, hvalue⟩ := Option.bind_eq_some_iff.1 hv
  have hchain := Store.forall_mem_chainUpTo h.parent (id + 1) hid
  exact h.bound o name v (hchain o (List.mem_of_find?_eq_some ho)) hvalue

theorem AdmitsStore.define (h : r.AdmitsStore st) (hv : r.Admits v) :
    r.AdmitsStore (st.define id name v) where
  base_le := Nat.le_trans h.base_le (Nat.le_of_eq (st.size_define id name v).symm)
  parent q s p hq hs hp := by
    obtain ⟨s', hs', hp'⟩ := Store.exists_of_scopes_define hs
    exact h.parent q s' p hq hs' (hp'.trans hp)
  bound q n w hq hw := by
    rw [Store.valueAt?_define] at hw
    split at hw
    · cases hw
      exact hv
    · exact h.bound q n w hq hw

theorem AdmitsStore.mint (h : r.AdmitsStore st) : r.AdmitsStore (st.mint id) where
  base_le := Nat.le_trans h.base_le (Nat.le_of_eq (st.size_mint id).symm)
  parent q s p hq hs hp := by
    obtain ⟨s', hs', hp'⟩ := Store.exists_of_scopes_mint hs
    exact h.parent q s' p hq hs' (hp'.trans hp)
  bound q n w hq hw := h.bound q n w hq (by rwa [Store.valueAt?_mint] at hw)

theorem AdmitsStore.defineAll (h : r.AdmitsStore st) {pairs : List (String × Value)}
    (hpairs : ∀ p ∈ pairs, r.Admits p.2) : r.AdmitsStore (st.defineAll id pairs) := by
  induction pairs generalizing st with
  | nil => exact h
  | cons pair pairs ih =>
    obtain ⟨hpair, hrest⟩ := List.forall_mem_cons.1 hpairs
    exact ih (h.define hpair) hrest

/-- A new scope with arguments in it. -/
theorem AdmitsStore.enter (h : r.AdmitsStore st) {params : List String} {args : List Value}
    (hid : r.sight id) (hargs : ∀ v ∈ args, r.Admits v) :
    r.AdmitsStore ((st.pushEmpty (some id)).defineAll st.next (params.zip args)) := by
  refine AdmitsStore.defineAll ⟨?_, fun q s p hq hs hp => ?_, fun q n w hq hw => ?_⟩ fun p hp =>
    hargs p.2 (List.of_mem_zip hp).2
  · exact Nat.le_trans h.base_le (Nat.le_trans (Nat.le_succ _) (Nat.le_of_eq (st.size_push _).symm))
  · rw [Store.pushEmpty, Store.scopes_push] at hs
    split at hs
    · cases hs
      cases hp
      exact hid
    · exact h.parent q s p hq hs hp
  · rw [Store.pushEmpty, Store.valueAt?_push] at hw
    split at hw
    · cases hw
    · exact h.bound q n w hq hw

theorem Changes.refl (st : Store) : r.Changes scope defs st st :=
  ⟨Nat.le_refl _, fun _ _ => Nat.le_refl _, fun _ _ _ => .inl rfl⟩

theorem Changes.trans (h : r.Changes scope defs st st') (h' : r.Changes scope defs st' st'') :
    r.Changes scope defs st st'' := by
  have hlater {id : ScopeId} (hid : id < st.next) := Nat.lt_of_lt_of_le hid h.next_le
  refine ⟨Nat.le_trans h.next_le h'.next_le,
    fun id hid => Nat.le_trans (h.made_le id hid) (h'.made_le id (hlater hid)), fun id n hid => ?_⟩
  have hfirst := h.value id n hid
  rcases h'.value id n (hlater hid) with hsame | hdef | ⟨hn, hb, hb'⟩
  · rwa [hsame, Store.binds_congr hsame]
  · exact .inr (.inl hdef)
  · rcases hfirst with hsame | hdef | ⟨-, hb₀, -⟩
    · exact .inr (.inr ⟨hn, Store.binds_congr hsame ▸ hb, hb'⟩)
    · exact .inr (.inl hdef)
    · exact .inr (.inr ⟨hn, hb₀, hb'⟩)

theorem Changes.mono {defs' : List String} (h : r.Changes scope defs st st')
    (hsub : ∀ n ∈ defs, n ∈ defs') : r.Changes scope defs' st st' :=
  ⟨h.next_le, h.made_le, fun id n hid =>
    (h.value id n hid).imp_right (.imp_left fun hdef => ⟨hdef.1, hsub n hdef.2⟩)⟩

/-- What happens in a scope made since is no change to the scopes that there were, whatever is
defined there. -/
theorem Changes.of_enter {params : List String} {args : List Value} {defs' : List String}
    (h : r.Changes st.next defs' ((st.pushEmpty (some id)).defineAll st.next (params.zip args))
      st') :
    r.Changes scope defs st st' := by
  obtain ⟨inner, hinner⟩ : ∃ inner, inner =
    (st.pushEmpty (some id)).defineAll st.next (params.zip args) := ⟨_, rfl⟩
  rw [← hinner] at h
  have hnext : st.next ≤ inner.next := by
    rw [hinner]
    exact Nat.le_trans (Nat.le_succ _)
      (Nat.le_of_eq ((Store.size_defineAll _ _ _).trans (st.size_push _)).symm)
  have hold {q : ScopeId} (hq : q < st.next) : q < inner.next := Nat.lt_of_lt_of_le hq hnext
  have hmade (q : ScopeId) (hq : q < st.next) : inner.made q = st.made q := by
    rw [hinner, Store.made_defineAll, Store.pushEmpty, Store.made_push, if_neg (Nat.ne_of_lt hq)]
  have hsame (q : ScopeId) (n : String) (hq : q < st.next) :
      inner.valueAt? q n = st.valueAt? q n := by
    have hne : q ≠ st.next := Nat.ne_of_lt hq
    rw [hinner, Store.valueAt?_defineAll_of_not_mem _ _ _ (.inl hne), Store.pushEmpty,
      Store.valueAt?_push, if_neg hne]
  refine ⟨?_, fun q hq => hmade q hq ▸ h.made_le q (hold hq), fun q n hq => ?_⟩
  · exact Nat.le_trans hnext h.next_le
  · rw [← hsame q n hq, ← Store.binds_congr (hsame q n hq)]
    rcases h.value q n (hold hq) with hv | hdef | hassign
    · exact .inl hv
    · exact absurd hdef.1 (Nat.ne_of_lt hq)
    · exact .inr (.inr hassign)

/-! ### Computations -/

namespace Respects

variable {α β : Type} {good : α → Prop} {good' : β → Prop} {x : Eval α} {k : α → Eval β}

theorem mono {defs' : List String} (h : r.Respects scope defs good x)
    (hsub : ∀ n ∈ defs, n ∈ defs') : r.Respects scope defs' good x := by
  intro st hst
  obtain ⟨hstore, hchanges, hgood⟩ := h st hst
  exact ⟨hstore, hchanges.mono hsub, hgood⟩

/-- What a computation with a result leaves. -/
theorem of_ok (h : r.Respects scope defs good x) {st st' : Store} {a : α} (hst : r.AdmitsStore st)
    (hx : x st = .ok a st') : r.AdmitsStore st' ∧ good a := by
  obtain ⟨hstore, -, hgood⟩ := h st hst
  rw [hx] at hstore
  exact ⟨hstore, hgood a st' hx⟩

/-- A computation that leaves the store as it is. -/
theorem of_store_eq (hstore : ∀ st, Outcome.store (x st) = st)
    (hgood : ∀ st a s, r.AdmitsStore st → x st = .ok a s → good a) :
    r.Respects scope defs good x := by
  intro st hst
  rw [hstore]
  exact ⟨hst, .refl st, fun a s => hgood st a s hst⟩

theorem pure {a : α} (h : good a) : r.Respects scope defs good (pure a : Eval α) := by
  refine of_store_eq (fun _ => rfl) ?_
  rintro st _ _ _ ⟨⟩
  exact h

theorem throw (e : Fault) : r.Respects scope defs good (throw e : Eval α) := by
  refine of_store_eq (fun _ => rfl) ?_
  rintro st _ _ _ ⟨⟩

theorem bind (hx : r.Respects scope defs good x)
    (hk : ∀ a, good a → r.Respects scope defs good' (k a)) :
    r.Respects scope defs good' (x >>= k) := by
  intro st hst
  obtain ⟨hstore, hchanges, hgood⟩ := hx st hst
  change r.AdmitsStore (Outcome.store (EStateM.bind x k st)) ∧
    r.Changes scope defs st (Outcome.store (EStateM.bind x k st)) ∧
      ∀ b s, EStateM.bind x k st = .ok b s → good' b
  unfold EStateM.bind
  cases hr : x st with
  | ok a s =>
    rw [hr] at hstore hchanges hgood
    obtain ⟨hstore', hchanges', hgood'⟩ := hk a (hgood a s rfl) s hstore
    exact ⟨hstore', hchanges.trans hchanges', hgood'⟩
  | error e s =>
    rw [hr] at hstore hchanges
    refine ⟨hstore, hchanges, ?_⟩
    rintro _ _ ⟨⟩

theorem refuse (frames : Nat) (e : Fault) :
    r.Respects scope defs good (refuse frames e : Eval α) :=
  .throw _

theorem lookup (hscope : r.sight scope) : r.Respects scope defs r.Admits (lookup scope name) := by
  refine of_store_eq (fun st => ?_) fun st v s hst h => hst.get? hscope (lookup_eq_ok h).1
  unfold Eval.lookup
  split <;> rfl

/-- A definition in the scope itself. -/
theorem define (hname : name ∈ defs) (hv : r.Admits v) :
    r.Respects scope defs (fun _ => True) (define scope name v) := by
  intro st hst
  refine ⟨hst.define hv, ⟨?_, fun id _ => ?_, fun id n _ => ?_⟩, fun _ _ _ => trivial⟩
  · exact Nat.le_of_eq (st.size_define scope name v).symm
  · exact Nat.le_of_eq (st.made_define scope id name v).symm
  · change (st.define scope name v).valueAt? id n = _ ∨ _
    rw [Store.valueAt?_define]
    split
    · rename_i hc
      exact .inr (.inl ⟨hc.1, hc.2.1 ▸ hname⟩)
    · exact .inl rfl

/-- An assignment, wherever the name is bound. -/
theorem assign (hname : r.assignable name) (hv : r.Admits v) :
    r.Respects scope defs (fun _ => True) (assign scope name v) := by
  intro st hst
  unfold Eval.assign Store.assign?
  cases ho : st.owner? scope name with
  | none => exact ⟨hst, .refl st, fun _ _ _ => trivial⟩
  | some o =>
    have hb : st.binds o name = true := by simpa using List.find?_some ho
    refine ⟨hst.define hv, ⟨?_, fun id _ => ?_, fun id n _ => ?_⟩, fun _ _ _ => trivial⟩
    · exact Nat.le_of_eq (st.size_define o name v).symm
    · exact Nat.le_of_eq (st.made_define o id name v).symm
    · change (st.define o name v).valueAt? id n = _ ∨ _ ∨
        _ ∧ _ ∧ (st.define o name v).binds id n = _
      rw [Store.binds_define_of_binds hb, Store.valueAt?_define]
      split
      · rename_i hc
        rw [hc.1, hc.2.1]
        exact .inr (.inr ⟨hname, hb, hb⟩)
      · exact .inl rfl

/-- A new closure. -/
theorem make {params : List String} {body : Value}
    (h : ∀ serial, r.Admits (.closure params body scope serial)) :
    r.Respects scope defs r.Admits (make scope params body) := by
  intro st hst
  refine ⟨hst.mint, ⟨?_, fun id _ => ?_, fun id n _ => .inl (st.valueAt?_mint scope id n)⟩, ?_⟩
  · exact Nat.le_of_eq (st.size_mint scope).symm
  · change st.made id ≤ (st.mint scope).made id
    rw [Store.made_mint]
    split
    · exact Nat.le_succ _
    · exact Nat.le_refl _
  · rintro _ _ ⟨⟩
    exact h _

theorem writeLine (frames : Nat) (v : Value) :
    r.Respects scope defs (fun _ => True) (writeLine frames v) := by
  intro st hst
  unfold Eval.writeLine
  split
  · exact ⟨⟨hst.base_le, hst.parent, hst.bound⟩,
      ⟨Nat.le_refl _, fun _ _ => Nat.le_refl _, fun _ _ _ => .inl rfl⟩, fun _ _ _ => trivial⟩
  · exact ⟨hst, .refl st, fun _ _ _ => trivial⟩

theorem native {frames : Nat} {fn : Native} {args : List Value} (hargs : ∀ v ∈ args, r.Admits v) :
    r.Respects scope defs r.Admits (native frames fn args) := by
  unfold Eval.native
  cases hcall : fn.call args with
  | error e => exact .throw _
  | ok v =>
    have hv := hereditary_admits.of_call hcall hargs
    dsimp only
    split
    · exact (writeLine frames v).bind fun _ _ => .pure hv
    · exact .pure hv

variable {g : Value → Eval Value} {es : List Value}

theorem each (h : ∀ e ∈ es, r.Respects scope defs r.Admits (g e)) :
    r.Respects scope defs (fun vs => ∀ v ∈ vs, r.Admits v) (each g es) := by
  induction es with
  | nil => exact .pure (List.forall_mem_nil _)
  | cons e es ih =>
    obtain ⟨he, hes⟩ := List.forall_mem_cons.1 h
    refine he.bind fun w hw => (ih hes).bind fun ws hws => ?_
    exact .pure (List.forall_mem_cons.2 ⟨hw, hws⟩)

theorem inOrder (h : ∀ e ∈ es, r.Respects scope defs r.Admits (g e)) :
    r.Respects scope defs r.Admits (inOrder g es) := by
  induction es with
  | nil => exact .throw _
  | cons e es ih =>
    obtain ⟨he, hes⟩ := List.forall_mem_cons.1 h
    cases es with
    | nil => exact he
    | cons e' es => exact he.bind fun _ _ => ih hes

theorem eachPair {frames : Nat} (h : ∀ e ∈ es, r.Respects scope defs r.Admits (g e)) :
    r.Respects scope defs (fun pairs => ∀ p ∈ pairs, r.Admits p.2) (eachPair frames g es) := by
  fun_induction Eval.eachPair frames g es with
  | case1 key v rest ih =>
    refine (h v (by simp)).bind fun w hw => ?_
    refine (ih fun e he => h e (by simp [he])).bind fun ws hws => ?_
    exact .pure (List.forall_mem_cons.2 ⟨hw, hws⟩)
  | case2 key v rest hkey => exact .throw _
  | case3 key => exact .throw _
  | case4 => exact .pure (List.forall_mem_nil _)

end Respects

/-! ### The evaluator -/

variable (r) in
/-- The functions of the evaluator stay in the realm with so many frames. The code that runs in a
scope is told by the names that it defines there; a call defines none in the scopes that there
were. -/
structure Sound (f : Nat) : Prop where
  evaluate : ∀ {d scope} {expr : Value}, r.sight scope → r.AdmitsCode expr →
    r.Respects scope (expr.targets .define false) r.Admits (evaluate f d scope expr)
  all : ∀ {d scope} {es : List Value}, r.sight scope → (∀ e ∈ es, r.AdmitsCode e) →
    r.Respects scope (Value.targetsAll .define false es) (fun vs => ∀ v ∈ vs, r.Admits v)
      (evaluateAll f d scope es)
  application : ∀ {d scope} {es : List Value}, r.sight scope → r.AdmitsCode (.list .plain es) →
    r.Respects scope ((Value.list .plain es).targets .define false) r.Admits
      (evaluateApplication f d scope es)
  dictionary : ∀ {d scope} {es : List Value}, r.sight scope → r.AdmitsCode (.braces es) →
    r.Respects scope ((Value.braces es).targets .define false) r.Admits
      (evaluateDictionary f d scope es)
  form : ∀ {d scope form} {es : List Value}, r.sight scope →
    r.AdmitsCode (.list .plain (.symbol form.name :: es)) →
    r.Respects scope ((Value.list .plain (.symbol form.name :: es)).targets .define false) r.Admits
      (evaluateForm f d scope form es)
  apply : ∀ {d scope defs} {fn : Value} {args : List Value}, r.Admits fn →
    (∀ v ∈ args, r.Admits v) → r.Respects scope defs r.Admits (apply f d fn args)
  closure : ∀ {d scope defs params home} {body : Value} {args : List Value}, r.sight home →
    r.AdmitsCode body → (∀ v ∈ args, r.Admits v) →
    r.Respects scope defs r.Admits (applyClosure f d params body home args)

section Steps

variable {f d : Nat} {es : List Value}

theorem respects_each (ih : r.Sound f) (hs : r.sight scope) (hes : ∀ e ∈ es, r.AdmitsCode e) :
    ∀ e ∈ es, r.Respects scope (Value.targetsAll .define false es) r.Admits
      (evaluate f d scope e) :=
  fun e he => (ih.evaluate hs (hes e he)).mono fun _ hn => Value.mem_targetsAll.2 ⟨e, he, hn⟩

theorem respects_evaluate_succ (ih : r.Sound f) {expr : Value} (hs : r.sight scope)
    (hexpr : r.AdmitsCode expr) :
    r.Respects scope (expr.targets .define false) r.Admits (evaluate (f + 1) d scope expr) := by
  unfold evaluate
  cases expr with
  | symbol name => exact .lookup hs
  | list flavor items =>
    cases flavor with
    | plain => exact ih.application hs hexpr
    | vector =>
      have hall := ih.all (d := d) hs hexpr.vector
      rw [Value.targets]
      exact hall.bind fun vs hvs => .pure (admits_list.2 hvs)
  | braces entries => exact ih.dictionary hs hexpr
  | _ => exact .pure hexpr.value

/-- The operands are evaluated and handed to a function. -/
theorem respects_call (ih : r.Sound f) {fn : Value} (hs : r.sight scope) (hfn : r.Admits fn)
    (hes : ∀ e ∈ es, r.AdmitsCode e) (hdefs : ∀ n ∈ Value.targetsAll .define false es, n ∈ defs) :
    r.Respects scope defs r.Admits
      (do let args ← evaluateAll f d scope es; MiniLisp.apply f d fn args) :=
  ((ih.all hs hes).mono hdefs).bind fun _ hargs => ih.apply hfn hargs

theorem respects_application_succ (ih : r.Sound f) (hs : r.sight scope)
    (hes : r.AdmitsCode (.list .plain es)) :
    r.Respects scope ((Value.list .plain es).targets .define false) r.Admits
      (evaluateApplication (f + 1) d scope es) := by
  unfold evaluateApplication
  cases es with
  | nil => exact .throw _
  | cons head operands =>
    -- unless it is a form, the search for targets goes into all parts of an application
    have hdefs (hopen : Value.closed false (head :: operands) = false) :
        ∀ n ∈ head.targets .define false ++ Value.targetsAll .define false operands,
          n ∈ (Value.list .plain (head :: operands)).targets .define false :=
      fun n hn => Value.mem_targets_of_closed hopen hn
    cases head with
    | symbol word =>
      dsimp only
      cases hword : Form.ofName? word with
      | some form =>
        obtain rfl := Form.name_of_ofName? hword
        exact ih.form hs hes
      | none =>
        have hopen : Value.closed false (.symbol word :: operands) = false :=
          closed_cons_eq_false (by simp [hword]) (.inr (by simp [hword]))
        exact (Respects.lookup hs).bind fun fn hfn => respects_call ih hs hfn
          (hes.operands (by simp [hword]) (by simp [hword]))
          (List.forall_mem_append.1 (hdefs hopen)).2
    | list flavor items =>
      cases flavor with
      | plain =>
        obtain ⟨hhead, hoperands⟩ := hes.application
        obtain ⟨hheadDefs, hoperandDefs⟩ := List.forall_mem_append.1 (hdefs rfl)
        exact ((ih.evaluate hs hhead).mono hheadDefs).bind fun fn hfn =>
          respects_call ih hs hfn hoperands hoperandDefs
      | vector => exact .refuse _ _
    | _ => exact .refuse _ _

theorem respects_dictionary_succ (ih : r.Sound f) (hs : r.sight scope)
    (hes : r.AdmitsCode (.braces es)) :
    r.Respects scope ((Value.braces es).targets .define false) r.Admits
      (evaluateDictionary (f + 1) d scope es) := by
  unfold evaluateDictionary
  cases es.getLast? with
  | none => exact .pure (admits_dictionary.2 (List.forall_mem_nil _))
  | some key =>
    have hall := respects_each (d := d) ih hs hes.braces
    rw [Value.targets]
    dsimp only
    split
    · exact .refuse _ _
    · exact (Respects.eachPair hall).bind fun pairs hpairs => .pure (admits_dictionary.2 hpairs)

theorem respects_form_succ (ih : r.Sound f) {form : Form} (hs : r.sight scope)
    (hes : r.AdmitsCode (.list .plain (.symbol form.name :: es))) :
    r.Respects scope ((Value.list .plain (.symbol form.name :: es)).targets .define false) r.Admits
      (evaluateForm (f + 1) d scope form es) := by
  have hword := Form.ofName?_name form
  have hopen (hq : form ≠ .quote) (hl : form ≠ .lambda) :
      Value.closed false (.symbol form.name :: es) = false :=
    closed_cons_eq_false (by simpa [hword] using hq) (.inr (by simpa [hword] using hl))
  have hrun (hq : form ≠ .quote) (hl : form ≠ .lambda) (e : Value) (he : e ∈ es) :
      r.Respects scope ((Value.list .plain (.symbol form.name :: es)).targets .define false)
        r.Admits (evaluate f d scope e) :=
    (ih.evaluate hs (hes.parts hq hl e he)).mono fun n hn =>
      Value.mem_targets_of_closed (hopen hq hl)
        (Value.mem_targetsAll.2 ⟨e, List.mem_cons_of_mem _ he, hn⟩)
  cases Bond.parts form es with
  | refused e h =>
    rw [h]
    exact .refuse f e
  | define name expr =>
    have hname := mem_targets_of_target (hopen (by decide) (by decide)) hword
    unfold evaluateForm
    refine (hrun (by decide) (by decide) expr (by simp)).bind fun v hv => ?_
    exact (Respects.define hname hv).bind fun _ _ => .pure hv
  | assign name expr =>
    unfold evaluateForm
    refine (hrun (by decide) (by decide) expr (by simp)).bind fun v hv => ?_
    exact (Respects.assign (r.assigned hes.code hword) hv).bind fun _ _ => .pure hv
  | sequence exprs =>
    unfold evaluateForm
    exact .inOrder (hrun (by decide) (by decide))
  | choose condition yes no =>
    unfold evaluateForm
    refine (hrun (by decide) (by decide) condition (by simp)).bind fun v hv => ?_
    split
    · rename_i b
      exact hrun (by decide) (by decide) (if b then yes else no) (by cases b <;> simp)
    · exact .refuse _ _
  | lambda body h =>
    unfold evaluateForm
    simp only [h]
    exact .make fun serial => hes.lambda hs
  | quote v =>
    unfold evaluateForm
    exact .pure (admits_list.1 hes.value v (by simp))

theorem respects_apply_succ (ih : r.Sound f) {fn : Value} {args : List Value} (hfn : r.Admits fn)
    (hargs : ∀ v ∈ args, r.Admits v) :
    r.Respects scope defs r.Admits (MiniLisp.apply (f + 1) d fn args) := by
  unfold MiniLisp.apply
  cases fn with
  | closure params body home serial =>
    obtain ⟨hhome, hcallable, hbody⟩ := admits_closure.1 hfn
    exact ih.closure hhome (.of_callable hcallable hbody) hargs
  | native fn home => exact .native hargs
  | _ => exact .refuse _ _

/-- The body of a closure runs in a scope that was not there before. -/
theorem respects_closure_succ (ih : r.Sound f) {params : List String} {body : Value}
    {home : ScopeId} {args : List Value} (hhome : r.sight home) (hbody : r.AdmitsCode body)
    (hargs : ∀ v ∈ args, r.Admits v) :
    r.Respects scope defs r.Admits (applyClosure (f + 1) d params body home args) := by
  unfold applyClosure
  cases d with
  | zero => exact .throw _
  | succ d =>
    dsimp only
    split
    · exact .throw _
    · intro st hst
      obtain ⟨hstore, hchanges, hgood⟩ :=
        ih.evaluate (d := d) (r.fresh hst.base_le) hbody _ (hst.enter hhome hargs)
      exact ⟨hstore, hchanges.of_enter, hgood⟩

end Steps

/-- Evaluation stays in a realm, with any number of frames. -/
theorem sound (f : Nat) : r.Sound f := by
  induction f with
  | zero =>
    constructor <;> intros
    · unfold MiniLisp.evaluate; exact .throw _
    · unfold evaluateAll; exact .throw _
    · unfold evaluateApplication; exact .throw _
    · unfold evaluateDictionary; exact .throw _
    · unfold evaluateForm; exact .throw _
    · unfold MiniLisp.apply; exact .throw _
    · unfold applyClosure; exact .throw _
  | succ f ih =>
    exact {
      evaluate := respects_evaluate_succ ih
      all := fun hs hes => by
        unfold evaluateAll
        exact .each (respects_each ih hs hes)
      application := respects_application_succ ih
      dictionary := respects_dictionary_succ ih
      form := respects_form_succ ih
      apply := respects_apply_succ ih
      closure := respects_closure_succ ih }

theorem AdmitsStore.evaluate {expr : Value} (h : r.AdmitsStore st) (hscope : r.sight scope)
    (hexpr : r.AdmitsCode expr) (depth : Nat) :
    r.Changes scope (expr.targets .define false) st
      (Outcome.store (st.evaluate depth scope expr)) := by
  rcases Nat.lt_or_ge maxFrames (frameAllowance depth) with hlt | hle
  · rw [Store.evaluate_of_lt st scope expr hlt]
    exact .refl st
  · rw [Store.evaluate_of_le st scope expr hle]
    exact ((sound _).evaluate hscope hexpr st h).2.1

/-- The realm of everything. -/
def all : Realm where
  sight _ := True
  base := 0
  fresh _ := trivial
  code _ := True
  callable _ := True
  assignable _ := True
  vector _ _ _ := trivial
  braces _ _ _ := trivial
  application _ := ⟨trivial, fun _ _ => trivial⟩
  operands _ _ _ _ _ := trivial
  function _ _ := trivial
  assigned _ _ := trivial
  called _ := trivial

theorem admits_all (v : Value) : all.Admits v := fun _ _ => ⟨trivial, trivial⟩

theorem admitsStore_all (st : Store) : all.AdmitsStore st :=
  ⟨Nat.zero_le _, fun _ _ _ _ _ _ => trivial, fun _ _ v _ _ => admits_all v⟩

end Realm

end MiniLisp
