import Mathlib.Logic.Relation
import MiniLisp.Proofs.Evaluation
import MiniLisp.Proofs.Runs

/-!
# Activations

A run of the evaluator is a tree. Each activation of one of its functions starts others, one after
the other, with one frame less and from the store that the work before them has left
(`Task.Starts`). Nothing catches a fault: an activation that starts one that fails ends in the same
fault (`Activation.fails_of_leads`). So a fault that leaves a run can be followed down the tree to
where it was made (`Task.origin_of_fails`), and there it is of one of the usual kinds, or a native
was called that gives it (`Activation.traced`).
-/

namespace MiniLisp

open Eval Relation

/-! ## Kinds of faults -/

namespace Fault

/-- Whether a kind of fault is neither one that numbers written too large give nor an error of the
host. -/
def Kind.usual : Kind → Bool
  | .digitLimit | .overflow | .host _ => false
  | _ => true

theorem Kind.usual_iff {k : Kind} :
    k.usual = true ↔
      k ∈ [.unbound, .type, .argument, .format, .dictionaryKey, .dictionaryArity, .exhausted] := by
  cases k <;> simp [usual]

/-- Whether a fault is of a usual kind and has nothing to do with frames. -/
def direct (e : Fault) : Bool := e.kind.usual && !e.isFrameLimit

theorem usual_of_direct {e : Fault} (h : e.direct = true) : e.kind.usual = true :=
  (Bool.and_eq_true_iff.1 h).1

/-- What is said in the place of a fault has to do with the values in its wording. -/
theorem within_cases (e : Fault) (frames : Nat) :
    e.within frames = e ∨ e.within frames = .textLimit ∧ ∃ v ∈ e.shown, v.fits frames = false := by
  unfold within
  by_cases h : e.shown.all (·.fits frames) = true
  · exact .inl (if_pos h)
  · exact .inr ⟨if_neg h, by simpa using h⟩

end Fault

/-! ## Computations that fail -/

section Failing

variable {frames : Nat} {st st₁ s : Store} {e : Fault}

theorem EStateM.bind_of_error {ε σ α β : Type} {x : EStateM ε σ α} {f : α → EStateM ε σ β}
    {s s₁ : σ} {e : ε} (h : x s = .error e s₁) : (x >>= f) s = .error e s₁ := by
  simp only [bind, EStateM.bind, h]

theorem EStateM.bind_eq_error {ε σ α β : Type} {x : EStateM ε σ α} {f : α → EStateM ε σ β}
    {s s' : σ} {e : ε} (h : (x >>= f) s = .error e s') :
    x s = .error e s' ∨ ∃ a s₁, x s = .ok a s₁ ∧ f a s₁ = .error e s' := by
  change EStateM.bind x f s = .error e s' at h
  unfold EStateM.bind at h
  split at h
  · rename_i a s₁ hx
    exact .inr ⟨a, s₁, hx, h⟩
  · rename_i e' s₁ hx
    cases h
    exact .inl hx

namespace Eval

variable {g : Value → Eval Value} {es : List Value}

theorem refuse_eq_error {α : Type} {e' : Fault} (h : (refuse frames e : Eval α) st = .error e' s) :
    e' = e ∨ e' = .textLimit ∧ ∃ v ∈ e.shown, v.fits frames = false := by
  cases h
  exact e.within_cases frames

theorem lookup_eq_error {scope : ScopeId} {name : String} (h : lookup scope name st = .error e s) :
    e = .unbound name := by
  unfold lookup at h
  split at h
  · cases h
  · cases h
    rfl

theorem assign_eq_error {scope : ScopeId} {name : String} {v : Value}
    (h : assign scope name v st = .error e s) : e = .unboundTarget name := by
  unfold assign at h
  split at h
  · cases h
  · cases h
    rfl

theorem writeLine_eq_error {v : Value} (h : writeLine frames v st = .error e s) :
    e = .textLimit ∧ v.fits frames = false := by
  unfold writeLine at h
  split at h
  · cases h
  · rename_i hfits
    cases h
    exact ⟨rfl, by simpa using hfits⟩

theorem args_of_print {args : List Value} {v : Value} (h : Native.print.call args = .ok v) :
    args = [v] := by
  rcases args with _ | ⟨w, _ | ⟨w', rest⟩⟩
  · cases h
  · cases h
    rfl
  · cases h

/-- The elements before the one that fails have their values. -/
theorem each_eq_error (h : each g es st = .error e s) :
    ∃ before v after vs st₁, es = before ++ v :: after ∧ each g before st = .ok vs st₁ ∧
      g v st₁ = .error e s := by
  induction es generalizing st with
  | nil => cases h
  | cons v es ih =>
    rcases EStateM.bind_eq_error h with hv | ⟨w, st₁, hw, h⟩
    · exact ⟨[], v, es, [], st, rfl, rfl, hv⟩
    · rcases EStateM.bind_eq_error h with hrest | ⟨ws, st₂, -, h⟩
      · obtain ⟨before, u, after, us, st₂, rfl, hbefore, hu⟩ := ih hrest
        refine ⟨v :: before, u, after, w :: us, st₂, rfl, ?_, hu⟩
        rw [each, EStateM.bind_of_ok hw, EStateM.bind_of_ok hbefore]
        rfl
      · cases h

theorem each_of_error {before after : List Value} {v : Value} {vs : List Value}
    (hbefore : each g before st = .ok vs st₁) (hv : g v st₁ = .error e s) :
    each g (before ++ v :: after) st = .error e s := by
  induction before generalizing st vs with
  | nil =>
    cases hbefore
    exact EStateM.bind_of_error hv
  | cons u before ih =>
    obtain ⟨w, ws, st₂, hw, hws, -⟩ := each_cons_eq_ok hbefore
    rw [List.cons_append, each, EStateM.bind_of_ok hw]
    exact EStateM.bind_of_error (ih hws)

/-- A sequence fails where the list of its values does. -/
theorem inOrder_eq_error_iff (hne : es ≠ []) :
    inOrder g es st = .error e s ↔ each g es st = .error e s := by
  induction es generalizing st with
  | nil => exact absurd rfl hne
  | cons v es ih =>
    cases es with
    | nil =>
      rw [inOrder, each]
      constructor
      · exact EStateM.bind_of_error
      · intro h
        rcases EStateM.bind_eq_error h with hv | ⟨w, st₁, -, h⟩
        · exact hv
        · cases h
    | cons v' es =>
      rw [inOrder, each]
      · constructor
        · intro h
          rcases EStateM.bind_eq_error h with hv | ⟨w, st₁, hw, h⟩
          · exact EStateM.bind_of_error hv
          · rw [EStateM.bind_of_ok hw]
            exact EStateM.bind_of_error ((ih (List.cons_ne_nil _ _)).1 h)
        · intro h
          rcases EStateM.bind_eq_error h with hv | ⟨w, st₁, hw, h⟩
          · exact EStateM.bind_of_error hv
          · rw [EStateM.bind_of_ok hw]
            rcases EStateM.bind_eq_error h with hrest | ⟨ws, st₂, -, h⟩
            · exact (ih (List.cons_ne_nil _ _)).2 hrest
            · cases h
      · simp

/-- A dictionary fails at a key that is none, or at a value after others. -/
theorem eachPair_eq_error (h : eachPair frames g es st = .error e s) :
    (∃ key ∈ es, ∃ e' st', e'.direct = true ∧ e'.shown = [key] ∧
        (refuse frames e' : Eval Value) st' = .error e s) ∨
      ∃ before key v after pairs st₁, es = before ++ .atom (.text key) :: v :: after ∧
        eachPair frames g before st = .ok pairs st₁ ∧ g v st₁ = .error e s := by
  fun_induction eachPair frames g es generalizing st with
  | case1 key v rest ih =>
    rcases EStateM.bind_eq_error h with hv | ⟨w, st₁, hw, h⟩
    · exact .inr ⟨[], key, v, rest, [], st, rfl, by rw [eachPair]; rfl, hv⟩
    · rcases EStateM.bind_eq_error h with hrest | ⟨ws, st₂, -, h⟩
      · refine (ih hrest).imp ?_ ?_
        · rintro ⟨key', hkey', he⟩
          exact ⟨key', List.mem_cons_of_mem _ (List.mem_cons_of_mem _ hkey'), he⟩
        · rintro ⟨before, key', u, after, us, st₂, rfl, hbefore, hu⟩
          refine ⟨.atom (.text key) :: v :: before, key', u, after, (key, w) :: us, st₂, rfl, ?_,
            hu⟩
          rw [eachPair, EStateM.bind_of_ok hw, EStateM.bind_of_ok hbefore]
          rfl
      · cases h
  | case2 key v rest hkey =>
    exact .inl ⟨key, List.mem_cons_self, .badKey key, st, rfl, rfl, by cases h; rfl⟩
  | case3 key => exact .inl ⟨key, List.mem_cons_self, .loneKey key, st, rfl, rfl, by cases h; rfl⟩
  | case4 => cases h

theorem eachPair_of_error {before after : List Value} {key : String} {v : Value}
    {pairs : List (String × Value)} (hbefore : eachPair frames g before st = .ok pairs st₁)
    (hv : g v st₁ = .error e s) :
    eachPair frames g (before ++ .atom (.text key) :: v :: after) st = .error e s := by
  fun_induction eachPair frames g before generalizing st pairs with
  | case1 key' u rest ih =>
    obtain ⟨w, st₂, hw, hrest⟩ := EStateM.bind_eq_ok hbefore
    obtain ⟨ws, st₃, hws, hdone⟩ := EStateM.bind_eq_ok hrest
    cases hdone
    rw [List.cons_append, List.cons_append, eachPair, EStateM.bind_of_ok hw]
    exact EStateM.bind_of_error (ih hws)
  | case2 key v rest hkey => cases hbefore
  | case3 key => cases hbefore
  | case4 =>
    cases hbefore
    rw [List.nil_append, eachPair]
    exact EStateM.bind_of_error hv

end Eval

end Failing

/-! ## The tree of a run -/

/-- What a function of the evaluator is to do. -/
inductive Task where
  | evaluate (scope : ScopeId) (expr : Value)
  | operands (scope : ScopeId) (items : List Value)
  | application (scope : ScopeId) (items : List Value)
  | dictionary (scope : ScopeId) (entries : List Value)
  | form (scope : ScopeId) (form : Form) (operands : List Value)
  | apply (fn : Value) (args : List Value)
  | closure (params : List String) (body : Value) (home : ScopeId) (args : List Value)

/-- A task with the budget for it and the store that it finds. -/
structure Activation where
  frames : Nat
  depth : Nat
  store : Store
  task : Task

/-- The activations that a task starts when it is taken up with `f + 1` frames. What has to be done
before one of them is started has been done without a fault. -/
inductive Task.Starts (f d : Nat) (st : Store) : Task → Activation → Prop
  | vector {scope : ScopeId} {items : List Value} :
      Starts f d st (.evaluate scope (.list .vector items)) ⟨f, d, st, .operands scope items⟩
  | application {scope : ScopeId} {items : List Value} :
      Starts f d st (.evaluate scope (.list .plain items)) ⟨f, d, st, .application scope items⟩
  | dictionary {scope : ScopeId} {entries : List Value} :
      Starts f d st (.evaluate scope (.braces entries)) ⟨f, d, st, .dictionary scope entries⟩
  | operand {scope : ScopeId} {before after vs : List Value} {expr : Value} {st₁ : Store}
      (hbefore : each (MiniLisp.evaluate f d scope) before st = .ok vs st₁) :
      Starts f d st (.operands scope (before ++ expr :: after)) ⟨f, d, st₁, .evaluate scope expr⟩
  | form {scope : ScopeId} {word : String} {form : Form} {operands : List Value}
      (hword : Form.ofName? word = some form) :
      Starts f d st (.application scope (.symbol word :: operands))
        ⟨f, d, st, .form scope form operands⟩
  | nameOperands {scope : ScopeId} {word : String} {operands : List Value} {fn : Value}
      (hword : Form.ofName? word = none) (hfn : lookup scope word st = .ok fn st) :
      Starts f d st (.application scope (.symbol word :: operands))
        ⟨f, d, st, .operands scope operands⟩
  | nameCall {scope : ScopeId} {word : String} {operands args : List Value} {fn : Value}
      {st₁ : Store} (hword : Form.ofName? word = none) (hfn : lookup scope word st = .ok fn st)
      (hargs : evaluateAll f d scope operands st = .ok args st₁) :
      Starts f d st (.application scope (.symbol word :: operands)) ⟨f, d, st₁, .apply fn args⟩
  | head {scope : ScopeId} {items operands : List Value} :
      Starts f d st (.application scope (.list .plain items :: operands))
        ⟨f, d, st, .evaluate scope (.list .plain items)⟩
  | headOperands {scope : ScopeId} {items operands : List Value} {fn : Value} {st₁ : Store}
      (hfn : MiniLisp.evaluate f d scope (.list .plain items) st = .ok fn st₁) :
      Starts f d st (.application scope (.list .plain items :: operands))
        ⟨f, d, st₁, .operands scope operands⟩
  | headCall {scope : ScopeId} {items operands args : List Value} {fn : Value} {st₁ st₂ : Store}
      (hfn : MiniLisp.evaluate f d scope (.list .plain items) st = .ok fn st₁)
      (hargs : evaluateAll f d scope operands st₁ = .ok args st₂) :
      Starts f d st (.application scope (.list .plain items :: operands))
        ⟨f, d, st₂, .apply fn args⟩
  | entry {scope : ScopeId} {before after : List Value} {key : String} {expr : Value}
      {pairs : List (String × Value)} {st₁ : Store}
      (heven : (before ++ .atom (.text key) :: expr :: after).length % 2 = 0)
      (hbefore : eachPair f (MiniLisp.evaluate f d scope) before st = .ok pairs st₁) :
      Starts f d st (.dictionary scope (before ++ .atom (.text key) :: expr :: after))
        ⟨f, d, st₁, .evaluate scope expr⟩
  | defined {scope : ScopeId} {name : String} {expr : Value} :
      Starts f d st (.form scope .define [.symbol name, expr]) ⟨f, d, st, .evaluate scope expr⟩
  | assigned {scope : ScopeId} {name : String} {expr : Value} :
      Starts f d st (.form scope .assign [.symbol name, expr]) ⟨f, d, st, .evaluate scope expr⟩
  | sequenced {scope : ScopeId} {before after vs : List Value} {expr : Value} {st₁ : Store}
      (hbefore : each (MiniLisp.evaluate f d scope) before st = .ok vs st₁) :
      Starts f d st (.form scope .sequence (before ++ expr :: after))
        ⟨f, d, st₁, .evaluate scope expr⟩
  | condition {scope : ScopeId} {condition yes no : Value} :
      Starts f d st (.form scope .choose [condition, yes, no])
        ⟨f, d, st, .evaluate scope condition⟩
  | chosen {scope : ScopeId} {condition yes no : Value} {b : Bool} {st₁ : Store}
      (hcondition : MiniLisp.evaluate f d scope condition st = .ok (.atom (.boolean b)) st₁) :
      Starts f d st (.form scope .choose [condition, yes, no])
        ⟨f, d, st₁, .evaluate scope (if b then yes else no)⟩
  | closure {params : List String} {body : Value} {home : ScopeId} {serial : Nat}
      {args : List Value} :
      Starts f d st (.apply (.closure params body home serial) args)
        ⟨f, d, st, .closure params body home args⟩
  | body {params : List String} {body : Value} {home : ScopeId} {args : List Value} {d₁ : Nat}
      (hdepth : d = d₁ + 1) (harity : args.length = params.length) :
      Starts f d st (.closure params body home args)
        ⟨f, d₁, (st.pushEmpty (some home)).defineAll st.next (params.zip args),
          .evaluate st.next body⟩

namespace Activation

/-- An activation starts another one. -/
def Starts (a b : Activation) : Prop := ∃ f, a.frames = f + 1 ∧ a.task.Starts f a.depth a.store b

/-- An activation is part of the run of another one. -/
def Leads : Activation → Activation → Prop := ReflTransGen Starts

/-- An activation is the call of a native. -/
def Calls (a : Activation) (fn : Native) (args : List Value) : Prop :=
  0 < a.frames ∧ ∃ home, a.task = .apply (.native fn home) args

/-- An activation ends in a fault. -/
def Fails (a : Activation) (e : Fault) : Prop :=
  match a.task with
  | .evaluate scope expr => ∃ s, MiniLisp.evaluate a.frames a.depth scope expr a.store = .error e s
  | .operands scope items => ∃ s, evaluateAll a.frames a.depth scope items a.store = .error e s
  | .application scope items =>
    ∃ s, evaluateApplication a.frames a.depth scope items a.store = .error e s
  | .dictionary scope entries =>
    ∃ s, evaluateDictionary a.frames a.depth scope entries a.store = .error e s
  | .form scope form operands =>
    ∃ s, evaluateForm a.frames a.depth scope form operands a.store = .error e s
  | .apply fn args => ∃ s, MiniLisp.apply a.frames a.depth fn args a.store = .error e s
  | .closure params body home args =>
    ∃ s, applyClosure a.frames a.depth params body home args a.store = .error e s

end Activation

namespace Task

variable {f d : Nat} {st : Store} {t : Task} {b : Activation} {e : Fault}

theorem Starts.frames_eq (h : t.Starts f d st b) : b.frames = f := by
  cases h <;> rfl

/-! ### Faults go up -/

/-- A fault of an activation is the fault of the one that has started it. -/
theorem Starts.fails (h : t.Starts f d st b) (hb : b.Fails e) :
    Activation.Fails ⟨f + 1, d, st, t⟩ e := by
  cases h <;> obtain ⟨s, hs⟩ := hb <;> refine ⟨s, ?_⟩
  case vector =>
    unfold MiniLisp.evaluate
    exact EStateM.bind_of_error hs
  case application | dictionary =>
    unfold MiniLisp.evaluate
    exact hs
  case operand hbefore =>
    unfold evaluateAll
    exact each_of_error hbefore hs
  case form hword =>
    unfold evaluateApplication
    simp only [hword]
    exact hs
  case nameOperands hword hfn =>
    unfold evaluateApplication
    simp only [hword]
    rw [EStateM.bind_of_ok hfn]
    exact EStateM.bind_of_error hs
  case nameCall hword hfn hargs =>
    unfold evaluateApplication
    simp only [hword]
    rw [EStateM.bind_of_ok hfn, EStateM.bind_of_ok hargs]
    exact hs
  case head =>
    unfold evaluateApplication
    exact EStateM.bind_of_error hs
  case headOperands hfn =>
    unfold evaluateApplication
    dsimp only
    rw [EStateM.bind_of_ok hfn]
    exact EStateM.bind_of_error hs
  case headCall hfn hargs =>
    unfold evaluateApplication
    dsimp only
    rw [EStateM.bind_of_ok hfn, EStateM.bind_of_ok hargs]
    exact hs
  case entry scope before after key expr pairs st₁ heven hbefore =>
    have hlast : ((before ++ .atom (.text key) :: expr :: after).getLast?).isSome = true := by simp
    obtain ⟨last, hlast⟩ := Option.isSome_iff_exists.1 hlast
    unfold evaluateDictionary
    dsimp only
    rw [hlast]
    dsimp only
    rw [if_neg (by simpa using heven)]
    exact EStateM.bind_of_error (eachPair_of_error hbefore hs)
  case defined | assigned | condition =>
    unfold evaluateForm
    exact EStateM.bind_of_error hs
  case sequenced hbefore =>
    unfold evaluateForm
    exact (inOrder_eq_error_iff (by simp)).2 (each_of_error hbefore hs)
  case chosen hcondition =>
    unfold evaluateForm
    dsimp only
    rw [EStateM.bind_of_ok hcondition]
    exact hs
  case closure =>
    unfold MiniLisp.apply
    exact hs
  case body hdepth harity =>
    subst hdepth
    unfold applyClosure
    dsimp only
    rw [if_neg (by simpa using harity)]
    exact hs

/-! ### Faults come from below -/

/-- The values whose texts a task writes when it is taken up with `f + 1` frames: what it prints,
and what the wording of a fault of its own shows. -/
inductive Writes (f d : Nat) (st : Store) : Task → Value → Prop
  | printed {home : Nat} {v : Value} : Writes f d st (.apply (.native .print home) [v]) v
  | refusal {fn : Native} {home : Nat} {args : List Value} {e : Fault} {v : Value}
      (hcall : fn.call args = .error e) (hv : v ∈ e.shown) :
      Writes f d st (.apply (.native fn home) args) v
  | function {v : Value} {args : List Value} : Writes f d st (.apply v args) v
  | head {scope : ScopeId} {v : Value} {operands : List Value} :
      Writes f d st (.application scope (v :: operands)) v
  | key {scope : ScopeId} {entries : List Value} {v : Value} (hv : v ∈ entries) :
      Writes f d st (.dictionary scope entries) v
  | target {scope : ScopeId} {form : Form} {v expr : Value} :
      Writes f d st (.form scope form [v, expr]) v
  | condition {scope : ScopeId} {condition yes no v : Value} {st₁ : Store}
      (hcondition : MiniLisp.evaluate f d scope condition st = .ok v st₁) :
      Writes f d st (.form scope .choose [condition, yes, no]) v
  | parameters {scope : ScopeId} {list body : Value} {cause : ParamFault}
      (hparams : list.params = .error cause) :
      Writes f d st (.form scope .lambda [list, body]) cause.found

/-- Where a fault of a task comes from: it is the task's own, or a text that the task writes takes
more frames than there are, or an activation that the task has started ends in it, or the task is
the call of a native that gives it. -/
inductive Origin (f d : Nat) (st : Store) (t : Task) (e : Fault) : Prop
  | own (h : e.direct = true)
  | text {v : Value} (he : e = .textLimit) (hwrites : t.Writes f d st v) (hdeep : v.fits f = false)
  | started {b : Activation} (hstarts : t.Starts f d st b) (hfails : b.Fails e)
  | native {fn : Native} {home : Nat} {args : List Value} (ht : t = .apply (.native fn home) args)
      (hcall : fn.call args = .error e)

theorem Origin.of_refuse {α : Type} {e' : Fault} {s s' : Store}
    (h : (refuse f e' : Eval α) s = .error e s') (he : e'.direct = true)
    (hshown : ∀ v ∈ e'.shown, t.Writes f d st v) : Origin f d st t e := by
  rcases refuse_eq_error h with rfl | ⟨hlimit, v, hv, hdeep⟩
  · exact .own he
  · exact .text hlimit (hshown v hv) hdeep

section Steps

variable {scope : ScopeId} {s : Store}

theorem origin_evaluate {expr : Value}
    (h : MiniLisp.evaluate (f + 1) d scope expr st = .error e s) :
    Origin f d st (.evaluate scope expr) e := by
  unfold MiniLisp.evaluate at h
  cases expr with
  | symbol name =>
    obtain rfl := lookup_eq_error h
    exact .own rfl
  | list flavor items =>
    cases flavor with
    | plain => exact .started .application ⟨s, h⟩
    | vector =>
      rcases EStateM.bind_eq_error h with hitems | ⟨vs, st₁, -, h⟩
      · exact .started .vector ⟨s, hitems⟩
      · cases h
  | braces entries => exact .started .dictionary ⟨s, h⟩
  | _ => cases h

theorem origin_operands {items : List Value}
    (h : evaluateAll (f + 1) d scope items st = .error e s) :
    Origin f d st (.operands scope items) e := by
  unfold evaluateAll at h
  obtain ⟨before, expr, after, vs, st₁, rfl, hbefore, hexpr⟩ := each_eq_error h
  exact .started (.operand hbefore) ⟨s, hexpr⟩

theorem origin_application {items : List Value}
    (h : evaluateApplication (f + 1) d scope items st = .error e s) :
    Origin f d st (.application scope items) e := by
  unfold evaluateApplication at h
  rcases items with _ | ⟨head, operands⟩
  · cases h
    exact .own rfl
  cases head with
  | symbol word =>
    cases hword : Form.ofName? word with
    | some form =>
      simp only [hword] at h
      exact .started (.form hword) ⟨s, h⟩
    | none =>
      simp only [hword] at h
      rcases EStateM.bind_eq_error h with hfn | ⟨fn, st₁, hfn, hcall⟩
      · obtain rfl := lookup_eq_error hfn
        exact .own rfl
      · obtain ⟨-, rfl⟩ := lookup_eq_ok hfn
        rcases EStateM.bind_eq_error hcall with hargs | ⟨args, st₂, hargs, happly⟩
        · exact .started (.nameOperands hword hfn) ⟨s, hargs⟩
        · exact .started (.nameCall hword hfn hargs) ⟨s, happly⟩
  | list flavor inner =>
    cases flavor with
    | plain =>
      rcases EStateM.bind_eq_error h with hfn | ⟨fn, st₁, hfn, hcall⟩
      · exact .started .head ⟨s, hfn⟩
      · rcases EStateM.bind_eq_error hcall with hargs | ⟨args, st₂, hargs, happly⟩
        · exact .started (.headOperands hfn) ⟨s, hargs⟩
        · exact .started (.headCall hfn hargs) ⟨s, happly⟩
    | vector => exact .of_refuse h rfl (List.forall_mem_singleton.2 .head)
  | _ => exact .of_refuse h rfl (List.forall_mem_singleton.2 .head)

theorem origin_dictionary {entries : List Value}
    (h : evaluateDictionary (f + 1) d scope entries st = .error e s) :
    Origin f d st (.dictionary scope entries) e := by
  unfold evaluateDictionary at h
  cases hlast : entries.getLast? with
  | none =>
    simp only [hlast] at h
    cases h
  | some key =>
    simp only [hlast] at h
    split at h
    · exact .of_refuse h rfl (List.forall_mem_singleton.2 (.key (List.mem_of_getLast? hlast)))
    · rename_i heven
      rcases EStateM.bind_eq_error h with hpairs | ⟨pairs, st₁, -, h⟩
      · rcases eachPair_eq_error hpairs with ⟨key, hkey, e', st', he', hshown, hrefuse⟩ | hentry
        · refine .of_refuse hrefuse he' ?_
          rw [hshown]
          exact List.forall_mem_singleton.2 (.key hkey)
        · obtain ⟨before, key, expr, after, pairs, st₁, rfl, hbefore, hexpr⟩ := hentry
          exact .started (.entry (by simpa using heven) hbefore) ⟨s, hexpr⟩
      · cases h

theorem origin_form {form : Form} {operands : List Value}
    (h : evaluateForm (f + 1) d scope form operands st = .error e s) :
    Origin f d st (.form scope form operands) e := by
  unfold evaluateForm at h
  split at h
  · rcases EStateM.bind_eq_error h with hexpr | ⟨v, st₁, -, hdefine⟩
    · exact .started .defined ⟨s, hexpr⟩
    · cases hdefine
  · exact .of_refuse h rfl (List.forall_mem_singleton.2 .target)
  · rcases EStateM.bind_eq_error h with hexpr | ⟨v, st₁, -, hrest⟩
    · exact .started .assigned ⟨s, hexpr⟩
    · rcases EStateM.bind_eq_error hrest with hassign | ⟨u, st₂, -, hdone⟩
      · obtain rfl := assign_eq_error hassign
        exact .own rfl
      · cases hdone
  · exact .of_refuse h rfl (List.forall_mem_singleton.2 .target)
  · -- a sequence, which may be empty
    by_cases hne : operands = []
    · subst hne
      cases h
      exact .own rfl
    · obtain ⟨before, expr, after, vs, st₁, rfl, hbefore, hexpr⟩ :=
        each_eq_error ((inOrder_eq_error_iff hne).1 h)
      exact .started (.sequenced hbefore) ⟨s, hexpr⟩
  · rcases EStateM.bind_eq_error h with hcondition | ⟨v, st₁, hcondition, hbranch⟩
    · exact .started .condition ⟨s, hcondition⟩
    · split at hbranch
      · exact .started (.chosen hcondition) ⟨s, hbranch⟩
      · exact .of_refuse hbranch rfl (List.forall_mem_singleton.2 (.condition hcondition))
  · rename_i list body
    cases hparams : list.params with
    | ok params =>
      simp only [hparams] at h
      cases h
    | error cause =>
      simp only [hparams] at h
      exact .of_refuse h rfl (List.forall_mem_singleton.2 (.parameters hparams))
  · cases h
  · cases h
    exact .own rfl

theorem origin_apply {fn : Value} {args : List Value}
    (h : MiniLisp.apply (f + 1) d fn args st = .error e s) : Origin f d st (.apply fn args) e := by
  unfold MiniLisp.apply at h
  cases fn with
  | closure params body home serial => exact .started .closure ⟨s, h⟩
  | native fn home =>
    unfold Eval.native at h
    cases hcall : fn.call args with
    | error cause =>
      simp only [hcall] at h
      rcases refuse_eq_error h with rfl | ⟨hlimit, v, hv, hdeep⟩
      · exact .native rfl hcall
      · exact .text hlimit (.refusal hcall hv) hdeep
    | ok v =>
      simp only [hcall] at h
      split at h
      · rename_i hprint
        subst hprint
        rcases EStateM.bind_eq_error h with hwrite | ⟨u, st₁, -, hdone⟩
        · obtain ⟨hlimit, hdeep⟩ := writeLine_eq_error hwrite
          obtain rfl : args = [v] := args_of_print hcall
          exact .text hlimit .printed hdeep
        · cases hdone
      · cases h
  | _ => exact .of_refuse h rfl (List.forall_mem_singleton.2 .function)

theorem origin_closure {params : List String} {body : Value} {home : ScopeId} {args : List Value}
    (h : applyClosure (f + 1) d params body home args st = .error e s) :
    Origin f d st (.closure params body home args) e := by
  unfold applyClosure at h
  cases d with
  | zero =>
    cases h
    exact .own rfl
  | succ d =>
    dsimp only at h
    split at h
    · cases h
      exact .own rfl
    · rename_i harity
      exact .started (.body rfl (by simpa using harity)) ⟨s, h⟩

end Steps

/-- What one step can add: a fault is the task's own, or it comes from one activation below. -/
theorem origin_of_fails (h : Activation.Fails ⟨f + 1, d, st, t⟩ e) : Origin f d st t e := by
  cases t <;> obtain ⟨s, hs⟩ := h
  · exact origin_evaluate hs
  · exact origin_operands hs
  · exact origin_application hs
  · exact origin_dictionary hs
  · exact origin_form hs
  · exact origin_apply hs
  · exact origin_closure hs

end Task

namespace Activation

variable {a b : Activation} {e : Fault}

/-- Without a frame every task ends in the same fault. -/
theorem eq_frameLimit_of_fails_zero (h : a.Fails e) (hframes : a.frames = 0) :
    e = .frameLimit := by
  obtain ⟨f, d, st, t⟩ := a
  cases hframes
  cases t <;> obtain ⟨s, hs⟩ := h
  · unfold MiniLisp.evaluate at hs; cases hs; exact rfl
  · unfold evaluateAll at hs; cases hs; exact rfl
  · unfold evaluateApplication at hs; cases hs; exact rfl
  · unfold evaluateDictionary at hs; cases hs; exact rfl
  · unfold evaluateForm at hs; cases hs; exact rfl
  · unfold MiniLisp.apply at hs; cases hs; exact rfl
  · unfold applyClosure at hs; cases hs; exact rfl

/-- A fault of any activation of a run is the fault of the run. -/
theorem fails_of_leads (h : a.Leads b) (hb : b.Fails e) : a.Fails e := by
  induction h using ReflTransGen.head_induction_on with
  | refl => exact hb
  | head hstarts _ ih =>
    obtain ⟨f, hframes, hstarts⟩ := hstarts
    have hfails := hstarts.fails ih
    rw [← hframes] at hfails
    exact hfails

/-- A fault of a run is of a usual kind, or a native that was called gives it. -/
theorem traced (h : a.Fails e) :
    e.kind.usual = true ∨
      ∃ b fn args, a.Leads b ∧ b.Calls fn args ∧ fn.call args = .error e := by
  -- the fault is followed down the tree, where the frames become fewer
  obtain ⟨n, hn⟩ : ∃ n, n = a.frames := ⟨_, rfl⟩
  induction n generalizing a with
  | zero =>
    rw [eq_frameLimit_of_fails_zero h hn.symm]
    exact .inl rfl
  | succ n ih =>
    obtain ⟨f, d, st, t⟩ := a
    cases hn
    cases Task.origin_of_fails h with
    | own he => exact .inl (Fault.usual_of_direct he)
    | text he _ _ => exact .inl (he ▸ rfl)
    | started hstarts hfails =>
      refine (ih hfails hstarts.frames_eq.symm).imp_right ?_
      rintro ⟨b, fn, args, hleads, hcalls, hcall⟩
      exact ⟨b, fn, args, .head ⟨n, rfl, hstarts⟩ hleads, hcalls, hcall⟩
    | native ht hcall =>
      exact .inr ⟨_, _, _, .refl, ⟨Nat.succ_pos n, _, ht⟩, hcall⟩

end Activation

end MiniLisp
