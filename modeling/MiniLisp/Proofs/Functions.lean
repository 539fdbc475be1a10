import MiniLisp.Proofs.Activations
import MiniLisp.Proofs.Reachability
import MiniLisp.Proofs.Realm

/-!
# The functions that a run can call

A closure comes from a function in code that ran, or it was there before. So what is true of the
bodies of all functions, of those in the code of an evaluation and of those that can be reached from
its scope, is true of every body that the evaluation comes to run. The bodies of a kind are those of
a realm (`Store.realm`), and as evaluation stays in a realm (`Realm.sound`), so does every activation
that is part of it (`Realm.holds_of_leads`).
-/

namespace MiniLisp

open Eval Relation

/-! ## Functions in code -/

namespace Value

mutual

/-- The bodies of the functions in code, and of those in their bodies. Quoted data has none. -/
def functions : Value → List Value
  | .list .plain (.symbol word :: operands) =>
    match Form.ofName? word, operands with
    | some .quote, _ => []
    | some .lambda, [_, body] => body :: functions body
    | _, operands => functionsAll operands
  | .list .plain items | .list .vector items | .braces items => functionsAll items
  | _ => []

/-- The bodies of the functions in several pieces of code. -/
def functionsAll : List Value → List Value
  | [] => []
  | v :: rest => functions v ++ functionsAll rest

end

/-- The bodies of the closures in a value, and of the functions in their code. -/
def bodies (v : Value) : List Value := v.closures.flatMap fun c => c.1 :: c.1.functions

theorem forall_functionsAll {vs : List Value} {p : Value → Prop} :
    (∀ body ∈ functionsAll vs, p body) ↔ ∀ v ∈ vs, ∀ body ∈ v.functions, p body := by
  induction vs with
  | nil => simp [functionsAll]
  | cons v vs ih => rw [functionsAll, List.forall_mem_append, List.forall_mem_cons, ih]

theorem functions_application {head vs : List Value} :
    (list .plain (.list .plain head :: vs)).functions =
      functionsAll (.list .plain head :: vs) := by
  simp [functions]

theorem functions_operands {word : String} {operands : List Value}
    (hquote : Form.ofName? word ≠ some .quote) (hlambda : Form.ofName? word ≠ some .lambda) :
    (list .plain (.symbol word :: operands)).functions = functionsAll operands := by
  simp [functions, hlambda]

theorem functions_lambda {word : String} {params body : Value}
    (hword : Form.ofName? word = some .lambda) :
    (list .plain [.symbol word, params, body]).functions = body :: body.functions := by
  simp [functions, hword]

end Value

/-! ## Activations in a realm -/

namespace Realm

variable (r : Realm)

/-- A task whose code, functions and arguments are of the realm. -/
def Accepts : Task → Prop
  | .evaluate scope expr => r.sight scope ∧ r.AdmitsCode expr
  | .operands scope items => r.sight scope ∧ ∀ e ∈ items, r.AdmitsCode e
  | .application scope items => r.sight scope ∧ r.AdmitsCode (.list .plain items)
  | .dictionary scope entries => r.sight scope ∧ r.AdmitsCode (.braces entries)
  | .form scope form operands =>
    r.sight scope ∧ r.AdmitsCode (.list .plain (.symbol form.name :: operands))
  | .apply fn args => r.Admits fn ∧ ∀ v ∈ args, r.Admits v
  | .closure _ body home args =>
    r.sight home ∧ r.callable body ∧ r.Admits body ∧ ∀ v ∈ args, r.Admits v

/-- An activation in the realm. -/
structure Holds (a : Activation) : Prop where
  task : r.Accepts a.task
  store : r.AdmitsStore a.store

variable {r} {scope : ScopeId} {st : Store}

/-- An expression that comes after others. -/
theorem holds_of_each {f d : Nat} {before after vs : List Value} {expr : Value} {st₁ : Store}
    (hst : r.AdmitsStore st) (hscope : r.sight scope)
    (hes : ∀ e ∈ before ++ expr :: after, r.AdmitsCode e)
    (hbefore : each (evaluate f d scope) before st = .ok vs st₁) :
    r.Holds ⟨f, d, st₁, .evaluate scope expr⟩ := by
  obtain ⟨hcode, hrest⟩ := List.forall_mem_append.1 hes
  exact ⟨⟨hscope, hrest expr List.mem_cons_self⟩,
    ((Respects.each (respects_each (sound f) hscope hcode)).of_ok hst hbefore).1⟩

/-- What a task starts is in the realm: what was done before has not left it. -/
theorem holds_of_starts {f d : Nat} {t : Task} {b : Activation} (ht : r.Accepts t)
    (hst : r.AdmitsStore st) (h : t.Starts f d st b) : r.Holds b := by
  have hsound : r.Sound f := sound f
  cases h with
  | vector => exact ⟨⟨ht.1, ht.2.vector⟩, hst⟩
  | application => exact ⟨ht, hst⟩
  | dictionary => exact ⟨ht, hst⟩
  | operand hbefore => exact holds_of_each hst ht.1 ht.2 hbefore
  | form hword =>
    obtain rfl := Form.name_of_ofName? hword
    exact ⟨ht, hst⟩
  | nameOperands hword hfn =>
    exact ⟨⟨ht.1, ht.2.operands (by simp [hword]) (by simp [hword])⟩, hst⟩
  | nameCall hword hfn hargs =>
    have hoperands := ht.2.operands (by simp [hword]) (by simp [hword])
    obtain ⟨hget, -⟩ := lookup_eq_ok hfn
    have hadmits := hst.get? ht.1 hget
    obtain ⟨hst₁, hvalues⟩ := (hsound.all ht.1 hoperands).of_ok hst hargs
    exact ⟨⟨hadmits, hvalues⟩, hst₁⟩
  | head => exact ⟨⟨ht.1, ht.2.application.1⟩, hst⟩
  | headOperands hfn =>
    obtain ⟨hhead, hoperands⟩ := ht.2.application
    obtain ⟨hst₁, -⟩ := (hsound.evaluate ht.1 hhead).of_ok hst hfn
    exact ⟨⟨ht.1, hoperands⟩, hst₁⟩
  | headCall hfn hargs =>
    obtain ⟨hhead, hoperands⟩ := ht.2.application
    obtain ⟨hst₁, hadmits⟩ := (hsound.evaluate ht.1 hhead).of_ok hst hfn
    obtain ⟨hst₂, hvalues⟩ := (hsound.all ht.1 hoperands).of_ok hst₁ hargs
    exact ⟨⟨hadmits, hvalues⟩, hst₂⟩
  | entry heven hbefore =>
    obtain ⟨hcode, hrest⟩ := List.forall_mem_append.1 ht.2.braces
    have hstore := (Respects.eachPair (respects_each hsound ht.1 hcode)).of_ok hst hbefore
    exact ⟨⟨ht.1, hrest _ (by simp)⟩, hstore.1⟩
  | defined => exact ⟨⟨ht.1, ht.2.parts (by decide) (by decide) _ (by simp)⟩, hst⟩
  | assigned => exact ⟨⟨ht.1, ht.2.parts (by decide) (by decide) _ (by simp)⟩, hst⟩
  | sequenced hbefore =>
    exact holds_of_each hst ht.1 (ht.2.parts (by decide) (by decide)) hbefore
  | condition => exact ⟨⟨ht.1, ht.2.parts (by decide) (by decide) _ (by simp)⟩, hst⟩
  | @chosen scope condition yes no b st₁ hcondition =>
    have hparts := ht.2.parts (by decide) (by decide)
    obtain ⟨hst₁, -⟩ := (hsound.evaluate ht.1 (hparts condition (by simp))).of_ok hst hcondition
    exact ⟨⟨ht.1, hparts (if b then yes else no) (by cases b <;> simp)⟩, hst₁⟩
  | closure =>
    obtain ⟨hhome, hcallable, hbody⟩ := admits_closure.1 ht.1
    exact ⟨⟨hhome, hcallable, hbody, ht.2⟩, hst⟩
  | body hdepth harity =>
    obtain ⟨hhome, hcallable, hbody, hargs⟩ := ht
    exact ⟨⟨r.fresh hst.base_le, .of_callable hcallable hbody⟩, hst.enter hhome hargs⟩

/-- All of a run is in the realm. -/
theorem holds_of_leads {a b : Activation} (ha : r.Holds a) (h : a.Leads b) : r.Holds b := by
  induction h with
  | refl => exact ha
  | tail _ hstarts ih =>
    obtain ⟨f, -, hstarts⟩ := hstarts
    exact holds_of_starts ih.task ih.store hstarts

end Realm

namespace Store

variable (st : Store) (scope : ScopeId) (expr : Value) (kind : Value → Prop)

/-- The realm of an evaluation: what can be reached from its scope and its expression, and bodies of
a kind with functions of the kind in them. -/
def realm : Realm where
  sight id := st.Reachable (roots scope expr) id ∨ st.next ≤ id
  base := st.next
  fresh := .inr
  code e := ∀ body ∈ e.functions, kind body
  callable body := kind body ∧ ∀ inner ∈ body.functions, kind inner
  assignable _ := True
  vector h := Value.forall_functionsAll.1 (by rwa [Value.functions] at h)
  braces h := Value.forall_functionsAll.1 (by rwa [Value.functions] at h)
  application {head vs} h := by
    rw [Value.functions_application, Value.forall_functionsAll] at h
    exact List.forall_mem_cons.1 h
  operands h hquote hlambda := by
    rwa [Value.functions_operands hquote hlambda, Value.forall_functionsAll] at h
  function h hword := by
    rw [Value.functions_lambda hword] at h
    exact List.forall_mem_cons.1 h
  assigned _ _ := trivial
  called h := h.2

variable {st scope expr kind}

theorem admits_realm {v : Value} (hv : Within (st.Reachable (roots scope expr)) v)
    (hbodies : ∀ body ∈ v.bodies, kind body) : (st.realm scope expr kind).Admits v := by
  intro c hc
  refine ⟨.inl (hv c.2 ?_), List.forall_mem_cons.1 fun body hbody =>
    hbodies body (List.mem_flatMap.2 ⟨c, hc, hbody⟩)⟩
  show c.2 ∈ v.captured
  rw [← v.map_closures]
  exact List.mem_map_of_mem hc

/-- An evaluation begins in its realm if the bodies in its code and in what it can reach are of the
kind. -/
theorem holds_realm (hcode : ∀ body ∈ expr.functions ++ expr.bodies, kind body)
    (hheap : ∀ id name v, st.Reachable (roots scope expr) id → st.valueAt? id name = some v →
      ∀ body ∈ v.bodies, kind body) (f d : Nat) :
    (st.realm scope expr kind).Holds ⟨f, d, st, .evaluate scope expr⟩ := by
  have hclosed := st.closed_reachable (roots scope expr)
  have hold {id : ScopeId} {s : Scope} (hid : (st.realm scope expr kind).sight id)
      (hs : st.scopes[id]? = some s) : st.Reachable (roots scope expr) id := by
    refine hid.resolve_right fun hnew => ?_
    exact absurd (Array.getElem?_eq_some_iff.1 hs).1 (Nat.not_lt.2 hnew)
  obtain ⟨hmade, hbodies⟩ := List.forall_mem_append.1 hcode
  refine ⟨⟨.inl (.root List.mem_cons_self), admits_realm ?_ hbodies, hmade⟩,
    ⟨Nat.le_refl _, fun id s p hid hs hp => ?_, fun id name v hid hv => ?_⟩⟩
  · exact fun id hid => .root (List.mem_cons_of_mem _ hid)
  · exact .inl ((within_scope_iff.1 (hclosed id s (hold hid hs) hs)).1 p hp)
  · obtain ⟨s, hs, -⟩ := Option.bind_eq_some_iff.1 hv
    have hreach := hold hid hs
    exact admits_realm (hclosed.within_valueAt? hreach hv) (hheap id name v hreach hv)

end Store

end MiniLisp
