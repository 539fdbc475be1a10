import MiniLisp.Proofs.Reachability
import MiniLisp.Proofs.Syntax
import MiniLisp.Session

/-!
# Evaluations leave alone what they cannot reach

The scopes that an evaluation cannot reach are the same afterwards, and it gains no access to them
(`Store.evaluate_frame`). Interpreters that are made together can reach no scope in common, and
source texts refer to no scope, so it stays that way whatever the interpreters evaluate
(`Interpreter.Hosted.apart`).
-/

namespace MiniLisp

/-! ## Source texts -/

namespace Value

mutual

theorem captured_of_wellRead : (v : Value) → v.wellRead = true → v.captured = []
  | .atom _, _ | .symbol _, _ => by rw [captured] <;> nofun
  | .list .plain (v :: vs), h => by
    rw [wellRead] at h
    · exact capturedAll_of_wellReadAll (v :: vs) h
    · nofun
  | .list .vector vs, h => by
    rw [wellRead] at h
    · exact capturedAll_of_wellReadAll vs h
    · nofun
  | .braces vs, h => by
    rw [wellRead] at h
    exact capturedAll_of_wellReadAll vs h

theorem capturedAll_of_wellReadAll :
    (vs : List Value) → wellReadAll vs = true → capturedAll vs = []
  | [], _ => rfl
  | v :: vs, h => by
    rw [wellReadAll, Bool.and_eq_true] at h
    rw [capturedAll, captured_of_wellRead v h.1, capturedAll_of_wellReadAll vs h.2,
      List.nil_append]

end

end Value

/-! ## Interpreters -/

namespace Interpreter

open Store

/-- The stores of interpreters that were made together and have evaluated source texts since. -/
inductive Hosted (interpreters : List Interpreter) : Store → Prop
  | made {count : Nat} {shared : Bool} {st : Store} (h : make count shared = (interpreters, st)) :
      Hosted interpreters st
  | ran {st : Store} {i : Interpreter} (h : Hosted interpreters st) (hi : i ∈ interpreters)
      (settings : Settings) (source : String) :
      Hosted interpreters (st.runSource settings i.root source).2

/-- No two interpreters can reach a scope in common. -/
structure Apart (interpreters : List Interpreter) (st : Store) : Prop where
  lt_next : ∀ i ∈ interpreters, ∀ id, st.Reachable [i.root] id → id < st.next
  disjoint : ∀ i ∈ interpreters, ∀ j ∈ interpreters, i.root ≠ j.root →
    ∀ id, st.Reachable [i.root] id → ¬st.Reachable [j.root] id

theorem capturedPairs_nativeBindings (home : Nat) :
    Value.capturedPairs (nativeBindings home) = [] := by
  unfold nativeBindings
  induction Native.all with
  | nil => rfl
  | cons fn fns ih => exact ih

theorem scopes_foldl_pushGlobal (homes : List Nat) (st : Store) :
    (homes.foldl pushGlobal st).scopes.toList =
      st.scopes.toList ++
        homes.map fun home => { parent := none, bindings := nativeBindings home } := by
  induction homes generalizing st with
  | nil => simp
  | cons home homes ih => simp [ih, pushGlobal, push]

/-- Global scopes refer to no scope, so nothing but themselves can be reached from them. -/
theorem eq_of_reachable_global {homes : List Nat} {root id : ScopeId}
    (h : (homes.foldl pushGlobal {}).Reachable [root] id) : id = root := by
  refine h.of_closed (p := (· = root)) (fun id s _ hs => ?_) (by simp)
  have hmem : s ∈ (homes.foldl pushGlobal {}).scopes.toList :=
    Array.mem_toList_iff.2 (Array.mem_of_getElem? hs)
  rw [scopes_foldl_pushGlobal] at hmem
  obtain ⟨home, -, rfl⟩ := List.mem_map.1 hmem
  refine within_scope_iff.2 ⟨nofun, fun q hq => ?_⟩
  change q ∈ Value.capturedPairs (nativeBindings home) at hq
  rw [capturedPairs_nativeBindings] at hq
  cases hq

theorem apart_of_make {count : Nat} {shared : Bool} {interpreters : List Interpreter} {st : Store}
    (h : make count shared = (interpreters, st)) : Apart interpreters st := by
  obtain ⟨rfl, rfl⟩ := Prod.mk.inj h
  constructor
  · intro i hi id hid
    rw [eq_of_reachable_global hid]
    obtain ⟨⟨home, root⟩, hmem, rfl⟩ := List.mem_map.1 hi
    have hlt := (List.mem_zipIdx hmem).2.1
    have hsize := congrArg List.length (scopes_foldl_pushGlobal
      ((List.range count).map fun i => if shared then 0 else i) {})
    simp only [Array.length_toList, List.length_append, List.length_map] at hsize hlt
    unfold next
    rw [hsize]
    exact Nat.lt_of_lt_of_eq hlt (by simp)
  · intro i _ j _ hne id hid hid'
    exact hne ((eq_of_reachable_global hid).symm.trans (eq_of_reachable_global hid'))

/-- A source text refers to no scope, so its evaluation can only reach what its own scope can. -/
theorem twins_runSource (st : Store) (settings : Settings) (scope : ScopeId) (source : String) :
    Twins st st [scope] (st.runSource settings scope source).2
      (st.runSource settings scope source).2 := by
  unfold runSource
  cases hread : readSource source with
  | error e => exact .refl rfl fun _ _ => rfl
  | ok expr =>
    have hroots : roots scope expr = [scope] := by
      rw [roots, Value.captured_of_wellRead expr (wellRead_of_readSource hread)]
    have htwins := (st.twins_evaluate_self settings.callDepth scope expr).1
    rw [hroots] at htwins
    dsimp only
    unfold run
    generalize st.evaluate settings.callDepth scope expr = r at htwins
    cases r <;> exact htwins

section Step

variable {interpreters : List Interpreter} {st : Store} {i j : Interpreter} {id : ScopeId}
  (h : Apart interpreters st) (hi : i ∈ interpreters) (settings : Settings) (source : String)
include h hi

/-- What another interpreter can reach is as it was. -/
theorem Apart.kept (hj : j ∈ interpreters) (hne : j.root ≠ i.root)
    (hid : st.Reachable [j.root] id) :
    (st.runSource settings i.root source).2.scopes[id]? = st.scopes[id]? :=
  (twins_runSource st settings i.root source).kept id (h.lt_next j hj id hid)
    (h.disjoint j hj i hi hne id hid)

/-- What an interpreter can reach after an evaluation it could reach before, or it is new and the
evaluation was its own. -/
theorem Apart.reachable_cases (hj : j ∈ interpreters)
    (hid : (st.runSource settings i.root source).2.Reachable [j.root] id) :
    st.Reachable [j.root] id ∨ j.root = i.root ∧ st.next ≤ id ∧
      id < (st.runSource settings i.root source).2.next := by
  by_cases hne : j.root = i.root
  · rw [hne] at hid ⊢
    have htwins := twins_runSource st settings i.root source
    have hsight := hid.of_closed htwins.closed fun q hq => .inl (.root hq)
    exact hsight.imp_right fun hnew => ⟨rfl, hnew⟩
  · exact .inl (reachable_congr (fun q hq => h.kept hi settings source hj hne hq) hid)

theorem Apart.runSource : Apart interpreters (st.runSource settings i.root source).2 := by
  have hle := (twins_runSource st settings i.root source).next_le
  constructor
  · intro j hj id hid
    rcases h.reachable_cases hi settings source hj hid with hold | hnew
    · exact Nat.lt_of_lt_of_le (h.lt_next j hj id hold) hle
    · exact hnew.2.2
  · intro j hj k hk hne id hid hid'
    rcases h.reachable_cases hi settings source hj hid with hold | hnew <;>
      rcases h.reachable_cases hi settings source hk hid' with hold' | hnew'
    · exact h.disjoint j hj k hk hne id hold hold'
    · exact Nat.not_lt.2 hnew'.2.1 (h.lt_next j hj id hold)
    · exact Nat.not_lt.2 hnew.2.1 (h.lt_next k hk id hold')
    · exact hne (hnew.1.trans hnew'.1.symm)

end Step

theorem Hosted.apart {interpreters : List Interpreter} {st : Store} (h : Hosted interpreters st) :
    Apart interpreters st := by
  induction h with
  | made h => exact apart_of_make h
  | ran _ hi settings source ih => exact ih.runSource hi settings source

end Interpreter

namespace Store

/-- An evaluation touches only what it can reach, whether it ends in a value or in a fault: all
other scopes stay as they were, and what can be reached afterwards from its scope, from its
expression or from its value could be reached before or is new. So no evaluation in one interpreter
changes what another one can reach. -/
theorem evaluate_frame (st : Store) (depth : Nat) (scope : ScopeId) (expr : Value) :
    let r : Outcome Value := st.evaluate depth scope expr
    (∀ id, id < st.next → ¬st.Reachable (roots scope expr) id →
        r.store.scopes[id]? = st.scopes[id]?) ∧
      (∀ id, r.store.Reachable (roots scope expr ++ r.scopes) id →
        st.Reachable (roots scope expr) id ∨ st.next ≤ id ∧ id < r.store.next) ∧
      ∀ interpreters, Interpreter.Hosted interpreters st →
        ∀ i ∈ interpreters, ∀ j ∈ interpreters, j.root ≠ i.root →
          ∀ settings source id, st.Reachable [j.root] id →
            (st.runSource settings i.root source).2.scopes[id]? = st.scopes[id]? := by
  obtain ⟨htwins, hsight⟩ := st.twins_evaluate_self depth scope expr
  refine ⟨htwins.kept, fun id hid => hid.of_closed htwins.closed hsight, ?_⟩
  intro interpreters hhosted i hi j hj hne settings source id hid
  exact hhosted.apart.kept hi settings source hj hne hid

theorem evaluate_frame_siblings :
    (¬(siblings true).Reachable (roots 1 siblingCall) 3 ∧
        (Outcome.store ((siblings true).evaluate 1 1 siblingCall)).scopes[3]? =
          (siblings true).scopes[3]?) ∧
      let st := (Interpreter.make 2 true).2
      (st.runSource { callDepth := 1 } 0 "(do (def x add) (set add 1))").2.scopes[1]? =
        st.scopes[1]? := by
  have hapart : ¬(siblings true).Reachable (roots 1 siblingCall) 3 := fun h =>
    absurd (reachable_siblings h) (by decide)
  have hkept := (evaluate_frame (siblings true) 1 1 siblingCall).1 3 (by decide) hapart
  have hother := (evaluate_frame (Interpreter.make 2 true).2 1 0 .nothing).2.2 _ (.made rfl)
    ⟨0, 0⟩ (.head _) ⟨1, 0⟩ (.tail _ (.head _)) (by decide)
  exact ⟨⟨hapart, hkept⟩, hother { callDepth := 1 } _ 1 (.root (by decide))⟩

end Store

end MiniLisp
