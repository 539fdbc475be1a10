import MiniLisp.Evaluator
import MiniLisp.Proofs.Store

/-!
# What is seen from where

A name has the value that the nearest scope gives it. `Store.Unshadowed` says this without the
search for it: a scope is on the way outwards from another one, and no scope nearer to that one
binds the name. So a definition is seen from exactly the scopes that its own scope is unshadowed
for, and an assignment is a definition in the one unshadowed scope that binds the name
(`Store.visibility_of_built`).
-/

namespace MiniLisp

namespace Store

/-! ## The way outwards -/

/-- The scope `s` is on the way outwards from `t`, and no scope nearer to `t` binds the name. -/
inductive Unshadowed (st : Store) (name : String) (s : ScopeId) : ScopeId → Prop
  | here : Unshadowed st name s s
  | outwards {t p : ScopeId} {scope : Scope} (ht : st.scopes[t]? = some scope)
      (hp : scope.parent = some p) (hfree : st.binds t name = false)
      (h : Unshadowed st name s p) : Unshadowed st name s t

/-- The scopes from one scope outwards, up to a scope with none around it. -/
inductive Outwards (st : Store) : ScopeId → List ScopeId → Prop
  | root {id : ScopeId} {s : Scope} (hs : st.scopes[id]? = some s) (hp : s.parent = none) :
      Outwards st id [id]
  | inner {id p : ScopeId} {s : Scope} {ids : List ScopeId} (hs : st.scopes[id]? = some s)
      (hp : s.parent = some p) (h : Outwards st p ids) : Outwards st id (id :: ids)

variable {st : Store} {name : String} {v : Value} {s t o : ScopeId}

/-- Where every scope was made after the scope around it, each chain is the whole way outwards. -/
theorem outwards_chain (h : st.Nested) (id : Nat) (hid : id < st.next) :
    st.Outwards id (st.chain id) := by
  induction id using Nat.strongRecOn with
  | _ id ih =>
    obtain ⟨scope, hscope⟩ : ∃ scope, st.scopes[id]? = some scope :=
      ⟨_, Array.getElem?_eq_getElem hid⟩
    cases hp : scope.parent with
    | none =>
      rw [chain_root hscope hp]
      exact .root hscope hp
    | some p =>
      have hlt : p < id := h id scope p hscope hp
      rw [chain_cons h hscope hp]
      exact .inner hscope hp (ih p hlt (Nat.lt_trans hlt hid))

theorem exists_of_binds (h : st.binds o name = true) : ∃ scope, st.scopes[o]? = some scope := by
  unfold binds at h
  cases hs : st.scopes[o]? with
  | none => simp [hs] at h
  | some scope => exact ⟨scope, rfl⟩

theorem lt_next_of_binds (h : st.binds o name = true) : o < st.next := by
  obtain ⟨scope, hs⟩ := exists_of_binds h
  exact (Array.getElem?_eq_some_iff.1 hs).1

/-- Where a name is not bound in a scope, what is unshadowed there is so for the scope around. -/
theorem unshadowed_iff_parent {scope : Scope} {p : ScopeId} (ht : st.scopes[t]? = some scope)
    (hp : scope.parent = some p) (hne : s ≠ t) :
    st.Unshadowed name s t ↔ st.binds t name = false ∧ st.Unshadowed name s p := by
  constructor
  · intro hs
    cases hs with
    | here => exact absurd rfl hne
    | outwards ht' hp' hfree h =>
      rw [ht] at ht'
      cases ht'
      rw [hp] at hp'
      cases hp'
      exact ⟨hfree, h⟩
  · intro hs
    exact .outwards ht hp hs.1 hs.2

/-- The owner of a name is the unshadowed scope that binds it. -/
theorem owner?_eq_some_iff (h : st.Nested) (t : Nat) :
    st.owner? t name = some o ↔ st.Unshadowed name o t ∧ st.binds o name = true := by
  induction t using Nat.strongRecOn with
  | _ t ih =>
    cases ht : st.scopes[t]? with
    | none =>
      have hnone : st.owner? t name = none := by simp [owner?, chain, chainUpTo, ht]
      rw [hnone]
      constructor
      · rintro ⟨⟩
      · rintro ⟨hs, hb⟩
        cases hs with
        | here =>
          obtain ⟨scope, hscope⟩ := exists_of_binds hb
          simp [ht] at hscope
        | outwards ht' => simp [ht] at ht'
    | some scope =>
      by_cases hb : st.binds t name = true
      · -- the scope itself binds the name and hides all scopes around it
        have hown : st.owner? t name = some t := by
          cases hp : scope.parent with
          | none => rw [owner?_root ht hp, if_pos hb]
          | some p => rw [owner?_cons h ht hp, if_pos hb]
        rw [hown]
        constructor
        · rintro ⟨⟩
          exact ⟨.here, hb⟩
        · rintro ⟨hs, -⟩
          cases hs with
          | here => rfl
          | outwards _ _ hfree => simp [hb] at hfree
      · have hfree : st.binds t name = false := by simpa using hb
        have hne (ho : st.binds o name = true) : o ≠ t := by
          rintro rfl
          exact hb ho
        cases hp : scope.parent with
        | none =>
          rw [owner?_root ht hp, if_neg hb]
          constructor
          · rintro ⟨⟩
          · rintro ⟨hs, ho⟩
            cases hs with
            | here => exact absurd rfl (hne ho)
            | outwards ht' hp' =>
              rw [ht] at ht'
              cases ht'
              simp [hp] at hp'
        | some p =>
          rw [owner?_cons h ht hp, if_neg hb, ih p (h t scope p ht hp)]
          constructor
          · rintro ⟨hs, ho⟩
            exact ⟨.outwards ht hp hfree hs, ho⟩
          · rintro ⟨hs, ho⟩
            exact ⟨((unshadowed_iff_parent ht hp (hne ho)).1 hs).2, ho⟩

/-! ## Definitions -/

theorem get?_of_binds {w : Value} (hw : st.valueAt? t name = some w) :
    st.get? t name = some w := by
  have hb : st.binds t name = true := by rw [binds_eq, hw]; rfl
  obtain ⟨scope, hscope⟩ := exists_of_binds hb
  unfold get? owner? chain chainUpTo
  rw [hscope]
  cases hp : scope.parent <;> simp [hp, hb, hw]

/-- A definition is seen where its scope is unshadowed. -/
theorem get?_define_of_unshadowed (h : st.Nested) (hs : s < st.next)
    (ht : st.Unshadowed name s t) : (st.define s name v).get? t name = some v := by
  have hnested := nested_define h s name v
  have hhere : (st.define s name v).valueAt? s name = some v := by
    rw [valueAt?_define, if_pos ⟨rfl, rfl, hs⟩]
  induction ht with
  | here => exact get?_of_binds hhere
  | @outwards t p scope ht hp hfree _ ih =>
    by_cases hst : t = s
    · rw [hst]
      exact get?_of_binds hhere
    · have hscope : (st.define s name v).scopes[t]? = some scope := by
        rw [scopes_define, if_neg (Ne.symm hst), ht]
      have hnone : (st.define s name v).valueAt? t name = none := by
        rw [valueAt?_define, if_neg fun hc => hst hc.1]
        simpa [binds_eq] using hfree
      rw [get?_eq hnested hscope, hnone, hp]
      exact ih

/-- From everywhere else a definition is not seen. -/
theorem get?_define_of_not_unshadowed (h : st.Nested) (t : Nat)
    (ht : ¬st.Unshadowed name s t) : (st.define s name v).get? t name = st.get? t name := by
  have hnested := nested_define h s name v
  induction t using Nat.strongRecOn with
  | _ t ih =>
    have hne : t ≠ s := by
      rintro rfl
      exact ht .here
    have hsame : (st.define s name v).scopes[t]? = st.scopes[t]? := by
      rw [scopes_define, if_neg (Ne.symm hne)]
    have hvalue : (st.define s name v).valueAt? t name = st.valueAt? t name := by
      rw [valueAt?_define, if_neg fun hc => hne hc.1]
    cases hscope : st.scopes[t]? with
    | none => rw [get?_of_none hscope, get?_of_none (hsame.trans hscope)]
    | some scope =>
      rw [get?_eq h hscope, get?_eq hnested (hsame.trans hscope), hvalue]
      cases hv : st.valueAt? t name with
      | some w => rfl
      | none =>
        cases hp : scope.parent with
        | none => rfl
        | some p =>
          have hfree : st.binds t name = false := by rw [binds_eq, hv]; rfl
          exact ih p (h t scope p hscope hp) fun hs => ht (.outwards hscope hp hfree hs)

/-- A definition of a bound name binds nothing new. -/
theorem binds_define_of_binds (ho : st.binds o name = true) (id : ScopeId) (m : String) :
    (st.define o name v).binds id m = st.binds id m := by
  rw [binds_eq, binds_eq, valueAt?_define]
  split
  · rename_i hc
    rw [hc.1, hc.2.1, ← binds_eq, ho]
    rfl
  · rfl

/-! ## Stores that are built step by step -/

/-- The stores that come about by making scopes, each inside a scope that is there or inside none,
by binding names in them, one, several, or where they are bound, and by making closures in them. -/
inductive Built : Store → Prop
  | empty : Built {}
  | push {st : Store} {parent : Option ScopeId} (h : Built st)
      (hparent : ∀ p, parent = some p → p < st.next) : Built (st.pushEmpty parent)
  | define {st : Store} (h : Built st) (id : ScopeId) (name : String) (v : Value) :
      Built (st.define id name v)
  | update {st : Store} (h : Built st) (id : ScopeId) (pairs : List (String × Value)) :
      Built (st.defineAll id pairs)
  | assign {st st' : Store} {id : ScopeId} {name : String} {v : Value} (h : Built st)
      (hassign : st.assign? id name v = some st') : Built st'
  | make {st : Store} (h : Built st) (id : ScopeId) : Built (st.mint id)

theorem nested_pushEmpty (h : st.Nested) {parent : Option ScopeId}
    (hparent : ∀ p, parent = some p → p < st.next) : (st.pushEmpty parent).Nested := by
  intro id scope p hscope hp
  rw [pushEmpty, scopes_push] at hscope
  split at hscope
  · rename_i hid
    cases hscope
    rw [hid]
    exact hparent p hp
  · exact h id scope p hscope hp

theorem nested_defineAll (h : st.Nested) (id : ScopeId) (pairs : List (String × Value)) :
    (st.defineAll id pairs).Nested := by
  induction pairs generalizing st with
  | nil => exact h
  | cons pair pairs ih => exact ih (nested_define h id pair.1 pair.2)

theorem Built.nested (h : st.Built) : st.Nested := by
  induction h with
  | empty => intro id scope p hscope; simp at hscope
  | push _ hparent ih => exact nested_pushEmpty ih hparent
  | define _ id name v ih => exact nested_define ih id name v
  | update _ id pairs ih => exact nested_defineAll ih id pairs
  | assign _ hassign ih =>
    obtain ⟨o, -, rfl⟩ := Option.map_eq_some_iff.1 hassign
    exact nested_define ih o _ _
  | make _ id ih => exact nested_mint ih id

end Store

theorem rebind_of_not_mem {name : String} {v : Value} {bindings : List (String × Value)}
    (h : name ∉ bindings.map Prod.fst) : rebind name v bindings = bindings ++ [(name, v)] := by
  induction bindings with
  | nil => rfl
  | cons b rest ih =>
    rw [List.map_cons, List.mem_cons, not_or] at h
    rw [rebind, if_neg (Ne.symm h.1), ih h.2, List.cons_append]

namespace Store

variable {st : Store}

/-- Distinct names that a new scope is given one after the other stand in it in that order. -/
theorem defineAll_push {parent : Option ScopeId} {before pairs : List (String × Value)}
    (h : ((before ++ pairs).map Prod.fst).Nodup) :
    (st.push { parent, bindings := before }).defineAll st.next pairs =
      st.push { parent, bindings := before ++ pairs } := by
  induction pairs generalizing before with
  | nil => rw [List.append_nil]; rfl
  | cons pair pairs ih =>
    have hnew : pair.1 ∉ before.map Prod.fst := by
      rw [List.map_append, List.map_cons] at h
      exact fun hmem => (List.nodup_append.1 h).2.2 _ hmem _ List.mem_cons_self rfl
    have hscopes : ((st.push { parent, bindings := before }).define st.next pair.1 pair.2).scopes =
        (st.push { parent, bindings := before ++ [pair] }).scopes := by
      refine Array.ext_getElem? fun q => ?_
      rw [scopes_define, scopes_push, scopes_push]
      by_cases hq : q = st.next
      · simp [hq, Scope.define, rebind_of_not_mem hnew]
      · simp [hq, Ne.symm hq]
    have hstep : (st.push { parent, bindings := before }).define st.next pair.1 pair.2 =
        st.push { parent, bindings := before ++ [pair] } := congrArg (Store.mk · st.output) hscopes
    change ((st.push { parent, bindings := before }).define st.next pair.1 pair.2).defineAll st.next
      pairs = _
    rw [hstep, ih (by simpa using h), List.append_assoc, List.singleton_append]

/-- A global scope is an empty scope in which the natives are bound. -/
theorem built_pushGlobal (h : st.Built) (home : Nat) : (st.pushGlobal home).Built := by
  have hnodup : ((nativeBindings home).map Prod.fst).Nodup := by
    rw [nativeBindings, List.map_map]
    change (Native.all.map Native.name).Nodup
    decide
  have hscope : (st.pushEmpty none).Built := h.push nofun
  have heq : (st.pushEmpty none).defineAll st.next (nativeBindings home) = st.pushGlobal home :=
    defineAll_push hnodup
  rw [← heq]
  exact hscope.update st.next (nativeBindings home)

/-- What a definition changes, and what an assignment is. After a definition in `s`, the name has
the new value seen from the scopes for which `s` is unshadowed, and all else has the value that it
had. An assignment is a definition in the unshadowed scope that binds the name, so that every scope
binds the names that it bound; where there is none it is a fault, and the store is as it was. -/
theorem visibility_of_built (h : st.Built) {s : ScopeId} (hs : s < st.next) (name : String)
    (v : Value) :
    (∀ t m,
        (m = name ∧ st.Unshadowed name s t → (st.define s name v).get? t m = some v) ∧
          (¬(m = name ∧ st.Unshadowed name s t) →
            (st.define s name v).get? t m = st.get? t m)) ∧
      (∀ o, st.Unshadowed name o s → st.binds o name = true →
        Eval.assign s name v st = .ok () (st.define o name v) ∧
          ∀ id m, (st.define o name v).binds id m = st.binds id m) ∧
      ((∀ o, st.Unshadowed name o s → st.binds o name = false) →
        Eval.assign s name v st = .error (.unboundTarget name) st) := by
  have hnested := h.nested
  refine ⟨fun t m => ⟨?_, ?_⟩, fun o ho hb => ⟨?_, binds_define_of_binds hb⟩, fun hnone => ?_⟩
  · rintro ⟨rfl, ht⟩
    exact get?_define_of_unshadowed hnested hs ht
  · intro hne
    by_cases hm : m = name
    · subst hm
      exact get?_define_of_not_unshadowed hnested t fun ht => hne ⟨rfl, ht⟩
    · exact get?_define_of_ne hnested hm
  · unfold Eval.assign assign?
    rw [(owner?_eq_some_iff hnested s).2 ⟨ho, hb⟩]
    rfl
  · have howner : st.owner? s name = none := by
      refine Option.eq_none_iff_forall_not_mem.2 fun o ho => ?_
      obtain ⟨hsight, hb⟩ := (owner?_eq_some_iff hnested s).1 ho
      simp [hnone o hsight] at hb
    unfold Eval.assign assign?
    rw [howner]
    rfl

/-- A scope in the global scope with another one in it, and a third beside it. -/
def family : Store :=
  (((pushGlobal {} 0).pushEmpty (some 0)).pushEmpty (some 1)).pushEmpty (some 0)

theorem built_family : family.Built := by
  have hglobal := built_pushGlobal .empty 0
  refine ((hglobal.push ?_).push ?_).push ?_ <;> rintro p ⟨⟩ <;> decide

theorem visibility_of_built_family :
    family.Built ∧ 1 < family.next ∧ 2 < family.next ∧
      (family.define 1 "add" .nothing).get? 2 "add" = some .nothing ∧
      (family.define 1 "add" .nothing).get? 3 "add" = family.get? 3 "add" ∧
      Eval.assign 2 "add" .nothing family = .ok () (family.define 0 "add" .nothing) ∧
      Eval.assign 2 "x" .nothing family = .error (.unboundTarget "x") family := by
  have hone : family.scopes[1]? = some { parent := some 0, bindings := [] } := rfl
  have htwo : family.scopes[2]? = some { parent := some 1, bindings := [] } := rfl
  have hthree : family.scopes[3]? = some { parent := some 0, bindings := [] } := rfl
  have hzero : (family.scopes[0]?).map Scope.parent = some none := rfl
  -- from the scope beside, the way outwards leads past the scope with the definition
  have hbeside : ¬family.Unshadowed "add" 1 3 := by
    rw [unshadowed_iff_parent hthree rfl (by decide)]
    rintro ⟨-, h⟩
    cases h with
    | outwards hs hp => simp [hs, hp] at hzero
  have hinner : family.Unshadowed "add" 1 2 := .outwards htwo rfl rfl .here
  have houter : family.Unshadowed "add" 0 2 :=
    .outwards htwo rfl rfl (.outwards hone rfl rfl .here)
  have hfree (o : ScopeId) (_ : family.Unshadowed "x" o 2) : family.binds o "x" = false := by
    have hnone : ∀ o < 4, family.binds o "x" = false := by decide
    cases hb : family.binds o "x" with
    | false => rfl
    | true => rw [← hb, hnone o (lt_next_of_binds hb)]
  obtain ⟨hdefine, -, -⟩ := visibility_of_built built_family (s := 1) (by decide) "add" .nothing
  obtain ⟨-, hassign, -⟩ := visibility_of_built built_family (s := 2) (by decide) "add" .nothing
  obtain ⟨-, -, hrefuse⟩ := visibility_of_built built_family (s := 2) (by decide) "x" .nothing
  exact ⟨built_family, by decide, by decide, (hdefine 2 "add").1 ⟨rfl, hinner⟩,
    (hdefine 3 "add").2 fun h => hbeside h.2, (hassign 0 houter (by decide)).1, hrefuse hfree⟩

end Store

end MiniLisp
