import MiniLisp.Proofs.Isolation
import MiniLisp.Proofs.Realm

/-!
# Which bindings a program can change

The lowering collects the names that a program defines and assigns by a walk over its tree that
stays out of quoted data. Here stands why that is enough. A binding changes in two ways only: code
that runs in the scope itself defines the name, or some code assigns it where it is bound
(`Realm.Changes`). Code that runs in a scope is the expression without its quoted parts and without
the bodies of its functions; other code runs only when a closure is called, in a scope of its own.
What closures may assign is therefore carried along with all values (`Realm.assigning`): a closure
comes from a function in code that ran, so it assigns nothing that the code around it does not.
-/

namespace MiniLisp

/-- What a source text writes has no closures in it. -/
theorem Value.closures_of_wellRead {v : Value} (h : v.wellRead = true) : v.closures = [] := by
  have hmap := v.map_closures
  rw [captured_of_wellRead v h] at hmap
  exact List.map_eq_nil_iff.1 hmap

/-- The code that assigns, outside quotations, only some of the names, from a scope on. -/
def Realm.assigning (base : ScopeId) (assignable : String → Prop) : Realm where
  sight id := base ≤ id
  base := base
  fresh h := h
  code e := ∀ n ∈ e.targets .assign true, assignable n
  callable e := ∀ n ∈ e.targets .assign true, assignable n
  assignable := assignable
  vector h e he n hn := h n (by
    rw [Value.targets]
    exact Value.mem_targetsAll.2 ⟨e, he, hn⟩)
  braces h e he n hn := h n (by
    rw [Value.targets]
    exact Value.mem_targetsAll.2 ⟨e, he, hn⟩)
  application h := List.forall_mem_cons.1 fun e he n hn =>
    h n (Value.mem_targets_of_closed rfl (Value.mem_targetsAll.2 ⟨e, he, hn⟩))
  operands h hquote _ e he n hn :=
    h n (Value.mem_targets_of_closed (closed_cons_eq_false hquote (.inl rfl))
      (Value.mem_targetsAll.2 ⟨e, List.mem_cons_of_mem _ he, hn⟩))
  function h hword n hn :=
    h n (Value.mem_targets_of_closed (closed_cons_eq_false (by simp [hword]) (.inl rfl))
      (Value.mem_targetsAll.2 ⟨_, by simp, hn⟩))
  assigned h hword :=
    h _ (mem_targets_of_target (closed_cons_eq_false (by simp [hword]) (.inl rfl)) hword)
  called h := h

namespace Store

/-- In a new global scope there are no closures yet, and a program writes none, so all that come
about are functions of the program. -/
theorem changes_evaluate_global (st : Store) (home depth : Nat) {source : String} {program : Value}
    (hread : readSource source = .ok program) :
    (Realm.assigning st.next (· ∈ program.targets .assign true)).Changes st.next
      (program.targets .define false) (st.pushGlobal home)
      (Outcome.store ((st.pushGlobal home).evaluate depth st.next program)) := by
  have hnext : (st.pushGlobal home).next = st.next + 1 := st.size_push _
  refine Realm.AdmitsStore.evaluate ?_ (Nat.le_refl _) ⟨?_, fun _ hn => hn⟩ depth
  · refine ⟨by rw [hnext]; exact Nat.le_succ _, fun id s p hid hs hp => ?_, fun id n v hid hv => ?_⟩
    · rw [pushGlobal, scopes_push] at hs
      split at hs
      · cases hs
        cases hp
      · have hlt := (Array.getElem?_eq_some_iff.1 hs).1
        exact absurd hlt (Nat.not_lt.2 hid)
    · rw [pushGlobal, valueAt?_push] at hv
      split at hv
      · rw [lookup_nativeBindings] at hv
        obtain ⟨fn, -, rfl⟩ := Option.map_eq_some_iff.1 hv
        intro c hc
        simp [Value.closures] at hc
      · obtain ⟨s, hs, -⟩ := Option.bind_eq_some_iff.1 hv
        have hlt := (Array.getElem?_eq_some_iff.1 hs).1
        exact absurd hlt (Nat.not_lt.2 hid)
  · intro c hc
    rw [Value.closures_of_wellRead (wellRead_of_readSource hread)] at hc
    cases hc

/-- The names that a search over the tree finds are all that can change. Whatever is evaluated, in
whatever store, a name that its scope did not bind and now binds is the target of a definition
outside quotations and functions. And when a program has run in a new global scope, to a value or to
a fault, the names that are no targets of such definitions, and of no assignments outside
quotations, have in that scope the bindings that they had; so the natives among them are natives
still. -/
theorem targets_bound_evaluate :
    (∀ (st : Store) (depth : Nat) (scope : ScopeId) (expr : Value), scope < st.next →
        let r : Outcome Value := st.evaluate depth scope expr
        ∀ name, st.binds scope name = false → r.store.binds scope name = true →
          name ∈ expr.targets .define false) ∧
      ∀ (st : Store) (home depth : Nat) (source : String) (program : Value),
        readSource source = .ok program →
          let r : Outcome Value := (st.pushGlobal home).evaluate depth st.next program
          ∀ name, name ∉ program.targets .define false → name ∉ program.targets .assign true →
            r.store.valueAt? st.next name = (st.pushGlobal home).valueAt? st.next name ∧
              ∀ fn : Native, fn.name = name →
                r.store.get? st.next name = some (.native fn home) := by
  constructor
  · intro st depth scope expr hscope r name hfree hbound
    have hchanges : Realm.all.Changes scope (expr.targets .define false) st r.store :=
      (Realm.admitsStore_all st).evaluate trivial ⟨Realm.admits_all expr, trivial⟩ depth
    rcases hchanges.value scope name hscope with hsame | hdef | hset
    · rw [binds_congr hsame, hfree] at hbound
      cases hbound
    · exact hdef.2
    · rw [hset.2.1] at hfree
      cases hfree
  · intro st home depth source program hread r name hdefine hassign
    have hnext : (st.pushGlobal home).next = st.next + 1 := st.size_push _
    have hvalue : r.store.valueAt? st.next name = (st.pushGlobal home).valueAt? st.next name := by
      rcases (st.changes_evaluate_global home depth hread).value st.next name
        (by rw [hnext]; exact Nat.lt_succ_self _) with hsame | hdef | hset
      · exact hsame
      · exact absurd hdef.2 hdefine
      · exact absurd hset.1 hassign
    refine ⟨hvalue, ?_⟩
    rintro fn rfl
    refine get?_of_binds (hvalue.trans ?_)
    rw [pushGlobal, valueAt?_push, if_pos rfl, lookup_nativeBindings, Native.ofName?_name]
    rfl

/-- A program that changes a global name from a function, which also has a native's name for a name
of its own, and that quotes a definition of another native's name before a fault ends it. -/
def meddling : String :=
  "(do (def f (lambda (x) (do (def add x) (set g x)))) (def g 1) (f 2) (quote (def sub g)) (h))"

theorem targets_bound_evaluate_meddling :
    ∃ program, readSource meddling = .ok program ∧
      let r : Outcome Value := (pushGlobal {} 0).evaluate 9 0 program
      r.store.valueAt? 0 "g" = some (.number 2) ∧ "g" ∈ program.targets .define false ∧
        "add" ∉ program.targets .define false ∧ "add" ∉ program.targets .assign true ∧
        r.store.get? 0 "add" = some (.native (.operator .add) 0) ∧
        r.store.valueAt? 0 "h" = none := by
  have htrial : (readSource meddling).toOption.any (fun program =>
      decide ((Outcome.store ((pushGlobal {} 0).evaluate 9 0 program)).valueAt? 0 "g" =
        some (.number 2)) &&
      decide ("add" ∉ program.targets .define false ∧ "add" ∉ program.targets .assign true) &&
      decide ("h" ∉ program.targets .define false ∧ "h" ∉ program.targets .assign true)) =
        true := by
    decide +kernel
  cases hread : readSource meddling with
  | error e => simp [hread, Except.toOption] at htrial
  | ok program =>
    simp only [hread, Except.toOption, Option.any_some, Bool.and_eq_true, decide_eq_true_eq]
      at htrial
    obtain ⟨⟨hg, hadd⟩, hh⟩ := htrial
    have hbound := targets_bound_evaluate.1 (pushGlobal {} 0) 9 0 program (by decide) "g"
      (by decide) (by rw [binds_eq, hg]; rfl)
    have hglobal := targets_bound_evaluate.2 {} 0 9 meddling program hread
    exact ⟨program, rfl, hg, hbound, hadd.1, hadd.2,
      (hglobal "add" hadd.1 hadd.2).2 (.operator .add) rfl, (hglobal "h" hh.1 hh.2).1⟩

end Store

end MiniLisp
