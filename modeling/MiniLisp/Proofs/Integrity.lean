import MiniLisp.Proofs.Isolation
import MiniLisp.Proofs.Visibility

/-!
# The store stays in order

In a well-formed store every scope was made after the scope around it, and every closure captured a
scope that is there. Evaluation keeps it so at every point where it can stop: with a value, with any
fault, or out of budget. It takes no name and no parent from a scope and no text from the output
(`Store.Kept`). So whatever happened, names that could be looked up still can, and the next
evaluation starts from a well-formed store again (`Store.wellFormed_evaluate`).
-/

namespace MiniLisp

namespace Store

/-- A store in order: every scope was made after the scope around it, and the closures that occur in
its bindings captured scopes of the store. That parameters are names is in the type of closures. -/
structure WellFormed (st : Store) : Prop where
  nested : st.Nested
  captured : ∀ (id : ScopeId) (s : Scope), st.scopes[id]? = some s →
    Within (· < st.next) s.bindings

/-- A later store: scopes and text are only added, and no scope lost a name or its parent. -/
structure Kept (st st' : Store) : Prop where
  next_le : st.next ≤ st'.next
  parent : ∀ id < st.next,
    (st'.scopes[id]?).map Scope.parent = (st.scopes[id]?).map Scope.parent
  binds : ∀ (id : ScopeId) (name : String), st.binds id name = true → st'.binds id name = true
  written : st.Extends st'

variable {st st' base : Store} {id : ScopeId} {name : String} {v : Value}

theorem lt_next_of_owner? {o : ScopeId} (h : st.owner? id name = some o) : o < st.next := by
  have hb : st.binds o name = true := by simpa using List.find?_some h
  exact lt_next_of_binds hb

/-! ## What each operation keeps -/

theorem WellFormed.within_valueAt? (h : st.WellFormed) (hv : st.valueAt? id name = some v) :
    Within (· < st.next) v := by
  obtain ⟨s, hs, hlookup⟩ := Option.bind_eq_some_iff.1 hv
  exact within_lookup (h.captured id s hs) hlookup

theorem WellFormed.define (h : st.WellFormed) (hv : Within (· < st.next) v) :
    (st.define id name v).WellFormed := by
  have hnext : (st.define id name v).next = st.next := st.size_define id name v
  refine ⟨nested_define h.nested id name v, fun q s hs => ?_⟩
  rw [hnext]
  rw [scopes_define] at hs
  split at hs
  · obtain ⟨s', hs', rfl⟩ := Option.map_eq_some_iff.1 hs
    exact within_rebind (h.captured q s' hs') hv
  · exact h.captured q s hs

theorem WellFormed.mint (h : st.WellFormed) : (st.mint id).WellFormed := by
  have hnext : (st.mint id).next = st.next := st.size_mint id
  refine ⟨nested_mint h.nested id, fun q s hs => ?_⟩
  rw [hnext]
  rw [scopes_mint] at hs
  split at hs
  · obtain ⟨s', hs', rfl⟩ := Option.map_eq_some_iff.1 hs
    exact h.captured q s' hs'
  · exact h.captured q s hs

theorem WellFormed.pushEmpty (h : st.WellFormed) {parent : ScopeId} (hparent : parent < st.next) :
    (st.pushEmpty (some parent)).WellFormed := by
  have hnext : (st.pushEmpty (some parent)).next = st.next + 1 := st.size_push _
  refine ⟨nested_pushEmpty h.nested fun p hp => Option.some.inj hp ▸ hparent, fun q s hs => ?_⟩
  rw [hnext]
  rw [Store.pushEmpty, scopes_push] at hs
  split at hs
  · cases hs
    exact within_nil_pairs
  · exact (h.captured q s hs).mono fun _ => Nat.lt_succ_of_lt

theorem wellFormed_empty : WellFormed {} :=
  ⟨fun id s p hs => by simp at hs, fun id s hs => by simp at hs⟩

/-- A new global scope refers to no scope. -/
theorem WellFormed.pushGlobal (h : st.WellFormed) (home : Nat) :
    (st.pushGlobal home).WellFormed := by
  have hnext : (st.pushGlobal home).next = st.next + 1 := st.size_push _
  refine ⟨fun q s p hs hp => ?_, fun q s hs => ?_⟩ <;> rw [Store.pushGlobal, scopes_push] at hs
  · split at hs
    · cases hs
      cases hp
    · exact h.nested q s p hs hp
  · rw [hnext]
    split at hs
    · cases hs
      intro q hq
      change q ∈ Value.capturedPairs (nativeBindings home) at hq
      rw [Interpreter.capturedPairs_nativeBindings] at hq
      cases hq
    · exact (h.captured q s hs).mono fun _ => Nat.lt_succ_of_lt

theorem Kept.refl (st : Store) : st.Kept st :=
  ⟨Nat.le_refl _, fun _ _ => rfl, fun _ _ hb => hb, .refl st⟩

theorem Kept.define (h : base.Kept st) : base.Kept (st.define id name v) where
  next_le := Nat.le_trans h.next_le (Nat.le_of_eq (st.size_define id name v).symm)
  parent q hq := (st.parent_define id q name v).trans (h.parent q hq)
  binds q n hb := st.binds_define id q name n v (h.binds q n hb)
  written := h.written

theorem Kept.mint (h : base.Kept st) : base.Kept (st.mint id) where
  next_le := Nat.le_trans h.next_le (Nat.le_of_eq (st.size_mint id).symm)
  parent q hq := (st.parent_mint id q).trans (h.parent q hq)
  binds q n hb := by
    rw [binds_eq, valueAt?_mint, ← binds_eq]
    exact h.binds q n hb
  written := h.written

theorem Kept.pushEmpty (h : base.Kept st) (parent : Option ScopeId) :
    base.Kept (st.pushEmpty parent) := by
  have hnext : (st.pushEmpty parent).next = st.next + 1 := st.size_push _
  refine ⟨?_, fun q hq => ?_, fun q n hb => ?_, h.written⟩
  · rw [hnext]
    exact Nat.le_succ_of_le h.next_le
  · have hne : q ≠ st.next := Nat.ne_of_lt (Nat.lt_of_lt_of_le hq h.next_le)
    rw [Store.pushEmpty, scopes_push, if_neg hne]
    exact h.parent q hq
  · have hb' := h.binds q n hb
    rw [binds_eq, Store.pushEmpty, valueAt?_push, if_neg (Nat.ne_of_lt (lt_next_of_binds hb')),
      ← binds_eq]
    exact hb'

theorem Kept.write (h : base.Kept st) (text : String) : base.Kept (st.write text) :=
  ⟨h.next_le, h.parent, h.binds, h.written.trans ⟨text, rfl⟩⟩

/-- A name that could be looked up still can. -/
theorem Kept.isSome_get? (h : st.Kept st') (hst : st.Nested) (hst' : st'.Nested) (id : Nat)
    (hid : id < st.next) (hget : (st.get? id name).isSome = true) :
    (st'.get? id name).isSome = true := by
  induction id using Nat.strongRecOn with
  | _ id ih =>
    obtain ⟨s, hs⟩ : ∃ s, st.scopes[id]? = some s := ⟨_, Array.getElem?_eq_getElem hid⟩
    have hparent := h.parent id hid
    rw [hs] at hparent
    obtain ⟨s', hs', hp⟩ : ∃ s', st'.scopes[id]? = some s' ∧ s'.parent = s.parent := by
      simpa using hparent
    rw [get?_eq hst hs, Option.isSome_or, ← binds_eq, Bool.or_eq_true] at hget
    rw [get?_eq hst' hs', Option.isSome_or, ← binds_eq, Bool.or_eq_true, hp]
    refine hget.imp (h.binds id name) fun houter => ?_
    cases hq : s.parent with
    | none => simp [hq] at houter
    | some p =>
      have hlt : p < id := hst id s p hs hq
      rw [hq] at houter
      exact ih p hlt (Nat.lt_trans hlt hid) houter

end Store

/-! ## What a run keeps -/

/-- A run beside itself, with the order of its store and what is left of the store it began in. -/
def Bond.integrity (base : Store) : Bond where
  sight n id := id < n
  rel st st' := st' = st ∧ st.WellFormed ∧ base.Kept st
  lax := False
  mono hmn h := Nat.lt_of_lt_of_le h hmn
  total := False.elim
  next_eq h := by rw [h.1]
  owner? _ h _ := ⟨by rw [h.1], fun _ ho => Store.lt_next_of_owner? ho⟩
  valueAt? _ h _ := ⟨by rw [h.1], fun _ hv => h.2.1.within_valueAt? hv⟩
  define _ h _ hv := ⟨by rw [h.1], h.2.1.define hv, h.2.2.define⟩
  made h _ := by rw [h.1]
  mint h _ := ⟨by rw [h.1], h.2.1.mint, h.2.2.mint⟩
  push h hp := ⟨Nat.lt_succ_self _, by rw [h.1], h.2.1.pushEmpty hp, h.2.2.pushEmpty _⟩
  write text h := ⟨by rw [h.1], ⟨h.2.1.nested, h.2.1.captured⟩, h.2.2.write text⟩

namespace Store

variable {st : Store} {scope : ScopeId} {expr : Value}

theorem alike_evaluate_integrity (h : st.WellFormed) (hscope : scope < st.next)
    (hexpr : Within (· < st.next) expr) (depth : Nat) :
    (Bond.integrity st).Alike st.next (st.evaluate depth scope expr)
      (st.evaluate depth scope expr) := by
  have hrel : (Bond.integrity st).rel st st := ⟨rfl, h, .refl st⟩
  rcases Nat.lt_or_ge maxFrames (frameAllowance depth) with hlt | hle
  · rw [evaluate_of_lt st scope expr hlt]
    exact .error hrel
  · rw [evaluate_of_le st scope expr hle]
    have hsound : (Bond.integrity st).Sound _ _ := Bond.tied (.refl (activationFrames depth))
    exact (hsound.evaluate (.refl depth) hscope hexpr).alike hrel (Nat.le_refl _)

/-- Evaluation keeps the store in order, whether it ends in a value or in a fault, out of budget
included. It leaves a well-formed store, in which every chain of scopes ends in one with no scope
around it; the scopes that there were have their parents and all their names, so what could be
looked up still can; the closures in the value captured scopes that are there; and the text that was
written is only added to. -/
theorem wellFormed_evaluate (h : st.WellFormed) (hscope : scope < st.next)
    (hexpr : Within (· < st.next) expr) (depth : Nat) :
    let r : Outcome Value := st.evaluate depth scope expr
    r.store.WellFormed ∧
      (∀ id < st.next, id < r.store.next ∧
        (r.store.scopes[id]?).map Scope.parent = (st.scopes[id]?).map Scope.parent ∧
          ∀ name, st.binds id name = true → r.store.binds id name = true) ∧
      (∀ id ∈ r.scopes, id < r.store.next) ∧
      (∃ text, r.store.output = st.output ++ text) ∧
      (∀ id < r.store.next, r.store.Outwards id (r.store.chain id)) ∧
      ∀ id < st.next, ∀ name, (st.get? id name).isSome = true →
        (r.store.get? id name).isSome = true := by
  intro r
  have hends : r.store.WellFormed ∧ st.Kept r.store ∧ ∀ id ∈ r.scopes, id < r.store.next := by
    have halike := alike_evaluate_integrity h hscope hexpr depth
    change (Bond.integrity st).Alike _ r r at halike
    generalize r = o at halike
    cases o with
    | ok v s =>
      cases halike with
      | ok hs _ hv => exact ⟨hs.2.1, hs.2.2, hv⟩
    | error e s =>
      cases halike with
      | error hs => exact ⟨hs.2.1, hs.2.2, nofun⟩
      | cut hlax => exact hlax.elim
  obtain ⟨hwell, hkept, hvalue⟩ := hends
  refine ⟨hwell, fun id hid => ?_, hvalue, hkept.written, ?_, ?_⟩
  · exact ⟨Nat.lt_of_lt_of_le hid hkept.next_le, hkept.parent id hid, hkept.binds id⟩
  · exact fun id hid => outwards_chain hwell.nested id hid
  · exact fun id hid name => hkept.isSome_get? h.nested hwell.nested id hid

/-- A call of a function that counts its calls and never comes to an end. -/
def spin : Value :=
  let apply (items : List Value) : Value := .list .plain items
  let more := apply [.symbol "add", .symbol "hits", .number 1]
  let count := apply [.symbol "set", .symbol "hits", more]
  let body := apply [.symbol "do", count, apply [.symbol "spin"]]
  let lambda := apply [.symbol "lambda", .list .vector [], body]
  apply [.symbol "do", apply [.symbol "def", .symbol "spin", lambda], apply [.symbol "spin"]]

theorem wellFormed_evaluate_spin :
    let st := (pushGlobal {} 0).define 0 "hits" (.number 0)
    let r : Outcome Value := st.evaluate 2 0 spin
    st.WellFormed ∧ Within (· < st.next) spin ∧ r.exhausted ∧
      r.store.valueAt? 0 "hits" = some (.number 2) ∧ r.store.next = 3 ∧
      r.store.WellFormed ∧ r.store.Outwards 2 (r.store.chain 2) ∧
      (r.store.get? 0 "hits").isSome = true := by
  intro st r
  have hwell : st.WellFormed := (wellFormed_empty.pushGlobal 0).define within_atom
  have hspin : Within (· < st.next) spin := by
    intro id hid
    have hnone : spin.captured = [] := by decide
    change id ∈ spin.captured at hid
    rw [hnone] at hid
    cases hid
  have hnext : r.store.next = 3 := by decide +kernel
  have hkept := wellFormed_evaluate hwell (show 0 < st.next by decide) hspin 2
  obtain ⟨hwell', -, -, -, hchains, hnames⟩ := hkept
  have hchain : r.store.Outwards 2 (r.store.chain 2) := hchains 2 (by rw [hnext]; decide)
  have hhits : (r.store.get? 0 "hits").isSome = true := hnames 0 (by decide) "hits" (by decide)
  exact ⟨hwell, hspin, by decide +kernel, by decide +kernel, hnext, hwell', hchain, hhits⟩

end Store

end MiniLisp
