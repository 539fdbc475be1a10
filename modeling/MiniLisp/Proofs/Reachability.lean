import Mathlib.Data.List.Find
import MiniLisp.Proofs.Equality
import MiniLisp.Proofs.Runs

/-!
# What an evaluation can reach

From a scope the scopes around it can be reached, and those of the closures that are bound in it.
An evaluation reads and changes only scopes that can be reached from its own scope and from the
closures in its expression, and scopes that it makes itself. So it leaves all other scopes as they
are, and it does not depend on them (`Store.evaluate_noninterference`).
-/

namespace MiniLisp

/-- A scope refers to the scope around it and to those of the closures that are bound in it. -/
instance : Refers Scope := ⟨fun s => s.parent.toList ++ Value.capturedPairs s.bindings⟩

section Bindings

variable {p : ScopeId → Prop} {name : String} {v : Value} {bindings : List (String × Value)}

theorem within_scope_iff {s : Scope} :
    Within p s ↔ (∀ parent, s.parent = some parent → p parent) ∧ Within p s.bindings := by
  simp only [Within, Refers.scopes, List.mem_append, Option.mem_toList]
  exact ⟨fun h => ⟨fun q hq => h q (.inl hq), fun q hq => h q (.inr hq)⟩,
    fun h q hq => hq.elim (h.1 q) (h.2 q)⟩

theorem within_lookup (hb : Within p bindings) (h : bindings.lookup name = some v) :
    Within p v := by
  induction bindings with
  | nil => cases h
  | cons b rest ih =>
    obtain ⟨n, w⟩ := b
    obtain ⟨hw, hrest⟩ := within_cons_pair.1 hb
    rw [lookup_cons_ite] at h
    split at h
    · cases h
      exact hw
    · exact ih hrest h

theorem within_rebind (hb : Within p bindings) (hv : Within p v) :
    Within p (rebind name v bindings) := by
  induction bindings with
  | nil => exact within_cons_pair.2 ⟨hv, within_nil_pairs⟩
  | cons b rest ih =>
    obtain ⟨n, w⟩ := b
    obtain ⟨hw, hrest⟩ := within_cons_pair.1 hb
    rw [rebind]
    split
    · exact within_cons_pair.2 ⟨hv, hrest⟩
    · exact within_cons_pair.2 ⟨hw, ih hrest⟩

end Bindings

/-! ## Reachable scopes -/

namespace Store

/-- The scopes that can be reached from some scopes. -/
inductive Reachable (st : Store) (roots : List ScopeId) : ScopeId → Prop
  | root {id : ScopeId} (h : id ∈ roots) : Reachable st roots id
  | step {id next : ScopeId} {s : Scope} (h : Reachable st roots id)
      (hs : st.scopes[id]? = some s) (hnext : next ∈ Refers.scopes s) : Reachable st roots next

/-- A kind of scopes that refer only to scopes of that kind. -/
def Closed (st : Store) (p : ScopeId → Prop) : Prop :=
  ∀ (id : ScopeId) (s : Scope), p id → st.scopes[id]? = some s → Within p s

variable {st st' : Store} {roots : List ScopeId} {p : ScopeId → Prop} {id : ScopeId}

theorem closed_reachable (st : Store) (roots : List ScopeId) : st.Closed (st.Reachable roots) :=
  fun _ _ h hs _ hnext => h.step hs hnext

/-- The reachable scopes are the least closed kind that the roots are of. -/
theorem Reachable.of_closed (h : st.Reachable roots id) (hclosed : st.Closed p)
    (hroots : ∀ id ∈ roots, p id) : p id := by
  induction h with
  | root h => exact hroots _ h
  | step _ hs hnext ih => exact hclosed _ _ ih hs _ hnext

theorem Closed.congr (h : st.Closed p) (hagree : ∀ id, p id → st'.scopes[id]? = st.scopes[id]?) :
    st'.Closed p := by
  intro id s hid hs
  rw [hagree id hid] at hs
  exact h id s hid hs

/-- What is reachable depends only on the reachable scopes. -/
theorem reachable_congr (hagree : ∀ id, st.Reachable roots id → st'.scopes[id]? = st.scopes[id]?)
    (h : st'.Reachable roots id) : st.Reachable roots id :=
  h.of_closed ((closed_reachable st roots).congr hagree) fun _ => .root

section Closed

variable (hclosed : st.Closed p) (hagree : ∀ id, p id → st'.scopes[id]? = st.scopes[id]?)
include hclosed hagree

/-- Chains stay among closed scopes, where two stores agree. -/
theorem chainUpTo_congr (limit : Nat) {id : ScopeId} (hid : p id) :
    st'.chainUpTo limit id = st.chainUpTo limit id ∧ ∀ o ∈ st.chainUpTo limit id, p o := by
  induction limit generalizing id with
  | zero => exact ⟨rfl, fun _ h => absurd h List.not_mem_nil⟩
  | succ limit ih =>
    rw [chainUpTo, chainUpTo, hagree id hid]
    cases hs : st.scopes[id]? with
    | none => exact ⟨rfl, fun _ h => absurd h List.not_mem_nil⟩
    | some s =>
      cases hp : s.parent with
      | none => exact ⟨by simp only [hp], by simpa only [hp, List.mem_singleton, forall_eq]⟩
      | some parent =>
        have hparent := (within_scope_iff.1 (hclosed id s hid hs)).1 parent hp
        obtain ⟨heq, hmem⟩ := ih hparent
        simp only [hp, heq, List.forall_mem_cons]
        exact ⟨trivial, hid, hmem⟩

theorem owner?_congr (name : String) (hid : p id) :
    st'.owner? id name = st.owner? id name ∧ ∀ o, st.owner? id name = some o → p o := by
  obtain ⟨heq, hmem⟩ := chainUpTo_congr hclosed hagree (id + 1) hid
  have hbinds : ∀ o ∈ st.chain id, st'.binds o name = st.binds o name := by
    intro o ho
    unfold binds
    rw [hagree o (hmem o ho)]
  unfold owner?
  refine ⟨?_, fun o ho => hmem o (List.mem_of_find?_eq_some ho)⟩
  rw [show st'.chain id = st.chain id from heq]
  exact List.find?_congr hbinds

end Closed

theorem Closed.within_valueAt? (hclosed : st.Closed p) {name : String} {v : Value} (hid : p id)
    (h : st.valueAt? id name = some v) : Within p v := by
  obtain ⟨s, hs, hv⟩ := Option.bind_eq_some_iff.1 h
  exact within_lookup (within_scope_iff.1 (hclosed id s hid hs)).2 hv

/-! ## Two stores that agree on what is reachable -/

/-- The scopes that an evaluation may have in sight when there are `n` scopes: those that could be
reached from the roots before it, and those made since. -/
def InSight (base : Store) (roots : List ScopeId) (n : Nat) (id : ScopeId) : Prop :=
  base.Reachable roots id ∨ base.next ≤ id ∧ id < n

/-- Two stores that came from two others by the same changes to what was reachable there. -/
structure Twins (base base' : Store) (roots : List ScopeId) (st st' : Store) : Prop where
  next_le : base.next ≤ st.next
  next_eq : st'.next = st.next
  agree : ∀ id, base.InSight roots st.next id → st'.scopes[id]? = st.scopes[id]?
  closed : st.Closed (base.InSight roots st.next)
  /-- What was out of reach is as it was. -/
  kept : ∀ id, id < base.next → ¬base.Reachable roots id → st.scopes[id]? = base.scopes[id]?
  written : ∃ text, st.output = base.output ++ text ∧ st'.output = base'.output ++ text

namespace Twins

variable {base base' : Store}

theorem refl (hnext : base'.next = base.next)
    (hagree : ∀ id, base.Reachable roots id → base'.scopes[id]? = base.scopes[id]?) :
    Twins base base' roots base base' := by
  have hsight (id : ScopeId) (h : base.InSight roots base.next id) : base.Reachable roots id :=
    h.resolve_right fun h => absurd h.2 (Nat.not_lt.2 h.1)
  refine ⟨Nat.le_refl _, hnext, fun id hid => hagree id (hsight id hid), ?_, fun _ _ _ => rfl,
    "", by simp⟩
  intro id s hid hs
  exact (closed_reachable base roots id s (hsight id hid) hs).mono fun _ => .inl

variable (h : Twins base base' roots st st')
include h

theorem define {name : String} {v : Value} (hid : base.InSight roots st.next id)
    (hv : Within (base.InSight roots st.next) v) :
    Twins base base' roots (st.define id name v) (st'.define id name v) := by
  have hnext (st : Store) : (st.define id name v).next = st.next := st.size_define id name v
  refine ⟨by rw [hnext]; exact h.next_le, by rw [hnext, hnext]; exact h.next_eq, ?_, ?_, ?_,
    h.written⟩
  · intro q hq
    rw [hnext] at hq
    rw [scopes_define, scopes_define, h.agree q hq]
  · rw [hnext]
    intro q s hq hs
    rw [scopes_define] at hs
    split at hs
    · obtain ⟨s', hs', rfl⟩ := Option.map_eq_some_iff.1 hs
      obtain ⟨hparent, hbindings⟩ := within_scope_iff.1 (h.closed q s' hq hs')
      exact within_scope_iff.2 ⟨hparent, within_rebind hbindings hv⟩
    · exact h.closed q s hq hs
  · intro q hlt hq
    have hne : id ≠ q := by
      rintro rfl
      exact hid.elim hq fun hnew => absurd hlt (Nat.not_lt.2 hnew.1)
    rw [scopes_define, if_neg hne]
    exact h.kept q hlt hq

theorem mint (hid : base.InSight roots st.next id) :
    Twins base base' roots (st.mint id) (st'.mint id) := by
  have hnext (st : Store) : (st.mint id).next = st.next := st.size_mint id
  refine ⟨by rw [hnext]; exact h.next_le, by rw [hnext, hnext]; exact h.next_eq, ?_, ?_, ?_,
    h.written⟩
  · intro q hq
    rw [hnext] at hq
    rw [scopes_mint, scopes_mint, h.agree q hq]
  · rw [hnext]
    intro q s hq hs
    rw [scopes_mint] at hs
    split at hs
    · obtain ⟨s', hs', rfl⟩ := Option.map_eq_some_iff.1 hs
      exact within_scope_iff.2 (within_scope_iff.1 (h.closed q s' hq hs'))
    · exact h.closed q s hq hs
  · intro q hlt hq
    have hne : id ≠ q := by
      rintro rfl
      exact hid.elim hq fun hnew => absurd hlt (Nat.not_lt.2 hnew.1)
    rw [scopes_mint, if_neg hne]
    exact h.kept q hlt hq

theorem push {parent : ScopeId} (hparent : base.InSight roots st.next parent) :
    Twins base base' roots (st.pushEmpty (some parent)) (st'.pushEmpty (some parent)) := by
  have hnext (st : Store) : (st.pushEmpty (some parent)).next = st.next + 1 := st.size_push _
  have hmono (q : ScopeId) (hq : base.InSight roots st.next q) :
      base.InSight roots (st.next + 1) q := hq.imp_right fun hq => ⟨hq.1, Nat.lt_succ_of_lt hq.2⟩
  -- what is in sight now was in sight, or is the new scope
  have hold (q : ScopeId) (hq : base.InSight roots (st.next + 1) q) (hne : q ≠ st.next) :
      base.InSight roots st.next q :=
    hq.imp_right fun hq => ⟨hq.1, Nat.lt_of_le_of_ne (Nat.le_of_lt_succ hq.2) hne⟩
  refine ⟨?_, by rw [hnext, hnext, h.next_eq], ?_, ?_, ?_, h.written⟩
  · rw [hnext]
    exact Nat.le_succ_of_le h.next_le
  · intro q hq
    rw [hnext] at hq
    rw [pushEmpty, pushEmpty, scopes_push, scopes_push, h.next_eq]
    split
    · rfl
    · exact h.agree q (hold q hq ‹_›)
  · rw [hnext]
    intro q s hq hs
    rw [pushEmpty, scopes_push] at hs
    split at hs
    · cases hs
      refine within_scope_iff.2 ⟨?_, within_nil_pairs⟩
      rintro _ ⟨⟩
      exact hmono _ hparent
    · exact (h.closed q s (hold q hq ‹_›) hs).mono hmono
  · intro q hlt hq
    rw [pushEmpty, scopes_push, if_neg (Nat.ne_of_lt (Nat.lt_of_lt_of_le hlt h.next_le))]
    exact h.kept q hlt hq

theorem write (text : String) :
    Twins base base' roots (st.write text) (st'.write text) := by
  obtain ⟨before, hout, hout'⟩ := h.written
  refine ⟨h.next_le, h.next_eq, h.agree, h.closed, h.kept, before ++ text, ?_, ?_⟩
  · rw [← String.append_assoc, ← hout]
    rfl
  · rw [← String.append_assoc, ← hout']
    rfl

end Twins

end Store

/-- Two runs from stores that agree on what can be reached from the roots. -/
def Bond.reach (base base' : Store) (roots : List ScopeId) : Bond where
  sight := base.InSight roots
  rel := Store.Twins base base' roots
  lax := False
  mono hmn h := h.imp_right fun h => ⟨h.1, Nat.lt_of_lt_of_le h.2 hmn⟩
  total := False.elim
  next_eq h := h.next_eq
  owner? name h hid := Store.owner?_congr h.closed h.agree name hid
  valueAt? {st st' id} name h hid := by
    refine ⟨?_, fun v hv => h.closed.within_valueAt? hid hv⟩
    unfold Store.valueAt?
    rw [h.agree id hid]
  define _ h hid hv := h.define hid hv
  made {st st' id} h hid := by
    unfold Store.made
    rw [h.agree id hid]
  mint h hid := h.mint hid
  push h hparent := ⟨.inr ⟨h.next_le, Nat.lt_succ_self _⟩, h.push hparent⟩
  write text h := h.write text

/-- The scopes that the value of an outcome refers to. -/
def Outcome.scopes : Outcome Value → List ScopeId
  | .ok v _ => v.captured
  | .error _ _ => []

namespace Store

variable {st st' : Store} {scope : ScopeId} {expr : Value} {depth : Nat}

/-- The scopes that an evaluation starts from. -/
def roots (scope : ScopeId) (expr : Value) : List ScopeId := scope :: expr.captured

/-- Evaluations in two stores that agree on what can be reached end alike. -/
theorem alike_evaluate_reach (depth : Nat) (hnext : st'.next = st.next)
    (hagree : ∀ id, st.Reachable (roots scope expr) id → st'.scopes[id]? = st.scopes[id]?) :
    (Bond.reach st st' (roots scope expr)).Alike st.next (st.evaluate depth scope expr)
      (st'.evaluate depth scope expr) := by
  have hrefl := Twins.refl hnext hagree
  rcases Nat.lt_or_ge maxFrames (frameAllowance depth) with h | h
  · rw [evaluate_of_lt st scope expr h, evaluate_of_lt st' scope expr h]
    exact .error hrefl
  · rw [evaluate_of_le st scope expr h, evaluate_of_le st' scope expr h]
    have hsound : (Bond.reach st st' (roots scope expr)).Sound _ _ :=
      Bond.tied (.refl (activationFrames depth))
    have hscope : st.Reachable (roots scope expr) scope := .root List.mem_cons_self
    have hexpr (id : ScopeId) (hid : id ∈ expr.captured) : st.Reachable (roots scope expr) id :=
      .root (List.mem_cons_of_mem _ hid)
    exact (hsound.evaluate (.refl depth) (.inl hscope) fun id hid => .inl (hexpr id hid)).alike
      hrefl (Nat.le_refl _)

/-- What evaluations in two stores that agree on what can be reached have in common. -/
theorem twins_evaluate (depth : Nat) (hnext : st'.next = st.next)
    (hagree : ∀ id, st.Reachable (roots scope expr) id → st'.scopes[id]? = st.scopes[id]?) :
    let r : Outcome Value := st.evaluate depth scope expr
    let r' : Outcome Value := st'.evaluate depth scope expr
    r'.answer = r.answer ∧ Twins st st' (roots scope expr) r.store r'.store ∧
      ∀ id ∈ roots scope expr ++ r.scopes, st.InSight (roots scope expr) r.store.next id := by
  have halike := alike_evaluate_reach depth hnext hagree
  intro r r'
  have hroots (id : ScopeId) (h : id ∈ roots scope expr) :
      st.InSight (roots scope expr) r.store.next id := .inl (.root h)
  change Bond.Alike _ _ r r' at halike
  generalize r = o, r' = o' at halike hroots ⊢
  cases halike with
  | ok htwins _ hv => exact ⟨rfl, htwins, List.forall_mem_append.2 ⟨hroots, hv⟩⟩
  | error htwins => exact ⟨rfl, htwins, List.forall_mem_append.2 ⟨hroots, fun _ h => nomatch h⟩⟩
  | cut hlax => exact hlax.elim

theorem twins_evaluate_self (st : Store) (depth : Nat) (scope : ScopeId) (expr : Value) :
    let r : Outcome Value := st.evaluate depth scope expr
    Twins st st (roots scope expr) r.store r.store ∧
      ∀ id ∈ roots scope expr ++ r.scopes, st.InSight (roots scope expr) r.store.next id :=
  (twins_evaluate depth rfl fun _ _ => rfl).2

/-- Evaluation depends only on what it can reach. In two stores with equally many scopes that agree
there, it gives the same answer, writes the same text, makes the same scopes, and leaves two stores
that agree on all that can be reached from its scope, from its expression or from its value. -/
theorem evaluate_noninterference (depth : Nat) (hnext : st'.next = st.next)
    (hagree : ∀ id, st.Reachable (roots scope expr) id → st'.scopes[id]? = st.scopes[id]?) :
    let r : Outcome Value := st.evaluate depth scope expr
    let r' : Outcome Value := st'.evaluate depth scope expr
    r'.answer = r.answer ∧
      (∃ text, r.store.output = st.output ++ text ∧ r'.store.output = st'.output ++ text) ∧
      r'.store.next = r.store.next ∧
      (∀ id, st.next ≤ id → r'.store.scopes[id]? = r.store.scopes[id]?) ∧
      ∀ id, r.store.Reachable (roots scope expr ++ r.scopes) id ∨
          r'.store.Reachable (roots scope expr ++ r.scopes) id →
        r'.store.scopes[id]? = r.store.scopes[id]? := by
  intro r r'
  obtain ⟨hanswer, htwins, hsight⟩ := twins_evaluate depth hnext hagree
  change Twins st st' _ r.store r'.store at htwins
  refine ⟨hanswer, htwins.written, htwins.next_eq, fun id hid => ?_, fun id hid => ?_⟩
  · rcases Nat.lt_or_ge id r.store.next with hlt | hge
    · exact htwins.agree id (.inr ⟨hid, hlt⟩)
    · have hge' : r'.store.next ≤ id := htwins.next_eq ▸ hge
      rw [Array.getElem?_eq_none hge, Array.getElem?_eq_none hge']
  · refine htwins.agree id ?_
    rcases hid with hid | hid
    · exact hid.of_closed htwins.closed hsight
    · exact hid.of_closed (htwins.closed.congr htwins.agree) hsight

/-- A function in one scope that changes another scope, and a third scope beside them. -/
def siblings (b : Bool) : Store :=
  let change : Value := .list .plain [.symbol "set", .symbol "x", .symbol "y"]
  (((pushGlobal {} 0).push ⟨some 0, [("f", .closure ["y"] change 2 0)], 0⟩).push
    ⟨some 0, [("x", .boolean true)], 1⟩).push ⟨some 0, [("x", .boolean b)], 0⟩

/-- A call of that function. -/
def siblingCall : Value := .list .plain [.symbol "f", .boolean false]

theorem reachable_siblings {b : Bool} {id : Nat}
    (h : (siblings b).Reachable (roots 1 siblingCall) id) : id < 3 := by
  have hrefs : ∀ id < 3, ∀ next ∈ ((siblings b).scopes[id]?.map Refers.scopes).getD [],
      next < 3 := by
    cases b <;> decide
  refine h.of_closed (p := (· < 3)) (fun id s hid hs next hnext => ?_) (by decide)
  exact hrefs id hid next (by rwa [hs])

theorem evaluate_noninterference_siblings :
    let r : Outcome Value := (siblings true).evaluate 1 1 siblingCall
    let r' : Outcome Value := (siblings false).evaluate 1 1 siblingCall
    (siblings false).next = (siblings true).next ∧
      (siblings false).valueAt? 3 "x" ≠ (siblings true).valueAt? 3 "x" ∧
      r.answer.toOption = some (.boolean false) ∧ r'.answer = r.answer ∧
      r'.store.scopes[2]? = r.store.scopes[2]? := by
  have hagree (id : Nat) (h : (siblings true).Reachable (roots 1 siblingCall) id) :
      (siblings false).scopes[id]? = (siblings true).scopes[id]? := by
    have hid := reachable_siblings h
    obtain rfl | rfl | rfl : id = 0 ∨ id = 1 ∨ id = 2 := by omega
    all_goals rfl
  have hnext : (siblings false).next = (siblings true).next := rfl
  have hsame := evaluate_noninterference 1 hnext hagree
  have hfirst : ((Outcome.store ((siblings true).evaluate 1 1 siblingCall)).scopes[1]?.map
      Refers.scopes) = some [0, 2] := by decide +kernel
  obtain ⟨s, hs, hrefs⟩ := Option.map_eq_some_iff.1 hfirst
  have hchanged := hsame.2.2.2.2 2 (.inl (.step (.root List.mem_cons_self) hs (by simp [hrefs])))
  exact ⟨hnext, by decide, by decide +kernel, hsame.1, hchanged⟩

end Store

end MiniLisp
