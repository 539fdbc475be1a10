import MiniLisp.Proofs.Guards

/-!
# The scopes in a value

A value refers to the scopes of the closures in it, at any depth: in lists and dictionaries, in
code, and in the bodies of other closures. Results of every kind that the evaluator passes on have
such scopes (`Refers`). No native makes a closure up: its value is made of atoms and of parts of its
arguments (`Hereditary.of_call`), so it refers only to scopes that they refer to
(`Native.within_call`).
-/

namespace MiniLisp

namespace Value

mutual

/-- The scopes of the closures in a value. -/
def captured : Value → List ScopeId
  | .list _ items => capturedAll items
  | .braces entries => capturedAll entries
  | .dictionary pairs => capturedPairs pairs
  | .closure _ body scope _ => scope :: captured body
  | _ => []

/-- The scopes of the closures in several values. -/
def capturedAll : List Value → List ScopeId
  | [] => []
  | v :: rest => captured v ++ capturedAll rest

/-- The scopes of the closures in the values of a dictionary. -/
def capturedPairs : List (String × Value) → List ScopeId
  | [] => []
  | (_, v) :: rest => captured v ++ capturedPairs rest

end

end Value

/-- Results that refer to scopes. -/
class Refers (α : Type) where
  scopes : α → List ScopeId

instance : Refers Value := ⟨Value.captured⟩
instance : Refers (List Value) := ⟨Value.capturedAll⟩
instance : Refers (List (String × Value)) := ⟨Value.capturedPairs⟩
instance : Refers ScopeId := ⟨fun id => [id]⟩
instance : Refers Unit := ⟨fun _ => []⟩

/-- All scopes that a result refers to are of a kind. -/
def Within {α : Type} [Refers α] (p : ScopeId → Prop) (a : α) : Prop :=
  ∀ id ∈ Refers.scopes a, p id

section Within

variable {p q : ScopeId → Prop}

theorem Within.mono {α : Type} [Refers α] {a : α} (h : Within p a) (hpq : ∀ id, p id → q id) :
    Within q a :=
  fun id hid => hpq id (h id hid)

theorem within_unit (u : Unit) : Within p u := fun _ h => nomatch h

theorem within_scope {id : ScopeId} : Within p id ↔ p id := by
  simp [Within, Refers.scopes]

theorem within_nil : Within p ([] : List Value) := by
  simp [Within, Refers.scopes, Value.capturedAll]

theorem within_cons {v : Value} {vs : List Value} :
    Within p (v :: vs) ↔ Within p v ∧ Within p vs := by
  simp only [Within, Refers.scopes, Value.capturedAll, List.mem_append]
  exact ⟨fun h => ⟨fun id hid => h id (.inl hid), fun id hid => h id (.inr hid)⟩,
    fun h id hid => hid.elim (h.1 id) (h.2 id)⟩

theorem within_nil_pairs : Within p ([] : List (String × Value)) := by
  simp [Within, Refers.scopes, Value.capturedPairs]

theorem within_cons_pair {key : String} {v : Value} {pairs : List (String × Value)} :
    Within p ((key, v) :: pairs) ↔ Within p v ∧ Within p pairs := by
  simp only [Within, Refers.scopes, Value.capturedPairs, List.mem_append]
  exact ⟨fun h => ⟨fun id hid => h id (.inl hid), fun id hid => h id (.inr hid)⟩,
    fun h id hid => hid.elim (h.1 id) (h.2 id)⟩

theorem within_iff_forall {vs : List Value} : Within p vs ↔ ∀ v ∈ vs, Within p v := by
  induction vs with
  | nil => simp [within_nil]
  | cons v vs ih => rw [within_cons, ih, List.forall_mem_cons]

@[simp] theorem within_atom {a : Atom} : Within p (Value.atom a) := by
  simp [Within, Refers.scopes, Value.captured]

@[simp] theorem within_list {flavor : Flavor} {items : List Value} :
    Within p (Value.list flavor items) ↔ Within p items := by
  simp only [Within, Refers.scopes, Value.captured]

@[simp] theorem within_braces {entries : List Value} :
    Within p (Value.braces entries) ↔ Within p entries := by
  simp only [Within, Refers.scopes, Value.captured]

@[simp] theorem within_dictionary {pairs : List (String × Value)} :
    Within p (Value.dictionary pairs) ↔ Within p pairs := by
  simp only [Within, Refers.scopes, Value.captured]

@[simp] theorem within_closure {params : List String} {body : Value} {scope : ScopeId}
    {serial : Nat} :
    Within p (Value.closure params body scope serial) ↔ p scope ∧ Within p body := by
  simp only [Within, Refers.scopes, Value.captured, List.forall_mem_cons]

end Within

/-! ## Natives -/

/-- A kind of values that every atom is of, and a list exactly if all its elements are. -/
structure Hereditary (p : Value → Prop) : Prop where
  atom : ∀ a : Atom, p (.atom a)
  list : ∀ {flavor : Flavor} {items : List Value}, p (.list flavor items) ↔ ∀ v ∈ items, p v

namespace Hereditary

open Native

variable {p : Value → Prop} {v w : Value} {vs args : List Value}

theorem of_joinItems (hp : Hereditary p) (h : joinItems args = .ok vs) (hargs : ∀ v ∈ args, p v) :
    ∀ v ∈ vs, p v := by
  induction args generalizing vs with
  | nil =>
    cases h
    exact fun _ hv => nomatch hv
  | cons v rest ih =>
    obtain ⟨hv, hrest⟩ := List.forall_mem_cons.1 hargs
    cases v with
    | list flavor items =>
      rw [joinItems] at h
      cases hjoin : joinItems rest with
      | error e => rw [hjoin] at h; cases h
      | ok ws =>
        rw [hjoin] at h
        cases h
        exact List.forall_mem_append.2 ⟨hp.list.1 hv, ih hjoin hrest⟩
    | _ => cases h

theorem of_element {α : Type} {kind : String} {xs : List α} {give : α → Value} {i : Int}
    (h : element kind xs give i = .ok v) (hxs : ∀ x ∈ xs, p (give x)) : p v := by
  obtain ⟨x, hx, rfl⟩ := element_eq_ok h
  unfold Sequence.nth? at hx
  split at hx
  · cases hx
  · exact hxs x (List.mem_of_getElem? hx)

theorem of_nthOf (hp : Hereditary p) {i : Value} (h : nthOf v i = .ok w) (hv : p v) : p w := by
  unfold nthOf at h
  split at h
  · cases hi : index .nth i with
    | error e => rw [hi] at h; cases h
    | ok k =>
      rw [hi] at h
      exact of_element h (hp.list.1 hv)
  · cases hi : index .nth i with
    | error e => rw [hi] at h; cases h
    | ok k =>
      rw [hi] at h
      exact of_element h fun _ _ => hp.atom _
  · cases h

theorem of_sliceOf (hp : Hereditary p) {low high : Value} (h : sliceOf v low high = .ok w)
    (hv : p v) : p w := by
  unfold sliceOf at h
  cases hlow : index .slice low with
  | error e => rw [hlow] at h; cases h
  | ok i =>
    cases hhigh : index .slice high with
    | error e => rw [hlow, hhigh] at h; cases h
    | ok j =>
      rw [hlow, hhigh] at h
      cases v with
      | list flavor items =>
        cases h
        exact hp.list.2 fun w hw => hp.list.1 hv w (List.mem_of_mem_take (List.mem_of_mem_drop hw))
      | atom a =>
        cases a with
        | text s =>
          cases h
          exact hp.atom _
        | _ => cases h
      | _ => cases h

theorem of_joined (hp : Hereditary p) {first : Value} {rest : List Value}
    (h : joined first rest = .ok w) (hargs : ∀ v ∈ first :: rest, p v) : p w := by
  unfold joined at h
  split at h
  · rename_i flavor items
    cases hjoin : joinItems (.list flavor items :: rest) with
    | error e => rw [hjoin] at h; cases h
    | ok vs =>
      rw [hjoin] at h
      cases h
      exact hp.list.2 (hp.of_joinItems hjoin hargs)
  · rename_i s
    cases hjoin : joinChars (.atom (.text s) :: rest) with
    | error e => rw [hjoin] at h; cases h
    | ok cs =>
      rw [hjoin] at h
      cases h
      exact hp.atom _
  · cases h

theorem of_readInteger (hp : Hereditary p) {s : String} (h : readInteger s = .ok w) : p w := by
  unfold readInteger at h
  split at h
  · cases h
  split at h
  · cases h
  split at h
  · cases h
  · split at h <;> cases h <;> exact hp.atom _

/-- The value of a native is of a kind that all its arguments are of. -/
theorem of_call (hp : Hereditary p) {fn : Native} (h : fn.call args = .ok v)
    (hargs : ∀ v ∈ args, p v) : p v := by
  replace h := run_of_call_eq_ok h
  unfold run at h
  split at h
  · rename_i op _ _
    obtain ⟨a, b, -, -, h⟩ := Operator.call_eq_ok h
    obtain ⟨r, hr⟩ := op.apply_eq_atom a b
    rw [hr] at h
    cases h
    exact hp.atom r
  · cases h
    exact hp.list.2 hargs
  · cases h
    exact hp.list.2 hargs
  · unfold lengthOf at h
    split at h <;> cases h <;> exact hp.atom _
  · exact hp.of_nthOf h (hargs _ List.mem_cons_self)
  · exact hp.of_sliceOf h (hargs _ List.mem_cons_self)
  · exact hp.of_joined h hargs
  · exact hp.of_joined h hargs
  · exact hp.of_readInteger h
  · cases h
  · unfold readDecimal at h
    split at h <;> cases h
    exact hp.atom _
  · cases h
  · cases h
    exact hargs _ List.mem_cons_self
  all_goals cases h

end Hereditary

/-- The value of a native refers only to scopes that the arguments refer to. -/
theorem Native.within_call {p : ScopeId → Prop} {fn : Native} {args : List Value} {v : Value}
    (h : fn.call args = .ok v) (hargs : Within p args) : Within p v := by
  have hwithin : Hereditary (Within p : Value → Prop) :=
    ⟨fun _ => within_atom, within_list.trans within_iff_forall⟩
  exact hwithin.of_call h (within_iff_forall.1 hargs)

end MiniLisp
