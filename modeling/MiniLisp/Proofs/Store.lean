import MiniLisp.Store

/-!
# What the operations of the store do to names

The value of a name follows the scopes outwards (`Store.get?_eq`). Binding a name in a scope
changes what that scope gives to that name and nothing else (`Store.valueAt?_define`), and a new
scope changes nothing about the scopes that were there (`Store.valueAt?_push`).
-/

namespace MiniLisp

theorem lookup_cons_ite {α : Type} (n m : String) (w : α) (rest : List (String × α)) :
    ((m, w) :: rest).lookup n = if n = m then some w else rest.lookup n := by
  rw [List.lookup_cons]
  by_cases h : n = m
  · simp [h]
  · rw [if_neg h, beq_eq_false_iff_ne.2 h]

theorem lookup_rebind (name n : String) (v : Value) (bindings : List (String × Value)) :
    (rebind name v bindings).lookup n = if n = name then some v else bindings.lookup n := by
  induction bindings with
  | nil => simp [rebind, lookup_cons_ite]
  | cons b rest ih =>
    obtain ⟨m, w⟩ := b
    rw [rebind]
    by_cases hm : m = name
    · rw [if_pos hm, hm, lookup_cons_ite, lookup_cons_ite]
      by_cases h : n = name <;> simp [h]
    · rw [if_neg hm, lookup_cons_ite, lookup_cons_ite, ih]
      by_cases h : n = m
      · rw [if_pos h, if_pos h, if_neg (h ▸ hm)]
      · rw [if_neg h, if_neg h]

theorem lookup_map_pair {α β : Type} (f : α → String) (g : α → β) (xs : List α) (n : String) :
    (xs.map fun x => (f x, g x)).lookup n = (xs.find? (f · == n)).map g := by
  induction xs with
  | nil => rfl
  | cons x xs ih =>
    rw [List.map_cons, lookup_cons_ite, List.find?_cons]
    by_cases h : n = f x
    · simp [h]
    · rw [if_neg h, ih, beq_eq_false_iff_ne.2 (Ne.symm h)]

theorem lookup_nativeBindings (home : Nat) (n : String) :
    (Store.nativeBindings home).lookup n = (Native.ofName? n).map (.native · home) :=
  lookup_map_pair Native.name (Value.native · home) Native.all n

namespace Store

/-! ## Chains -/

/-- Every scope was made after the scope around it. -/
def Nested (st : Store) : Prop :=
  ∀ (id : Nat) (s : Scope) (p : Nat),
    st.scopes[id]? = some s → s.parent = some p → p < id

variable {st : Store}

/-- A limit beyond the number of a scope does not cut its chain. -/
theorem chainUpTo_eq_chain (h : st.Nested) (id : Nat) :
    ∀ {limit : Nat}, id < limit → st.chainUpTo limit id = st.chain id := by
  induction id using Nat.strongRecOn with
  | _ id ih =>
    intro limit hid
    obtain ⟨l, rfl⟩ : ∃ l, limit = l + 1 := ⟨limit - 1, by omega⟩
    rw [chain, chainUpTo, chainUpTo]
    cases hs : st.scopes[id]? with
    | none => rfl
    | some s =>
      cases hp : s.parent with
      | none => simp [hp]
      | some p =>
        have hlt := h id s p hs hp
        simp only [hp]
        have hl : p < l := Nat.lt_of_lt_of_le hlt (by omega)
        rw [ih p hlt hl, ih p hlt hlt]

theorem chain_cons (h : st.Nested) {id p : Nat} {s : Scope} (hs : st.scopes[id]? = some s)
    (hp : s.parent = some p) : st.chain id = id :: st.chain p := by
  rw [chain, chainUpTo, hs]
  simp only [hp]
  rw [chainUpTo_eq_chain h p (h id s p hs hp)]

theorem chain_root {id : Nat} {s : Scope} (hs : st.scopes[id]? = some s)
    (hp : s.parent = none) : st.chain id = [id] := by
  rw [chain, chainUpTo, hs]
  simp [hp]

/-- Chains stay among scopes of a kind that lead to no others. -/
theorem forall_mem_chainUpTo {p : Nat → Prop}
    (hparent : ∀ (id : Nat) (s : Scope) (q : Nat), p id → st.scopes[id]? = some s →
      s.parent = some q → p q) (limit : Nat) {id : Nat} (hid : p id) :
    ∀ o ∈ st.chainUpTo limit id, p o := by
  induction limit generalizing id with
  | zero => exact List.forall_mem_nil _
  | succ limit ih =>
    rw [chainUpTo]
    cases hs : st.scopes[id]? with
    | none => exact List.forall_mem_nil _
    | some s =>
      cases hq : s.parent with
      | none => simpa [hq] using hid
      | some q =>
        simp only [hq, List.forall_mem_cons]
        exact ⟨hid, ih (hparent id s q hid hs hq)⟩

/-! ## Looking up a name -/

theorem binds_eq (st : Store) (id : Nat) (name : String) :
    st.binds id name = (st.valueAt? id name).isSome := by
  unfold binds valueAt?
  cases st.scopes[id]? <;> simp [Scope.binds]

theorem binds_congr {st' : Store} {id : Nat} {name : String}
    (h : st'.valueAt? id name = st.valueAt? id name) : st'.binds id name = st.binds id name := by
  rw [binds_eq, binds_eq, h]

theorem owner?_cons (h : st.Nested) {id p : Nat} {s : Scope} (hs : st.scopes[id]? = some s)
    (hp : s.parent = some p) (name : String) :
    st.owner? id name = if st.binds id name then some id else st.owner? p name := by
  rw [owner?, chain_cons h hs hp, List.find?_cons]
  cases st.binds id name <;> rfl

theorem owner?_root {id : Nat} {s : Scope} (hs : st.scopes[id]? = some s)
    (hp : s.parent = none) (name : String) :
    st.owner? id name = if st.binds id name then some id else none := by
  rw [owner?, chain_root hs hp, List.find?_cons]
  cases st.binds id name <;> rfl

/-- The value of a name is that of the scope itself, or else that of the scope around it. -/
theorem get?_eq (h : st.Nested) {id : Nat} {s : Scope} (hs : st.scopes[id]? = some s)
    (name : String) :
    st.get? id name = (st.valueAt? id name).or (s.parent.bind (st.get? · name)) := by
  have hb := st.binds_eq id name
  cases hp : s.parent with
  | none =>
    rw [get?, owner?_root hs hp, hb]
    cases hv : st.valueAt? id name <;> simp [hv]
  | some p =>
    rw [get?, owner?_cons h hs hp, hb]
    cases hv : st.valueAt? id name with
    | none => simp [get?]
    | some v => simp [hv]

/-- A name has an owner where it has a value. -/
theorem isSome_owner? (st : Store) (id : Nat) (name : String) :
    (st.owner? id name).isSome = (st.get? id name).isSome := by
  unfold get?
  cases ho : st.owner? id name with
  | none => rfl
  | some o =>
    have hb := List.find?_some ho
    simpa [binds_eq] using hb.symm

theorem get?_of_none {id : Nat} (h : st.scopes[id]? = none) (name : String) :
    st.get? id name = none := by
  simp [get?, owner?, chain, chainUpTo, h]

/-- The value of a name depends only on the scopes up to the one where it is looked up. -/
theorem get?_congr {st' : Store} (h : st.Nested) (h' : st'.Nested) {name : String} (id : Nat)
    (hparent : ∀ i ≤ id, (st'.scopes[i]?).map Scope.parent = (st.scopes[i]?).map Scope.parent)
    (hvalue : ∀ i ≤ id, st'.valueAt? i name = st.valueAt? i name) :
    st'.get? id name = st.get? id name := by
  induction id using Nat.strongRecOn with
  | _ id ih =>
    have hp := hparent id (Nat.le_refl id)
    cases hs : st.scopes[id]? with
    | none =>
      rw [hs] at hp
      rw [get?_of_none hs, get?_of_none (by simpa using hp)]
    | some s =>
      rw [hs] at hp
      obtain ⟨s', hs', hpar⟩ : ∃ s', st'.scopes[id]? = some s' ∧ s'.parent = s.parent := by
        simpa using hp
      rw [get?_eq h hs, get?_eq h' hs', hvalue id (Nat.le_refl id), hpar]
      cases hparent' : s.parent with
      | none => rfl
      | some p =>
        have hlt : p < id := h id s p hs hparent'
        have hle (i : Nat) (hi : i ≤ p) : i ≤ id := Nat.le_of_lt (Nat.lt_of_le_of_lt hi hlt)
        have hget := ih p hlt (fun i hi => hparent i (hle i hi)) (fun i hi => hvalue i (hle i hi))
        simp [hget]

/-! ## Changing the store -/

@[simp] theorem size_define (st : Store) (id : Nat) (name : String) (v : Value) :
    (st.define id name v).scopes.size = st.scopes.size := by
  simp [define]

theorem scopes_define (st : Store) (id q : Nat) (name : String) (v : Value) :
    (st.define id name v).scopes[q]? =
      if id = q then (st.scopes[q]?).map (·.define name v) else st.scopes[q]? := by
  simp [define, Array.getElem?_modify]

theorem valueAt?_define (st : Store) (id q : Nat) (name n : String) (v : Value) :
    (st.define id name v).valueAt? q n =
      if q = id ∧ n = name ∧ id < st.scopes.size then some v else st.valueAt? q n := by
  unfold valueAt?
  rw [scopes_define]
  by_cases hq : q = id
  · subst hq
    rcases Nat.lt_or_ge q st.scopes.size with hlt | hge
    · by_cases hn : n = name <;> simp [hlt, Scope.define, lookup_rebind, hn]
    · simp [Nat.not_lt.2 hge]
  · simp [hq, Ne.symm hq]

theorem parent_define (st : Store) (id q : Nat) (name : String) (v : Value) :
    ((st.define id name v).scopes[q]?).map Scope.parent = (st.scopes[q]?).map Scope.parent := by
  rw [scopes_define]
  by_cases hq : id = q
  · cases st.scopes[q]? <;> simp [hq, Scope.define]
  · simp [hq]

theorem exists_of_scopes_define {id q : Nat} {name : String} {v : Value} {s : Scope}
    (hs : (st.define id name v).scopes[q]? = some s) :
    ∃ s', st.scopes[q]? = some s' ∧ s'.parent = s.parent := by
  have hparent := st.parent_define id q name v
  rw [hs] at hparent
  simpa using hparent.symm

theorem nested_define (h : st.Nested) (id : Nat) (name : String) (v : Value) :
    (st.define id name v).Nested := by
  intro q s p hs hp
  obtain ⟨s', hs', hp'⟩ := exists_of_scopes_define hs
  exact h q s' p hs' (hp'.trans hp)

theorem binds_define (st : Store) (id q : Nat) (name n : String) (v : Value)
    (h : st.binds q n = true) : (st.define id name v).binds q n = true := by
  rw [binds_eq, valueAt?_define]
  split
  · rfl
  · rwa [binds_eq] at h

theorem get?_define_of_ne (h : st.Nested) {id p : Nat} {name n : String} {v : Value}
    (hn : n ≠ name) : (st.define id name v).get? p n = st.get? p n := by
  refine get?_congr h (nested_define h id name v) p (fun i _ => st.parent_define id i name v) ?_
  intro i _
  rw [valueAt?_define, if_neg fun hi => hn hi.2.1]

@[simp] theorem size_push (st : Store) (s : Scope) :
    (st.push s).scopes.size = st.scopes.size + 1 := by
  simp [push]

theorem scopes_push (st : Store) (s : Scope) (q : Nat) :
    (st.push s).scopes[q]? = if q = st.next then some s else st.scopes[q]? := by
  rw [push, next, Array.getElem?_push]

theorem valueAt?_push (st : Store) (s : Scope) (q : Nat) (n : String) :
    (st.push s).valueAt? q n = if q = st.next then s.bindings.lookup n else st.valueAt? q n := by
  unfold valueAt?
  rw [scopes_push]
  by_cases hq : q = st.next <;> simp [hq]

/-! ## Counting closures -/

@[simp] theorem size_mint (st : Store) (id : Nat) : (st.mint id).scopes.size = st.scopes.size := by
  simp [mint]

theorem scopes_mint (st : Store) (id q : Nat) :
    (st.mint id).scopes[q]? =
      if id = q then (st.scopes[q]?).map (fun s => { s with made := s.made + 1 })
      else st.scopes[q]? := by
  simp [mint, Array.getElem?_modify]

@[simp] theorem parent_mint (st : Store) (id q : Nat) :
    ((st.mint id).scopes[q]?).map Scope.parent = (st.scopes[q]?).map Scope.parent := by
  rw [scopes_mint]
  split
  · rw [Option.map_map]
    rfl
  · rfl

@[simp] theorem valueAt?_mint (st : Store) (id q : Nat) (n : String) :
    (st.mint id).valueAt? q n = st.valueAt? q n := by
  unfold valueAt?
  rw [scopes_mint]
  split
  · rw [Option.bind_map]
    rfl
  · rfl

theorem exists_of_scopes_mint {id q : Nat} {s : Scope} (hs : (st.mint id).scopes[q]? = some s) :
    ∃ s', st.scopes[q]? = some s' ∧ s'.parent = s.parent := by
  have hparent := st.parent_mint id q
  rw [hs] at hparent
  simpa using hparent.symm

theorem nested_mint (h : st.Nested) (id : Nat) : (st.mint id).Nested := by
  intro q s p hs hp
  obtain ⟨s', hs', hp'⟩ := exists_of_scopes_mint hs
  exact h q s' p hs' (hp'.trans hp)

theorem binds_mint (st : Store) (id q : Nat) (n : String) :
    (st.mint id).binds q n = st.binds q n := binds_congr (valueAt?_mint st id q n)

theorem get?_mint (h : st.Nested) (id q : Nat) (n : String) :
    (st.mint id).get? q n = st.get? q n :=
  get?_congr h (nested_mint h id) q (fun i _ => st.parent_mint id i)
    fun i _ => st.valueAt?_mint id i n

theorem made_mint (st : Store) (id q : Nat) :
    (st.mint id).made q = if q = id ∧ id < st.next then st.made q + 1 else st.made q := by
  unfold made
  rw [scopes_mint]
  by_cases hq : id = q
  · subst hq
    rcases Nat.lt_or_ge id st.scopes.size with hlt | hge
    · simp [next, hlt]
    · simp [next, Nat.not_lt.2 hge]
  · simp [hq, Ne.symm hq]

theorem made_define (st : Store) (id q : Nat) (name : String) (v : Value) :
    (st.define id name v).made q = st.made q := by
  unfold made
  rw [scopes_define]
  split
  · rw [Option.map_map]
    rfl
  · rfl

theorem made_push (st : Store) (s : Scope) (q : Nat) :
    (st.push s).made q = if q = st.next then s.made else st.made q := by
  unfold made
  rw [scopes_push]
  by_cases hq : q = st.next <;> simp [hq]

/-! ## Binding several names -/

@[simp] theorem size_defineAll (st : Store) (id : Nat) (pairs : List (String × Value)) :
    (st.defineAll id pairs).scopes.size = st.scopes.size := by
  induction pairs generalizing st with
  | nil => rfl
  | cons pair pairs ih => exact (ih _).trans (st.size_define id pair.1 pair.2)

theorem parent_defineAll (st : Store) (id q : Nat) (pairs : List (String × Value)) :
    ((st.defineAll id pairs).scopes[q]?).map Scope.parent =
      (st.scopes[q]?).map Scope.parent := by
  induction pairs generalizing st with
  | nil => rfl
  | cons pair pairs ih => exact (ih _).trans (st.parent_define id q pair.1 pair.2)

theorem made_defineAll (st : Store) (id q : Nat) (pairs : List (String × Value)) :
    (st.defineAll id pairs).made q = st.made q := by
  induction pairs generalizing st with
  | nil => rfl
  | cons pair pairs ih => exact (ih _).trans (st.made_define id q pair.1 pair.2)

/-- Names that are not among those bound keep their values. -/
theorem valueAt?_defineAll_of_not_mem (st : Store) (id q : Nat) {pairs : List (String × Value)}
    {n : String} (h : q ≠ id ∨ n ∉ pairs.map Prod.fst) :
    (st.defineAll id pairs).valueAt? q n = st.valueAt? q n := by
  induction pairs generalizing st with
  | nil => rfl
  | cons pair pairs ih =>
    have hrest : q ≠ id ∨ n ∉ pairs.map Prod.fst := h.imp_right fun hn hm =>
      hn (List.mem_cons_of_mem _ hm)
    refine (ih (st.define id pair.1 pair.2) hrest).trans ?_
    rw [valueAt?_define, if_neg]
    rintro ⟨hq, hn, -⟩
    rcases h with h | h
    · exact h hq
    · exact h (by simp [hn])

/-- With distinct names, each name gets its value. -/
theorem valueAt?_defineAll (st : Store) {id : Nat} (hid : id < st.scopes.size)
    {pairs : List (String × Value)} (hnodup : (pairs.map Prod.fst).Nodup) {n : String} {v : Value}
    (h : (n, v) ∈ pairs) : (st.defineAll id pairs).valueAt? id n = some v := by
  induction pairs generalizing st with
  | nil => cases h
  | cons pair pairs ih =>
    rw [List.map_cons, List.nodup_cons] at hnodup
    rcases List.mem_cons.1 h with rfl | h
    · refine (valueAt?_defineAll_of_not_mem _ id id (.inr hnodup.1)).trans ?_
      simp [valueAt?_define, hid]
    · exact ih (st.define id pair.1 pair.2) (by simpa using hid) hnodup.2 h

end Store

end MiniLisp
