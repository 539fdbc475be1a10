import MiniLisp.Proofs.Script.Lowered
import MiniLisp.Proofs.Script.World

/-!
# Entering a scope

A call of a closure makes a scope in the store; the call of its script makes the cells of the
parameters and, in the wrapper around the body, those of the names that the body defines. Here is
shown that the new scope and the new cells belong together (`Agrees.enter`), and the same for the
scope of a whole program (`agrees_start`).
-/

namespace MiniLisp

open Script (mangle Plain Memory Reaches ReachesAll fill)
open Lowering

/-! ## The cells of a scope -/

theorem lookup_zipIdx_append {xs : List String} {env : CellEnv} {x : String} {k i : Nat}
    (hnodup : xs.Nodup) (h : xs[i]? = some x) :
    (xs.zipIdx k ++ env).lookup x = some (k + i) := by
  induction xs generalizing k i with
  | nil => simp at h
  | cons y xs ih =>
    rw [List.nodup_cons] at hnodup
    rw [List.zipIdx_cons, List.cons_append, lookup_cons_ite]
    cases i with
    | zero =>
      obtain rfl : y = x := by simpa using h
      simp
    | succ i =>
      have hx : xs[i]? = some x := by simpa using h
      rw [if_neg fun hxy : x = y => hnodup.1 (hxy ▸ List.mem_of_getElem? hx), ih hnodup.2 hx]
      congr 1
      omega

theorem lookup_zipIdx_append_of_not_mem {xs : List String} {env : CellEnv} {x : String} {k : Nat}
    (h : x ∉ xs) : (xs.zipIdx k ++ env).lookup x = env.lookup x := by
  induction xs generalizing k with
  | nil => rfl
  | cons y xs ih =>
    rw [List.mem_cons, not_or] at h
    rw [List.zipIdx_cons, List.cons_append, lookup_cons_ite, if_neg h.1, ih h.2]

/-- The names in sight in a scope: its own names take cells from `k` on, in order, the parameters
first. -/
def scopeEnv (k : Nat) (params names : List String) (outer : CellEnv) : CellEnv :=
  (names.map mangle).zipIdx (k + params.length) ++ ((params.map mangle).zipIdx k ++ outer)

section ScopeEnv

variable {k : Nat} {params names : List String} {outer : CellEnv} {n : String}

theorem lookup_scopeEnv (hplain : ∀ x ∈ params ++ names, Plain x)
    (hnodup : (params ++ names).Nodup) {i : Nat} (h : (params ++ names)[i]? = some n) :
    (scopeEnv k params names outer).lookup (mangle n) = some (k + i) := by
  have hp : ∀ x ∈ params, Plain x := fun x hx => hplain x (List.mem_append_left _ hx)
  have hs : ∀ x ∈ names, Plain x := fun x hx => hplain x (List.mem_append_right _ hx)
  have hn : Plain n := hplain n (List.mem_of_getElem? h)
  rw [List.nodup_append] at hnodup
  obtain ⟨hnp, hns, hdisj⟩ := hnodup
  unfold scopeEnv
  by_cases hi : i < params.length
  · rw [List.getElem?_append_left hi] at h
    rw [lookup_zipIdx_append_of_not_mem, lookup_zipIdx_append (nodup_map_mangle hp hnp)]
    · rw [List.getElem?_map, h]
      rfl
    · rw [mem_map_mangle hs hn]
      exact fun hmem => hdisj n (List.mem_of_getElem? h) n hmem rfl
  · rw [List.getElem?_append_right (by omega)] at h
    rw [lookup_zipIdx_append (nodup_map_mangle hs hns) (i := i - params.length)]
    · congr 1
      omega
    · rw [List.getElem?_map, h]
      rfl

theorem exists_lookup_scopeEnv (hplain : ∀ x ∈ params ++ names, Plain x)
    (hnodup : (params ++ names).Nodup) (h : n ∈ params ++ names) :
    ∃ a, (scopeEnv k params names outer).lookup (mangle n) = some a := by
  obtain ⟨i, hi⟩ := List.mem_iff_getElem?.1 h
  exact ⟨k + i, lookup_scopeEnv hplain hnodup hi⟩

theorem lookup_scopeEnv_of_not_mem (hplain : ∀ x ∈ params ++ names, Plain x) (hn : Plain n)
    (h : n ∉ params ++ names) :
    (scopeEnv k params names outer).lookup (mangle n) = outer.lookup (mangle n) := by
  rw [List.mem_append, not_or] at h
  have hp : ∀ x ∈ params, Plain x := fun x hx => hplain x (List.mem_append_left _ hx)
  have hs : ∀ x ∈ names, Plain x := fun x hx => hplain x (List.mem_append_right _ hx)
  unfold scopeEnv
  rw [lookup_zipIdx_append_of_not_mem, lookup_zipIdx_append_of_not_mem]
  · rw [mem_map_mangle hp hn]
    exact h.1
  · rw [mem_map_mangle hs hn]
    exact h.2

end ScopeEnv

@[simp] theorem Script.length_fill (params : List String) (vs : List ScriptValue) :
    (fill params vs).length = params.length := by
  induction params generalizing vs with
  | nil => rfl
  | cons p params ih => cases vs <;> simp [fill, ih]

theorem Script.getElem?_fill {params : List String} {vs : List ScriptValue} {i : Nat}
    {v : ScriptValue} (hi : i < params.length) (h : vs[i]? = some v) :
    (fill params vs)[i]? = some v := by
  induction params generalizing vs i with
  | nil => simp at hi
  | cons p params ih =>
    cases vs with
    | nil => simp at h
    | cons u vs =>
      cases i with
      | zero => simpa [fill] using h
      | succ i => exact ih (by simpa using hi) (by simpa using h)

/-! ## The initial values of a scope -/

section Wrapper

variable {ops : Script.Operators} {k : Nat} {env : CellEnv} {m m' : Memory}

/-- Scripts of given values that can be computed in place, each with some property. -/
theorem exists_reachesAll {P : String → ScriptValue → Prop}
    {given : List (String × Option Script)}
    (h : ∀ d ∈ given, ∃ s u, d.2 = some s ∧ Reaches ops 1 env s m u m ∧ P d.1 u) :
    ∃ us, ReachesAll ops 1 env (given.filterMap Prod.snd) m us m ∧
      ∀ (i : Nat) (d : String × Option Script), given[i]? = some d →
        ∃ u, us[i]? = some u ∧ P d.1 u := by
  induction given with
  | nil => exact ⟨[], Script.reachesAll_nil, fun i d hd => by simp at hd⟩
  | cons d given ih =>
    obtain ⟨s, u, hs, hreach, hP⟩ := h d List.mem_cons_self
    obtain ⟨us, hall, hget⟩ := ih fun d hd => h d (List.mem_cons_of_mem _ hd)
    refine ⟨u :: us, ?_, fun i e he => ?_⟩
    · rw [List.filterMap_cons, hs]
      exact Script.reachesAll_cons hreach hall
    · cases i with
      | zero =>
        cases he
        exact ⟨u, rfl, hP⟩
      | succ i => exact hget i e (by simpa using he)

/-- Initial values that can be computed in place go to the cells of their names. What holds of a
name without an initial value has to hold whatever is in its cell. -/
theorem exists_copies (ops : Script.Operators) (env : CellEnv) (m : Memory)
    (P : String → ScriptValue → Prop) {initial : List (String × Option Script)}
    (hgiven : ∀ d ∈ initial, ∀ s, d.2 = some s → ∃ u, Reaches ops 1 env s m u m ∧ P d.1 u)
    (hfresh : ∀ d ∈ initial, d.2 = none → ∀ u, P d.1 u) :
    ∃ us, ReachesAll ops 1 env ((initial.filter (·.2.isSome)).filterMap Prod.snd) m us m ∧
      ∀ {i : Nat} {n : String}, (wrapperNames initial)[i]? = some n →
        P n ((fill ((wrapperNames initial).map mangle) us).getD i .undefined) := by
  have hall : ∀ d ∈ initial.filter (·.2.isSome),
      ∃ s u, d.2 = some s ∧ Reaches ops 1 env s m u m ∧ P d.1 u := by
    intro d hd
    obtain ⟨hd, hsome⟩ := List.mem_filter.1 hd
    obtain ⟨s, hs⟩ := Option.isSome_iff_exists.1 hsome
    obtain ⟨u, hu⟩ := hgiven d hd s hs
    exact ⟨s, u, hs, hu⟩
  obtain ⟨us, hus, hget⟩ := exists_reachesAll hall
  refine ⟨us, hus, fun {i n} h => ?_⟩
  have hlt : i < ((wrapperNames initial).map mangle).length := by
    simpa using (List.getElem?_eq_some_iff.1 h).1
  rw [wrapperNames, List.getElem?_map, Option.map_eq_some_iff] at h
  obtain ⟨d, hd, rfl⟩ := h
  by_cases hi : i < (initial.filter (·.2.isSome)).length
  · rw [List.getElem?_append_left hi] at hd
    obtain ⟨u, hu, hP⟩ := hget i d hd
    rw [List.getD_eq_getElem?_getD, Script.getElem?_fill hlt hu]
    exact hP
  · rw [List.getElem?_append_right (Nat.not_lt.1 hi)] at hd
    obtain ⟨hd, hnone⟩ := List.mem_filter.1 (List.mem_of_getElem? hd)
    exact hfresh d hd (Option.isNone_iff_eq_none.1 hnone) _

/-- A wrapper runs its body with cells for its names. -/
theorem reaches_wrapper {initial : List (String × Option Script)} {s : Script}
    {us : List ScriptValue} {v : ScriptValue} (hk : 1 ≤ k)
    (hus : ReachesAll ops 1 env ((initial.filter (·.2.isSome)).filterMap Prod.snd) m us m)
    (hs : Reaches ops k (((wrapperNames initial).map mangle).zipIdx m.cells.length ++ env) s
      { m with cells := m.cells ++ fill ((wrapperNames initial).map mangle) us } v m') :
    Reaches ops (k + 1) env (wrapper initial s) m v m' := by
  cases initial with
  | nil =>
    have hs' : Reaches ops k env s m v m' := by
      simpa [wrapperNames, fill] using hs
    exact hs'.mono (Nat.le_succ k)
  | cons d initial =>
    rw [wrapper_eq, if_neg (List.cons_ne_nil d initial)]
    exact Script.reaches_call ((Script.reaches_function _ _).mono hk) (hus.mono hk) hs

end Wrapper

/-! ## A new scope with new cells -/

/-- A store with one scope more, and new cells for the names of that scope in order. -/
structure Opens (w : Writes) (home : Nat) (W : World) (st : Store) (m : Memory)
    (active : List Nat) (l : Link) (names : List String) (st' : Store) (new : List ScriptValue) :
    Prop where
  fits : l.Fits w (W ++ [l]) W.length
  size : st'.scopes.size = W.length + 1
  parent : (st'.scopes[W.length]?).map Scope.parent = some l.parent
  oldParent : ∀ q < W.length,
    (st'.scopes[q]?).map Scope.parent = (st.scopes[q]?).map Scope.parent
  oldValue : ∀ q < W.length, ∀ n, st'.valueAt? q n = st.valueAt? q n
  own : ∀ n ∈ l.own, n ∈ names
  length : names.length = new.length
  cell : ∀ {i : Nat} {n : String}, names[i]? = some n →
    l.env.lookup (mangle n) = some (m.cells.length + i)
  params : ∀ n ∈ l.params, st'.binds W.length n = true
  binds : ∀ {n : String}, st'.binds W.length n = true →
    n ∈ l.own ∨ (W.length = 0 ∧ (Native.ofName? n).isSome = true)
  natives : ∀ {n : String} {fn : Native}, W.length = 0 → n ∉ l.own →
    Native.ofName? n = some fn → st'.valueAt? 0 n = some (.native fn home)
  held : ∀ {i : Nat} {n : String} {v : Value}, names[i]? = some n →
    st'.valueAt? W.length n = some v → Related w W st v (new.getD i .undefined)
  copied : ∀ {i p : Nat} {n : String} {v : Value}, names[i]? = some n →
    st'.valueAt? W.length n = none → l.parent = some p →
    l.Kept (W.length :: active) W.length n → st.get? p n = some v →
    Related w W st v (new.getD i .undefined)

theorem World.push_cases {W : World} {l l' : Link} {q : Nat} (h : (W ++ [l])[q]? = some l') :
    (q < W.length ∧ W[q]? = some l') ∨ (q = W.length ∧ l' = l) := by
  rcases Nat.lt_trichotomy q W.length with hq | rfl | hq
  · rw [List.getElem?_append_left hq] at h
    exact .inl ⟨hq, h⟩
  · exact .inr ⟨rfl, by simpa using h.symm⟩
  · rw [List.getElem?_eq_none (by simp; omega)] at h
    cases h

namespace Opens

variable {w : Writes} {home : Nat} {W : World} {st st' : Store} {m : Memory} {active : List Nat}
  {l : Link} {names : List String} {new : List ScriptValue}

theorem grows (h : Opens w home W st m active l names st' new)
    (ha : Agrees w home W st m active) : Grows W st (W ++ [l]) st' where
  links {q l'} hl := by
    rw [List.getElem?_append_left (List.getElem?_eq_some_iff.1 hl).1, hl]
  binds {q n} hb := by
    have hq : q < W.length := by
      rw [ha.size]
      by_contra hq
      simp [Store.binds, Nat.not_lt.1 hq] at hb
    rwa [Store.binds_eq, h.oldValue q hq, ← Store.binds_eq]

theorem nested (h : Opens w home W st m active l names st' new)
    (ha : Agrees w home W st m active) : st'.Nested := by
  intro q s p hs hp
  have hq : q < st'.scopes.size := (Array.getElem?_eq_some_iff.1 hs).1
  rw [h.size] at hq
  rcases Nat.lt_succ_iff_lt_or_eq.1 hq with hq | rfl
  · have hpar := h.oldParent q hq
    rw [hs] at hpar
    obtain ⟨s', hs', hp'⟩ : ∃ s', st.scopes[q]? = some s' ∧ s'.parent = s.parent := by
      simpa using hpar.symm
    exact ha.nested q s' p hs' (hp'.trans hp)
  · have hpar := h.parent
    rw [hs] at hpar
    have hpar : s.parent = l.parent := by simpa using hpar
    exact (h.fits.inner (hpar.symm.trans hp)).1

theorem get?_old (h : Opens w home W st m active l names st' new)
    (ha : Agrees w home W st m active) {p : Nat} (hp : p < W.length) (n : String) :
    st'.get? p n = st.get? p n :=
  Store.get?_congr ha.nested (h.nested ha) p (fun i hi => h.oldParent i (by omega))
    fun i hi => h.oldValue i (by omega) n

/-- The cell of a name of the new scope is a new one, at the place of the name. -/
theorem exists_index (h : Opens w home W st m active l names st' new) {n : String} {a : Nat}
    (hn : n ∈ l.own) (hcell : l.env.lookup (mangle n) = some a) :
    ∃ i, names[i]? = some n ∧ a = m.cells.length + i ∧ i < new.length := by
  obtain ⟨i, hi⟩ := List.mem_iff_getElem?.1 (h.own n hn)
  have hai := h.cell hi
  rw [hcell] at hai
  exact ⟨i, hi, by simpa using hai, h.length ▸ (List.getElem?_eq_some_iff.1 hi).1⟩

/-- The cells of two names, old or new, differ. -/
theorem apart (h : Opens w home W st m active l names st' new)
    (ha : Agrees w home W st m active) {q q' : Nat} {l₁ l₂ : Link} {n n' : String} {a : Nat}
    (hl₁ : (W ++ [l])[q]? = some l₁) (hl₂ : (W ++ [l])[q']? = some l₂) (hn : n ∈ l₁.own)
    (hn' : n' ∈ l₂.own) (hc : l₁.env.lookup (mangle n) = some a)
    (hc' : l₂.env.lookup (mangle n') = some a) : q = q' ∧ n = n' := by
  rcases World.push_cases hl₁ with ⟨-, hold₁⟩ | ⟨rfl, rfl⟩ <;>
    rcases World.push_cases hl₂ with ⟨-, hold₂⟩ | ⟨rfl, rfl⟩
  · exact ha.apart hold₁ hold₂ hn hn' hc hc'
  · obtain ⟨i, -, rfl, -⟩ := h.exists_index hn' hc'
    have := ha.cells hold₁ hn hc
    omega
  · obtain ⟨i, -, rfl, -⟩ := h.exists_index hn hc
    have := ha.cells hold₂ hn' hc'
    omega
  · obtain ⟨i, hi, rfl, -⟩ := h.exists_index hn hc
    obtain ⟨j, hj, hij, -⟩ := h.exists_index hn' hc'
    obtain rfl : i = j := by omega
    exact ⟨rfl, by simpa [hi] using hj⟩

/-- A new scope and its cells belong together with all that was there. -/
theorem agrees (h : Opens w home W st m active l names st' new)
    (ha : Agrees w home W st m active) :
    Agrees w home (W ++ [l]) st' { m with cells := m.cells ++ new } (W.length :: active) := by
  have hg := h.grows ha
  have hnew {i : Nat} : (m.cells ++ new).getD (m.cells.length + i) .undefined =
      new.getD i .undefined := by
    simp [List.getD_eq_getElem?_getD, List.getElem?_append_right]
  have hold {q a : Nat} {l' : Link} {n : String} (hl : W[q]? = some l') (hn : n ∈ l'.own)
      (hcell : l'.env.lookup (mangle n) = some a) :
      (m.cells ++ new).getD a .undefined = m.cells.getD a .undefined := by
    simp [List.getD_eq_getElem?_getD, List.getElem?_append_left (ha.cells hl hn hcell)]
  refine
    { fits := ?_
      apart := h.apart ha
      size := by simp [h.size]
      parent := ?_
      cells := ?_
      params := ?_
      binds := ?_
      natives := ?_
      held := ?_
      copied := ?_ }
  · intro q l' hl'
    rcases World.push_cases hl' with ⟨-, hl'⟩ | ⟨rfl, rfl⟩
    · exact (ha.fits hl').mono hg.links
    · exact h.fits
  · intro q l' hl'
    rcases World.push_cases hl' with ⟨hq, hl'⟩ | ⟨rfl, rfl⟩
    · rw [h.oldParent q hq, ha.parent hl']
    · exact h.parent
  · intro q l' n a hl' hn hc
    rw [List.length_append]
    rcases World.push_cases hl' with ⟨-, hl'⟩ | ⟨rfl, rfl⟩
    · have := ha.cells hl' hn hc
      omega
    · obtain ⟨i, -, rfl, hi⟩ := h.exists_index hn hc
      omega
  · intro q l' n hl' hn
    rcases World.push_cases hl' with ⟨-, hl'⟩ | ⟨rfl, rfl⟩
    · exact hg.binds (ha.params hl' hn)
    · exact h.params n hn
  · intro q l' n hl' hb
    rcases World.push_cases hl' with ⟨hq, hl'⟩ | ⟨rfl, rfl⟩
    · rw [Store.binds_eq, h.oldValue q hq, ← Store.binds_eq] at hb
      exact ha.binds hl' hb
    · exact h.binds hb
  · intro l' n fn hl' hn hstray hfn
    rcases World.push_cases hl' with ⟨hq, hl'⟩ | ⟨hq, rfl⟩
    · rw [h.oldValue 0 hq]
      exact ha.natives hl' hn hstray hfn
    · exact h.natives hq.symm hn hfn
  · intro q l' n a v hl' hn hc hv
    rcases World.push_cases hl' with ⟨hq, hl'⟩ | ⟨rfl, rfl⟩
    · rw [h.oldValue q hq] at hv
      rw [hold hl' hn hc]
      exact (ha.held hl' hn hc hv).mono hg
    · obtain ⟨i, hi, rfl, -⟩ := h.exists_index hn hc
      rw [hnew]
      exact (h.held hi hv).mono hg
  · intro q p l' n a v hl' hn hc hv hp hk hget
    rcases World.push_cases hl' with ⟨hq, hl'⟩ | ⟨rfl, rfl⟩
    · rw [h.oldValue q hq] at hv
      rw [hold hl' hn hc]
      have hlt := ((ha.fits hl').inner hp).1
      rw [h.get?_old ha (by omega)] at hget
      refine (ha.copied hl' hn hc hv hp (hk.imp_right fun hk => ⟨?_, hk.2⟩) hget).mono hg
      exact (List.mem_cons.1 hk.1).resolve_left (by omega)
    · obtain ⟨i, hi, rfl, -⟩ := h.exists_index hn hc
      rw [hnew]
      have hlt := (h.fits.inner hp).1
      rw [h.get?_old ha hlt] at hget
      exact (h.copied hi hv hp hk hget).mono hg

end Opens

/-! ## Calls of closures -/

/-- The link of the scope that a call makes. -/
def Link.call (W : World) (p : Nat) (lp : Link) (c : Site) (params : List String) (body : Value)
    (env : CellEnv) : Link where
  parent := some p
  params := params
  hoisted := definitions params body
  home n := if n ∈ params ++ definitions params body then some W.length else lp.home n
  env := env
  around := lp.shifting
  barred := c.outlook.barred ++ c.outlook.pending
  shifting := (c.outlook.enter params body).shifting

section Call

variable {w : Writes} {home p : Nat} {W : World} {st : Store} {m : Memory} {active : List Nat}
  {lp : Link} {c : Site} {params : List String} {body : Value} {env : CellEnv}

theorem mem_enter_shifting {n : String} (hp : n ∉ params)
    (hn : n ∈ c.outlook.shifting ∨ n ∈ definitions params body) :
    n ∈ (c.outlook.enter params body).shifting := by
  by_cases hd : n ∈ definitions params body
  · exact List.mem_append_right _ (mem_definitions.1 hd).1
  · refine List.mem_append_left _ (List.mem_filter.2 ⟨hn.resolve_right hd, ?_⟩)
    simp [hp, hd]

theorem mem_enter_barred {n : String} :
    n ∈ (c.outlook.enter params body).barred ↔
      n ∈ c.outlook.barred ++ c.outlook.pending ∧ n ∉ params := by
  simp [Outlook.enter, or_and_right]

theorem mem_enter_pending {n : String} :
    n ∈ (c.outlook.enter params body).pending ↔
      n ∈ definitions params body ∧ n ∈ c.outlook.shifting := by
  simp [Outlook.enter]

theorem Link.call_home_of_mem {n : String} (h : n ∈ params ++ definitions params body) :
    (Link.call W p lp c params body env).home n = some W.length := if_pos h

theorem Link.call_home_of_not_mem {n : String} (h : n ∉ params ++ definitions params body) :
    (Link.call W p lp c params body env).home n = lp.home n := if_neg h

theorem Link.call_fits (ha : Agrees w home W st m active) (hlp : W[p]? = some lp)
    (hc : Captured w W st lp c) (hplain : ∀ n ∈ params ++ definitions params body, Plain n)
    (hcell : ∀ n ∈ params ++ definitions params body, ∃ a, env.lookup (mangle n) = some a)
    (houter : ∀ n, Plain n → n ∉ params ++ definitions params body →
      env.lookup (mangle n) = lp.env.lookup (mangle n))
    (hcopy : ∀ n ∈ definitions params body, n ∈ w.assigned →
      Native.ofName? n = none ∧ lp.home n = none) :
    (Link.call W p lp c params body env).Fits w (W ++ [Link.call W p lp c params body env])
      W.length := by
  have hW {q : Nat} {l : Link} (hl : W[q]? = some l) :
      (W ++ [Link.call W p lp c params body env])[q]? = some l := by
    rw [List.getElem?_append_left (List.getElem?_eq_some_iff.1 hl).1, hl]
  refine
    { plain := hplain
      home_own := fun n hn => if_pos hn
      cell := hcell
      hoisted := fun n hn => mem_enter_shifting (mem_definitions.1 hn).2 (.inr hn)
      around := fun n hn => ?_
      seen := fun {n o} ho => ?_
      unseen := fun {n} hn ho => ?_
      root := fun h => by cases h
      inner := fun {p'} hp => ?_ }
  · by_cases hp : n ∈ params
    · exact .inl hp
    · exact .inr (mem_enter_shifting hp (.inl (hc.shifting ▸ hn)))
  · by_cases hown : n ∈ params ++ definitions params body
    · rw [Link.call_home_of_mem hown] at ho
      cases ho
      exact ⟨Link.call W p lp c params body env, by simp, hown, rfl⟩
    · rw [Link.call_home_of_not_mem hown] at ho
      obtain ⟨lo, hlo, hn, henv⟩ := (ha.fits hlp).seen ho
      exact ⟨lo, hW hlo, hn, (houter n ((ha.fits hlo).plain n hn) hown).trans henv⟩
  · by_cases hown : n ∈ params ++ definitions params body
    · rw [Link.call_home_of_mem hown] at ho
      cases ho
    · rw [Link.call_home_of_not_mem hown] at ho
      exact (houter n hn hown).trans ((ha.fits hlp).unseen hn ho)
  · cases hp
    exact ⟨(List.getElem?_eq_some_iff.1 hlp).1, lp, hW hlp, rfl, fun n hn => if_neg hn, hcopy⟩

theorem Captured.stands {st' : Store} (hc : Captured w W st lp c)
    (hg : Grows W st (W ++ [Link.call W p lp c params body env]) st')
    (hparams : ∀ n ∈ params, st'.binds W.length n = true) :
    Stands w (W ++ [Link.call W p lp c params body env]) st' W.length
      (Link.call W p lp c params body env) (c.enter params body) where
  link := by simp
  own := rfl
  bound n := by
    by_cases hown : n ∈ params ++ definitions params body
    · have hmem : n ∈ c.bound ++ params ++ definitions params body := by
        rw [List.append_assoc]
        exact List.mem_append_right _ hown
      simp only [Site.enter, Link.call_home_of_mem hown, hmem, Option.isSome_some]
    · have hiff : n ∈ c.bound ++ params ++ definitions params body ↔ n ∈ c.bound := by
        rw [List.append_assoc, List.mem_append]
        exact or_iff_left hown
      simp only [Site.enter, Link.call_home_of_not_mem hown, hiff, hc.bound n]
  shifting := rfl
  doubtful n hn := by
    rcases List.mem_append.1 hn with hn | hn
    · obtain ⟨hn, hp⟩ := mem_enter_barred.1 hn
      exact mem_enter_shifting hp (.inl (hc.shifting ▸ hc.doubtful n hn))
    · have hd := (mem_enter_pending.1 hn).1
      exact mem_enter_shifting (mem_definitions.1 hd).2 (.inr hd)
  entered {n} hown hb hn := by
    have hp : n ∉ params := fun hp => by
      rw [hparams n hp] at hb
      cases hb
    have hd : n ∈ definitions params body := (List.mem_append.1 hown).resolve_left hp
    refine ⟨fun hbar => hn (mem_enter_barred.2 ⟨hbar, hp⟩), fun haround => ?_⟩
    exact mem_enter_pending.2 ⟨hd, hc.shifting ▸ haround⟩
  settled {n o} hown ho hn := by
    change n ∉ params ++ definitions params body at hown
    rw [Link.call_home_of_not_mem hown] at ho
    have hp : n ∉ params := fun hp => hown (List.mem_append_left _ hp)
    exact (hc.settled ho fun hbar => hn (mem_enter_barred.2 ⟨hbar, hp⟩)).mono hg
  native {n} ho hstray := by
    by_cases hown : n ∈ params ++ definitions params body
    · rw [Link.call_home_of_mem hown] at ho
      cases ho
    · rw [Link.call_home_of_not_mem hown] at ho
      have hp : n ∉ params := fun hp => hown (List.mem_append_left _ hp)
      exact mem_enter_barred.2 ⟨hc.native ho hstray, hp⟩

/-- The script of an initial value gives the meaning of the name outside, if its copy is kept. -/
theorem Captured.initial {ops : Script.Operators} {n : String} {s : Script} {vs : List ScriptValue}
    (hc : Captured w W st lp c) (ha : Agrees w home W st m active) (hlp : W[p]? = some lp)
    (hplain : ∀ n ∈ params ++ definitions params body, Plain n)
    (hn : n ∈ definitions params body)
    (hinit : initialValue ⟨c.bound, w.assigned⟩ false n = .ok (some s)) :
    ∃ u, Reaches ops 1 ((params.map mangle).zipIdx m.cells.length ++ lp.env) s
        { m with cells := m.cells ++ vs } u { m with cells := m.cells ++ vs } ∧
      ∀ v, (n ∉ lp.shifting ∨ n ∉ c.outlook.barred ++ c.outlook.pending) →
        st.get? p n = some v → Related w W st v u := by
  have hgood (h : n ∉ lp.shifting ∨ n ∉ c.outlook.barred ++ c.outlook.pending) :
      n ∉ c.outlook.barred ++ c.outlook.pending :=
    h.elim (fun hn hmem => hn (hc.doubtful n hmem)) id
  rcases initialValue_cases hinit with ⟨hb, hs, -⟩ | ⟨hb, ⟨op, hop, hs⟩, -⟩ | ⟨-, -, hs⟩
  · cases hs
    obtain ⟨o, ho⟩ := Option.isSome_iff_exists.1 ((hc.bound n).1 hb)
    obtain ⟨lo, hlo, hown, henv⟩ := (ha.fits hlp).seen ho
    obtain ⟨a, hcell⟩ := (ha.fits hlo).cell n hown
    have hlookup : ((params.map mangle).zipIdx m.cells.length ++ lp.env).lookup (mangle n) =
        some a := by
      rw [lookup_zipIdx_append_of_not_mem, henv, hcell]
      rw [mem_map_mangle (fun x hx => hplain x (List.mem_append_left _ hx))
        (hplain n (List.mem_append_right _ hn))]
      exact (mem_definitions.1 hn).2
    refine ⟨m.cells.getD a .undefined, Script.reaches_identifier ?_, fun v hkept hv => ?_⟩
    · simp [Script.read, hlookup, List.getD_eq_getElem?_getD,
        List.getElem?_append_left (ha.cells hlo hown hcell)]
    · obtain ⟨lo', hlo', hsettled⟩ := hc.settled ho (hgood hkept)
      obtain rfl : lo = lo' := by simpa [hlo] using hlo'
      exact ha.read hlp ho hlo (henv.trans hcell) (hsettled.imp_right .inl) hv
  · cases hs
    refine ⟨_, Script.reaches_function _ _, fun v hkept hv => ?_⟩
    have hhome := hc.home_eq_none hb
    have hstray : n ∉ w.stray := fun hstray => hgood hkept (hc.native hhome hstray)
    rw [ha.get?_native hlp hhome hstray hop] at hv
    cases hv
    exact .operator
  · cases hs

/-- A name without an initial value means nothing outside. -/
theorem Captured.get?_fresh {n : String} (hc : Captured w W st lp c)
    (ha : Agrees w home W st m active) (hlp : W[p]? = some lp)
    (hinit : initialValue ⟨c.bound, w.assigned⟩ false n = .ok none) : st.get? p n = none := by
  rcases initialValue_cases hinit with ⟨-, h, -⟩ | ⟨-, ⟨op, -, h⟩, -⟩ | ⟨hb, hnative, -⟩
  · cases h
  · cases h
  · exact ha.get?_unknown hlp (hc.home_eq_none hb) hnative

/-- A scope that is called takes no copy of a name that is assigned anywhere. -/
theorem Captured.uncopied {initial : List (String × Option Script)} {n : String}
    (hc : Captured w W st lp c)
    (hinitial : initialValues ⟨c.bound, w.assigned⟩ false (definitions params body) = .ok initial)
    (hn : n ∈ definitions params body) (hassigned : n ∈ w.assigned) :
    Native.ofName? n = none ∧ lp.home n = none := by
  obtain ⟨hmap, hinit⟩ := initialValues_eq_ok hinitial
  rw [← hmap] at hn
  obtain ⟨d, hd, rfl⟩ := List.mem_map.1 hn
  rcases initialValue_cases (hinit d hd) with ⟨-, -, h⟩ | ⟨-, -, h⟩ | ⟨hb, hnative, -⟩
  · exact absurd hassigned (h rfl)
  · exact absurd hassigned (h rfl)
  · exact ⟨hnative, hc.home_eq_none hb⟩

/-- The scope of a call: the parameters are bound to the arguments, nothing else is bound. -/
theorem valueAt?_call {params : List String} {args : List Value} (hnodup : params.Nodup)
    (hlen : args.length = params.length) (p : Nat) {n : String} {v : Value} :
    ((st.pushEmpty (some p)).defineAll st.next (params.zip args)).valueAt? st.next n = some v ↔
      ∃ i : Nat, params[i]? = some n ∧ args[i]? = some v := by
  have hkeys : (params.zip args).map Prod.fst = params := List.map_fst_zip (by omega)
  have hsize : st.next < (st.pushEmpty (some p)).scopes.size := by
    simp [Store.pushEmpty, Store.next]
  have hget {i : Nat} {v : Value} (hn : params[i]? = some n) (hv : args[i]? = some v) :
      ((st.pushEmpty (some p)).defineAll st.next (params.zip args)).valueAt? st.next n = some v :=
    Store.valueAt?_defineAll _ hsize (hkeys.symm ▸ hnodup)
      (List.mem_of_getElem? (List.getElem?_zip_eq_some.2 ⟨hn, hv⟩))
  constructor
  · intro h
    by_cases hn : n ∈ params
    · obtain ⟨i, hi, hni⟩ := List.mem_iff_getElem.1 hn
      have hi' : params[i]? = some n := by rw [List.getElem?_eq_getElem hi, hni]
      have hv' : args[i]? = some args[i] := List.getElem?_eq_getElem (by omega)
      rw [hget hi' hv'] at h
      exact ⟨i, hi', hv'.trans h⟩
    · rw [Store.valueAt?_defineAll_of_not_mem _ _ _ (.inr (hkeys.symm ▸ hn)), Store.pushEmpty,
        Store.valueAt?_push, if_pos rfl] at h
      cases h
  · rintro ⟨i, hi, hv⟩
    exact hget hi hv

theorem valueAt?_call_eq_none {params : List String} {args : List Value} (hnodup : params.Nodup)
    (hlen : args.length = params.length) (p : Nat) {n : String} :
    ((st.pushEmpty (some p)).defineAll st.next (params.zip args)).valueAt? st.next n = none ↔
      n ∉ params := by
  rw [Option.eq_none_iff_forall_ne_some]
  constructor
  · intro h hn
    obtain ⟨i, hi, hni⟩ := List.mem_iff_getElem.1 hn
    exact h args[i] ((valueAt?_call hnodup hlen p).2
      ⟨i, by rw [List.getElem?_eq_getElem hi, hni], List.getElem?_eq_getElem (by omega)⟩)
  · intro hn v h
    obtain ⟨i, hi, -⟩ := (valueAt?_call hnodup hlen p).1 h
    exact hn (List.mem_of_getElem? hi)

theorem binds_call {params : List String} {args : List Value} (hnodup : params.Nodup)
    (hlen : args.length = params.length) (p : Nat) {n : String} :
    ((st.pushEmpty (some p)).defineAll st.next (params.zip args)).binds st.next n = true ↔
      n ∈ params := by
  rw [Store.binds_eq, Option.isSome_iff_ne_none, ne_eq, valueAt?_call_eq_none hnodup hlen,
    Decidable.not_not]

/-- The scope of a call and the cells of its names, when the arguments are related and the cells of
the names that the body defines hold good copies. -/
theorem Captured.opens {initial : List (String × Option Script)} {args : List Value}
    {vs us : List ScriptValue} (hc : Captured w W st lp c) (ha : Agrees w home W st m active)
    (hlp : W[p]? = some lp) (hnodup : params.Nodup)
    (hplain : ∀ n ∈ params ++ definitions params body, Plain n)
    (hinitial : initialValues ⟨c.bound, w.assigned⟩ false (definitions params body) = .ok initial)
    (hargs : RelatedAll w W st args vs) (hlen : args.length = params.length)
    (hcopies : ∀ {i : Nat} {n : String}, (wrapperNames initial)[i]? = some n →
      ∀ v, (n ∉ lp.shifting ∨ n ∉ c.outlook.barred ++ c.outlook.pending) → st.get? p n = some v →
        Related w W st v ((fill ((wrapperNames initial).map mangle) us).getD i .undefined)) :
    Opens w home W st m active
      (Link.call W p lp c params body
        (scopeEnv m.cells.length params (wrapperNames initial) lp.env))
      (params ++ wrapperNames initial)
      ((st.pushEmpty (some p)).defineAll st.next (params.zip args))
      (fill (params.map mangle) vs ++ fill ((wrapperNames initial).map mangle) us) := by
  have hnext : W.length = st.next := ha.size
  have hnames := nodup_scopeNames hinitial hnodup
  have hplain' : ∀ n ∈ params ++ wrapperNames initial, Plain n := fun n hn =>
    hplain n ((mem_scopeNames hinitial).1 hn)
  refine
    { fits := Link.call_fits ha hlp hc hplain
        (fun n hn => exists_lookup_scopeEnv hplain' hnames ((mem_scopeNames hinitial).2 hn))
        (fun n hn hown =>
          lookup_scopeEnv_of_not_mem hplain' hn fun h => hown ((mem_scopeNames hinitial).1 h))
        fun n hn hassigned => hc.uncopied hinitial hn hassigned
      size := by simp [Store.pushEmpty, ha.size]
      parent := ?_
      oldParent := ?_
      oldValue := ?_
      own := fun n hn => (mem_scopeNames hinitial).2 hn
      length := by simp
      cell := fun hi => lookup_scopeEnv hplain' hnames hi
      params := ?_
      binds := ?_
      natives := ?_
      held := ?_
      copied := ?_ }
  · rw [Store.parent_defineAll, Store.pushEmpty, Store.scopes_push, if_pos hnext]
    rfl
  · intro q hq
    rw [Store.parent_defineAll, Store.pushEmpty, Store.scopes_push, if_neg (by omega)]
  · intro q hq n
    have hne : q ≠ st.next := by omega
    rw [Store.valueAt?_defineAll_of_not_mem _ _ _ (.inl hne), Store.pushEmpty,
      Store.valueAt?_push, if_neg hne]
  · intro n hn
    rw [hnext]
    exact (binds_call hnodup hlen p).2 hn
  · intro n hb
    rw [hnext] at hb
    exact .inl (List.mem_append_left _ ((binds_call hnodup hlen p).1 hb))
  · intro n fn hzero
    have := (List.getElem?_eq_some_iff.1 hlp).1
    omega
  · -- only parameters are bound, and they stand before the other names
    intro i n v hi hv
    rw [hnext] at hv
    obtain ⟨j, hj, hvj⟩ := (valueAt?_call hnodup hlen p).1 hv
    have hjlt : j < params.length := (List.getElem?_eq_some_iff.1 hj).1
    obtain rfl : i = j := by
      have hj' : (params ++ wrapperNames initial)[j]? = some n := by
        rw [List.getElem?_append_left hjlt, hj]
      exact (List.getElem?_inj (List.getElem?_eq_some_iff.1 hi).1 hnames).1 (hi.trans hj'.symm)
    obtain ⟨u, hu, hrel⟩ := hargs.getElem? hvj
    have hfill : (fill (params.map mangle) vs)[i]? = some u :=
      Script.getElem?_fill (by simpa using hjlt) hu
    rw [List.getD_eq_getElem?_getD, List.getElem?_append_left (by simpa using hjlt), hfill]
    exact hrel
  · intro i p' n v hi hv hp hkept hget
    cases hp
    rw [hnext, valueAt?_call_eq_none hnodup hlen] at hv
    have hige : params.length ≤ i := by
      by_contra hlt
      rw [List.getElem?_append_left (by omega)] at hi
      exact hv (List.mem_of_getElem? hi)
    rw [List.getElem?_append_right hige] at hi
    have hrel := hcopies hi v (hkept.imp_right And.right) hget
    rw [List.getD_eq_getElem?_getD] at hrel ⊢
    rwa [List.getElem?_append_right (by simpa using hige), Script.length_fill, List.length_map]

/-- A call of a closure and the call of its script make a scope and cells that belong together,
and the body runs there. -/
theorem Agrees.enter {s : Script} {args : List Value} {vs : List ScriptValue}
    (ha : Agrees w home W st m active) (ops : Script.Operators) (hlp : W[p]? = some lp)
    (hc : Captured w W st lp c) (hb : LowersBody w c params body s)
    (hargs : RelatedAll w W st args vs) (hlen : args.length = params.length) :
    ∃ l t m', Lowers w (c.enter params body) body t ∧
      Agrees w home (W ++ [l])
        ((st.pushEmpty (some p)).defineAll st.next (params.zip args)) m' (W.length :: active) ∧
      Grows W st (W ++ [l]) ((st.pushEmpty (some p)).defineAll st.next (params.zip args)) ∧
      Stands w (W ++ [l]) ((st.pushEmpty (some p)).defineAll st.next (params.zip args)) W.length l
        (c.enter params body) ∧
      ∀ {k : Nat} {v : ScriptValue} {m'' : Memory}, 1 ≤ k → Reaches ops k l.env t m' v m'' →
        Reaches ops (k + 1) ((params.map mangle).zipIdx m.cells.length ++ lp.env) s
          { m with cells := m.cells ++ fill (params.map mangle) vs } v m'' := by
  cases hb with
  | @mk _ _ _ t initial hnodup hplain hinitial hbody =>
  obtain ⟨hmap, hinit⟩ := initialValues_eq_ok hinitial
  obtain ⟨us, hus, hcopies⟩ := exists_copies ops
    ((params.map mangle).zipIdx m.cells.length ++ lp.env)
    { m with cells := m.cells ++ fill (params.map mangle) vs }
    (fun n u => ∀ v, (n ∉ lp.shifting ∨ n ∉ c.outlook.barred ++ c.outlook.pending) →
      st.get? p n = some v → Related w W st v u)
    (fun d hd s' hs' =>
      hc.initial ha hlp hplain (hmap ▸ List.mem_map_of_mem hd) (hs' ▸ hinit d hd))
    fun d hd hnone u v _ hv => by
      rw [hc.get?_fresh ha hlp (hnone ▸ hinit d hd)] at hv
      cases hv
  have hopens := hc.opens ha hlp hnodup hplain hinitial hargs hlen hcopies
  have hgrows := hopens.grows ha
  refine ⟨_, t, _, hbody, hopens.agrees ha, hgrows, hc.stands hgrows hopens.params, ?_⟩
  intro k v m'' hk ht
  refine reaches_wrapper hk hus ?_
  simpa [Link.call, scopeEnv, List.append_assoc] using ht

end Call

/-! ## The scope of a program -/

/-- The link of the scope of a program. -/
def Link.start (program : Value) (env : CellEnv) : Link where
  parent := none
  params := []
  hoisted := definitions [] program
  home n := if n ∈ definitions [] program then some 0 else none
  env := env
  around := []
  barred := []
  shifting := (Outlook.initial program).shifting

section Start

variable {program : Value} {env : CellEnv}

theorem Link.start_fits {w : Writes} (hplain : ∀ n ∈ definitions [] program, Plain n)
    (hcell : ∀ n ∈ definitions [] program, ∃ a, env.lookup (mangle n) = some a)
    (houter : ∀ n, Plain n → n ∉ definitions [] program → env.lookup (mangle n) = none) :
    (Link.start program env).Fits w [Link.start program env] 0 where
  plain := hplain
  home_own n hn := if_pos hn
  cell := hcell
  hoisted n hn := List.mem_append_right _ (mem_definitions.1 hn).1
  around n hn := by cases hn
  seen {n o} ho := by
    change (if n ∈ definitions [] program then some 0 else none) = some o at ho
    split at ho
    · rename_i hn
      cases ho
      exact ⟨_, rfl, hn, rfl⟩
    · cases ho
  unseen {n} hn ho := by
    change (if n ∈ definitions [] program then some 0 else none) = none at ho
    split at ho
    · cases ho
    · rename_i hown
      exact houter n hn hown
  root _ := ⟨rfl, fun n hn => if_neg hn⟩
  inner hp := by cases hp

theorem stands_start (st : Store) :
    Stands (.ofProgram program) [Link.start program env] st 0 (Link.start program env)
      (.initial program) where
  link := rfl
  own := rfl
  bound n := by
    by_cases hn : n ∈ definitions [] program <;> simp [Site.initial, Link.start, hn]
  shifting := rfl
  doubtful n hn := by
    rcases List.mem_append.1 hn with hn | hn
    · exact List.mem_append_left _ hn
    · cases hn
  entered {n} _ _ _ := ⟨by simp [Link.start], fun h => by cases h⟩
  settled {n o} hown ho _ := by
    change n ∉ definitions [] program at hown
    change (if n ∈ definitions [] program then some 0 else none) = some o at ho
    rw [if_neg hown] at ho
    cases ho
  native _ hstray := hstray

theorem agrees_nil (w : Writes) (home : Nat) : Agrees w home [] {} {} [] where
  fits hl := by cases hl
  apart hl := by cases hl
  size := rfl
  parent hl := by cases hl
  cells hl := by cases hl
  params hl := by cases hl
  binds hl := by cases hl
  natives hl := by cases hl
  held hl := by cases hl
  copied hl := by cases hl

/-- A program and its script start in a scope and with cells that belong together. -/
theorem agrees_start (ops : Script.Operators) (s : Script) (home : Nat)
    (hread : program.wellRead = true) {initial : List (String × Option Script)}
    (hinitial : initialValues ⟨[], program.targets .assign true⟩ true (definitions [] program) =
      .ok initial) :
    ∃ l m', Agrees (.ofProgram program) home [l] (Store.pushGlobal {} home) m' [0] ∧
      Stands (.ofProgram program) [l] (Store.pushGlobal {} home) 0 l (.initial program) ∧
      ∀ {k : Nat} {v : ScriptValue} {m'' : Memory}, 1 ≤ k → Reaches ops k l.env s m' v m'' →
        Reaches ops (k + 1) [] (wrapper initial s) {} v m'' := by
  obtain ⟨hmap, hinit⟩ := initialValues_eq_ok hinitial
  have hplain : ∀ n ∈ definitions [] program, Plain n := fun n hn =>
    Script.plain_of_isSymbolName
      (isSymbolName_of_mem_targets program hread (mem_definitions.1 hn).1)
  have hnames := nodup_scopeNames hinitial List.nodup_nil
  have hplain' : ∀ n ∈ [] ++ wrapperNames initial, Plain n := fun n hn =>
    hplain n ((mem_scopeNames hinitial).1 hn)
  have hvalue (n : String) : (Store.pushGlobal {} home).valueAt? 0 n =
      (Native.ofName? n).map (.native · home) := lookup_nativeBindings home n
  obtain ⟨us, hus, hcopies⟩ := exists_copies ops [] {}
    (fun n u => ∀ v, (Native.ofName? n).map (.native · home) = some v →
      Related (.ofProgram program) [] {} v u)
    (fun d hd s' hs' => by
      rcases initialValue_cases (hinit d hd) with ⟨hb, -⟩ | ⟨-, ⟨op, hop, hs⟩, -⟩ | ⟨-, -, hs⟩
      · cases hb
      · cases hs'.symm.trans hs
        refine ⟨_, Script.reaches_function _ _, fun v hv => ?_⟩
        rw [hop] at hv
        cases hv
        exact .operator
      · cases hs'.symm.trans hs)
    fun d hd hnone u v hv => by
      rcases initialValue_cases (hinit d hd) with ⟨hb, -⟩ | ⟨-, ⟨op, -, hs⟩, -⟩ | ⟨-, hnative, -⟩
      · cases hb
      · cases hnone.symm.trans hs
      · simp [hnative] at hv
  have hopens : Opens (.ofProgram program) home [] {} {} []
      (Link.start program (scopeEnv 0 [] (wrapperNames initial) [])) ([] ++ wrapperNames initial)
      (Store.pushGlobal {} home) (fill ((wrapperNames initial).map mangle) us) := by
    refine
      { fits := Link.start_fits hplain
          (fun n hn => exists_lookup_scopeEnv hplain' hnames ((mem_scopeNames hinitial).2 hn))
          fun n hn hown =>
            lookup_scopeEnv_of_not_mem hplain' hn fun h => hown ((mem_scopeNames hinitial).1 h)
        size := rfl
        parent := rfl
        oldParent := fun q hq => by simp at hq
        oldValue := fun q hq => by simp at hq
        own := fun n hn => (mem_scopeNames hinitial).2 hn
        length := by simp
        cell := fun hi => lookup_scopeEnv hplain' hnames hi
        params := fun n hn => by cases hn
        binds := ?_
        natives := ?_
        held := fun {i n v} hi hv => hcopies hi v ((hvalue n).symm.trans hv)
        copied := fun _ _ hp => by cases hp }
    · intro n hb
      refine .inr ⟨rfl, ?_⟩
      rw [Store.binds_eq] at hb
      simpa [hvalue] using hb
    · intro n fn _ _ hfn
      rw [hvalue, hfn]
      rfl
  refine ⟨_, _, hopens.agrees (agrees_nil _ home), stands_start _, ?_⟩
  intro k v m'' hk ht
  refine reaches_wrapper hk hus ?_
  simpa [Link.start, scopeEnv] using ht

end Start

end MiniLisp
