import MiniLisp.Proofs.Script.Semantics
import MiniLisp.Proofs.Script.Translation
import MiniLisp.Proofs.Store

/-!
# Stores and memories that belong together

While a program and its script run side by side, every scope of the store has a link: it tells the
names of the scope, where the names in sight are owned, and in which cells their values are. A
world is the list of the links.

* `Related` ties a value to a script value. It depends on the world and on the names that are bound
  by now, and it stays true as both grow (`Related.mono`).
* `Agrees` ties a store to a memory: the cell of a bound name holds the value of the name, and the
  cell of a name that is not bound yet holds a copy of what the name means outside, as long as
  that copy is good.
* `Stands` says that a site of the program describes a scope.

The copy in a cell is good while the scope is running, if it was good when the scope was entered,
and for ever, if the name cannot get another meaning outside.
-/

namespace MiniLisp

open Script (mangle Plain Memory)
open Lowering (operatorFunction)

/-- What is known of a scope. -/
structure Link where
  parent : Option Nat
  params : List String
  /-- The names that the scope may define and that are no parameters. -/
  hoisted : List String
  /-- The scopes that own the names in sight. -/
  home : String → Option Nat
  env : CellEnv
  /-- The names that may get another meaning around the scope. -/
  around : List String
  /-- The names whose copies were not good when the scope was entered. -/
  barred : List String
  /-- The names that may get another meaning around a function made in the scope. -/
  shifting : List String

/-- The names of a scope. -/
def Link.own (l : Link) : List String := l.params ++ l.hoisted

/-- The links of all scopes, by their numbers. -/
abbrev World := List Link

/-! ## Growth -/

/-- More scopes are there, and more names are bound. -/
structure Grows (W : World) (st : Store) (W' : World) (st' : Store) : Prop where
  links : ∀ {q : Nat} {l : Link}, W[q]? = some l → W'[q]? = some l
  binds : ∀ {q : Nat} {n : String}, st.binds q n = true → st'.binds q n = true

theorem Grows.refl (W : World) (st : Store) : Grows W st W st := ⟨id, id⟩

theorem Grows.trans {W W' W'' : World} {st st' st'' : Store} (h : Grows W st W' st')
    (h' : Grows W' st' W'' st'') : Grows W st W'' st'' :=
  ⟨h'.links ∘ h.links, h'.binds ∘ h.binds⟩

theorem Grows.define (W : World) (st : Store) (o : Nat) (n : String) (v : Value) :
    Grows W st W (st.define o n v) :=
  ⟨id, fun h => st.binds_define o _ n _ v h⟩

theorem Grows.mint (W : World) (st : Store) (q : Nat) : Grows W st W (st.mint q) :=
  ⟨id, fun h => (st.binds_mint q _ _).trans h⟩

/-! ## Related values -/

/-- The copy of a name that its owner may hold stays good: the owner binds the name, or the name
cannot get another meaning around the owner. -/
def Settled (W : World) (st : Store) (o : Nat) (n : String) : Prop :=
  ∃ l, W[o]? = some l ∧ (st.binds o n = true ∨ n ∉ l.around)

theorem Settled.mono {W W' : World} {st st' : Store} {o : Nat} {n : String}
    (h : Settled W st o n) (hg : Grows W st W' st') : Settled W' st' o n := by
  obtain ⟨l, hl, h⟩ := h
  exact ⟨l, hg.links hl, h.imp_left hg.binds⟩

/-- A site describes a scope for functions made there. -/
structure Captured (w : Writes) (W : World) (st : Store) (l : Link) (c : Site) : Prop where
  bound : ∀ n, n ∈ c.bound ↔ (l.home n).isSome = true
  shifting : c.outlook.shifting = l.shifting
  doubtful : ∀ n ∈ c.outlook.barred ++ c.outlook.pending, n ∈ l.shifting
  settled : ∀ {n : String} {o : Nat}, l.home n = some o →
    n ∉ c.outlook.barred ++ c.outlook.pending → Settled W st o n
  native : ∀ {n : String}, l.home n = none → n ∈ w.stray →
    n ∈ c.outlook.barred ++ c.outlook.pending

theorem Captured.mono {w : Writes} {W W' : World} {st st' : Store} {l : Link} {c : Site}
    (h : Captured w W st l c) (hg : Grows W st W' st') : Captured w W' st' l c :=
  { h with settled := fun ho hn => (h.settled ho hn).mono hg }

theorem Captured.home_eq_none {w : Writes} {W : World} {st : Store} {l : Link} {c : Site}
    (h : Captured w W st l c) {n : String} (hn : n ∉ c.bound) : l.home n = none := by
  rw [h.bound] at hn
  simpa using hn

mutual

/-- A script value stands for a value. -/
inductive Related (w : Writes) (W : World) (st : Store) : Value → ScriptValue → Prop
  | atom {a : Atom} : Related w W st (.atom a) (.atom a)
  | list {flavor : Flavor} {vs : List Value} {us : List ScriptValue} : RelatedAll w W st vs us →
      Related w W st (.list flavor vs) (.array us)
  | operator {op : Operator} {home : Nat} {env : CellEnv} :
      Related w W st (.native (.operator op) home)
        (.function ["a", "b"] (.binary op.sign (.identifier "a") (.identifier "b")) env)
  | closure {q serial : Nat} {l : Link} {c : Site} {params : List String} {body : Value}
      {s : Script} :
      W[q]? = some l → Captured w W st l c → LowersBody w c params body s →
      Related w W st (.closure params body q serial) (.function (params.map mangle) s l.env)

/-- Script values stand for values, one for one. -/
inductive RelatedAll (w : Writes) (W : World) (st : Store) : List Value → List ScriptValue → Prop
  | nil : RelatedAll w W st [] []
  | cons {v : Value} {u : ScriptValue} {vs : List Value} {us : List ScriptValue} :
      Related w W st v u → RelatedAll w W st vs us → RelatedAll w W st (v :: vs) (u :: us)

end

section Related

variable {w : Writes} {W W' : World} {st st' : Store}

mutual

theorem Related.mono {v : Value} {u : ScriptValue} (hg : Grows W st W' st') :
    Related w W st v u → Related w W' st' v u
  | .atom => .atom
  | .list h => .list (h.mono hg)
  | .operator => .operator
  | .closure hl hc hb => .closure (hg.links hl) (hc.mono hg) hb

theorem RelatedAll.mono {vs : List Value} {us : List ScriptValue} (hg : Grows W st W' st') :
    RelatedAll w W st vs us → RelatedAll w W' st' vs us
  | .nil => .nil
  | .cons h hs => .cons (h.mono hg) (hs.mono hg)

end

mutual

/-- A value of atoms and lists stands for its image only. -/
theorem Related.image {v : Value} {u u' : ScriptValue} :
    Related w W st v u → v.image? = some u' → u' = u
  | .atom, h => by simpa [Value.image?] using h.symm
  | .list hs, h => by
    rw [Value.image?] at h
    obtain ⟨us', hus, rfl⟩ := Option.map_eq_some_iff.1 h
    rw [hs.image hus]
  | .operator, h => by simp [Value.image?] at h
  | .closure .., h => by simp [Value.image?] at h

theorem RelatedAll.image {vs : List Value} {us us' : List ScriptValue} :
    RelatedAll w W st vs us → Value.imageAll? vs = some us' → us' = us
  | .nil, h => by simpa [Value.imageAll?] using h.symm
  | .cons hv hs, h => by
    rw [Value.imageAll?] at h
    obtain ⟨u', hu, h⟩ := Option.bind_eq_some_iff.1 h
    obtain ⟨us', hus, rfl⟩ := Option.map_eq_some_iff.1 h
    rw [hv.image hu, hs.image hus]

end

theorem RelatedAll.length {vs : List Value} {us : List ScriptValue} :
    RelatedAll w W st vs us → vs.length = us.length
  | .nil => rfl
  | .cons _ hs => by simp [hs.length]

theorem RelatedAll.getElem? {vs : List Value} {us : List ScriptValue} {i : Nat} {v : Value} :
    RelatedAll w W st vs us → vs[i]? = some v → ∃ u, us[i]? = some u ∧ Related w W st v u
  | .nil, h => by simp at h
  | .cons hv hs, h => by
    cases i with
    | zero =>
      cases h
      exact ⟨_, rfl, hv⟩
    | succ i => simpa using hs.getElem? (by simpa using h)

theorem RelatedAll.getLast? {vs : List Value} {us : List ScriptValue} {v : Value}
    (h : RelatedAll w W st vs us) (hv : vs.getLast? = some v) :
    ∃ u, us.getLast? = some u ∧ Related w W st v u := by
  rw [List.getLast?_eq_getElem?] at hv
  rw [List.getLast?_eq_getElem?, ← h.length]
  exact h.getElem? hv

end Related

/-! ## Links that fit -/

/-- A link has its place in a world. -/
structure Link.Fits (w : Writes) (W : World) (q : Nat) (l : Link) : Prop where
  plain : ∀ n ∈ l.own, Plain n
  home_own : ∀ n ∈ l.own, l.home n = some q
  cell : ∀ n ∈ l.own, ∃ a, l.env.lookup (mangle n) = some a
  hoisted : ∀ n ∈ l.hoisted, n ∈ l.shifting
  around : ∀ n ∈ l.around, n ∈ l.params ∨ n ∈ l.shifting
  /-- A name in sight is a name of its owner, in the same cell. -/
  seen : ∀ {n : String} {o : Nat}, l.home n = some o →
    ∃ lo, W[o]? = some lo ∧ n ∈ lo.own ∧ l.env.lookup (mangle n) = lo.env.lookup (mangle n)
  unseen : ∀ {n : String}, Plain n → l.home n = none → l.env.lookup (mangle n) = none
  root : l.parent = none → q = 0 ∧ ∀ n ∉ l.own, l.home n = none
  inner : ∀ {p : Nat}, l.parent = some p → p < q ∧ ∃ lp, W[p]? = some lp ∧
    l.around = lp.shifting ∧ (∀ n ∉ l.own, l.home n = lp.home n) ∧
    -- a scope gets no copy of a name that is assigned anywhere
    ∀ n ∈ l.hoisted, n ∈ w.assigned → Native.ofName? n = none ∧ lp.home n = none

theorem Link.Fits.mono {w : Writes} {W W' : World} {q : Nat} {l : Link} (h : l.Fits w W q)
    (hW : ∀ {q : Nat} {l : Link}, W[q]? = some l → W'[q]? = some l) : l.Fits w W' q :=
  { h with
    seen := fun hn => by
      obtain ⟨lo, hlo, hown, henv⟩ := h.seen hn
      exact ⟨lo, hW hlo, hown, henv⟩
    inner := fun hp => by
      obtain ⟨hlt, lp, hlp, hrest⟩ := h.inner hp
      exact ⟨hlt, lp, hW hlp, hrest⟩ }

/-- The copy of a name in a cell of its scope has to be good. -/
def Link.Kept (l : Link) (active : List Nat) (q : Nat) (n : String) : Prop :=
  n ∉ l.around ∨ (q ∈ active ∧ n ∉ l.barred)

/-- The store of a program and the memory of its script belong together; `active` are the scopes
whose bodies are running. -/
structure Agrees (w : Writes) (home : Nat) (W : World) (st : Store) (m : Memory)
    (active : List Nat) : Prop where
  fits : ∀ {q : Nat} {l : Link}, W[q]? = some l → l.Fits w W q
  /-- No two names share a cell. -/
  apart : ∀ {q q' : Nat} {l l' : Link} {n n' : String} {a : Nat},
    W[q]? = some l → W[q']? = some l' → n ∈ l.own → n' ∈ l'.own →
    l.env.lookup (mangle n) = some a → l'.env.lookup (mangle n') = some a → q = q' ∧ n = n'
  size : W.length = st.scopes.size
  parent : ∀ {q : Nat} {l : Link}, W[q]? = some l →
    (st.scopes[q]?).map Scope.parent = some l.parent
  cells : ∀ {q : Nat} {l : Link} {n : String} {a : Nat}, W[q]? = some l → n ∈ l.own →
    l.env.lookup (mangle n) = some a → a < m.cells.length
  params : ∀ {q : Nat} {l : Link} {n : String}, W[q]? = some l → n ∈ l.params →
    st.binds q n = true
  binds : ∀ {q : Nat} {l : Link} {n : String}, W[q]? = some l → st.binds q n = true →
    n ∈ l.own ∨ (q = 0 ∧ (Native.ofName? n).isSome = true)
  natives : ∀ {l : Link} {n : String} {fn : Native}, W[0]? = some l → n ∉ l.own → n ∉ w.stray →
    Native.ofName? n = some fn → st.valueAt? 0 n = some (.native fn home)
  /-- The cell of a bound name holds its value. -/
  held : ∀ {q : Nat} {l : Link} {n : String} {a : Nat} {v : Value}, W[q]? = some l → n ∈ l.own →
    l.env.lookup (mangle n) = some a → st.valueAt? q n = some v →
    Related w W st v (m.cells.getD a .undefined)
  /-- The cell of another name holds what the name means outside. -/
  copied : ∀ {q p : Nat} {l : Link} {n : String} {a : Nat} {v : Value}, W[q]? = some l →
    n ∈ l.own → l.env.lookup (mangle n) = some a → st.valueAt? q n = none →
    l.parent = some p → l.Kept active q n → st.get? p n = some v →
    Related w W st v (m.cells.getD a .undefined)

namespace Agrees

variable {w : Writes} {home q : Nat} {W : World} {st : Store} {m : Memory} {active : List Nat}

theorem deactivate (h : Agrees w home W st m (q :: active)) :
    Agrees w home W st m active :=
  { h with
    copied := fun hl hn ha hv hp hk => h.copied hl hn ha hv hp
      (hk.imp_right fun hk => ⟨List.mem_cons_of_mem _ hk.1, hk.2⟩) }

theorem scope (h : Agrees w home W st m active) {q : Nat} {l : Link} (hl : W[q]? = some l) :
    ∃ s, st.scopes[q]? = some s ∧ s.parent = l.parent := by
  simpa using h.parent hl

theorem link (h : Agrees w home W st m active) {q : Nat} {s : Scope}
    (hs : st.scopes[q]? = some s) : ∃ l, W[q]? = some l ∧ s.parent = l.parent := by
  have hq : q < W.length := by
    rw [h.size]
    exact (Array.getElem?_eq_some_iff.1 hs).1
  have hl : W[q]? = some W[q] := List.getElem?_eq_getElem hq
  refine ⟨W[q], hl, ?_⟩
  simpa [hs] using h.parent hl

theorem nested (h : Agrees w home W st m active) : st.Nested := by
  intro q s p hs hp
  obtain ⟨l, hl, hpar⟩ := h.link hs
  exact ((h.fits hl).inner (hpar ▸ hp)).1

/-- To count a function that is made changes no binding. -/
theorem mint (h : Agrees w home W st m active) (p : Nat) :
    Agrees w home W (st.mint p) m active where
  fits := h.fits
  apart := h.apart
  size := h.size.trans (st.size_mint p).symm
  parent := fun hl => (st.parent_mint p _).trans (h.parent hl)
  cells := h.cells
  params := fun hl hn => (st.binds_mint p _ _).trans (h.params hl hn)
  binds := fun hl hb => h.binds hl ((st.binds_mint p _ _).symm.trans hb)
  natives := fun hl hn hw hfn => (st.valueAt?_mint p _ _).trans (h.natives hl hn hw hfn)
  held := fun hl hn ha hv => by
    rw [Store.valueAt?_mint] at hv
    exact (h.held hl hn ha hv).mono (.mint W st p)
  copied := fun hl hn ha hv hp hk hget => by
    rw [Store.valueAt?_mint] at hv
    rw [Store.get?_mint h.nested] at hget
    exact (h.copied hl hn ha hv hp hk hget).mono (.mint W st p)

theorem get?_root (h : Agrees w home W st m active) {q : Nat} {l : Link} (hl : W[q]? = some l)
    (hp : l.parent = none) (n : String) : st.get? q n = st.valueAt? q n := by
  obtain ⟨s, hs, hpar⟩ := h.scope hl
  rw [Store.get?_eq h.nested hs, hpar, hp]
  cases st.valueAt? q n <;> rfl

theorem get?_inner (h : Agrees w home W st m active) {q p : Nat} {l : Link}
    (hl : W[q]? = some l) (hp : l.parent = some p) (n : String) :
    st.get? q n = (st.valueAt? q n).or (st.get? p n) := by
  obtain ⟨s, hs, hpar⟩ := h.scope hl
  rw [Store.get?_eq h.nested hs, hpar, hp]
  rfl

/-- A scope does not bind the names of other scopes. -/
theorem valueAt?_eq_none (h : Agrees w home W st m active) {q : Nat} {l : Link} {n : String}
    (hl : W[q]? = some l) (hq : q ≠ 0) (hn : n ∉ l.own) : st.valueAt? q n = none := by
  have hb := h.binds hl (n := n)
  rw [Store.binds_eq] at hb
  cases hv : st.valueAt? q n with
  | none => rfl
  | some v =>
    rcases hb (by simp [hv]) with hown | ⟨hzero, -⟩
    · exact absurd hown hn
    · exact absurd hzero hq

/-- A name of a scope that the scope does not bind yet is no parameter. -/
theorem hoisted (h : Agrees w home W st m active) {l : Link} {n : String} (hl : W[q]? = some l)
    (hown : n ∈ l.own) (hb : ¬st.binds q n = true) : n ∈ l.hoisted :=
  (List.mem_append.1 hown).resolve_left fun hparam => hb (h.params hl hparam)

theorem owner?_inner (h : Agrees w home W st m active) {p : Nat} {l : Link} {n : String}
    (hl : W[q]? = some l) (hp : l.parent = some p) (hown : n ∉ l.own) :
    st.owner? q n = st.owner? p n := by
  obtain ⟨s, hs, hpar⟩ := h.scope hl
  have hq : q ≠ 0 := by
    have := ((h.fits hl).inner hp).1
    omega
  rw [Store.owner?_cons h.nested hs (hpar.trans hp), Store.binds_eq, h.valueAt?_eq_none hl hq hown]
  rfl

/-- A name in sight has the owner that it has in the scope whose name it is. -/
theorem owner?_home (h : Agrees w home W st m active) {n : String} {o : Nat} (q : Nat) {l : Link}
    (hl : W[q]? = some l) (ho : l.home n = some o) : st.owner? q n = st.owner? o n := by
  induction q using Nat.strongRecOn generalizing l with
  | _ q ih =>
    by_cases hown : n ∈ l.own
    · rw [(h.fits hl).home_own n hown] at ho
      cases ho
      rfl
    cases hp : l.parent with
    | none =>
      rw [((h.fits hl).root hp).2 n hown] at ho
      cases ho
    | some p =>
      obtain ⟨hlt, lp, hlp, -, hhome, -⟩ := (h.fits hl).inner hp
      rw [h.owner?_inner hl hp hown]
      exact ih p hlt hlp (by rw [← hhome n hown, ho])

/-- A name that no scope in sight owns can have the global scope as its owner only. -/
theorem owner?_foreign (h : Agrees w home W st m active) {n : String} (q : Nat) {l : Link}
    (hl : W[q]? = some l) (hn : l.home n = none) :
    st.owner? q n = st.owner? 0 n ∧ ∃ l₀, W[0]? = some l₀ ∧ l₀.parent = none ∧ n ∉ l₀.own := by
  induction q using Nat.strongRecOn generalizing l with
  | _ q ih =>
    have hown : n ∉ l.own := fun hown => by
      rw [(h.fits hl).home_own n hown] at hn
      cases hn
    cases hp : l.parent with
    | none =>
      obtain rfl := ((h.fits hl).root hp).1
      exact ⟨rfl, l, hl, hp, hown⟩
    | some p =>
      obtain ⟨hlt, lp, hlp, -, hhome, -⟩ := (h.fits hl).inner hp
      rw [h.owner?_inner hl hp hown]
      exact ih p hlt hlp (by rw [← hhome n hown, hn])

theorem get?_home (h : Agrees w home W st m active) {n : String} {o : Nat} {l : Link}
    (hl : W[q]? = some l) (ho : l.home n = some o) : st.get? q n = st.get? o n := by
  rw [Store.get?, Store.get?, h.owner?_home q hl ho]

theorem get?_foreign (h : Agrees w home W st m active) {n : String} {l : Link}
    (hl : W[q]? = some l) (hn : l.home n = none) :
    st.get? q n = st.valueAt? 0 n ∧ ∃ l₀, W[0]? = some l₀ ∧ n ∉ l₀.own := by
  obtain ⟨howner, l₀, hl₀, hroot, hown⟩ := h.owner?_foreign q hl hn
  refine ⟨?_, l₀, hl₀, hown⟩
  rw [Store.get?, howner]
  exact h.get?_root hl₀ hroot n

/-- A name that no scope in sight owns and that is no native has no value. -/
theorem get?_unknown (h : Agrees w home W st m active) {n : String} {q : Nat} {l : Link}
    (hl : W[q]? = some l) (hn : l.home n = none) (hnative : Native.ofName? n = none) :
    st.get? q n = none := by
  obtain ⟨hget, l₀, hl₀, hown⟩ := h.get?_foreign hl hn
  rw [hget]
  have hb := h.binds hl₀ (n := n)
  rw [Store.binds_eq] at hb
  cases hv : st.valueAt? 0 n with
  | none => rfl
  | some v =>
    rcases hb (by simp [hv]) with hown' | ⟨-, hsome⟩
    · exact absurd hown' hown
    · simp [hnative] at hsome

/-- A native that no scope in sight owns and that is never assigned is itself. -/
theorem get?_native (h : Agrees w home W st m active) {n : String} {fn : Native} {q : Nat}
    {l : Link} (hl : W[q]? = some l) (hn : l.home n = none) (hstray : n ∉ w.stray)
    (hnative : Native.ofName? n = some fn) : st.get? q n = some (.native fn home) := by
  obtain ⟨hget, l₀, hl₀, hown⟩ := h.get?_foreign hl hn
  rw [hget]
  exact h.natives hl₀ hown hstray hnative

/-- The cell of a name in sight holds the value of the name, if its owner binds the name or holds
a good copy. -/
theorem read (h : Agrees w home W st m active) {q o a : Nat} {l lo : Link} {n : String} {v : Value}
    (hl : W[q]? = some l) (ho : l.home n = some o) (hlo : W[o]? = some lo)
    (ha : l.env.lookup (mangle n) = some a) (hgood : st.binds o n = true ∨ lo.Kept active o n)
    (hv : st.get? q n = some v) : Related w W st v (m.cells.getD a .undefined) := by
  obtain ⟨lo', hlo', hown, henv⟩ := (h.fits hl).seen ho
  obtain rfl : lo = lo' := by simpa [hlo] using hlo'
  rw [henv] at ha
  rw [h.get?_home hl ho] at hv
  cases hat : st.valueAt? o n with
  | some v' =>
    obtain rfl : v' = v := by
      cases hp : lo.parent with
      | none => simpa [h.get?_root hlo hp, hat] using hv
      | some p => simpa [h.get?_inner hlo hp, hat] using hv
    exact h.held hlo hown ha hat
  | none =>
    have hkept : lo.Kept active o n := by
      rcases hgood with hb | hk
      · simp [Store.binds_eq, hat] at hb
      · exact hk
    cases hp : lo.parent with
    | none => simp [h.get?_root hlo hp, hat] at hv
    | some p =>
      exact h.copied hlo hown ha hat hp hkept (by simpa [h.get?_inner hlo hp, hat] using hv)

/-! ### Writing -/

/-- A new value for a name in a scope changes the meaning of the name in scopes further in only,
where the name is in sight and where it may get another meaning if it may in the first scope. -/
theorem get?_define_cases (h : Agrees w home W st m active) {o : Nat} {lo : Link} {n : String}
    {v : Value} (hlo : W[o]? = some lo) (hown : n ∈ lo.own) (p : Nat) {lp : Link}
    (hlp : W[p]? = some lp) :
    (st.define o n v).get? p n = st.get? p n ∨
      (o ≤ p ∧ (lp.home n).isSome = true ∧ (n ∈ lo.shifting → n ∈ lp.shifting)) := by
  induction p using Nat.strongRecOn generalizing lp with
  | _ p ih =>
    by_cases hpo : p = o
    · subst hpo
      obtain rfl : lp = lo := by simpa [hlp] using hlo
      exact .inr ⟨Nat.le_refl p, by simp [(h.fits hlp).home_own n hown], id⟩
    have hat : (st.define o n v).valueAt? p n = st.valueAt? p n := by
      rw [Store.valueAt?_define, if_neg fun hp => hpo hp.1]
    obtain ⟨s, hs, hpar⟩ := h.scope hlp
    have hs' : (st.define o n v).scopes[p]? = some s := by
      rw [Store.scopes_define, if_neg (Ne.symm hpo), hs]
    have hnew := Store.get?_eq (Store.nested_define h.nested o n v) hs' n
    rw [hat, hpar] at hnew
    cases hp : lp.parent with
    | none =>
      left
      rw [hnew, hp, h.get?_root hlp hp]
      cases st.valueAt? p n <;> rfl
    | some pp =>
      obtain ⟨hlt, lpp, hlpp, haround, hhome, -⟩ := (h.fits hlp).inner hp
      rw [hnew, hp, h.get?_inner hlp hp]
      cases hv : st.valueAt? p n with
      | some v' => exact .inl rfl
      | none =>
        rcases ih pp hlt hlpp with heq | ⟨hle, hsome, hshift⟩
        · exact .inl (by simp [heq])
        · refine .inr ⟨by omega, ?_, fun hn => ?_⟩
          · by_cases hn : n ∈ lp.own
            · simp [(h.fits hlp).home_own n hn]
            · rw [hhome n hn, hsome]
          · rcases (h.fits hlp).around n (by rw [haround]; exact hshift hn) with hparam | hn
            · have hb := h.params hlp hparam
              simp [Store.binds_eq, hv] at hb
            · exact hn

theorem binds_define (h : Agrees w home W st m active) {o : Nat} {lo l : Link} {n n' : String}
    {v : Value} (hlo : W[o]? = some lo)
    (hname : n ∈ lo.own ∨ (o = 0 ∧ (Native.ofName? n).isSome = true)) (hl : W[q]? = some l)
    (hb : (st.define o n v).binds q n' = true) :
    n' ∈ l.own ∨ (q = 0 ∧ (Native.ofName? n').isSome = true) := by
  rw [Store.binds_eq, Store.valueAt?_define] at hb
  split at hb
  · rename_i hq
    obtain ⟨rfl, rfl, -⟩ := hq
    obtain rfl : l = lo := by simpa [hl] using hlo
    exact hname
  · exact h.binds hl (by rw [Store.binds_eq, hb])

theorem natives_define (h : Agrees w home W st m active) {o : Nat} {lo l : Link} {n n' : String}
    {v : Value} {fn : Native} (hlo : W[o]? = some lo) (hname : n ∈ lo.own ∨ n ∈ w.stray)
    (hl : W[0]? = some l) (hn' : n' ∉ l.own) (hstray : n' ∉ w.stray)
    (hfn : Native.ofName? n' = some fn) :
    (st.define o n v).valueAt? 0 n' = some (.native fn home) := by
  rw [Store.valueAt?_define, if_neg]
  · exact h.natives hl hn' hstray hfn
  · rintro ⟨rfl, rfl, -⟩
    obtain rfl : l = lo := by simpa [hl] using hlo
    exact hname.elim hn' hstray

/-- Giving a name a new value in the store and in its cell keeps both together, if that changes
no copy that has to be good. -/
theorem write (h : Agrees w home W st m active) {o a : Nat} {lo : Link} {n : String} {v : Value}
    {u : ScriptValue} (hlo : W[o]? = some lo) (hown : n ∈ lo.own)
    (ha : lo.env.lookup (mangle n) = some a) (hrel : Related w W (st.define o n v) v u)
    (hcopies : ∀ {q p : Nat} {l : Link}, W[q]? = some l → n ∈ l.hoisted → l.parent = some p →
      l.Kept active q n → (st.define o n v).get? p n = st.get? p n) :
    Agrees w home W (st.define o n v) { m with cells := m.cells.set a u } active := by
  have hg := Grows.define W st o n v
  have ho : o < st.scopes.size := by
    rw [← h.size]
    exact (List.getElem?_eq_some_iff.1 hlo).1
  have hlen := h.cells hlo hown ha
  have hkeep {q a' : Nat} {l : Link} {n' : String} (hl : W[q]? = some l) (hn' : n' ∈ l.own)
      (ha' : l.env.lookup (mangle n') = some a') (hne : ¬(q = o ∧ n' = n)) :
      (m.cells.set a u).getD a' .undefined = m.cells.getD a' .undefined := by
    have haa : a ≠ a' := fun haa => hne (h.apart hl hlo hn' hown (haa ▸ ha') ha)
    simp [List.getD_eq_getElem?_getD, List.getElem?_set_ne haa]
  refine
    { fits := h.fits
      apart := h.apart
      size := by rw [h.size, Store.size_define]
      parent := fun hl => by rw [Store.parent_define, h.parent hl]
      cells := fun hl hn ha => by simpa using h.cells hl hn ha
      params := fun hl hn => hg.binds (h.params hl hn)
      binds := fun hl hb => h.binds_define hlo (.inl hown) hl hb
      natives := fun hl hn hstray hfn => h.natives_define hlo (.inl hown) hl hn hstray hfn
      held := ?_
      copied := ?_ }
  · intro q l n' a' v' hl hn' ha' hv'
    rw [Store.valueAt?_define] at hv'
    split at hv'
    · rename_i hq
      obtain ⟨rfl, rfl, -⟩ := hq
      obtain rfl : l = lo := by simpa [hl] using hlo
      obtain rfl : a' = a := by simpa [ha] using ha'.symm
      cases hv'
      have hset : (m.cells.set a' u).getD a' .undefined = u := by
        simp [List.getD_eq_getElem?_getD, hlen]
      rw [hset]
      exact hrel
    · rename_i hq
      rw [hkeep hl hn' ha' fun hqn => hq ⟨hqn.1, hqn.2, ho⟩]
      exact (h.held hl hn' ha' hv').mono hg
  · intro q p l n' a' v' hl hn' ha' hv' hp hk hget
    rw [Store.valueAt?_define] at hv'
    split at hv'
    · cases hv'
    rename_i hq
    rw [hkeep hl hn' ha' fun hqn => hq ⟨hqn.1, hqn.2, ho⟩]
    refine (h.copied hl hn' ha' hv' hp hk ?_).mono hg
    by_cases hnn : n' = n
    · subst hnn
      have hhoisted := h.hoisted hl hn' (by simp [Store.binds_eq, hv'])
      rw [← hcopies hl hhoisted hp hk]
      exact hget
    · rwa [Store.get?_define_of_ne h.nested hnn] at hget

/-- A definition that runs in the innermost active scope. -/
theorem define (h : Agrees w home W st m (q :: active)) {a : Nat} {l : Link} {n : String}
    {v : Value} {u : ScriptValue} (hactive : ∀ o ∈ active, o < q) (hl : W[q]? = some l)
    (hown : n ∈ l.own) (hshift : n ∈ l.shifting) (ha : l.env.lookup (mangle n) = some a)
    (hrel : Related w W (st.define q n v) v u) :
    Agrees w home W (st.define q n v) { m with cells := m.cells.set a u } (q :: active) := by
  refine h.write hl hown ha hrel fun {q' p l'} hl' hn' hp hk => ?_
  obtain ⟨hlt, lp, hlp, haround, -⟩ := (h.fits hl').inner hp
  rcases h.get?_define_cases hl hown p hlp with heq | ⟨hle, -, hn⟩
  · exact heq
  -- a scope further in does not run now, and its copy of the name is not kept
  · exfalso
    rcases hk with hk | ⟨hq', -⟩
    · exact hk (haround ▸ hn hshift)
    · rcases List.mem_cons.1 hq' with rfl | hq'
      · omega
      · have := hactive q' hq'
        omega

/-- An assignment to a name in sight. -/
theorem assign (h : Agrees w home W st m active) {o a : Nat} {lo : Link} {n : String}
    {v : Value} {u : ScriptValue} (hlo : W[o]? = some lo) (hown : n ∈ lo.own)
    (hassigned : n ∈ w.assigned) (ha : lo.env.lookup (mangle n) = some a)
    (hrel : Related w W st v u) :
    Agrees w home W (st.define o n v) { m with cells := m.cells.set a u } active := by
  refine h.write hlo hown ha (hrel.mono (.define W st o n v)) fun {q p l} hl hn hp hk => ?_
  obtain ⟨-, lp, hlp, -, -, hcopy⟩ := (h.fits hl).inner hp
  rcases h.get?_define_cases hlo hown p hlp with heq | ⟨-, hsome, -⟩
  · exact heq
  · rw [(hcopy n hn hassigned).2] at hsome
    cases hsome

/-- A name that is assigned somewhere has no copies, so the scope whose name it is owns it. -/
theorem owner?_of_assigned (h : Agrees w home W st m active) {o o' : Nat} {l : Link} {n : String}
    (hl : W[q]? = some l) (ho : l.home n = some o) (hassigned : n ∈ w.assigned)
    (howner : st.owner? q n = some o') : o' = o := by
  obtain ⟨lo, hlo, hown, -⟩ := (h.fits hl).seen ho
  obtain ⟨s, hs, hpar⟩ := h.scope hlo
  rw [h.owner?_home q hl ho] at howner
  by_cases hb : st.binds o n = true
  · cases hp : lo.parent with
    | none => simpa [Store.owner?_root hs (hpar.trans hp), hb] using howner.symm
    | some p => simpa [Store.owner?_cons h.nested hs (hpar.trans hp), hb] using howner.symm
  · exfalso
    cases hp : lo.parent with
    | none => simp [Store.owner?_root hs (hpar.trans hp), hb] at howner
    | some p =>
      rw [Store.owner?_cons h.nested hs (hpar.trans hp), if_neg hb] at howner
      obtain ⟨-, lp, hlp, -, -, hcopy⟩ := (h.fits hlo).inner hp
      obtain ⟨hnative, hhome⟩ := hcopy n (h.hoisted hlo hown hb) hassigned
      have hsome := st.isSome_owner? p n
      simp [howner, h.get?_unknown hlp hhome hnative] at hsome

/-- An assignment to a native that no scope in sight owns leaves no trace in the cells. -/
theorem assign_native (h : Agrees w home W st m active) {l : Link} {n : String} {v : Value}
    {globals : List (String × ScriptValue)} (hl : W[0]? = some l) (hown : n ∉ l.own)
    (hnative : (Native.ofName? n).isSome = true) (hassigned : n ∈ w.assigned)
    (hstray : n ∈ w.stray) :
    Agrees w home W (st.define 0 n v) { m with globals := globals } active := by
  have hg := Grows.define W st 0 n v
  have hat {q : Nat} {l' : Link} {n' : String} (hl' : W[q]? = some l') (hn' : n' ∈ l'.own) :
      (st.define 0 n v).valueAt? q n' = st.valueAt? q n' := by
    rw [Store.valueAt?_define, if_neg]
    rintro ⟨rfl, rfl, -⟩
    obtain rfl : l' = l := by simpa [hl'] using hl
    exact hown hn'
  refine
    { fits := h.fits
      apart := h.apart
      size := by rw [h.size, Store.size_define]
      parent := fun hl => by rw [Store.parent_define, h.parent hl]
      cells := h.cells
      params := fun hl hn => hg.binds (h.params hl hn)
      binds := fun hl' hb => h.binds_define hl (.inr ⟨rfl, hnative⟩) hl' hb
      natives := fun hl' hn hstray' hfn => h.natives_define hl (.inr hstray) hl' hn hstray' hfn
      held := fun hl hn ha hv => (h.held hl hn ha (hat hl hn ▸ hv)).mono hg
      copied := ?_ }
  intro q p l' n' a' v' hl' hn' ha' hv' hp hk hget
  rw [hat hl' hn'] at hv'
  refine (h.copied hl' hn' ha' hv' hp hk ?_).mono hg
  rwa [Store.get?_define_of_ne h.nested] at hget
  -- natives that are assigned are not hoisted
  rintro rfl
  obtain ⟨-, lp, -, -, -, hcopy⟩ := (h.fits hl').inner hp
  have hhoisted := h.hoisted hl' hn' (by simp [Store.binds_eq, hv'])
  simp [(hcopy n' hhoisted hassigned).1] at hnative

end Agrees

/-! ## Sites -/

/-- A site describes a scope at the place where its body is running. -/
structure Stands (w : Writes) (W : World) (st : Store) (q : Nat) (l : Link) (c : Site) : Prop where
  link : W[q]? = some l
  own : c.own = l.own
  bound : ∀ n, n ∈ c.bound ↔ (l.home n).isSome = true
  shifting : c.outlook.shifting = l.shifting
  doubtful : ∀ n ∈ c.outlook.barred ++ c.outlook.pending, n ∈ l.shifting
  entered : ∀ {n : String}, n ∈ l.own → st.binds q n = false → n ∉ c.outlook.barred →
    n ∉ l.barred ∧ (n ∈ l.around → n ∈ c.outlook.pending)
  settled : ∀ {n : String} {o : Nat}, n ∉ l.own → l.home n = some o → n ∉ c.outlook.barred →
    Settled W st o n
  native : ∀ {n : String}, l.home n = none → n ∈ w.stray → n ∈ c.outlook.barred

namespace Stands

variable {w : Writes} {W W' : World} {st st' : Store} {q : Nat} {l : Link} {c : Site}

theorem home_eq_none (h : Stands w W st q l c) {n : String} (hn : n ∉ c.bound) :
    l.home n = none := by
  rw [h.bound] at hn
  simpa using hn

/-- What holds at a site holds for the functions that are made there. -/
theorem captured (h : Stands w W st q l c) (hfits : l.Fits w W q) : Captured w W st l c where
  bound := h.bound
  shifting := h.shifting
  doubtful := h.doubtful
  native hn hstray := List.mem_append_left _ (h.native hn hstray)
  settled {n o} ho hn := by
    rw [List.mem_append, not_or] at hn
    by_cases hown : n ∈ l.own
    · obtain rfl : q = o := by simpa [hfits.home_own n hown] using ho
      refine ⟨l, h.link, ?_⟩
      cases hb : st.binds q n with
      | true => exact .inl rfl
      | false => exact .inr fun haround => hn.2 ((h.entered hown hb hn.1).2 haround)
    · exact h.settled hown ho hn.1

/-- What a site bars and waits for, once the scope has bound some names. -/
theorem binding (h : Stands w W st q l c) (hfits : l.Fits w W q) (hg : Grows W st W' st')
    {names : List String} (hnames : ∀ n ∈ names, n ∈ c.own ∧ st'.binds q n = true) :
    Stands w W' st' q l (c.binding names) where
  link := hg.links h.link
  own := h.own
  bound := h.bound
  shifting := h.shifting
  doubtful n hn := by
    refine h.doubtful n ?_
    rcases List.mem_append.1 hn with hn | hn
    · exact List.mem_append_left _ (List.mem_filter.1 hn).1
    · exact List.mem_append_right _ (List.mem_filter.1 hn).1
  entered {n} hown hb hn := by
    have hnot : n ∉ names := fun hs => by
      rw [(hnames n hs).2] at hb
      cases hb
    have hb' : st.binds q n = false := by
      cases hb' : st.binds q n with
      | false => rfl
      | true => rw [hg.binds hb'] at hb; cases hb
    have hn' : n ∉ c.outlook.barred := fun hbar =>
      hn (List.mem_filter.2 ⟨hbar, by simpa using hnot⟩)
    obtain ⟨h1, h2⟩ := h.entered hown hb' hn'
    exact ⟨h1, fun ha => List.mem_filter.2 ⟨h2 ha, by simpa using hnot⟩⟩
  settled {n o} hown ho hn := by
    have hnot : n ∉ names := fun hs => hown (h.own ▸ (hnames n hs).1)
    exact (h.settled hown ho fun hbar =>
      hn (List.mem_filter.2 ⟨hbar, by simpa using hnot⟩)).mono hg
  native {n} hn hstray := by
    have hnot : n ∉ names := fun hs => by
      rw [hfits.home_own n (h.own ▸ (hnames n hs).1)] at hn
      cases hn
    exact List.mem_filter.2 ⟨h.native hn hstray, by simpa using hnot⟩

/-- The cell of a name that may be read holds its value. -/
theorem read {home : Nat} {m : Memory} {active : List Nat} (h : Stands w W st q l c)
    (ha : Agrees w home W st m (q :: active)) {n : String} (hn : n ∈ c.bound)
    (hread : n ∉ c.outlook.barred) :
    ∃ a, l.env.lookup (mangle n) = some a ∧
      ∀ v, st.get? q n = some v → Related w W st v (m.cells.getD a .undefined) := by
  obtain ⟨o, ho⟩ := Option.isSome_iff_exists.1 ((h.bound n).1 hn)
  obtain ⟨lo, hlo, hown, henv⟩ := (ha.fits h.link).seen ho
  obtain ⟨a, hcell⟩ := (ha.fits hlo).cell n hown
  refine ⟨a, henv.trans hcell, fun v hv => ?_⟩
  refine ha.read h.link ho hlo (henv.trans hcell) ?_ hv
  by_cases hmine : n ∈ l.own
  · obtain rfl : q = o := by simpa [(ha.fits h.link).home_own n hmine] using ho
    obtain rfl : l = lo := by simpa [h.link] using hlo
    cases hb : st.binds q n with
    | true => exact .inl rfl
    | false => exact .inr (.inr ⟨List.mem_cons_self, (h.entered hmine hb hread).1⟩)
  · obtain ⟨lo', hlo', hgood⟩ := h.settled hmine ho hread
    obtain rfl : lo = lo' := by simpa [hlo] using hlo'
    exact hgood.imp_right .inl

end Stands

end MiniLisp
