import MiniLisp.Proofs.Evaluation
import MiniLisp.Proofs.Script.Entry

/-!
# Scripts follow programs

Wherever an expression has a value, the script that is related to it ends with a related value and
leaves a memory that belongs to the new store (`simulates`). The proof is by induction on the frames
of the evaluation. The frames that an evaluation was given suffice as the bound of the script.
-/

namespace MiniLisp

open Script (mangle Plain Memory Reaches ReachesAll fill Operators)
open Lowering (operatorFunction)

/-- The body of a scope is running at a site: store and memory belong together, the scope is the
innermost one, and the site describes it. -/
structure Running (w : Writes) (home : Nat) (W : World) (st : Store) (m : Memory)
    (active : List Nat) (q : Nat) (l : Link) (c : Site) : Prop where
  agrees : Agrees w home W st m (q :: active)
  innermost : ∀ o ∈ active, o < q
  stands : Stands w W st q l c

/-- A script ends with what an expression has given, from the frames of the expression on. -/
def Follows (ops : Operators) (w : Writes) (home k : Nat) (W : World) (st : Store) (m : Memory)
    (active : List Nat) (q : Nat) (l : Link) (c : Site) (e : Value) (s : Script) (v : Value)
    (st' : Store) : Prop :=
  ∃ W' m' u, Reaches ops k l.env s m u m' ∧ Grows W st W' st' ∧
    Agrees w home W' st' m' (q :: active) ∧ Related w W' st' v u ∧
    ∀ n ∈ e.sure, n ∈ c.own ∧ st'.binds q n = true

/-- The same of several expressions that are evaluated in order. -/
def FollowsAll (ops : Operators) (w : Writes) (home k : Nat) (W : World) (st : Store) (m : Memory)
    (active : List Nat) (q : Nat) (l : Link) (c : Site) (es : List Value) (ss : List Script)
    (vs : List Value) (st' : Store) : Prop :=
  ∃ W' m' us, ReachesAll ops k l.env ss m us m' ∧ Grows W st W' st' ∧
    Agrees w home W' st' m' (q :: active) ∧ RelatedAll w W' st' vs us ∧
    ∀ n ∈ Value.sureAll es, n ∈ c.own ∧ st'.binds q n = true

/-- Related scripts follow all evaluations with so many frames. -/
def Simulates (ops : Operators) (w : Writes) (home k : Nat) : Prop :=
  ∀ {depth q : Nat} {W : World} {st st' : Store} {m : Memory} {active : List Nat} {l : Link}
    {c : Site} {e : Value} {s : Script} {v : Value},
    Running w home W st m active q l c → Lowers w c e s →
    evaluate k depth q e st = .ok v st' → Follows ops w home k W st m active q l c e s v st'

section Cases

variable {ops : Operators} {w : Writes} {home k depth q : Nat} {W W' : World} {st st' : Store}
  {m m' : Memory} {active : List Nat} {l : Link} {c : Site} {e v : Value} {s : Script}

theorem Running.fits (h : Running w home W st m active q l c) : l.Fits w W q :=
  h.agrees.fits h.stands.link

theorem Running.after (h : Running w home W st m active q l c) (hg : Grows W st W' st')
    (ha : Agrees w home W' st' m' (q :: active))
    (hsure : ∀ n ∈ e.sure, n ∈ c.own ∧ st'.binds q n = true) :
    Running w home W' st' m' active q l (c.after e) :=
  ⟨ha, h.innermost, h.stands.binding h.fits hg hsure⟩

/-- An expression that leaves the store alone and defines nothing. -/
theorem Running.follows (h : Running w home W st m active q l c) {u : ScriptValue}
    (hs : Reaches ops k l.env s m u m) (hrel : Related w W st v u) (hsure : e.sure = []) :
    Follows ops w home k W st m active q l c e s v st :=
  ⟨W, m, u, hs, .refl W st, h.agrees, hrel, fun n hn => by simp [hsure] at hn⟩

theorem followsAll {j : Nat} (ih : ∀ i < k, Simulates ops w home i) (hj : j < k)
    {es vs : List Value} {ss : List Script} (h : Running w home W st m active q l c)
    (hl : LowersAll w c es ss) (he : Eval.each (evaluate j depth q) es st = .ok vs st') :
    FollowsAll ops w home j W st m active q l c es ss vs st' := by
  induction es generalizing W st m c ss vs with
  | nil =>
    cases hl
    cases he
    exact ⟨W, m, [], Script.reachesAll_nil, .refl W _, h.agrees, .nil, fun n hn => by cases hn⟩
  | cons e es ihs =>
    cases hl with
    | cons hl hls =>
    obtain ⟨v, vs, st₁, hv, hvs, rfl⟩ := Eval.each_cons_eq_ok he
    obtain ⟨W₁, m₁, u, hs, hg, ha, hrel, hsure⟩ := ih j hj h hl hv
    obtain ⟨W₂, m₂, us, hss, hg', ha', hrels, hsures⟩ := ihs (h.after hg ha hsure) hls hvs
    refine ⟨W₂, m₂, u :: us, Script.reachesAll_cons hs hss, hg.trans hg', ha',
      .cons (hrel.mono hg') hrels, fun n hn => ?_⟩
    rw [Value.sureAll, List.mem_append] at hn
    rcases hn with hn | hn
    · exact ⟨(hsure n hn).1, hg'.binds (hsure n hn).2⟩
    · exact hsures n hn

/-! ## Names -/

theorem reaches_variable {n : String} {a : Nat} (h : l.env.lookup (mangle n) = some a) :
    Reaches ops 1 l.env (.identifier (mangle n)) m (m.cells.getD a .undefined) m :=
  Script.reaches_identifier (by simp [Script.read, h])

theorem follows_variable {n : String} (h : Running w home W st m active q l c) (hb : n ∈ c.bound)
    (hread : n ∉ c.outlook.barred) (he : evaluate k depth q (.symbol n) st = .ok v st') :
    Follows ops w home k W st m active q l c (.symbol n) (.identifier (mangle n)) v st' := by
  obtain ⟨hk, hget, rfl⟩ := evaluate_symbol_eq_ok he
  obtain ⟨a, ha, hcell⟩ := h.stands.read h.agrees hb hread
  exact h.follows ((reaches_variable ha).mono hk) (hcell v hget) (by simp [Value.sure])

/-- A native that nothing binds means itself where it may be read. -/
theorem Running.get?_native {n : String} {fn : Native} (h : Running w home W st m active q l c)
    (hb : n ∉ c.bound) (hread : n ∉ c.outlook.barred) (hn : Native.ofName? n = some fn) :
    st.get? q n = some (.native fn home) := by
  have hhome := h.stands.home_eq_none hb
  exact h.agrees.get?_native h.stands.link hhome (fun hs => hread (h.stands.native hhome hs)) hn

theorem Running.get?_unbound {n : String} (h : Running w home W st m active q l c)
    (hb : n ∉ c.bound) (hn : Native.ofName? n = none) : st.get? q n = none :=
  h.agrees.get?_unknown h.stands.link (h.stands.home_eq_none hb) hn

theorem follows_operator {n : String} {op : Operator} (h : Running w home W st m active q l c)
    (hb : n ∉ c.bound) (hn : Native.ofName? n = some (.operator op))
    (hread : n ∉ c.outlook.barred) (he : evaluate k depth q (.symbol n) st = .ok v st') :
    Follows ops w home k W st m active q l c (.symbol n) (operatorFunction op) v st' := by
  obtain ⟨hk, hget, rfl⟩ := evaluate_symbol_eq_ok he
  rw [h.get?_native hb hread hn] at hget
  cases hget
  exact h.follows ((Script.reaches_function _ _).mono hk) .operator (by simp [Value.sure])

/-! ## Calls -/

/-- New cells that no name has do not matter. -/
theorem Agrees.allocate (h : Agrees w home W st m active) (new : List ScriptValue) :
    Agrees w home W st { m with cells := m.cells ++ new } active := by
  have hold {q a : Nat} {l : Link} {n : String} (hl : W[q]? = some l) (hn : n ∈ l.own)
      (ha : l.env.lookup (mangle n) = some a) :
      (m.cells ++ new).getD a .undefined = m.cells.getD a .undefined := by
    simp [List.getD_eq_getElem?_getD, List.getElem?_append_left (h.cells hl hn ha)]
  exact
    { h with
      cells := fun hl hn ha => by
        have := h.cells hl hn ha
        simp only [List.length_append]
        omega
      held := fun hl hn ha hv => by
        rw [hold hl hn ha]
        exact h.held hl hn ha hv
      copied := fun hl hn ha hv hp hk hget => by
        rw [hold hl hn ha]
        exact h.copied hl hn ha hv hp hk hget }

theorem reaches_operatorBody (hops : ops.Numeric) {op : Operator} {x y : Float} {a : Atom}
    {env : CellEnv} (hop : op.apply x y = .ok (.atom a)) :
    Reaches ops 2 (["a", "b"].zipIdx m.cells.length ++ env)
      (.binary op.sign (.identifier "a") (.identifier "b"))
      { m with cells := m.cells ++ [.atom (.number x), .atom (.number y)] } (.atom a)
      { m with cells := m.cells ++ [.atom (.number x), .atom (.number y)] } := by
  refine Script.reaches_binary (Script.reachesAll_cons (Script.reaches_identifier ?_)
    (Script.reachesAll_cons (Script.reaches_identifier ?_) Script.reachesAll_nil))
    (hops op x y a hop)
  · simp [Script.read, List.getD_eq_getElem?_getD]
  · simp [Script.read, lookup_cons_ite, List.getD_eq_getElem?_getD]

/-- The call of a related function follows the application. -/
theorem follows_apply (hops : ops.Numeric) (ih : ∀ i < k, Simulates ops w home i)
    {fn : Value} {f : ScriptValue} {args : List Value} {us : List ScriptValue}
    (h : Agrees w home W st m (q :: active)) (hactive : ∀ o ∈ active, o < q)
    (hq : q < W.length) (hf : Related w W st fn f) (hargs : RelatedAll w W st args us)
    (he : apply (k + 1) depth fn args st = .ok v st') :
    ∃ ps body env W' m' u, f = .function ps body env ∧
      Reaches ops (k + 2) (ps.zipIdx m.cells.length ++ env) body
        { m with cells := m.cells ++ fill ps us } u m' ∧
      Grows W st W' st' ∧ Agrees w home W' st' m' (q :: active) ∧ Related w W' st' v u := by
  cases hf with
  | atom =>
    unfold apply at he
    cases he
  | list =>
    unfold apply at he
    cases he
  | @operator op home' env =>
    obtain ⟨x, y, rfl, hv, rfl⟩ := apply_operator_eq_ok he
    cases hargs with
    | cons hx hrest =>
    cases hrest with
    | cons hy hrest =>
    cases hx
    cases hy
    cases hrest
    obtain ⟨a, ha⟩ := op.apply_eq_atom x y
    cases ha.symm.trans hv
    exact ⟨_, _, env, W, _, .atom a, rfl, (reaches_operatorBody hops ha).mono (by omega),
      .refl W _, h.allocate _, .atom⟩
  | @closure p serial lp c params body s hlp hc hb =>
    obtain ⟨i, d, rfl, rfl, hlen, hbody⟩ := apply_closure_eq_ok he
    obtain ⟨l, t, m₁, ht, ha₁, hg₁, hstands, hreach⟩ := h.enter ops hlp hc hb hargs hlen
    have hinner : ∀ o ∈ q :: active, o < W.length := fun o ho => by
      rcases List.mem_cons.1 ho with rfl | ho
      · exact hq
      · exact Nat.lt_trans (hactive o ho) hq
    have hnext : st.next = W.length := h.size.symm
    rw [hnext] at hbody ha₁ hg₁ hstands
    obtain ⟨W₂, m₂, u, hs, hg₂, ha₂, hrel, -⟩ := ih i (by omega) ⟨ha₁, hinner, hstands⟩ ht hbody
    refine ⟨_, _, _, W₂, m₂, u, rfl, ?_, hg₁.trans hg₂, ha₂.deactivate, hrel⟩
    exact (hreach (Nat.le_add_left 1 i) (hs.mono (Nat.le_succ i))).mono (by omega)

theorem follows_callName {n : String} {es : List Value} {ss : List Script} (hops : ops.Numeric)
    (ih : ∀ i < k, Simulates ops w home i) (h : Running w home W st m active q l c)
    (hform : Form.ofName? n = none) (hb : n ∈ c.bound) (hread : n ∉ c.outlook.barred)
    (hes : LowersAll w c es ss)
    (he : evaluate k depth q (.list .plain (.symbol n :: es)) st = .ok v st') :
    Follows ops w home k W st m active q l c (.list .plain (.symbol n :: es))
      (.call (.identifier (mangle n)) ss) v st' := by
  obtain ⟨j, fn, args, st₁, rfl, hget, hall, happly⟩ := evaluate_call_eq_ok hform he
  obtain ⟨a, hcell, hvalue⟩ := h.stands.read h.agrees hb hread
  obtain ⟨W₁, m₁, us, hss, hg₁, ha₁, hrels, hsures⟩ := followsAll ih (by omega) h hes hall
  have hq : q < W₁.length := (List.getElem?_eq_some_iff.1 (hg₁.links h.stands.link)).1
  obtain ⟨ps, body, env, W₂, m₂, u, hfn, hbody, hg₂, ha₂, hrel⟩ :=
    follows_apply hops (fun i hi => ih i (by omega)) ha₁ h.innermost hq
      ((hvalue fn hget).mono hg₁) hrels happly
  have hcallee : Reaches ops (j + 2) l.env (.identifier (mangle n)) m (.function ps body env) m :=
    hfn ▸ (reaches_variable hcell).mono (by omega)
  refine ⟨W₂, m₂, u, Script.reaches_call hcallee (hss.mono (by omega)) hbody, hg₁.trans hg₂, ha₂,
    hrel, fun x hx => ?_⟩
  have hx := hsures x (Value.sure_application hform ▸ hx)
  exact ⟨hx.1, hg₂.binds hx.2⟩

theorem follows_callValue {head es : List Value} {ss : List Script} (hops : ops.Numeric)
    (ih : ∀ i < k, Simulates ops w home i) (h : Running w home W st m active q l c)
    (hes : LowersAll w c (.list .plain head :: es) (s :: ss))
    (he : evaluate k depth q (.list .plain (.list .plain head :: es)) st = .ok v st') :
    Follows ops w home k W st m active q l c (.list .plain (.list .plain head :: es))
      (.call s ss) v st' := by
  obtain ⟨j, fn, args, st₁, st₂, rfl, hfn, hall, happly⟩ := evaluate_callValue_eq_ok he
  cases hes with
  | cons hhead hes =>
  obtain ⟨W₀, m₀, f, hs, hg₀, ha₀, hf, hsure⟩ := ih (j + 1) (by omega) h hhead hfn
  have h₀ := h.after hg₀ ha₀ hsure
  obtain ⟨W₁, m₁, us, hss, hg₁, ha₁, hrels, hsures⟩ := followsAll ih (by omega) h₀ hes hall
  have hq : q < W₁.length := (List.getElem?_eq_some_iff.1 (hg₁.links h₀.stands.link)).1
  obtain ⟨ps, body, env, W₂, m₂, u, rfl, hbody, hg₂, ha₂, hrel⟩ :=
    follows_apply hops (fun i hi => ih i (by omega)) ha₁ h.innermost hq (hf.mono hg₁) hrels happly
  refine ⟨W₂, m₂, u, Script.reaches_call (hs.mono (by omega)) (hss.mono (by omega)) hbody,
    (hg₀.trans hg₁).trans hg₂, ha₂, hrel, fun x hx => ?_⟩
  have hx : x ∈ (Value.list .plain head).sure ∨ x ∈ Value.sureAll es := by
    simpa [Value.sure, Value.sureAll] using hx
  rcases hx with hx | hx
  · exact ⟨(hsure x hx).1, (hg₁.trans hg₂).binds (hsure x hx).2⟩
  · exact ⟨(hsures x hx).1, hg₂.binds (hsures x hx).2⟩

/-- The call of an operator that nothing binds becomes an operation. -/
theorem follows_operation {n : String} {op : Operator} {x y : Value} {t : Script}
    (hops : ops.Numeric) (ih : ∀ i < k, Simulates ops w home i)
    (h : Running w home W st m active q l c) (hform : Form.ofName? n = none) (hb : n ∉ c.bound)
    (hn : Native.ofName? n = some (.operator op)) (hread : n ∉ c.outlook.barred)
    (hes : LowersAll w c [x, y] [s, t])
    (he : evaluate k depth q (.list .plain [.symbol n, x, y]) st = .ok v st') :
    Follows ops w home k W st m active q l c (.list .plain [.symbol n, x, y])
      (.binary op.sign s t) v st' := by
  obtain ⟨j, fn, args, st₁, rfl, hget, hall, happly⟩ := evaluate_call_eq_ok hform he
  rw [h.get?_native hb hread hn] at hget
  cases hget
  obtain ⟨a, b, rfl, hv, rfl⟩ := apply_operator_eq_ok happly
  obtain ⟨W₁, m₁, us, hss, hg₁, ha₁, hrels, hsures⟩ := followsAll ih (by omega) h hes hall
  cases hrels with
  | cons hx hrest =>
  cases hrest with
  | cons hy hrest =>
  cases hx
  cases hy
  cases hrest
  obtain ⟨z, hz⟩ := op.apply_eq_atom a b
  cases hz.symm.trans hv
  refine ⟨W₁, m₁, .atom z, ?_, hg₁, ha₁, .atom,
    fun x hx => hsures x (Value.sure_application hform ▸ hx)⟩
  refine Script.Reaches.mono ?_ (Nat.add_le_add_left (by omega : 1 ≤ 3) j)
  exact Script.reaches_binary hss (hops op a b z hz)

theorem follows_build {n : String} {fn : Native} {es : List Value} {ss : List Script}
    (ih : ∀ i < k, Simulates ops w home i) (h : Running w home W st m active q l c)
    (hform : Form.ofName? n = none) (hb : n ∉ c.bound) (hn : Native.ofName? n = some fn)
    (hfn : fn = .list ∨ fn = .vector) (hread : n ∉ c.outlook.barred) (hes : LowersAll w c es ss)
    (he : evaluate k depth q (.list .plain (.symbol n :: es)) st = .ok v st') :
    Follows ops w home k W st m active q l c (.list .plain (.symbol n :: es)) (.array ss) v
      st' := by
  obtain ⟨j, f, args, st₁, rfl, hget, hall, happly⟩ := evaluate_call_eq_ok hform he
  rw [h.get?_native hb hread hn] at hget
  cases hget
  obtain ⟨⟨flavor, rfl⟩, rfl⟩ := apply_build_eq_ok hfn happly
  obtain ⟨W₁, m₁, us, hss, hg₁, ha₁, hrels, hsures⟩ := followsAll ih (by omega) h hes hall
  exact ⟨W₁, m₁, .array us, (Script.reaches_array hss).mono (by omega), hg₁, ha₁, .list hrels,
    fun x hx => hsures x (Value.sure_application hform ▸ hx)⟩

theorem follows_vector {es : List Value} {ss : List Script}
    (ih : ∀ i < k, Simulates ops w home i) (h : Running w home W st m active q l c)
    (hes : LowersAll w c es ss)
    (he : evaluate k depth q (.list .vector es) st = .ok v st') :
    Follows ops w home k W st m active q l c (.list .vector es) (.array ss) v st' := by
  obtain ⟨j, vs, rfl, hall, rfl⟩ := evaluate_vector_eq_ok he
  obtain ⟨W₁, m₁, us, hss, hg₁, ha₁, hrels, hsures⟩ := followsAll ih (by omega) h hes hall
  exact ⟨W₁, m₁, .array us, (Script.reaches_array hss).mono (by omega), hg₁, ha₁, .list hrels,
    fun x hx => hsures x (by simpa [Value.sure] using hx)⟩

/-! ## Special forms -/

theorem follows_sequence {word : String} {es : List Value} {ss : List Script}
    (ih : ∀ i < k, Simulates ops w home i) (h : Running w home W st m active q l c)
    (hword : Form.ofName? word = some .sequence) (hes : LowersAll w c es ss)
    (he : evaluate k depth q (.list .plain (.symbol word :: es)) st = .ok v st') :
    Follows ops w home k W st m active q l c (.list .plain (.symbol word :: es)) (.sequence ss) v
      st' := by
  obtain ⟨j, vs, rfl, hall, hlast⟩ := evaluate_sequence_eq_ok hword he
  obtain ⟨W₁, m₁, us, hss, hg₁, ha₁, hrels, hsures⟩ := followsAll ih (by omega) h hes hall
  obtain ⟨u, hu, hrel⟩ := hrels.getLast? hlast
  exact ⟨W₁, m₁, u, (Script.reaches_sequence hss hu).mono (by omega), hg₁, ha₁, hrel,
    fun x hx => hsures x (Value.sure_sequence hword ▸ hx)⟩

theorem follows_single {word : String} (ih : ∀ i < k, Simulates ops w home i)
    (h : Running w home W st m active q l c) (hword : Form.ofName? word = some .sequence)
    (hl : Lowers w c e s)
    (he : evaluate k depth q (.list .plain [.symbol word, e]) st = .ok v st') :
    Follows ops w home k W st m active q l c (.list .plain [.symbol word, e]) s v st' := by
  obtain ⟨j, vs, rfl, hall, hlast⟩ := evaluate_sequence_eq_ok hword he
  obtain ⟨x, xs, st₁, hx, hxs, rfl⟩ := Eval.each_cons_eq_ok hall
  cases hxs
  cases hlast
  obtain ⟨W₁, m₁, u, hs, hg₁, ha₁, hrel, hsure⟩ := ih j (by omega) h hl hx
  exact ⟨W₁, m₁, u, hs.mono (by omega), hg₁, ha₁, hrel,
    fun x hx => hsure x (by simpa [Value.sure_sequence hword, Value.sureAll] using hx)⟩

theorem follows_choose {word : String} {yes no : Value} {t u : Script}
    (ih : ∀ i < k, Simulates ops w home i) (h : Running w home W st m active q l c)
    (hword : Form.ofName? word = some .choose) (hl : Lowers w c e s)
    (hyes : Lowers w (c.after e) yes t) (hno : Lowers w (c.after e) no u)
    (he : evaluate k depth q (.list .plain [.symbol word, e, yes, no]) st = .ok v st') :
    Follows ops w home k W st m active q l c (.list .plain [.symbol word, e, yes, no])
      (.conditional s t u) v st' := by
  obtain ⟨j, b, st₁, rfl, htest, hbranch⟩ := evaluate_choose_eq_ok hword he
  obtain ⟨W₁, m₁, x, hs, hg₁, ha₁, hx, hsure⟩ := ih j (by omega) h hl htest
  cases hx
  have hl' : Lowers w (c.after e) (if b then yes else no) (if b then t else u) := by
    cases b
    · exact hno
    · exact hyes
  obtain ⟨W₂, m₂, y, ht, hg₂, ha₂, hrel, hsure'⟩ :=
    ih j (by omega) (h.after hg₁ ha₁ hsure) hl' hbranch
  refine ⟨W₂, m₂, y, (Script.reaches_conditional hs ht).mono (by omega), hg₁.trans hg₂, ha₂, hrel,
    fun n hn => ?_⟩
  have hn : n ∈ e.sure ∨ (n ∈ yes.sure ∧ n ∈ no.sure) := by simpa [Value.sure, hword] using hn
  rcases hn with hn | hn
  · exact ⟨(hsure n hn).1, hg₂.binds (hsure n hn).2⟩
  · exact hsure' n (by cases b; exacts [hn.2, hn.1])

theorem Agrees.binds_defined {n : String} (h : Agrees w home W st m active) (hl : W[q]? = some l) :
    (st.define q n v).binds q n = true := by
  have hq : q < st.scopes.size := h.size ▸ (List.getElem?_eq_some_iff.1 hl).1
  rw [Store.binds_eq, Store.valueAt?_define, if_pos ⟨rfl, rfl, hq⟩]
  rfl

/-- A definition writes the value of its expression. It is enough that the value is related once
the name is bound. -/
theorem Running.follows_write {word n : String} {j : Nat} {st₁ : Store} {m₁ : Memory}
    {W₁ : World} {u : ScriptValue} (h : Running w home W st m active q l c)
    (hword : Form.ofName? word = some .define) (hown : n ∈ c.own)
    (hshift : n ∈ c.outlook.shifting) (hj : j < k) (hs : Reaches ops j l.env s m u m₁)
    (hg : Grows W st W₁ st₁) (ha : Agrees w home W₁ st₁ m₁ (q :: active))
    (hrel : Related w W₁ (st₁.define q n v) v u)
    (hsure : ∀ x ∈ e.sure, x ∈ c.own ∧ st₁.binds q x = true) :
    Follows ops w home k W st m active q l c (.list .plain [.symbol word, .symbol n, e])
      (.assignment (.identifier (mangle n)) s) v (st₁.define q n v) := by
  have hlink := hg.links h.stands.link
  have hown' : n ∈ l.own := h.stands.own ▸ hown
  obtain ⟨a, hcell⟩ := h.fits.cell n hown'
  have hwrite : Script.write l.env (mangle n) u m₁ =
      .ok () { m₁ with cells := m₁.cells.set a u } := by simp [Script.write, hcell]
  have hgd := Grows.define W₁ st₁ q n v
  refine ⟨W₁, _, u, (Script.reaches_assignment hs hwrite).mono hj, hg.trans hgd,
    ha.define h.innermost hlink hown' (h.stands.shifting ▸ hshift) hcell hrel, hrel,
    fun x hx => ?_⟩
  have hx : x = n ∨ x ∈ e.sure := by simpa [Value.sure, hword] using hx
  rcases hx with rfl | hx
  · exact ⟨hown, ha.binds_defined hlink⟩
  · exact ⟨(hsure x hx).1, hgd.binds (hsure x hx).2⟩

theorem follows_define {word n : String} (ih : ∀ i < k, Simulates ops w home i)
    (h : Running w home W st m active q l c) (hword : Form.ofName? word = some .define)
    (hown : n ∈ c.own) (hshift : n ∈ c.outlook.shifting) (hl : Lowers w c e s)
    (he : evaluate k depth q (.list .plain [.symbol word, .symbol n, e]) st = .ok v st') :
    Follows ops w home k W st m active q l c (.list .plain [.symbol word, .symbol n, e])
      (.assignment (.identifier (mangle n)) s) v st' := by
  obtain ⟨j, st₁, rfl, hvalue, rfl⟩ := evaluate_define_eq_ok hword he
  obtain ⟨W₁, m₁, u, hs, hg, ha, hrel, hsure⟩ := ih j (by omega) h hl hvalue
  exact h.follows_write hword hown hshift (by omega) hs hg ha
    (hrel.mono (.define W₁ st₁ q n v)) hsure

/-- A function that a definition makes is related where the name of the definition is bound. -/
theorem follows_defineFunction {word n head : String} {list body : Value} {params : List String}
    (h : Running w home W st m active q l c) (hword : Form.ofName? word = some .define)
    (hown : n ∈ c.own) (hshift : n ∈ c.outlook.shifting)
    (hhead : Form.ofName? head = some .lambda) (hparams : list.params = .ok params)
    (hbody : LowersBody w (c.binding [n]) params body s)
    (he : evaluate k depth q (.list .plain [.symbol word, .symbol n,
      .list .plain [.symbol head, list, body]]) st = .ok v st') :
    Follows ops w home k W st m active q l c (.list .plain [.symbol word, .symbol n,
        .list .plain [.symbol head, list, body]])
      (.assignment (.identifier (mangle n)) (.function (params.map mangle) s)) v st' := by
  obtain ⟨j, st₁, rfl, hvalue, rfl⟩ := evaluate_define_eq_ok hword he
  obtain ⟨hj, hv, rfl⟩ := evaluate_lambda_eq_ok hhead hparams hvalue
  have hg := Grows.mint W st q
  have ha := h.agrees.mint q
  have hstands : Stands w W ((st.mint q).define q n v) q l (c.binding [n]) := by
    refine h.stands.binding h.fits (hg.trans (.define W _ q n v)) fun x hx => ?_
    obtain rfl := List.mem_singleton.1 hx
    exact ⟨hown, ha.binds_defined h.stands.link⟩
  exact h.follows_write hword hown hshift (by omega) ((Script.reaches_function _ _).mono hj) hg ha
    (hv ▸ .closure h.stands.link (hv ▸ hstands.captured h.fits) hbody)
    fun x hx => by simp [Value.sure, hhead] at hx

theorem follows_assign {word n : String} (ih : ∀ i < k, Simulates ops w home i)
    (h : Running w home W st m active q l c) (hword : Form.ofName? word = some .assign)
    (hassigned : n ∈ w.assigned)
    (hstray : n ∉ c.bound → (Native.ofName? n).isSome = true → n ∈ w.stray) (hplain : Plain n)
    (hl : Lowers w c e s)
    (he : evaluate k depth q (.list .plain [.symbol word, .symbol n, e]) st = .ok v st') :
    Follows ops w home k W st m active q l c (.list .plain [.symbol word, .symbol n, e])
      (.assignment (.identifier (mangle n)) s) v st' := by
  obtain ⟨j, st₁, o, rfl, hvalue, howner, rfl⟩ := evaluate_assign_eq_ok hword he
  obtain ⟨W₁, m₁, u, hs, hg₁, ha₁, hrel, hsure⟩ := ih j (by omega) h hl hvalue
  have hlink := hg₁.links h.stands.link
  have hgd := Grows.define W₁ st₁ o n v
  have hsure' : ∀ x ∈ (Value.list .plain [.symbol word, .symbol n, e]).sure,
      x ∈ c.own ∧ (st₁.define o n v).binds q x = true := fun x hx => by
    have hx : x ∈ e.sure := by simpa [Value.sure, hword] using hx
    exact ⟨(hsure x hx).1, hgd.binds (hsure x hx).2⟩
  by_cases hb : n ∈ c.bound
  · obtain ⟨o', ho'⟩ := Option.isSome_iff_exists.1 ((h.stands.bound n).1 hb)
    obtain rfl := ha₁.owner?_of_assigned hlink ho' hassigned howner
    obtain ⟨lo, hlo, hown, henv⟩ := (ha₁.fits hlink).seen ho'
    obtain ⟨a, hcell⟩ := (ha₁.fits hlo).cell n hown
    have hwrite : Script.write l.env (mangle n) u m₁ =
        .ok () { m₁ with cells := m₁.cells.set a u } := by simp [Script.write, henv, hcell]
    exact ⟨W₁, _, u, (Script.reaches_assignment hs hwrite).mono (by omega), hg₁.trans hgd,
      ha₁.assign hlo hown hassigned hcell hrel, hrel.mono hgd, hsure'⟩
  · have hhome := h.stands.home_eq_none hb
    obtain ⟨hforeign, l₀, hl₀, hroot, hown⟩ := ha₁.owner?_foreign q hlink hhome
    obtain ⟨s₀, hs₀, hpar⟩ := ha₁.scope hl₀
    rw [hforeign, Store.owner?_root hs₀ (hpar.trans hroot)] at howner
    split at howner
    · rename_i hbinds
      cases howner
      have hnative : (Native.ofName? n).isSome = true :=
        ((ha₁.binds hl₀ hbinds).resolve_left hown).2
      have hwrite : Script.write l.env (mangle n) u m₁ =
          .ok () { m₁ with globals := (mangle n, u) :: m₁.globals } := by
        simp [Script.write, (ha₁.fits hlink).unseen hplain hhome]
      exact ⟨W₁, _, u, (Script.reaches_assignment hs hwrite).mono (by omega), hg₁.trans hgd,
        ha₁.assign_native hl₀ hown hnative hassigned (hstray hb hnative), hrel.mono hgd, hsure'⟩
    · cases howner

/-! ## All expressions -/

/-- Related scripts follow evaluations with any number of frames. -/
theorem simulates (hops : ops.Numeric) (w : Writes) (home k : Nat) : Simulates ops w home k := by
  induction k using Nat.strongRecOn with
  | _ k ih =>
  intro depth q W st st' m active l c e s v h hl he
  cases hl with
  | atom =>
    obtain ⟨hk, rfl, rfl⟩ := evaluate_atom_eq_ok he
    exact h.follows ((Script.reaches_literal _).mono hk) .atom (by simp [Value.sure])
  | name hb _ hread => exact follows_variable h hb hread he
  | operator hb hn hread => exact follows_operator h hb hn hread he
  | unbound hb hn =>
    obtain ⟨-, hget, -⟩ := evaluate_symbol_eq_ok he
    rw [h.get?_unbound hb hn] at hget
    cases hget
  | vector hes => exact follows_vector ih h hes he
  | operation hform hb hn hread hes => exact follows_operation hops ih h hform hb hn hread hes he
  | build hform hb hn hfn hread hes => exact follows_build ih h hform hb hn hfn hread hes he
  | callName hform hb _ hread hes => exact follows_callName hops ih h hform hb hread hes he
  | callUnbound hform hb hn _ =>
    obtain ⟨j, fn, args, st₁, -, hget, -⟩ := evaluate_call_eq_ok hform he
    rw [h.get?_unbound hb hn] at hget
    cases hget
  | callValue hes => exact follows_callValue hops ih h hes he
  | quote hword =>
    obtain ⟨hk, rfl, rfl⟩ := evaluate_quote_eq_ok hword he
    exact h.follows ((Script.reaches_literal _).mono hk) .atom (by simp [Value.sure, hword])
  | single hword hl => exact follows_single ih h hword hl he
  | sequence hword _ hes => exact follows_sequence ih h hword hes he
  | choose hword hl hyes hno => exact follows_choose ih h hword hl hyes hno he
  | define hword hown hshift _ hl => exact follows_define ih h hword hown hshift hl he
  | defineFunction hword hown hshift _ hhead hparams hbody =>
    exact follows_defineFunction h hword hown hshift hhead hparams hbody he
  | assign hword hassigned hstray hplain hl =>
    exact follows_assign ih h hword hassigned hstray hplain hl he
  | function hword hparams hbody =>
    obtain ⟨hk, rfl, rfl⟩ := evaluate_lambda_eq_ok hword hparams he
    have hg := Grows.mint W st q
    exact ⟨W, m, _, (Script.reaches_function _ _).mono hk, hg, h.agrees.mint q,
      .closure h.stands.link ((h.stands.captured h.fits).mono hg) hbody,
      fun n hn => by simp [Value.sure, hword] at hn⟩

end Cases

end MiniLisp
