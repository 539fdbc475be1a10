import MiniLisp.Proofs.Capture
import MiniLisp.Proofs.Evaluation
import MiniLisp.Proofs.Store

/-!
# Two runs side by side

One induction over the evaluator for all statements that compare two runs of one expression, or a
run with itself. A `Bond` says what ties the runs together: a relation between the two stores, and
which scopes are in sight. Its laws ask that each operation of the store keeps the relation when it
stays in sight. Then the runs stay tied, and every value that they pass on stays in sight
(`Bond.tied`).

A bond may be lax. Then the second run may have the larger budget, and there is one more way for
the runs to go: the first one is out of frames or calls, and the second one goes on from there and
only adds to the text that was written.
-/

namespace MiniLisp

open Eval

/-! ## How runs end -/

/-- How a computation ends, with the store that it leaves. -/
abbrev Outcome (α : Type) := EStateM.Result Fault Store α

namespace Outcome

variable {α : Type}

/-- The store that is left. -/
def store : Outcome α → Store
  | .ok _ st | .error _ st => st

/-- The value, or why there is none. -/
def answer : Outcome α → Except Fault α
  | .ok a _ => .ok a
  | .error e _ => .error e

/-- Whether the budget was too small. -/
def exhausted : Outcome α → Prop
  | .ok _ _ => False
  | .error e _ => e.kind = .exhausted

instance (r : Outcome α) : Decidable r.exhausted :=
  match r with
  | .ok _ _ => instDecidableFalse
  | .error e _ => inferInstanceAs (Decidable (e.kind = .exhausted))

end Outcome

/-- A store in which at least the text of another one was written. -/
def Store.Extends (st st' : Store) : Prop := ∃ text, st'.output = st.output ++ text

namespace Store.Extends

theorem refl (st : Store) : st.Extends st := ⟨"", by simp⟩

theorem trans {st st' st'' : Store} (h : st.Extends st') (h' : st'.Extends st'') :
    st.Extends st'' := by
  obtain ⟨t, ht⟩ := h
  obtain ⟨t', ht'⟩ := h'
  exact ⟨t ++ t', by rw [ht', ht, String.append_assoc]⟩

theorem of_output_eq {st st' : Store} (h : st'.output = st.output) : st.Extends st' :=
  ⟨"", by simp [h]⟩

end Store.Extends

/-- A computation that only adds to the text that was written. -/
def Adds {α : Type} (x : Eval α) : Prop := ∀ st : Store, st.Extends (Outcome.store (x st))

namespace Adds

variable {α β : Type}

theorem pure (a : α) : Adds (pure a : Eval α) := fun st => .refl st

theorem throw (e : Fault) : Adds (throw e : Eval α) := fun st => .refl st

theorem bind {x : Eval α} {k : α → Eval β} (hx : Adds x) (hk : ∀ a, Adds (k a)) :
    Adds (x >>= k) := by
  intro st
  have hst := hx st
  change st.Extends (Outcome.store (EStateM.bind x k st))
  unfold EStateM.bind
  generalize x st = r at hst
  cases r with
  | ok a s => exact hst.trans (hk a s)
  | error e s => exact hst

end Adds

/-! ## Bonds -/

/-- What ties two runs together. -/
structure Bond where
  /-- The scopes in sight while there are so many scopes. -/
  sight : Nat → ScopeId → Prop
  /-- What the two stores have in common. -/
  rel : Store → Store → Prop
  /-- Whether the second run may have a larger budget. -/
  lax : Prop
  /-- What was in sight stays in sight. -/
  mono : ∀ {m n id}, m ≤ n → sight m id → sight n id
  /-- Lax bonds are for runs in which everything is in sight. -/
  total : lax → ∀ n id, sight n id
  next_eq : ∀ {st st'}, rel st st' → st'.next = st.next
  owner? : ∀ {st st' id} name, rel st st' → sight st.next id →
    st'.owner? id name = st.owner? id name ∧
      ∀ o, st.owner? id name = some o → sight st.next o
  valueAt? : ∀ {st st' id} name, rel st st' → sight st.next id →
    st'.valueAt? id name = st.valueAt? id name ∧
      ∀ v, st.valueAt? id name = some v → Within (sight st.next) v
  define : ∀ {st st' id v} name, rel st st' → sight st.next id → Within (sight st.next) v →
    rel (st.define id name v) (st'.define id name v)
  made : ∀ {st st' id}, rel st st' → sight st.next id → st'.made id = st.made id
  mint : ∀ {st st' id}, rel st st' → sight st.next id → rel (st.mint id) (st'.mint id)
  push : ∀ {st st' parent}, rel st st' → sight st.next parent →
    sight (st.next + 1) st.next ∧ rel (st.pushEmpty (some parent)) (st'.pushEmpty (some parent))
  write : ∀ {st st'} text, rel st st' → rel (st.write text) (st'.write text)

namespace Bond

variable (b : Bond) {α β : Type} [Refers α] [Refers β]

/-- How two runs end that began with `n` scopes. -/
inductive Alike (n : Nat) : Outcome α → Outcome α → Prop
  | ok {a : α} {s s' : Store} : b.rel s s' → n ≤ s.next → Within (b.sight s.next) a →
      Alike n (.ok a s) (.ok a s')
  | error {e : Fault} {s s' : Store} : b.rel s s' → Alike n (.error e s) (.error e s')
  /-- The first run is out of budget, and the second one went on. -/
  | cut {e : Fault} {s s' : Store} {r : Outcome α} : b.lax → e.kind = .exhausted → b.rel s s' →
      s'.Extends r.store → Alike n (.error e s) r

/-- Two computations whose runs stay tied, from `n` scopes on. -/
structure Tied (n : Nat) (x x' : Eval α) : Prop where
  alike : ∀ {st st'}, b.rel st st' → n ≤ st.next → b.Alike st.next (x st) (x' st')
  adds : b.lax → Adds x'

/-- A budget of the first run with one of the second run. -/
def Covers (k k' : Nat) : Prop := k = k' ∨ b.lax ∧ k ≤ k'

variable {b} {n : Nat}

theorem Covers.refl (k : Nat) : b.Covers k k := .inl rfl

theorem Covers.le {k k' : Nat} (h : b.Covers k k') : k ≤ k' := by
  rcases h with rfl | h
  · exact Nat.le_refl _
  · exact h.2

theorem Covers.of_succ {k k' : Nat} (h : b.Covers (k + 1) (k' + 1)) : b.Covers k k' := by
  rcases h with h | h
  · exact .inl (Nat.succ.inj h)
  · exact .inr ⟨h.1, Nat.le_of_succ_le_succ h.2⟩

theorem Covers.lax {k k' : Nat} (h : b.Covers k k') (hne : k ≠ k') : b.lax :=
  h.elim (absurd · hne) And.left

/-! ### Putting computations together -/

theorem Alike.mono {m : Nat} {r r' : Outcome α} (h : b.Alike m r r') (hnm : n ≤ m) :
    b.Alike n r r' := by
  cases h with
  | ok hs hle ha => exact .ok hs (Nat.le_trans hnm hle) ha
  | error hs => exact .error hs
  | cut hlax he hs hext => exact .cut hlax he hs hext

namespace Tied

variable {x x' : Eval α} {k k' : α → Eval β}

theorem mono {m : Nat} (h : b.Tied n x x') (hnm : n ≤ m) : b.Tied m x x' where
  alike hrel hm := h.alike hrel (Nat.le_trans hnm hm)
  adds := h.adds

theorem pure {a : α} (h : Within (b.sight n) a) :
    b.Tied n (pure a : Eval α) (pure a : Eval α) where
  alike hrel hn := .ok hrel (Nat.le_refl _) (h.mono fun _ => b.mono hn)
  adds _ := Adds.pure a

theorem throw (e : Fault) : b.Tied n (throw e : Eval α) (throw e : Eval α) where
  alike hrel _ := .error hrel
  adds _ := Adds.throw e

/-- Where the first run is out of budget, the second one may do whatever only adds text. -/
theorem cut {e : Fault} (hlax : b.lax) (he : e.kind = .exhausted) (hx : Adds x') :
    b.Tied n (MonadExcept.throw e : Eval α) x' where
  alike {_ st'} hrel _ := .cut hlax he hrel (hx st')
  adds _ := hx

/-- Runs that go on stay tied. -/
theorem bind (hx : b.Tied n x x')
    (hk : ∀ {m a}, n ≤ m → Within (b.sight m) a → b.Tied m (k a) (k' a)) :
    b.Tied n (x >>= k) (x' >>= k') := by
  -- what a lax bond asks of the second run: everything is in sight, so `hk` is about every value
  have hgo (hlax : b.lax) (a : α) : Adds (k' a) :=
    (hk (Nat.le_refl n) fun id _ => b.total hlax n id).adds hlax
  refine ⟨fun {st st'} hrel hn => ?_, fun hlax => (hx.adds hlax).bind (hgo hlax)⟩
  have hends := hx.alike hrel hn
  change b.Alike _ (EStateM.bind x k st) (EStateM.bind x' k' st')
  unfold EStateM.bind
  generalize x st = r, x' st' = r' at hends
  cases hends with
  | ok hs hle ha =>
    exact ((hk (Nat.le_trans hn hle) ha).alike hs (Nat.le_refl _)).mono hle
  | error hs => exact .error hs
  | cut hlax he hs hext =>
    cases r' with
    | ok a s => exact .cut hlax he hs (hext.trans (hgo hlax a s))
    | error e s => exact .cut hlax he hs hext

/-! ### Operations of the store -/

variable {scope : ScopeId} {name : String} {v : Value} {args : List Value}

theorem lookup (h : b.sight n scope) : b.Tied n (lookup scope name) (lookup scope name) where
  alike {st st'} hrel hn := by
    have hscope := b.mono hn h
    obtain ⟨howner, hsight⟩ := b.owner? name hrel hscope
    have hget : st'.get? scope name = st.get? scope name ∧
        ∀ v, st.get? scope name = some v → Within (b.sight st.next) v := by
      unfold Store.get?
      rw [howner]
      cases ho : st.owner? scope name with
      | none => exact ⟨rfl, fun _ h => nomatch h⟩
      | some o => exact b.valueAt? name hrel (hsight o ho)
    unfold Eval.lookup
    rw [hget.1]
    cases hv : st.get? scope name with
    | none => exact .error hrel
    | some v => exact .ok hrel (Nat.le_refl _) (hget.2 v hv)
  adds _ st := by
    unfold Eval.lookup
    split <;> exact .refl st

theorem define (h : b.sight n scope) (hv : Within (b.sight n) v) :
    b.Tied n (Eval.define scope name v) (Eval.define scope name v) where
  alike {st _} hrel hn := by
    have hnext : (st.define scope name v).next = st.next := st.size_define scope name v
    exact .ok (b.define name hrel (b.mono hn h) (hv.mono fun _ => b.mono hn))
      (Nat.le_of_eq hnext.symm) (within_unit ())
  adds _ _ := .of_output_eq rfl

theorem assign (h : b.sight n scope) (hv : Within (b.sight n) v) :
    b.Tied n (assign scope name v) (assign scope name v) where
  alike {st st'} hrel hn := by
    obtain ⟨howner, hsight⟩ := b.owner? name hrel (b.mono hn h)
    unfold Eval.assign Store.assign?
    rw [howner]
    cases ho : st.owner? scope name with
    | none => exact .error hrel
    | some o =>
      have hnext : (st.define o name v).next = st.next := st.size_define o name v
      exact .ok (b.define name hrel (hsight o ho) (hv.mono fun _ => b.mono hn))
        (Nat.le_of_eq hnext.symm) (within_unit ())
  adds _ st := by
    unfold Eval.assign Store.assign?
    cases st.owner? scope name with
    | none => exact .refl st
    | some o => exact .of_output_eq rfl

theorem make {params : List String} {body : Value} (h : b.sight n scope)
    (hbody : Within (b.sight n) body) :
    b.Tied n (make scope params body) (make scope params body) where
  alike {st st'} hrel hn := by
    have hscope := b.mono hn h
    have hnext : (st.mint scope).next = st.next := st.size_mint scope
    unfold Eval.make
    rw [b.made hrel hscope]
    refine .ok (b.mint hrel hscope) (Nat.le_of_eq hnext.symm) ?_
    rw [hnext]
    exact within_closure.2 ⟨hscope, hbody.mono fun _ => b.mono hn⟩
  adds _ _ := .of_output_eq rfl

/-- Arguments are bound one after the other. -/
theorem rel_defineAll {st st' : Store} {pairs : List (String × Value)} (hrel : b.rel st st')
    (h : b.sight st.next scope) (hpairs : ∀ p ∈ pairs, Within (b.sight st.next) p.2) :
    b.rel (st.defineAll scope pairs) (st'.defineAll scope pairs) := by
  induction pairs generalizing st st' with
  | nil => exact hrel
  | cons pair pairs ih =>
    have hnext : (st.define scope pair.1 pair.2).next = st.next :=
      st.size_define scope pair.1 pair.2
    refine ih (b.define pair.1 hrel h (hpairs pair List.mem_cons_self)) (by rwa [hnext]) ?_
    rw [hnext]
    exact fun p hp => hpairs p (List.mem_cons_of_mem _ hp)

theorem enter {params : List String} (h : b.sight n scope) (hargs : Within (b.sight n) args) :
    b.Tied n (enter scope params args) (enter scope params args) where
  alike {st st'} hrel hn := by
    obtain ⟨hnew, hpush⟩ := b.push hrel (b.mono hn h)
    have hnext : (st.pushEmpty (some scope)).next = st.next + 1 := st.size_push _
    have hsize : ((st.pushEmpty (some scope)).defineAll st.next (params.zip args)).next =
        st.next + 1 := (Store.size_defineAll _ _ _).trans hnext
    have hpairs : ∀ p ∈ params.zip args, Within (b.sight (st.next + 1)) p.2 := fun p hp =>
      (within_iff_forall.1 hargs p.2 (List.of_mem_zip hp).2).mono fun _ => b.mono (by omega)
    unfold Eval.enter
    rw [b.next_eq hrel]
    refine .ok (rel_defineAll hpush (by rwa [hnext]) (by rwa [hnext])) ?_ ?_ <;> rw [hsize]
    · exact Nat.le_succ _
    · exact within_scope.2 hnew
  adds _ st := by
    have houtput (pairs : List (String × Value)) (id : ScopeId) (s : Store) :
        (s.defineAll id pairs).output = s.output := by
      induction pairs generalizing s with
      | nil => rfl
      | cons pair pairs ih => exact ih (s.define id pair.1 pair.2)
    exact .of_output_eq (houtput _ _ _)

/-! ### Faults, texts and natives -/

variable {f f' : Nat}

theorem within_covers {e : Fault} (hf : b.Covers f f') :
    e.within f' = e.within f ∨ b.lax ∧ e.within f = .textLimit := by
  unfold Fault.within
  by_cases h : e.shown.all (·.fits f) = true
  · have h' : e.shown.all (·.fits f') = true := by
      rw [List.all_eq_true] at h ⊢
      exact fun v hv => Value.fits_mono hf.le (h v hv)
    exact .inl (by rw [if_pos h, if_pos h'])
  · by_cases hne : f = f'
    · exact .inl (by rw [hne])
    · exact .inr ⟨hf.lax hne, if_neg h⟩

theorem refuse (e : Fault) (hf : b.Covers f f') :
    b.Tied n (refuse f e : Eval α) (refuse f' e : Eval α) := by
  unfold Eval.refuse
  rcases within_covers (e := e) hf with heq | ⟨hlax, hlimit⟩
  · rw [heq]
    exact .throw _
  · rw [hlimit]
    exact .cut hlax rfl (Adds.throw _)

theorem writeLine (hf : b.Covers f f') : b.Tied n (writeLine f v) (writeLine f' v) := by
  have hadds : Adds (Eval.writeLine f' v) := by
    intro st
    unfold Eval.writeLine
    split
    · exact ⟨_, rfl⟩
    · exact .refl st
  refine ⟨fun {st st'} hrel _ => ?_, fun _ => hadds⟩
  by_cases hfits : v.fits f = true
  · have hnext : (st.write (v.toText ++ "\n")).next = st.next := rfl
    unfold Eval.writeLine
    rw [if_pos hfits, if_pos (Value.fits_mono hf.le hfits)]
    exact .ok (b.write _ hrel) (Nat.le_of_eq hnext.symm) (within_unit ())
  · have hleft : Eval.writeLine f v st = .error .textLimit st := if_neg hfits
    rw [hleft]
    by_cases hne : f = f'
    · have hright : Eval.writeLine f' v st' = .error .textLimit st' := if_neg (hne ▸ hfits)
      rw [hright]
      exact .error hrel
    · exact .cut (hf.lax hne) rfl hrel (hadds st')

theorem native {fn : Native} (hf : b.Covers f f') (hargs : Within (b.sight n) args) :
    b.Tied n (native f fn args) (native f' fn args) := by
  unfold Eval.native
  cases hcall : fn.call args with
  | error e => exact .refuse e hf
  | ok v =>
    have hv := Native.within_call hcall hargs
    dsimp only
    split
    · exact (writeLine hf).bind fun hnm _ => .pure (hv.mono fun _ => b.mono hnm)
    · exact .pure hv

/-! ### Lists of expressions -/

variable {g g' : Value → Eval Value} {es : List Value}

theorem each (h : ∀ e ∈ es, b.Tied n (g e) (g' e)) : b.Tied n (each g es) (each g' es) := by
  induction es generalizing n with
  | nil => exact .pure within_nil
  | cons e es ih =>
    refine (h e List.mem_cons_self).bind fun {m w} hnm hw => ?_
    have hrest := ih fun e' he' => (h e' (List.mem_cons_of_mem _ he')).mono hnm
    exact hrest.bind fun hml hws =>
      .pure (within_cons.2 ⟨hw.mono fun _ => b.mono hml, hws⟩)

theorem inOrder (h : ∀ e ∈ es, b.Tied n (g e) (g' e)) :
    b.Tied n (inOrder g es) (inOrder g' es) := by
  induction es generalizing n with
  | nil => exact .throw _
  | cons e es ih =>
    have he := h e List.mem_cons_self
    cases es with
    | nil => exact he
    | cons e' es =>
      exact he.bind fun hnm _ => ih fun e'' he'' => (h e'' (List.mem_cons_of_mem _ he'')).mono hnm

theorem eachPair (hf : b.Covers f f') (h : ∀ e ∈ es, b.Tied n (g e) (g' e)) :
    b.Tied n (eachPair f g es) (eachPair f' g' es) := by
  fun_induction Eval.eachPair f g es generalizing n with
  | case1 key v rest ih =>
    rw [Eval.eachPair]
    refine (h v (by simp)).bind fun {m w} hnm hw => ?_
    have hrest := ih fun e he => (h e (by simp [he])).mono hnm
    exact hrest.bind fun hml hws =>
      .pure (within_cons_pair.2 ⟨hw.mono fun _ => b.mono hml, hws⟩)
  | case2 key v rest hkey =>
    rw [Eval.eachPair]
    · exact .refuse _ hf
    · exact hkey
  | case3 key =>
    rw [Eval.eachPair]
    exact .refuse _ hf
  | case4 =>
    rw [Eval.eachPair]
    exact .pure within_nil_pairs

end Tied

/-! ### The evaluator -/

/-- What a special form is made of; anything else is refused, whatever the budget. -/
inductive Parts : Form → List Value → Prop
  | define (name : String) (expr : Value) : Parts .define [.symbol name, expr]
  | assign (name : String) (expr : Value) : Parts .assign [.symbol name, expr]
  | sequence (exprs : List Value) : Parts .sequence exprs
  | choose (condition yes no : Value) : Parts .choose [condition, yes, no]
  | lambda {list : Value} {params : List String} (body : Value) (h : list.params = .ok params) :
      Parts .lambda [list, body]
  | quote (v : Value) : Parts .quote [v]
  | refused {form : Form} {operands : List Value} (e : Fault)
      (h : ∀ f d scope, evaluateForm (f + 1) d scope form operands = refuse f e) :
      Parts form operands

theorem refused_of_arity {form : Form} {operands : List Value}
    (h : ∀ f d scope, evaluateForm (f + 1) d scope form operands = throw (.formArity form)) :
    Parts form operands :=
  .refused (.formArity form) h

theorem parts_binding {form : Form} (hform : form = .define ∨ form = .assign)
    (operands : List Value) : Parts form operands := by
  match operands with
  | [target, expr] =>
    by_cases htarget : ∃ name, target = .symbol name
    · obtain ⟨name, rfl⟩ := htarget
      rcases hform with rfl | rfl
      · exact .define name expr
      · exact .assign name expr
    · refine .refused (.badTarget form target) fun f d scope => ?_
      rcases hform with rfl | rfl <;> rw [evaluateForm] <;> exact fun name h => htarget ⟨name, h⟩
  | [] | [_] | _ :: _ :: _ :: _ =>
    refine refused_of_arity fun f d scope => ?_
    rcases hform with rfl | rfl <;> simp [evaluateForm]

theorem parts (form : Form) (operands : List Value) : Parts form operands := by
  cases form with
  | define => exact parts_binding (.inl rfl) operands
  | assign => exact parts_binding (.inr rfl) operands
  | sequence => exact .sequence operands
  | choose =>
    rcases operands with _ | ⟨condition, _ | ⟨yes, _ | ⟨no, _ | ⟨fourth, rest⟩⟩⟩⟩
    case cons.cons.cons.nil => exact .choose condition yes no
    all_goals exact refused_of_arity fun f d scope => by simp [evaluateForm]
  | lambda =>
    rcases operands with _ | ⟨list, _ | ⟨body, _ | ⟨third, rest⟩⟩⟩
    case cons.cons.nil =>
      cases h : list.params with
      | ok params => exact .lambda body h
      | error cause =>
        exact .refused (.badParams cause) fun f d scope => by simp only [evaluateForm, h]
    all_goals exact refused_of_arity fun f d scope => by simp [evaluateForm]
  | quote =>
    rcases operands with _ | ⟨v, _ | ⟨second, rest⟩⟩
    case cons.nil => exact .quote v
    all_goals exact refused_of_arity fun f d scope => by simp [evaluateForm]

variable (b) in
/-- The functions of the evaluator, with frames `f` and `f'`, stay tied. -/
structure Sound (f f' : Nat) : Prop where
  evaluate : ∀ {d d' n scope} {expr : Value}, b.Covers d d' → b.sight n scope →
    Within (b.sight n) expr → b.Tied n (evaluate f d scope expr) (evaluate f' d' scope expr)
  all : ∀ {d d' n scope} {es : List Value}, b.Covers d d' → b.sight n scope →
    Within (b.sight n) es → b.Tied n (evaluateAll f d scope es) (evaluateAll f' d' scope es)
  application : ∀ {d d' n scope} {es : List Value}, b.Covers d d' → b.sight n scope →
    Within (b.sight n) es →
    b.Tied n (evaluateApplication f d scope es) (evaluateApplication f' d' scope es)
  dictionary : ∀ {d d' n scope} {es : List Value}, b.Covers d d' → b.sight n scope →
    Within (b.sight n) es →
    b.Tied n (evaluateDictionary f d scope es) (evaluateDictionary f' d' scope es)
  form : ∀ {d d' n scope form} {es : List Value}, b.Covers d d' → b.sight n scope →
    Within (b.sight n) es →
    b.Tied n (evaluateForm f d scope form es) (evaluateForm f' d' scope form es)
  apply : ∀ {d d' n} {fn : Value} {args : List Value}, b.Covers d d' → Within (b.sight n) fn →
    Within (b.sight n) args → b.Tied n (apply f d fn args) (apply f' d' fn args)
  closure : ∀ {d d' n params scope} {body : Value} {args : List Value}, b.Covers d d' →
    b.sight n scope → Within (b.sight n) body → Within (b.sight n) args →
    b.Tied n (applyClosure f d params body scope args) (applyClosure f' d' params body scope args)

section Steps

variable {f f' d d' : Nat} {scope : ScopeId} {es : List Value}

theorem tied_each (ih : b.Sound f f') (hd : b.Covers d d') (hs : b.sight n scope)
    (hes : Within (b.sight n) es) :
    ∀ e ∈ es, b.Tied n (evaluate f d scope e) (evaluate f' d' scope e) :=
  fun e he => ih.evaluate hd hs (within_iff_forall.1 hes e he)

theorem tied_evaluate_succ (ih : b.Sound f f') {expr : Value} (hd : b.Covers d d')
    (hs : b.sight n scope) (hexpr : Within (b.sight n) expr) :
    b.Tied n (evaluate (f + 1) d scope expr) (evaluate (f' + 1) d' scope expr) := by
  unfold evaluate
  cases expr with
  | symbol name => exact .lookup hs
  | list flavor items =>
    rw [within_list] at hexpr
    cases flavor with
    | plain => exact ih.application hd hs hexpr
    | vector => exact (ih.all hd hs hexpr).bind fun _ hvs => .pure (within_list.2 hvs)
  | braces entries => exact ih.dictionary hd hs (within_braces.1 hexpr)
  | _ => exact .pure hexpr

theorem tied_application_succ (ih : b.Sound f f') (hf : b.Covers f f') (hd : b.Covers d d')
    (hs : b.sight n scope) (hes : Within (b.sight n) es) :
    b.Tied n (evaluateApplication (f + 1) d scope es)
      (evaluateApplication (f' + 1) d' scope es) := by
  -- the function is there, and the operands are evaluated and handed to it
  have hcall {m : Nat} {fn : Value} {operands : List Value} (hnm : n ≤ m)
      (hfn : Within (b.sight m) fn) (hops : Within (b.sight n) operands) :
      b.Tied m (do let args ← evaluateAll f d scope operands; apply f d fn args)
        (do let args ← evaluateAll f' d' scope operands; apply f' d' fn args) :=
    (ih.all hd (b.mono hnm hs) (hops.mono fun _ => b.mono hnm)).bind fun hml hargs =>
      ih.apply hd (hfn.mono fun _ => b.mono hml) hargs
  unfold evaluateApplication
  cases es with
  | nil => exact .throw _
  | cons head operands =>
    obtain ⟨hhead, hops⟩ := within_cons.1 hes
    cases head with
    | symbol name =>
      dsimp only
      cases Form.ofName? name with
      | some form => exact ih.form hd hs hops
      | none => exact (Tied.lookup hs).bind fun hnm hfn => hcall hnm hfn hops
    | list flavor items =>
      cases flavor with
      | plain => exact (ih.evaluate hd hs hhead).bind fun hnm hfn => hcall hnm hfn hops
      | vector => exact .refuse _ hf
    | _ => exact .refuse _ hf

theorem tied_dictionary_succ (ih : b.Sound f f') (hf : b.Covers f f') (hd : b.Covers d d')
    (hs : b.sight n scope) (hes : Within (b.sight n) es) :
    b.Tied n (evaluateDictionary (f + 1) d scope es)
      (evaluateDictionary (f' + 1) d' scope es) := by
  unfold evaluateDictionary
  cases es.getLast? with
  | none => exact .pure (within_dictionary.2 within_nil_pairs)
  | some key =>
    dsimp only
    split
    · exact .refuse _ hf
    · exact (Tied.eachPair hf (tied_each ih hd hs hes)).bind fun _ hpairs =>
        .pure (within_dictionary.2 hpairs)

theorem tied_form_succ (ih : b.Sound f f') (hf : b.Covers f f') {form : Form}
    (hd : b.Covers d d') (hs : b.sight n scope) (hes : Within (b.sight n) es) :
    b.Tied n (evaluateForm (f + 1) d scope form es) (evaluateForm (f' + 1) d' scope form es) := by
  have hpart (e : Value) (he : e ∈ es) : Within (b.sight n) e := within_iff_forall.1 hes e he
  cases parts form es with
  | refused e h =>
    rw [h, h]
    exact .refuse e hf
  | define name expr =>
    unfold evaluateForm
    refine (ih.evaluate hd hs (hpart expr (by simp))).bind fun hnm hv => ?_
    exact (Tied.define (b.mono hnm hs) hv).bind fun hml _ => .pure (hv.mono fun _ => b.mono hml)
  | assign name expr =>
    unfold evaluateForm
    refine (ih.evaluate hd hs (hpart expr (by simp))).bind fun hnm hv => ?_
    exact (Tied.assign (b.mono hnm hs) hv).bind fun hml _ => .pure (hv.mono fun _ => b.mono hml)
  | sequence exprs =>
    unfold evaluateForm
    exact .inOrder (tied_each ih hd hs hes)
  | choose condition yes no =>
    unfold evaluateForm
    refine (ih.evaluate hd hs (hpart condition (by simp))).bind fun {m v} hnm _ => ?_
    have hbranch (c : Bool) : Within (b.sight m) (if c then yes else no) :=
      (hpart _ (by cases c <;> simp)).mono fun _ => b.mono hnm
    split
    · exact ih.evaluate hd (b.mono hnm hs) (hbranch _)
    · exact .refuse _ hf
  | lambda body h =>
    unfold evaluateForm
    simp only [h]
    exact .make hs (hpart body (by simp))
  | quote v =>
    unfold evaluateForm
    exact .pure (hpart v (by simp))

theorem tied_apply_succ (ih : b.Sound f f') (hf : b.Covers f f') {fn : Value} {args : List Value}
    (hd : b.Covers d d') (hfn : Within (b.sight n) fn) (hargs : Within (b.sight n) args) :
    b.Tied n (apply (f + 1) d fn args) (apply (f' + 1) d' fn args) := by
  unfold apply
  cases fn with
  | closure params body scope serial =>
    obtain ⟨hscope, hbody⟩ := within_closure.1 hfn
    exact ih.closure hd hscope hbody hargs
  | native fn home => exact .native hf hargs
  | _ => exact .refuse _ hf

/-- Where both runs have calls left. -/
theorem tied_call (ih : b.Sound f f') {params : List String} {body : Value} {args : List Value}
    (hd : b.Covers d d') (hs : b.sight n scope) (hbody : Within (b.sight n) body)
    (hargs : Within (b.sight n) args) :
    b.Tied n (applyClosure (f + 1) (d + 1) params body scope args)
      (applyClosure (f' + 1) (d' + 1) params body scope args) := by
  unfold applyClosure
  dsimp only
  split
  · exact .throw _
  · exact (Tied.enter hs hargs).bind fun hnm hinner =>
      ih.evaluate hd (within_scope.1 hinner) (hbody.mono fun _ => b.mono hnm)

theorem tied_closure_succ (ih : b.Sound f f') {params : List String} {body : Value}
    {args : List Value} (hd : b.Covers d d') (hs : b.sight n scope)
    (hbody : Within (b.sight n) body) (hargs : Within (b.sight n) args) :
    b.Tied n (applyClosure (f + 1) d params body scope args)
      (applyClosure (f' + 1) d' params body scope args) := by
  cases d with
  | succ d =>
    obtain ⟨e, rfl⟩ : ∃ e, d' = e + 1 := ⟨d' - 1, by have := hd.le; omega⟩
    exact tied_call ih hd.of_succ hs hbody hargs
  | zero =>
    have hleft : applyClosure (f + 1) 0 params body scope args = throw .callDepth := by
      unfold applyClosure
      rfl
    cases d' with
    | zero =>
      unfold applyClosure
      exact .throw _
    | succ e =>
      have hlax := hd.lax (Nat.succ_ne_zero e).symm
      rw [hleft]
      exact .cut hlax rfl ((tied_call ih (.refl e) hs hbody hargs).adds hlax)

end Steps

theorem sound_succ {f f' : Nat} (hf : b.Covers f f') (ih : b.Sound f f') :
    b.Sound (f + 1) (f' + 1) where
  evaluate := tied_evaluate_succ ih
  all hd hs hes := by
    unfold evaluateAll
    exact .each (tied_each ih hd hs hes)
  application := tied_application_succ ih hf
  dictionary := tied_dictionary_succ ih hf
  form := tied_form_succ ih hf
  apply := tied_apply_succ ih hf
  closure := tied_closure_succ ih

theorem sound_zero : b.Sound 0 0 := by
  constructor <;> intros
  · unfold evaluate; exact .throw _
  · unfold evaluateAll; exact .throw _
  · unfold evaluateApplication; exact .throw _
  · unfold evaluateDictionary; exact .throw _
  · unfold evaluateForm; exact .throw _
  · unfold apply; exact .throw _
  · unfold applyClosure; exact .throw _

theorem tied_cut {x x' : Eval α} (hlax : b.lax) (hx : x = throw .frameLimit)
    (h : b.Tied n x' x') : b.Tied n x x' := by
  rw [hx]
  exact .cut hlax rfl (h.adds hlax)

/-- Without frames the first run is cut off at once; that the second one only adds text is part of
what is known of it. -/
theorem sound_cut {f' : Nat} (hlax : b.lax) (h : b.Sound f' f') : b.Sound 0 f' where
  evaluate _ hs he := tied_cut hlax (by unfold evaluate; rfl) (h.evaluate (.refl _) hs he)
  all _ hs he := tied_cut hlax (by unfold evaluateAll; rfl) (h.all (.refl _) hs he)
  application _ hs he :=
    tied_cut hlax (by unfold evaluateApplication; rfl) (h.application (.refl _) hs he)
  dictionary _ hs he :=
    tied_cut hlax (by unfold evaluateDictionary; rfl) (h.dictionary (.refl _) hs he)
  form _ hs he := tied_cut hlax (by unfold evaluateForm; rfl) (h.form (.refl _) hs he)
  apply _ hs he := tied_cut hlax (by unfold apply; rfl) (h.apply (.refl _) hs he)
  closure _ hs hb he :=
    tied_cut hlax (by unfold applyClosure; rfl) (h.closure (.refl _) hs hb he)

/-- Every two runs with budgets that cover each other stay tied. -/
theorem tied {f f' : Nat} (hf : b.Covers f f') : b.Sound f f' := by
  induction f' generalizing f with
  | zero =>
    obtain rfl : f = 0 := Nat.le_zero.1 hf.le
    exact sound_zero
  | succ f' ih =>
    cases f with
    | zero =>
      have hlax := hf.lax (Nat.succ_ne_zero f').symm
      exact sound_cut hlax (sound_succ (.refl f') (ih (.refl f')))
    | succ f => exact sound_succ hf.of_succ (ih hf.of_succ)

end Bond

namespace Store

variable (st : Store) (scope : ScopeId) (expr : Value) {depth : Nat}

theorem evaluate_of_lt (h : maxFrames < frameAllowance depth) :
    st.evaluate depth scope expr = .error .tooManyFrames st :=
  if_pos h

theorem evaluate_of_le (h : frameAllowance depth ≤ maxFrames) :
    st.evaluate depth scope expr =
      MiniLisp.evaluate (activationFrames depth) depth scope expr st :=
  if_neg (Nat.not_lt.2 h)

end Store

end MiniLisp
