import MiniLisp.Evaluator
import MiniLisp.Proofs.Guards

/-!
# Evaluations that end with a value

What an evaluation with a value has done, one fact for each kind of expression: the parts that were
evaluated, in which order, with which frames, and from which store to which. Later proofs peel an
evaluation apart with these facts and never open the evaluator.
-/

namespace MiniLisp

open Eval

variable {frames depth : Nat} {scope : ScopeId} {st st' : Store} {v : Value}

/-! ## Steps of a computation -/

theorem EStateM.bind_of_ok {ε σ α β : Type} {x : EStateM ε σ α} {f : α → EStateM ε σ β}
    {s s₁ : σ} {a : α} (h : x s = .ok a s₁) : (x >>= f) s = f a s₁ := by
  simp only [bind, EStateM.bind, h]

theorem EStateM.bind_eq_ok {ε σ α β : Type} {x : EStateM ε σ α} {f : α → EStateM ε σ β} {s s' : σ}
    {b : β} (h : (x >>= f) s = .ok b s') : ∃ a s₁, x s = .ok a s₁ ∧ f a s₁ = .ok b s' := by
  change EStateM.bind x f s = .ok b s' at h
  unfold EStateM.bind at h
  split at h
  · rename_i a s₁ hx
    exact ⟨a, s₁, hx, h⟩
  · cases h

theorem Eval.each_cons_eq_ok {f : Value → Eval Value} {e : Value} {es vs : List Value}
    (h : each f (e :: es) st = .ok vs st') :
    ∃ w ws st₁, f e st = .ok w st₁ ∧ each f es st₁ = .ok ws st' ∧ vs = w :: ws := by
  obtain ⟨w, st₁, hw, h⟩ := EStateM.bind_eq_ok h
  obtain ⟨ws, st₂, hws, h⟩ := EStateM.bind_eq_ok h
  cases h
  exact ⟨w, ws, st₁, hw, hws, rfl⟩

/-- The values of a sequence are computed as those of a list, and the last one is given. -/
theorem Eval.inOrder_eq_ok {f : Value → Eval Value} {es : List Value}
    (h : inOrder f es st = .ok v st') :
    ∃ vs, each f es st = .ok vs st' ∧ vs.getLast? = some v := by
  induction es generalizing st with
  | nil => cases h
  | cons e es ih =>
    cases es with
    | nil =>
      rw [inOrder] at h
      refine ⟨[v], ?_, rfl⟩
      simp [each, bind, EStateM.bind, h, pure, EStateM.pure]
    | cons e' es =>
      rw [inOrder] at h
      · obtain ⟨w, st₁, hw, h⟩ := EStateM.bind_eq_ok h
        obtain ⟨vs, hvs, hlast⟩ := ih h
        refine ⟨w :: vs, ?_, ?_⟩
        · rw [each]
          simp [bind, EStateM.bind, hw, hvs, pure, EStateM.pure]
        · obtain ⟨x, xs, rfl⟩ : ∃ x xs, vs = x :: xs := by
            obtain ⟨x, xs, _, _, _, rfl⟩ := each_cons_eq_ok hvs
            exact ⟨x, xs, rfl⟩
          simpa [List.getLast?_cons_cons] using hlast
      · simp

theorem Eval.lookup_eq_ok {name : String} (h : lookup scope name st = .ok v st') :
    st.get? scope name = some v ∧ st' = st := by
  unfold lookup at h
  split at h
  · rename_i w hw
    cases h
    exact ⟨hw, rfl⟩
  · cases h

/-- An assignment binds the name anew in the scope that owns it. -/
theorem Eval.assign_eq_ok {name : String} {u : Unit} (h : assign scope name v st = .ok u st') :
    ∃ o, st.owner? scope name = some o ∧ st' = st.define o name v := by
  unfold assign Store.assign? at h
  cases ho : st.owner? scope name with
  | none =>
    rw [ho] at h
    cases h
  | some o =>
    rw [ho] at h
    cases h
    exact ⟨o, rfl, rfl⟩

/-! ## Expressions -/

theorem evaluate_atom_eq_ok {a : Atom} (h : evaluate frames depth scope (.atom a) st = .ok v st') :
    0 < frames ∧ v = .atom a ∧ st' = st := by
  unfold evaluate at h
  cases frames with
  | zero => cases h
  | succ k =>
    cases h
    exact ⟨k.succ_pos, rfl, rfl⟩

theorem evaluate_symbol_eq_ok {name : String}
    (h : evaluate frames depth scope (.symbol name) st = .ok v st') :
    0 < frames ∧ st.get? scope name = some v ∧ st' = st := by
  unfold evaluate at h
  cases frames with
  | zero => cases h
  | succ k => exact ⟨k.succ_pos, lookup_eq_ok h⟩

theorem evaluateAll_eq_ok {es vs : List Value}
    (h : evaluateAll frames depth scope es st = .ok vs st') :
    ∃ k, frames = k + 1 ∧ each (evaluate k depth scope) es st = .ok vs st' := by
  unfold evaluateAll at h
  cases frames with
  | zero => cases h
  | succ k => exact ⟨k, rfl, h⟩

theorem evaluate_vector_eq_ok {es : List Value}
    (h : evaluate frames depth scope (.list .vector es) st = .ok v st') :
    ∃ k vs, frames = k + 2 ∧ each (evaluate k depth scope) es st = .ok vs st' ∧
      v = .list .vector vs := by
  unfold evaluate at h
  cases frames with
  | zero => cases h
  | succ j =>
    obtain ⟨vs, st₁, hvs, h⟩ := EStateM.bind_eq_ok h
    cases h
    obtain ⟨k, rfl, hk⟩ := evaluateAll_eq_ok hvs
    exact ⟨k, vs, rfl, hk, rfl⟩

/-- An application is evaluated with the frames that evaluating it leaves. -/
theorem evaluate_plain_eq_ok {items : List Value}
    (h : evaluate frames depth scope (.list .plain items) st = .ok v st') :
    ∃ k, frames = k + 2 ∧ evaluateApplication (k + 1) depth scope items st = .ok v st' := by
  unfold evaluate at h
  cases frames with
  | zero => cases h
  | succ j =>
    cases j with
    | zero =>
      unfold evaluateApplication at h
      cases h
    | succ k => exact ⟨k, rfl, h⟩

/-- A call of a name looks the function up first and evaluates the operands then. -/
theorem evaluate_call_eq_ok {name : String} {es : List Value} (hname : Form.ofName? name = none)
    (h : evaluate frames depth scope (.list .plain (.symbol name :: es)) st = .ok v st') :
    ∃ k fn args st₁, frames = k + 3 ∧ st.get? scope name = some fn ∧
      each (evaluate k depth scope) es st = .ok args st₁ ∧
      apply (k + 1) depth fn args st₁ = .ok v st' := by
  obtain ⟨k, rfl, ha⟩ := evaluate_plain_eq_ok h
  unfold evaluateApplication at ha
  simp only [hname] at ha
  obtain ⟨fn, st₀, hfn, hcall⟩ := EStateM.bind_eq_ok ha
  obtain ⟨hget, hst⟩ := lookup_eq_ok hfn
  rw [hst] at hcall
  obtain ⟨args, st₁, hall, happly⟩ := EStateM.bind_eq_ok hcall
  obtain ⟨i, rfl, hargs⟩ := evaluateAll_eq_ok hall
  exact ⟨i, fn, args, st₁, rfl, hget, hargs, happly⟩

/-- A call of an application evaluates the function first and the operands then. -/
theorem evaluate_callValue_eq_ok {head es : List Value}
    (h : evaluate frames depth scope (.list .plain (.list .plain head :: es)) st = .ok v st') :
    ∃ k fn args st₁ st₂, frames = k + 3 ∧
      evaluate (k + 1) depth scope (.list .plain head) st = .ok fn st₁ ∧
      each (evaluate k depth scope) es st₁ = .ok args st₂ ∧
      apply (k + 1) depth fn args st₂ = .ok v st' := by
  obtain ⟨k, rfl, ha⟩ := evaluate_plain_eq_ok h
  unfold evaluateApplication at ha
  obtain ⟨fn, st₁, hfn, hcall⟩ := EStateM.bind_eq_ok ha
  obtain ⟨args, st₂, hall, happly⟩ := EStateM.bind_eq_ok hcall
  obtain ⟨i, rfl, hargs⟩ := evaluateAll_eq_ok hall
  exact ⟨i, fn, args, st₁, st₂, rfl, hfn, hargs, happly⟩

/-! ## Special forms -/

theorem evaluate_form_eq_ok {word : String} {form : Form} {es : List Value}
    (hword : Form.ofName? word = some form)
    (h : evaluate frames depth scope (.list .plain (.symbol word :: es)) st = .ok v st') :
    ∃ k, frames = k + 3 ∧ evaluateForm (k + 1) depth scope form es st = .ok v st' := by
  obtain ⟨k, rfl, ha⟩ := evaluate_plain_eq_ok h
  unfold evaluateApplication at ha
  simp only [hword] at ha
  cases k with
  | zero =>
    unfold evaluateForm at ha
    cases ha
  | succ k => exact ⟨k, rfl, ha⟩

theorem evaluate_define_eq_ok {word name : String} {e : Value}
    (hword : Form.ofName? word = some .define)
    (h : evaluate frames depth scope (.list .plain [.symbol word, .symbol name, e]) st = .ok v st') :
    ∃ k st₁, frames = k + 3 ∧ evaluate k depth scope e st = .ok v st₁ ∧
      st' = st₁.define scope name v := by
  obtain ⟨k, rfl, hf⟩ := evaluate_form_eq_ok hword h
  unfold evaluateForm at hf
  obtain ⟨w, st₁, hw, hf⟩ := EStateM.bind_eq_ok hf
  obtain ⟨_, st₂, hd, hf⟩ := EStateM.bind_eq_ok hf
  cases hd
  cases hf
  exact ⟨k, st₁, rfl, hw, rfl⟩

theorem evaluate_assign_eq_ok {word name : String} {e : Value}
    (hword : Form.ofName? word = some .assign)
    (h : evaluate frames depth scope (.list .plain [.symbol word, .symbol name, e]) st = .ok v st') :
    ∃ k st₁ o, frames = k + 3 ∧ evaluate k depth scope e st = .ok v st₁ ∧
      st₁.owner? scope name = some o ∧ st' = st₁.define o name v := by
  obtain ⟨k, rfl, hf⟩ := evaluate_form_eq_ok hword h
  unfold evaluateForm at hf
  obtain ⟨w, st₁, hw, hf⟩ := EStateM.bind_eq_ok hf
  obtain ⟨_, st₂, hd, hf⟩ := EStateM.bind_eq_ok hf
  obtain ⟨o, ho, rfl⟩ := assign_eq_ok hd
  cases hf
  exact ⟨k, st₁, o, rfl, hw, ho, rfl⟩

theorem evaluate_sequence_eq_ok {word : String} {es : List Value}
    (hword : Form.ofName? word = some .sequence)
    (h : evaluate frames depth scope (.list .plain (.symbol word :: es)) st = .ok v st') :
    ∃ k vs, frames = k + 3 ∧ each (evaluate k depth scope) es st = .ok vs st' ∧
      vs.getLast? = some v := by
  obtain ⟨k, rfl, hf⟩ := evaluate_form_eq_ok hword h
  unfold evaluateForm at hf
  obtain ⟨vs, hvs, hlast⟩ := inOrder_eq_ok hf
  exact ⟨k, vs, rfl, hvs, hlast⟩

theorem evaluate_choose_eq_ok {word : String} {e yes no : Value}
    (hword : Form.ofName? word = some .choose)
    (h : evaluate frames depth scope (.list .plain [.symbol word, e, yes, no]) st = .ok v st') :
    ∃ k b st₁, frames = k + 3 ∧ evaluate k depth scope e st = .ok (.boolean b) st₁ ∧
      evaluate k depth scope (if b then yes else no) st₁ = .ok v st' := by
  obtain ⟨k, rfl, hf⟩ := evaluate_form_eq_ok hword h
  unfold evaluateForm at hf
  obtain ⟨w, st₁, hw, hf⟩ := EStateM.bind_eq_ok hf
  split at hf
  · rename_i b
    exact ⟨k, b, st₁, rfl, hw, hf⟩
  · cases hf

theorem evaluate_lambda_eq_ok {word : String} {list body : Value} {params : List String}
    (hword : Form.ofName? word = some .lambda) (hparams : list.params = .ok params)
    (h : evaluate frames depth scope (.list .plain [.symbol word, list, body]) st = .ok v st') :
    0 < frames ∧ v = .closure params body scope (st.made scope) ∧ st' = st.mint scope := by
  obtain ⟨k, rfl, hf⟩ := evaluate_form_eq_ok hword h
  unfold evaluateForm at hf
  simp only [hparams] at hf
  cases hf
  exact ⟨by omega, rfl, rfl⟩

theorem evaluate_quote_eq_ok {word : String} {e : Value} (hword : Form.ofName? word = some .quote)
    (h : evaluate frames depth scope (.list .plain [.symbol word, e]) st = .ok v st') :
    0 < frames ∧ v = e ∧ st' = st := by
  obtain ⟨k, rfl, hf⟩ := evaluate_form_eq_ok hword h
  unfold evaluateForm at hf
  cases hf
  exact ⟨by omega, rfl, rfl⟩

/-! ## Calls -/

/-- The body of a closure is evaluated in a new scope, with one unit of call depth less. -/
theorem apply_closure_eq_ok {params : List String} {body : Value} {serial : Nat}
    {args : List Value}
    (h : apply (frames + 1) depth (.closure params body scope serial) args st = .ok v st') :
    ∃ k d, frames = k + 1 ∧ depth = d + 1 ∧ args.length = params.length ∧
      evaluate k d st.next body
        ((st.pushEmpty (some scope)).defineAll st.next (params.zip args)) = .ok v st' := by
  unfold apply at h
  dsimp only at h
  unfold applyClosure at h
  cases frames with
  | zero => cases h
  | succ k =>
    cases depth with
    | zero => cases h
    | succ d =>
      dsimp only at h
      by_cases hlen : args.length = params.length
      · rw [if_neg (by simpa using hlen)] at h
        exact ⟨k, d, rfl, rfl, hlen, h⟩
      · rw [if_pos hlen] at h
        cases h

theorem Eval.native_eq_ok {fn : Native} {args : List Value} (hfn : fn ≠ .print)
    (h : native frames fn args st = .ok v st') : fn.call args = .ok v ∧ st' = st := by
  unfold native at h
  cases hcall : fn.call args with
  | error e =>
    rw [hcall] at h
    cases h
  | ok w =>
    rw [hcall] at h
    dsimp only at h
    rw [if_neg hfn] at h
    cases h
    exact ⟨rfl, rfl⟩

/-- An operator takes two numbers. -/
theorem apply_operator_eq_ok {op : Operator} {home : Nat} {args : List Value}
    (h : apply (frames + 1) depth (.native (.operator op) home) args st = .ok v st') :
    ∃ a b, args = [.number a, .number b] ∧ op.apply a b = .ok v ∧ st' = st := by
  unfold apply at h
  obtain ⟨hcall, rfl⟩ := native_eq_ok (by simp) h
  obtain ⟨a, b, rfl, happly⟩ := Native.call_operator_eq_ok hcall
  exact ⟨a, b, rfl, happly, rfl⟩

/-- The builders of lists give the list of their arguments. -/
theorem apply_build_eq_ok {fn : Native} {home : Nat} {args : List Value}
    (hfn : fn = .list ∨ fn = .vector)
    (h : apply (frames + 1) depth (.native fn home) args st = .ok v st') :
    (∃ flavor, v = .list flavor args) ∧ st' = st := by
  unfold apply at h
  rcases hfn with rfl | rfl
  · obtain ⟨hcall, rfl⟩ := native_eq_ok (by simp) h
    cases hcall
    exact ⟨⟨.plain, rfl⟩, rfl⟩
  · obtain ⟨hcall, rfl⟩ := native_eq_ok (by simp) h
    cases hcall
    exact ⟨⟨.vector, rfl⟩, rfl⟩

end MiniLisp
