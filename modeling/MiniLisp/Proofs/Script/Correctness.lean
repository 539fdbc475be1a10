import MiniLisp.Proofs.Equality
import MiniLisp.Proofs.Script.Simulation

/-!
# Programs and their scripts agree

The script of a program that is accepted ends with the value of the program, if that value is built
of atoms and lists. This holds of every program without definitions and assignments, and of every
program whose names are steady; in both cases no function may repeat a parameter.

There are three ways to fail without that, one for each kind of failure:
a native that nothing binds is assigned, a copy of an outer name is read after the name got another
meaning outside, or a parameter is repeated.
-/

namespace MiniLisp

open Script (mangle Plain Memory Reaches Operators)
open Lowering

/-! ## No script repeats a parameter -/

section Distinct

variable {w : Writes} {c : Site}

theorem Script.distinctParamsAll_iff {ss : List Script} :
    Script.distinctParamsAll ss = true ↔ ∀ s ∈ ss, s.distinctParams = true := by
  induction ss with
  | nil => simp [Script.distinctParamsAll]
  | cons s ss ih => simp [Script.distinctParamsAll, ih]

theorem distinctParams_operatorFunction (op : Operator) :
    (operatorFunction op).distinctParams = true := by
  simp [operatorFunction, Script.distinctParams]

theorem distinctParams_wrapper {outer : Names} {toplevel : Bool} {params : List String}
    {body : Value} {initial : List (String × Option Script)} {s : Script}
    (hinitial : initialValues outer toplevel (definitions params body) = .ok initial)
    (hplain : ∀ n ∈ definitions params body, Plain n) (hs : s.distinctParams = true) :
    (wrapper initial s).distinctParams = true := by
  have hgiven : ∀ t ∈ (initial.filter (·.2.isSome)).filterMap (·.2), t.distinctParams = true := by
    intro t ht
    rcases argument_cases hinitial ht with ⟨n, -, rfl⟩ | ⟨op, rfl⟩
    · rfl
    · exact distinctParams_operatorFunction op
  have hnames := nodup_map_wrapperNames hinitial hplain
  rw [wrapper_eq]
  split
  · exact hs
  · simp only [Script.distinctParams, Bool.and_eq_true, decide_eq_true_eq]
    exact ⟨⟨hnames, hs⟩, Script.distinctParamsAll_iff.2 hgiven⟩

mutual

theorem Lowers.distinctParams {c : Site} {e : Value} {s : Script} :
    Lowers w c e s → s.distinctParams = true
  | .atom | .name .. | .unbound .. | .quote _ => rfl
  | .operator .. => distinctParams_operatorFunction _
  | .vector hes | .build _ _ _ _ _ hes => by
    simpa only [Script.distinctParams] using hes.distinctParams
  | .operation _ _ _ _ hes => by
    simpa [Script.distinctParams, Script.distinctParamsAll] using hes.distinctParams
  | .callName _ _ _ _ hes | .callUnbound _ _ _ hes => by
    simpa [Script.distinctParams] using hes.distinctParams
  | .callValue hes => by
    simpa only [Script.distinctParams, Script.distinctParamsAll] using hes.distinctParams
  | .single _ hl => hl.distinctParams
  | .sequence _ _ hes => by simpa only [Script.distinctParams] using hes.distinctParams
  | .choose _ hl hyes hno => by
    simp [Script.distinctParams, hl.distinctParams, hyes.distinctParams, hno.distinctParams]
  | .define _ _ _ _ hl | .assign _ _ _ _ hl => by
    simpa [Script.distinctParams] using hl.distinctParams
  | .function _ _ hb | .defineFunction _ _ _ _ _ _ hb => by
    simpa [Script.distinctParams] using hb.distinctParams

theorem LowersAll.distinctParams {c : Site} {es : List Value} {ss : List Script} :
    LowersAll w c es ss → Script.distinctParamsAll ss = true
  | .nil => rfl
  | .cons hl hls => by
    simp [Script.distinctParamsAll, hl.distinctParams, hls.distinctParams]

theorem LowersBody.distinctParams {c : Site} {params : List String} {body : Value} {s : Script} :
    LowersBody w c params body s → (params.map mangle).Nodup ∧ s.distinctParams = true
  | .mk hnodup hplain hinitial hl =>
    ⟨nodup_map_mangle (fun p hp => hplain p (List.mem_append_left _ hp)) hnodup,
      distinctParams_wrapper hinitial (fun n hn => hplain n (List.mem_append_right _ hn))
        hl.distinctParams⟩

end

end Distinct

/-! ## Whole programs -/

section Program

variable {ops : Operators} {program : Value} {s : Script}

/-- The script of a steady program follows the program. -/
theorem reaches_of_steady (hops : ops.Numeric) {depth home : Nat} {v : Value} {st : Store}
    (hread : program.wellRead = true) (hdistinct : program.distinctParams = true)
    (hsteady : program.steady = true) (hs : program.toScript = .ok s)
    (he : (Store.pushGlobal {} home).evaluate depth 0 program = .ok v st) :
    ∃ k W m u, Reaches ops k [] s {} u m ∧ Related (.ofProgram program) W st v u := by
  obtain ⟨initial, t, hinitial, hlowers, rfl⟩ := lowers_of_toScript hread hdistinct hsteady hs
  obtain ⟨l, m, hagrees, hstands, hreach⟩ := agrees_start ops t home hread hinitial
  unfold Store.evaluate at he
  split at he
  · cases he
  · have hrunning : Running (.ofProgram program) home [l] (Store.pushGlobal {} home) m [] 0 l
        (.initial program) := ⟨hagrees, by simp, hstands⟩
    obtain ⟨W, m', u, ht, -, -, hrel, -⟩ := simulates hops _ home _ hrunning hlowers he
    exact ⟨_, W, m', u, hreach (Nat.le_add_left 1 _) (ht.mono (Nat.le_succ _)), hrel⟩

theorem distinctParams_of_toScript (hread : program.wellRead = true)
    (hdistinct : program.distinctParams = true) (hsteady : program.steady = true)
    (hs : program.toScript = .ok s) : s.distinctParams = true := by
  obtain ⟨initial, t, hinitial, hlowers, rfl⟩ := lowers_of_toScript hread hdistinct hsteady hs
  exact distinctParams_wrapper hinitial (plain_of_mem_definitions hread) hlowers.distinctParams

/-- A script that starts and reaches a value ends with that value. -/
theorem Script.Reaches.endsWith {k : Nat} {m : Memory} {u : ScriptValue}
    (h : Reaches ops k [] s {} u m) (hs : s.distinctParams = true) : s.EndsWith ops u := by
  refine ⟨k, fun fuel hf => ?_⟩
  rw [Script.run, if_pos hs, h fuel hf]

end Program

/-! ## Programs without bindings -/

namespace Value

mutual

/-- Whether a program has neither a definition nor an assignment. The parameters of a function and
quoted data are no expressions. -/
def bindingFree : Value → Bool
  | .list .vector items => bindingFreeAll items
  | .list .plain (.symbol head :: operands) =>
    match Form.ofName? head, operands with
    | some .define, _ => false
    | some .assign, _ => false
    | some .lambda, [_, body] => bindingFree body
    | some .quote, _ => true
    | _, operands => bindingFreeAll operands
  | .list .plain items => bindingFreeAll items
  | .braces entries => bindingFreeAll entries
  | _ => true

/-- Whether several expressions have neither. -/
def bindingFreeAll : List Value → Bool
  | [] => true
  | v :: rest => bindingFree v && bindingFreeAll rest

end

/-- An expression that neither defines a name nor assigns one, so that all its names are steady. -/
structure Inert (e : Value) : Prop where
  targets : e.targets .define false = []
  strays : ∀ bound, e.strays bound = []
  timely : ∀ o : Outlook, o.barred = [] → o.pending = [] → e.timely o = true

section Inert

variable {es : List Value}

theorem targetsAll_inert (h : ∀ e ∈ es, e.Inert) : targetsAll .define false es = [] := by
  induction es with
  | nil => rfl
  | cons e es ih =>
    rw [targetsAll, (h e List.mem_cons_self).targets, ih fun e he => h e (List.mem_cons_of_mem _ he)]
    rfl

theorem straysAll_inert (h : ∀ e ∈ es, e.Inert) (bound : List String) :
    straysAll bound es = [] := by
  induction es with
  | nil => rfl
  | cons e es ih =>
    rw [straysAll, (h e List.mem_cons_self).strays, ih fun e he => h e (List.mem_cons_of_mem _ he)]
    rfl

theorem barred_after {o : Outlook} (h : o.barred = []) (e : Value) : (o.after e).barred = [] := by
  simp [Outlook.after, Outlook.binding, h]

theorem pending_after {o : Outlook} (h : o.pending = []) (e : Value) :
    (o.after e).pending = [] := by
  simp [Outlook.after, Outlook.binding, h]

theorem timelyAll_inert (h : ∀ e ∈ es, e.Inert) (o : Outlook) (hb : o.barred = [])
    (hp : o.pending = []) : timelyAll o es = true := by
  induction es generalizing o with
  | nil => rfl
  | cons e es ih =>
    have hrest := ih (fun e he => h e (List.mem_cons_of_mem _ he)) (o.after e)
      (barred_after hb e) (pending_after hp e)
    rw [timelyAll, (h e List.mem_cons_self).timely o hb hp, hrest]
    rfl

theorem inert_items (h : ∀ e ∈ es, e.Inert)
    (hes : ∀ head operands, es ≠ .symbol head :: operands) : (Value.list .plain es).Inert where
  targets := by
    rw [targets, targetsAll_inert h]
    split
    · rfl
    · unfold target?
      split
      · exact absurd rfl (hes _ _)
      · rfl
  strays bound := by rw [strays, straysAll_inert h]; exact hes
  timely o hb hp := by rw [timely, timelyAll_inert h o hb hp]; exact hes

theorem inert_quote {word : String} (hword : Form.ofName? word = some .quote) :
    (Value.list .plain (.symbol word :: es)).Inert where
  targets := targets_of_closed (.inl hword)
  strays bound := by simp [strays, hword]
  timely o _ _ := by simp [timely, hword]

theorem inert_lambda {word : String} {list body : Value} (h : body.Inert)
    (hword : Form.ofName? word = some .lambda) :
    (Value.list .plain [.symbol word, list, body]).Inert where
  targets := targets_of_closed (.inr hword)
  strays bound := by
    cases hp : list.params <;> simp [strays, hword, hp, h.strays]
  timely o hb hp := by
    cases hparams : list.params with
    | error e => simp [timely, hword, hparams]
    | ok params =>
      have hdefs : Lowering.definitions params body = [] := by
        rw [Lowering.definitions, h.targets]
        rfl
      simp only [timely, hword, hparams]
      exact h.timely _ (by simp [Outlook.enter, hb, hp]) (by simp [Outlook.enter, hdefs])

theorem inert_operands {word : String} (h : ∀ e ∈ es, e.Inert)
    (hd : Form.ofName? word ≠ some .define) (ha : Form.ofName? word ≠ some .assign)
    (hl : Form.ofName? word = some .lambda → es.length ≠ 2) :
    (Value.list .plain (.symbol word :: es)).Inert where
  targets := by
    rw [targets, targetsAll, targetsAll_inert h]
    split
    · rfl
    · rw [target?_eq_none fun _ _ hword => absurd hword hd]
      rfl
  strays bound := by
    have hall := straysAll_inert h bound
    unfold strays
    split
    · exact absurd ‹_› ha
    · exact absurd rfl (hl ‹_›)
    · rfl
    · exact hall
  timely o hb hp := by
    have hall := timelyAll_inert h o hb hp
    unfold timely
    split
    · exact absurd ‹_› hd
    · exact absurd ‹_› ha
    · exact hall
    · rename_i e yes no _
      have hafter (v : Value) (hv : v.Inert) : v.timely (o.after e) = true :=
        hv.timely _ (barred_after hb e) (pending_after hp e)
      rw [(h e (by simp)).timely o hb hp, hafter yes (h yes (by simp)), hafter no (h no (by simp))]
      rfl
    · exact absurd rfl (hl ‹_›)
    · simp [hb, hall]
    · rfl

end Inert

mutual

theorem inert_of_bindingFree : (e : Value) → e.bindingFree = true → e.Inert
  | .list .vector items, h => by
    have hall := inert_of_bindingFreeAll items (by rwa [bindingFree] at h)
    exact ⟨by rw [targets, targetsAll_inert hall], fun bound => by
      rw [strays, straysAll_inert hall], fun o hb hp => by rw [timely, timelyAll_inert hall o hb hp]⟩
  | .list .plain (.symbol head :: operands), h => by
    by_cases hquote : Form.ofName? head = some .quote
    · exact inert_quote hquote
    unfold bindingFree at h
    split at h
    · cases h
    · cases h
    · exact inert_lambda (inert_of_bindingFree _ h) ‹_›
    · exact absurd ‹_› hquote
    · rename_i hd ha _ hl
      refine inert_operands (inert_of_bindingFreeAll _ h) hd ha fun hword hlen => ?_
      obtain ⟨list, body, rfl⟩ := List.length_eq_two.1 hlen
      exact hl list body hword rfl
  | .list .plain [], _ => inert_items (by simp) (by simp)
  | .list .plain (.atom _ :: rest), h | .list .plain (.list .. :: rest), h
  | .list .plain (.braces _ :: rest), h | .list .plain (.dictionary _ :: rest), h
  | .list .plain (.native .. :: rest), h | .list .plain (.closure .. :: rest), h
  | .list .plain (.nothing :: rest), h =>
    inert_items (inert_of_bindingFreeAll _ (by simpa only [bindingFree] using h)) (by simp)
  | .braces entries, h => by
    have hall := inert_of_bindingFreeAll entries (by rwa [bindingFree] at h)
    exact ⟨by rw [targets, targetsAll_inert hall], fun _ => rfl, fun _ _ _ => rfl⟩
  | .symbol name, _ => ⟨rfl, fun _ => rfl, fun o hb _ => by simp [timely, hb]⟩
  | .atom _, _ | .dictionary _, _ | .native .., _ | .closure .., _ | .nothing, _ =>
    ⟨rfl, fun _ => rfl, fun _ _ _ => rfl⟩

theorem inert_of_bindingFreeAll : (es : List Value) → bindingFreeAll es = true →
    ∀ e ∈ es, e.Inert
  | [], _ => by simp
  | e :: es, h => by
    rw [bindingFreeAll, Bool.and_eq_true] at h
    intro v hv
    rcases List.mem_cons.1 hv with hv | hv
    · rw [hv]
      exact inert_of_bindingFree e h.1
    · exact inert_of_bindingFreeAll es h.2 v hv

end

/-- Without bindings, every name is steady. -/
theorem steady_of_bindingFree {program : Value} (h : program.bindingFree = true) :
    program.steady = true := by
  have hinert := inert_of_bindingFree program h
  have hdefs : Lowering.definitions [] program = [] := by
    rw [Lowering.definitions, hinert.targets]
    rfl
  exact hinert.timely _ (by simp [Outlook.initial, hdefs, hinert.strays]) rfl

end Value

/-! ## Trials -/

/-- Reads a source text, lowers it, evaluates it in a fresh global scope, and tests what comes
out. -/
def trial (source : String) (depth : Nat) (test : Value → Script → Value → Bool) : Bool :=
  match readSource source with
  | .error _ => false
  | .ok program =>
    match program.toScript, (Store.pushGlobal {} 0).evaluate depth 0 program with
    | .ok s, .ok v _ => test program s v
    | _, _ => false

theorem exists_of_trial (source : String) (depth : Nat) (test : Value → Script → Value → Bool)
    (h : trial source depth test = true) :
    ∃ program s v st, readSource source = .ok program ∧ program.toScript = .ok s ∧
      (Store.pushGlobal {} 0).evaluate depth 0 program = .ok v st ∧ test program s v = true := by
  unfold trial at h
  split at h
  · cases h
  · rename_i program hread
    split at h
    · rename_i s v st hs he
      exact ⟨program, s, v, st, hread, hs, he, h⟩
    · cases h

/-- The script of a source text does not end with the image of the value of the text. -/
def Disagrees (source : String) : Prop :=
  ∃ program s v st u, readSource source = .ok program ∧ program.toScript = .ok s ∧
    (Store.pushGlobal {} 0).evaluate 9 0 program = .ok v st ∧ v.image? = some u ∧
    ¬s.EndsWith .natives u

theorem disagrees_of_trial {source : String} (a : Atom)
    (h : trial source 9 (fun _ s v => decide (v = .atom a) && (!s.distinctParams ||
      match s.run .natives 40 with
      | .ok (.atom b) => decide (a ≠ b)
      | _ => false)) = true) : Disagrees source := by
  obtain ⟨program, s, v, st, hread, hs, he, htest⟩ := exists_of_trial _ _ _ h
  simp only [Bool.and_eq_true, Bool.or_eq_true, Bool.not_eq_true', decide_eq_true_eq] at htest
  obtain ⟨rfl, hdup | hrun⟩ := htest
  · refine ⟨program, s, _, st, .atom a, hread, hs, he, rfl, fun ⟨least, hends⟩ => ?_⟩
    simpa [Script.run, hdup] using hends least (Nat.le_refl least)
  · refine ⟨program, s, _, st, .atom a, hread, hs, he, rfl, fun hends => ?_⟩
    split at hrun
    · rename_i b hb
      have heq := hends.unique (Script.endsWith_of_run hb)
      simp only [ScriptValue.atom.injEq] at heq
      exact of_decide_eq_true hrun heq
    · cases hrun

/-! ## Agreement -/

section Agreement

variable {ops : Operators} {source : String} {program v : Value} {s : Script} {depth home : Nat}
  {st : Store} {u : ScriptValue}

/-- A program without bindings and its script agree: where the program has a value of atoms and
lists in a fresh global scope, the script ends with the image of that value. -/
theorem endsWith_of_bindingFree (hops : ops.Numeric) (hread : readSource source = .ok program)
    (hfree : program.bindingFree = true) (hdistinct : program.distinctParams = true)
    (hs : program.toScript = .ok s)
    (he : (Store.pushGlobal {} home).evaluate depth 0 program = .ok v st)
    (hu : v.image? = some u) : s.EndsWith ops u := by
  have hwell := wellRead_of_readSource hread
  have hsteady := Value.steady_of_bindingFree hfree
  obtain ⟨k, W, m, u', hreach, hrel⟩ := reaches_of_steady hops hwell hdistinct hsteady hs he
  rw [hrel.image hu]
  exact hreach.endsWith (distinctParams_of_toScript hwell hdistinct hsteady hs)

theorem endsWith_of_higher_order_call :
    ∃ program s st,
      readSource "((lambda (f sub) [(f sub 2) (if (lt 1 sub) \"yes\" \"no\")]) add 5)" =
        .ok program ∧
      program.bindingFree = true ∧ program.distinctParams = true ∧ program.toScript = .ok s ∧
      (Store.pushGlobal {} 0).evaluate 1 0 program =
        .ok (.list .vector [.atom (.number 7), .atom (.text "yes")]) st ∧
      s.EndsWith .natives (.array [.atom (.number 7), .atom (.text "yes")]) := by
  obtain ⟨program, s, v, st, hread, hs, he, htest⟩ := exists_of_trial _ 1
    (fun program _ v => program.bindingFree && program.distinctParams &&
      decide (v = .list .vector [.atom (.number 7), .atom (.text "yes")]))
    (show trial "((lambda (f sub) [(f sub 2) (if (lt 1 sub) \"yes\" \"no\")]) add 5)" 1 _ = true
      by decide +kernel)
  simp only [Bool.and_eq_true, decide_eq_true_eq] at htest
  obtain ⟨⟨hfree, hdistinct⟩, rfl⟩ := htest
  exact ⟨program, s, st, hread, hfree, hdistinct, hs, he, endsWith_of_bindingFree
    Script.Operators.natives_numeric hread hfree hdistinct hs he rfl⟩

/-- A program whose names are steady and its script agree, whatever the program defines and
assigns. -/
theorem endsWith_of_steady (hops : ops.Numeric) (hread : readSource source = .ok program)
    (hdistinct : program.distinctParams = true) (hsteady : program.steady = true)
    (hs : program.toScript = .ok s)
    (he : (Store.pushGlobal {} home).evaluate depth 0 program = .ok v st)
    (hu : v.image? = some u) : s.EndsWith ops u := by
  have hwell := wellRead_of_readSource hread
  obtain ⟨k, W, m, u', hreach, hrel⟩ := reaches_of_steady hops hwell hdistinct hsteady hs he
  rw [hrel.image hu]
  exact hreach.endsWith (distinctParams_of_toScript hwell hdistinct hsteady hs)

/-- Definitions and assignments on several levels, a native under another name, and a closure that
outlives the call that made it. -/
theorem endsWith_of_escaping_counter :
    ∃ program s st,
      readSource ("(do (def n 1) (def bump (lambda (k) (set n (add n k)))) (def plus add) (bump 2)"
        ++ " (def f (lambda [x] (do (def y (mul x n)) (set y (plus y 1)) (lambda [] [y n]))))"
        ++ " ((f 5)))") = .ok program ∧
      program.distinctParams = true ∧ program.steady = true ∧ program.toScript = .ok s ∧
      (Store.pushGlobal {} 0).evaluate 5 0 program =
        .ok (.list .vector [.atom (.number 16), .atom (.number 3)]) st ∧
      s.EndsWith .natives (.array [.atom (.number 16), .atom (.number 3)]) := by
  obtain ⟨program, s, v, st, hread, hs, he, htest⟩ := exists_of_trial _ 5
    (fun program _ v => program.distinctParams && program.steady &&
      decide (v = .list .vector [.atom (.number 16), .atom (.number 3)]))
    (show trial ("(do (def n 1) (def bump (lambda (k) (set n (add n k)))) (def plus add) (bump 2)"
        ++ " (def f (lambda [x] (do (def y (mul x n)) (set y (plus y 1)) (lambda [] [y n]))))"
        ++ " ((f 5)))") 5 _ = true by decide +kernel)
  simp only [Bool.and_eq_true, decide_eq_true_eq] at htest
  obtain ⟨⟨hdistinct, hsteady⟩, rfl⟩ := htest
  exact ⟨program, s, st, hread, hdistinct, hsteady, hs, he, endsWith_of_steady
    Script.Operators.natives_numeric hread hdistinct hsteady hs he rfl⟩

/-- A recursive function may have the name of a function around it. -/
example : trial ("(do (def loop (lambda (n) n)) (def f (lambda (k)"
    ++ " (do (def loop (lambda (n) (if (lte n 0) 0 (add n (loop (sub n 1)))))) (loop k))))"
    ++ " (loop (f 3)))") 9 (fun program _ v => program.distinctParams && program.steady &&
      decide (v = .number 6)) = true := by decide +kernel

/-- Neither condition can go: an operator stays what it was where its native is assigned, a scope
keeps the copy of a name that is redefined around it, and no script repeats a parameter. -/
theorem disagrees_of_unsteady :
    Disagrees "(do (set add sub) (add 1 2))" ∧
    Disagrees ("(do (def x 1) (def f (lambda (c) (do (if c (def x 10) 0) (lambda [] x))))"
      ++ " (def g (f false)) (def x 2) (g))") ∧
    Disagrees "(do (def f (lambda (x x) x)) (f 1 2))" :=
  ⟨disagrees_of_trial (.number (-1)) (by decide +kernel),
    disagrees_of_trial (.number 2) (by decide +kernel),
    disagrees_of_trial (.number 2) (by decide +kernel)⟩

end Agreement

end MiniLisp
