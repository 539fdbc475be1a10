import MiniLisp.Proofs.Script.Lowered

/-!
# Which parameter lists repeat a name

A script has functions for the functions of its program, for the definitions of a scope, and for
operators that are used as values. Only those of the first kind can repeat a parameter, and they do
where the program does: the lists with a repeated name are the same on both sides, in the same
order (`sameRepeats_of_toScript`).
-/

namespace MiniLisp

open Script (mangle Plain)
open Lowering

namespace Script

mutual

/-- The parameters of the functions of a script, in the order of the text. -/
def paramLists : Script → List (List String)
  | .literal _ | .identifier _ | .hole => []
  | .binary _ left right => paramLists left ++ paramLists right
  | .array items => paramListsAll items
  | .call callee args => paramLists callee ++ paramListsAll args
  | .function params body => params :: paramLists body
  | .sequence items => paramListsAll items
  | .conditional test yes no => paramLists test ++ (paramLists yes ++ paramLists no)
  | .assignment target value => paramLists target ++ paramLists value

/-- The parameters of the functions of several scripts. -/
def paramListsAll : List Script → List (List String)
  | [] => []
  | s :: rest => paramLists s ++ paramListsAll rest

end

end Script

namespace Value

mutual

/-- The parameters of the functions of a program. Quoted data has no functions. -/
def lambdaLists : Value → List (List String)
  | .list .vector items => lambdaListsAll items
  | .list .plain (.symbol head :: operands) =>
    match Form.ofName? head, operands with
    | some .quote, _ => []
    | some .lambda, [params, body] =>
      match params.params with
      | .ok params => params :: lambdaLists body
      | .error _ => []
    | _, operands => lambdaListsAll operands
  | .list .plain items => lambdaListsAll items
  | _ => []

/-- The parameters of the functions of several expressions. -/
def lambdaListsAll : List Value → List (List String)
  | [] => []
  | v :: rest => lambdaLists v ++ lambdaListsAll rest

end

theorem lambdaLists_operands {word : String} {operands : List Value}
    (hq : Form.ofName? word ≠ some .quote) (hl : Form.ofName? word ≠ some .lambda) :
    (list .plain (.symbol word :: operands)).lambdaLists = lambdaListsAll operands := by
  simp [lambdaLists, hl]

end Value

/-! ## Lists with a repeated name -/

/-- The lists that have some name twice. -/
def repeating (lists : List (List String)) : List (List String) :=
  lists.filter fun ps => !decide ps.Nodup

theorem repeating_append (lists more : List (List String)) :
    repeating (lists ++ more) = repeating lists ++ repeating more :=
  List.filter_append ..

theorem repeating_eq_nil {lists : List (List String)} :
    repeating lists = [] ↔ ∀ ps ∈ lists, ps.Nodup := by
  simp [repeating]

/-- Parameters repeat a name where the lists of names do. -/
def SameRepeats (lists params : List (List String)) : Prop :=
  repeating params = (repeating lists).map (·.map mangle)

namespace SameRepeats

theorem append {lists lists' params params' : List (List String)} (h : SameRepeats lists params)
    (h' : SameRepeats lists' params') : SameRepeats (lists ++ lists') (params ++ params') := by
  unfold SameRepeats at *
  rw [repeating_append, repeating_append, h, h', List.map_append]

/-- Functions without a counterpart have distinct parameters. -/
theorem of_distinct {params : List (List String)} (h : ∀ ps ∈ params, ps.Nodup) :
    SameRepeats [] params :=
  repeating_eq_nil.2 h

theorem singleton {ps : List String} (h : ∀ p ∈ ps, Plain p) :
    SameRepeats [ps] [ps.map mangle] := by
  by_cases hps : ps.Nodup
  · simp [SameRepeats, repeating, hps, nodup_map_mangle h hps]
  · simp [SameRepeats, repeating, hps, mt (List.Nodup.of_map mangle) hps]

end SameRepeats

theorem nodup_of_mem_operatorFunction {op : Operator} {ps : List String}
    (h : ps ∈ (operatorFunction op).paramLists) : ps.Nodup := by
  obtain rfl : ps = ["a", "b"] := by simpa [operatorFunction, Script.paramLists] using h
  decide

theorem mem_paramListsAll {ss : List Script} {ps : List String}
    (h : ps ∈ Script.paramListsAll ss) : ∃ s ∈ ss, ps ∈ s.paramLists := by
  induction ss with
  | nil => cases h
  | cons s ss ih =>
    rcases List.mem_append.1 h with h | h
    · exact ⟨s, List.mem_cons_self, h⟩
    · obtain ⟨t, ht, hps⟩ := ih h
      exact ⟨t, List.mem_cons_of_mem _ ht, hps⟩

/-- The wrapper of a scope and its arguments repeat nothing. -/
theorem sameRepeats_wrapper {outer : Names} {toplevel : Bool} {params : List String}
    {body : Value} {initial : List (String × Option Script)} {s : Script}
    (hinitial : initialValues outer toplevel (definitions params body) = .ok initial)
    (hplain : ∀ n ∈ definitions params body, Plain n)
    (hs : SameRepeats body.lambdaLists s.paramLists) :
    SameRepeats body.lambdaLists (wrapper initial s).paramLists := by
  have hnames := nodup_map_wrapperNames hinitial hplain
  have hargs : ∀ ps ∈ Script.paramListsAll ((initial.filter (·.2.isSome)).filterMap Prod.snd),
      ps.Nodup := by
    intro ps hps
    obtain ⟨t, ht, hps⟩ := mem_paramListsAll hps
    rcases argument_cases hinitial ht with ⟨n, -, rfl⟩ | ⟨op, rfl⟩
    · cases hps
    · exact nodup_of_mem_operatorFunction hps
  rw [wrapper_eq]
  split
  · exact hs
  · have h := ((SameRepeats.of_distinct (List.forall_mem_singleton.2 hnames)).append hs).append
      (SameRepeats.of_distinct hargs)
    simpa [Script.paramLists] using h

/-! ## The parameters of a lowered program -/

mutual

theorem Lowered.sameRepeats {names : Names} {e : Value} {s : Script} :
    Lowered names e s → e.wellRead = true → SameRepeats e.lambdaLists s.paramLists
  | .atom, _ | .name _, _ => rfl
  | .operator _, _ => .of_distinct fun _ hps => nodup_of_mem_operatorFunction hps
  | .vector hitems, hread => by
    simpa [Value.lambdaLists, Script.paramLists] using
      hitems.sameRepeats (Value.wellRead_vector hread)
  | .operation hw _ hes, hread => by
    have h := hes.sameRepeats (List.forall_mem_cons.1 (Value.wellRead_plain hread).2).2
    simpa [Value.lambdaLists_operands, hw, Script.paramLists, Script.paramListsAll] using h
  | .build hw _ _ hes, hread | .call hw _ hes, hread | .sequence hw hes, hread => by
    have h := hes.sameRepeats (List.forall_mem_cons.1 (Value.wellRead_plain hread).2).2
    simpa [Value.lambdaLists_operands, hw, Script.paramLists] using h
  | .callValue hes, hread => by
    have h := hes.sameRepeats (Value.wellRead_plain hread).2
    simpa [Value.lambdaLists, Script.paramLists, Script.paramListsAll] using h
  | .quote hw, _ => by
    rw [Value.lambdaLists]
    · rfl
    · exact hw
  | .single hw he, hread => by
    have h := he.sameRepeats ((Value.wellRead_plain hread).2 _ (by simp))
    simpa [Value.lambdaLists_operands, hw, Value.lambdaListsAll] using h
  | .choose hw hes, hread => by
    have h := hes.sameRepeats (List.forall_mem_cons.1 (Value.wellRead_plain hread).2).2
    simpa [Value.lambdaLists_operands, hw, Script.paramLists, Script.paramListsAll] using h
  | .define hw he, hread | .assign hw he, hread => by
    have h := he.sameRepeats ((Value.wellRead_plain hread).2 _ (by simp))
    simpa [Value.lambdaLists_operands, hw, Value.lambdaListsAll, Value.lambdaLists,
      Script.paramLists] using h
  | .function hw hparams hbody, hread => by
    have hitems := (Value.wellRead_plain hread).2
    have hplain := plain_of_params (hitems _ (by simp)) hparams
    have h := (SameRepeats.singleton hplain).append (hbody.sameRepeats (hitems _ (by simp)))
    simpa [Value.lambdaLists, hw, hparams, Script.paramLists] using h

theorem LoweredAll.sameRepeats {names : Names} {es : List Value} {ss : List Script} :
    LoweredAll names es ss → (∀ e ∈ es, e.wellRead = true) →
      SameRepeats (Value.lambdaListsAll es) (Script.paramListsAll ss)
  | .nil, _ => rfl
  | .cons he hes, hread =>
    (he.sameRepeats (List.forall_mem_cons.1 hread).1).append
      (hes.sameRepeats (List.forall_mem_cons.1 hread).2)

theorem LoweredScope.sameRepeats {outer : Names} {toplevel : Bool} {params : List String}
    {body : Value} {s : Script} : LoweredScope outer toplevel params body s →
      body.wellRead = true → SameRepeats body.lambdaLists s.paramLists
  | .mk hinitial hs, hread =>
    sameRepeats_wrapper hinitial (plain_of_mem_definitions hread) (hs.sameRepeats hread)

end

/-- The functions of a script that repeat a parameter are, in order, those of the functions of the
program that do. So a script keeps the rule that parameters are distinct exactly if its program
does. -/
theorem repeating_paramLists {source : String} {program : Value} {s : Script}
    (hread : readSource source = .ok program) (hs : program.toScript = .ok s) :
    repeating s.paramLists = (repeating program.lambdaLists).map (·.map mangle) ∧
      ((∀ ps ∈ s.paramLists, ps.Nodup) ↔ ∀ ps ∈ program.lambdaLists, ps.Nodup) := by
  have h := (loweredScope_of_toScript hs).sameRepeats (wellRead_of_readSource hread)
  refine ⟨h, ?_⟩
  rw [← repeating_eq_nil, ← repeating_eq_nil, h, List.map_eq_nil_iff]

theorem repeating_paramLists_nested :
    ∃ program s, readSource ("(do (def k (lambda [x y x] (do (def add (add x y)) [add sub])))" ++
        " (lambda (a-b) (lambda (a-b a-b) (quote 1))))") = .ok program ∧
      program.toScript = .ok s ∧
      s.paramLists = [["k"], ["x", "y", "x"], ["add"], ["a", "b"], ["a", "b"], ["a_b"],
        ["a_b", "a_b"]] ∧
      repeating s.paramLists = (repeating program.lambdaLists).map (·.map mangle) ∧
      ((∀ ps ∈ s.paramLists, ps.Nodup) ↔ ∀ ps ∈ program.lambdaLists, ps.Nodup) := by
  obtain ⟨program, s, hread, hs, hlists⟩ := exists_of_scriptOf
    (show (scriptOf ("(do (def k (lambda [x y x] (do (def add (add x y)) [add sub])))" ++
        " (lambda (a-b) (lambda (a-b a-b) (quote 1))))")).any
      (fun s => decide (s.paramLists = [["k"], ["x", "y", "x"], ["add"], ["a", "b"], ["a", "b"],
        ["a_b"], ["a_b", "a_b"]])) = true by decide +kernel)
  exact ⟨program, s, hread, hs, of_decide_eq_true hlists, repeating_paramLists hread hs⟩

/-- Nothing refuses a function that repeats a parameter. -/
theorem not_forall_nodup_paramLists :
    ∃ program s, readSource "(lambda (x x) x)" = .ok program ∧ program.toScript = .ok s ∧
      ["x", "x"] ∈ s.paramLists ∧ ¬∀ ps ∈ s.paramLists, ps.Nodup := by
  obtain ⟨program, s, hread, hs, hlists⟩ := exists_of_scriptOf
    (show (scriptOf "(lambda (x x) x)").any
      (fun s => decide (["x", "x"] ∈ s.paramLists)) = true by decide +kernel)
  have hmem := of_decide_eq_true hlists
  exact ⟨program, s, hread, hs, hmem, fun h => absurd (h _ hmem) (by decide)⟩

end MiniLisp
