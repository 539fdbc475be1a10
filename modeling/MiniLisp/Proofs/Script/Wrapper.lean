import MiniLisp.Proofs.Script.Lowered

/-!
# The wrapper of a scope

The names that a scope defines are the parameters of a function around its body. Some of them have a
value outside, which is passed in: parameters and arguments are made by different filters of one
list, and they line up (`lowerScope_lines_up`).
-/

namespace MiniLisp

open Script (mangle Plain)
open Lowering

/-! ## Names in the order of first occurrence -/

theorem idxOf_lt_of_idxOf_filter_lt {p : String → Bool} {xs : List String} {m n : String}
    (hm : p m = true) (hn : p n = true) (h : (xs.filter p).idxOf m < (xs.filter p).idxOf n) :
    xs.idxOf m < xs.idxOf n := by
  induction xs with
  | nil => exact h
  | cons x xs ih =>
    by_cases hx : p x = true
    · rw [List.filter_cons_of_pos hx] at h
      have hxn : x ≠ n := by
        rintro rfl
        rw [List.idxOf_cons_self] at h
        exact Nat.not_lt_zero _ h
      rw [List.idxOf_cons_ne _ hxn] at h ⊢
      by_cases hxm : x = m
      · rw [hxm, List.idxOf_cons_self]
        exact Nat.succ_pos _
      · rw [List.idxOf_cons_ne _ hxm] at h ⊢
        exact Nat.succ_lt_succ (ih (Nat.lt_of_succ_lt_succ h))
    · have hne {y : String} (hy : p y = true) : x ≠ y := by
        rintro rfl
        exact hx hy
      rw [List.filter_cons_of_neg hx] at h
      rw [List.idxOf_cons_ne _ (hne hm), List.idxOf_cons_ne _ (hne hn)]
      exact Nat.succ_lt_succ (ih h)

theorem pairwise_idxOf_eraseDups (xs : List String) :
    xs.eraseDups.Pairwise fun m n => xs.idxOf m < xs.idxOf n := by
  induction hk : xs.length using Nat.strongRecOn generalizing xs with
  | _ k ih =>
    cases xs with
    | nil => simp
    | cons x xs =>
      have hlt : (xs.filter fun y => !y == x).length < k := by
        rw [← hk]
        exact Nat.lt_succ_of_le (List.length_filter_le _ xs)
      have hne {y : String} (hy : y ∈ (xs.filter fun y => !y == x).eraseDups) : x ≠ y := by
        rintro rfl
        simp at hy
      rw [List.eraseDups_cons, List.pairwise_cons]
      refine ⟨fun y hy => ?_, ?_⟩
      · rw [List.idxOf_cons_self, List.idxOf_cons_ne _ (hne hy)]
        exact Nat.succ_pos _
      · refine (ih _ hlt _ rfl).imp_of_mem fun {m n} hm hn hmn => ?_
        rw [List.idxOf_cons_ne _ (hne hm), List.idxOf_cons_ne _ (hne hn)]
        have hkept {y : String} (hy : y ∈ (xs.filter fun y => !y == x).eraseDups) :
            (!y == x) = true := by
          simpa using (hne hy).symm
        exact Nat.succ_lt_succ (idxOf_lt_of_idxOf_filter_lt (hkept hm) (hkept hn) hmn)

theorem pairwise_idxOf_definitions (params : List String) (body : Value) :
    (definitions params body).Pairwise fun m n =>
      (body.targets .define false).idxOf m < (body.targets .define false).idxOf n :=
  (pairwise_idxOf_eraseDups _).filter _

/-! ## Values from outside -/

/-- The value that a name has around a scope: that of its binding there, or else the operator of the
name. -/
def enclosing (outer : Names) (name : String) : Option Script :=
  if name ∈ outer.bound then some (.identifier (mangle name))
  else
    match Native.ofName? name with
    | some (.operator op) => some (operatorFunction op)
    | _ => none

theorem initialValue_eq_enclosing {outer : Names} {toplevel : Bool} {name : String}
    {init : Option Script} (h : initialValue outer toplevel name = .ok init) :
    init = enclosing outer name := by
  unfold enclosing
  rcases initialValue_cases h with ⟨hb, hinit, -⟩ | ⟨hb, ⟨op, hop, hinit⟩, -⟩ | ⟨hb, hnone, hinit⟩
  · rw [if_pos hb, hinit]
  · rw [if_neg hb, hop, hinit]
  · rw [if_neg hb, hnone, hinit]

theorem initialValues_eq_map {outer : Names} {toplevel : Bool} {defs : List String}
    {initial : List (String × Option Script)}
    (h : initialValues outer toplevel defs = .ok initial) :
    initial = defs.map fun name => (name, enclosing outer name) := by
  obtain ⟨hnames, hvalues⟩ := initialValues_eq_ok h
  have hid : ∀ d ∈ initial, (d.1, enclosing outer d.1) = d := fun d hd =>
    Prod.ext rfl (initialValue_eq_enclosing (hvalues d hd)).symm
  rw [← hnames, List.map_map]
  exact ((List.map_congr_left (g := id) hid).trans (List.map_id initial)).symm

/-- The defined names that have a value outside. -/
def givenNames (outer : Names) (defs : List String) : List String :=
  defs.filter fun name => (enclosing outer name).isSome

/-- The defined names that have none. -/
def freshNames (outer : Names) (defs : List String) : List String :=
  defs.filter fun name => (enclosing outer name).isNone

theorem wrapper_eq_call {outer : Names} {toplevel : Bool} {defs : List String}
    {initial : List (String × Option Script)} (h : initialValues outer toplevel defs = .ok initial)
    (inner : Script) :
    wrapper initial inner = if defs = [] then inner
      else .call (.function ((givenNames outer defs ++ freshNames outer defs).map mangle) inner)
        ((givenNames outer defs).filterMap (enclosing outer)) := by
  rw [wrapper_eq, initialValues_eq_map h]
  simp [wrapperNames, givenNames, freshNames, List.filter_map, List.filterMap_map,
    Function.comp_def]

/-! ## Parameters and arguments -/

/-- The names of a wrapper are, each once, the names `found` in a scope that are no parameters of
it, those with a value outside first. The arguments are the values of those, one after the other. -/
structure LinesUp (outer : Names) (params found given fresh : List String) (args : List Script) :
    Prop where
  mem_iff (n : String) : n ∈ given ++ fresh ↔ n ∈ found ∧ n ∉ params
  nodup : (given ++ fresh).Nodup
  enclosing_given : ∀ n ∈ given, (enclosing outer n).isSome
  enclosing_fresh : ∀ n ∈ fresh, enclosing outer n = none
  order_given : given.Pairwise fun m n => found.idxOf m < found.idxOf n
  order_fresh : fresh.Pairwise fun m n => found.idxOf m < found.idxOf n
  length_args : args.length = given.length
  argument : ∀ (i : Nat) (n : String), given[i]? = some n → args[i]? = enclosing outer n

section Definitions

variable {outer : Names} {params : List String} {body : Value}

theorem givenNames_append_perm (outer : Names) (defs : List String) :
    (givenNames outer defs ++ freshNames outer defs).Perm defs := by
  have h := List.filter_append_perm (fun n => (enclosing outer n).isSome) defs
  refine List.Perm.trans (List.Perm.of_eq ?_) h
  simp [givenNames, freshNames]

theorem isSome_of_mem_givenNames {defs : List String} {n : String}
    (hn : n ∈ givenNames outer defs) : (enclosing outer n).isSome :=
  (List.mem_filter.1 hn).2

/-- Every name that has a value gives an argument. -/
theorem filterMap_givenNames (defs : List String) :
    (givenNames outer defs).filterMap (enclosing outer) =
      (givenNames outer defs).map fun n => (enclosing outer n).getD default := by
  rw [← List.filterMap_eq_map]
  refine List.filterMap_congr fun n hn => ?_
  obtain ⟨s, hs⟩ := Option.isSome_iff_exists.1 (isSome_of_mem_givenNames hn)
  simp [hs]

theorem linesUp_definitions (outer : Names) (params : List String) (body : Value) :
    LinesUp outer params (body.targets .define false) (givenNames outer (definitions params body))
      (freshNames outer (definitions params body))
      ((givenNames outer (definitions params body)).filterMap (enclosing outer)) where
  mem_iff n := by rw [(givenNames_append_perm outer _).mem_iff, mem_definitions]
  nodup := (givenNames_append_perm outer _).nodup_iff.2 (nodup_definitions params body)
  enclosing_given _ hn := isSome_of_mem_givenNames hn
  enclosing_fresh _ hn := Option.isNone_iff_eq_none.1 (List.mem_filter.1 hn).2
  order_given := (pairwise_idxOf_definitions params body).filter _
  order_fresh := (pairwise_idxOf_definitions params body).filter _
  length_args := by rw [filterMap_givenNames, List.length_map]
  argument i n hn := by
    obtain ⟨s, hs⟩ := Option.isSome_iff_exists.1
      (isSome_of_mem_givenNames (List.mem_of_getElem? hn))
    rw [filterMap_givenNames, List.getElem?_map, hn, hs]
    simp [hs]

/-- The identifiers of symbol words stay apart. -/
theorem LinesUp.nodup_map_mangle {found given fresh : List String} {args : List Script}
    (h : LinesUp outer params found given fresh args)
    (hfound : ∀ n ∈ found, Lexer.isSymbol n.toList = true) :
    ((given ++ fresh).map mangle).Nodup :=
  MiniLisp.nodup_map_mangle
    (fun n hn => Script.plain_of_isSymbol (hfound n ((h.mem_iff n).1 hn).1)) h.nodup

end Definitions

theorem definitions_ne_nil_iff {params : List String} {body : Value} :
    definitions params body ≠ [] ↔ ∃ n ∈ body.targets .define false, n ∉ params := by
  rw [Ne, List.eq_nil_iff_forall_not_mem, not_forall]
  simp only [not_not, mem_definitions]

/-- No script is a call of a function around itself. -/
theorem Script.ne_call_function (inner : Script) (ps : List String) (args : List Script) :
    inner ≠ .call (.function ps inner) args := by
  intro h
  have hsize := congrArg sizeOf h
  simp only [Script.call.sizeOf_spec, Script.function.sizeOf_spec] at hsize
  omega

/-- The script of a scope is that of its body, with a wrapper around it exactly if the body defines
a name that is no parameter, and in a wrapper every parameter gets the value of its own name. -/
theorem lowerScope_lines_up {frames : Nat} {outer : Names} {toplevel : Bool}
    {params : List String} {body : Value} {s : Script}
    (h : lowerScope frames outer toplevel params body = .ok s) :
    ∃ k inner, frames = k + 1 ∧
      lower k ((outer.extend params).extend (definitions params body)) body = .ok inner ∧
      ((∃ ps args, s = .call (.function ps inner) args) ↔
        ∃ n ∈ body.targets .define false, n ∉ params) ∧
      ((∀ n ∈ body.targets .define false, n ∈ params) → s = inner) ∧
      ∀ ps args, s = .call (.function ps inner) args → ∃ given fresh,
        ps = (given ++ fresh).map mangle ∧
        LinesUp outer params (body.targets .define false) given fresh args ∧
        ((∀ n ∈ body.targets .define false, Lexer.isSymbol n.toList = true) → ps.Nodup) := by
  obtain ⟨k, rfl⟩ : ∃ k, frames = k + 1 := by
    cases frames with
    | zero => cases h
    | succ k => exact ⟨k, rfl⟩
  obtain ⟨initial, inner, hinitial, hinner, rfl⟩ := lowerScope_eq_ok h
  refine ⟨k, inner, rfl, hinner, ?_⟩
  rw [wrapper_eq_call hinitial, ← definitions_ne_nil_iff]
  by_cases hdefs : definitions params body = []
  · rw [if_pos hdefs]
    have hnone (ps : List String) (args : List Script) := Script.ne_call_function inner ps args
    refine ⟨⟨fun hcall => ?_, fun hne => absurd hdefs hne⟩, fun _ => rfl,
      fun ps args hcall => absurd hcall (hnone ps args)⟩
    obtain ⟨ps, args, hcall⟩ := hcall
    exact absurd hcall (hnone ps args)
  · rw [if_neg hdefs]
    have hlines := linesUp_definitions outer params body
    refine ⟨⟨fun _ => hdefs, fun _ => ⟨_, _, rfl⟩⟩, fun hall => ?_, fun ps args hcall => ?_⟩
    · obtain ⟨n, hn, hnp⟩ := definitions_ne_nil_iff.1 hdefs
      exact absurd (hall n hn) hnp
    · cases hcall
      exact ⟨_, _, rfl, hlines, hlines.nodup_map_mangle⟩

/-- The body `(do (def y true) (def add sub) (def z true) (def x y) (def y true))` of a function of
`z` where `x` is bound: `y` comes first and has no value outside, `add` and `x` have one. -/
theorem lowerScope_lines_up_mixed :
    ∃ body s inner, lowerScope 20 ⟨["x"], []⟩ false ["z"] body = .ok s ∧
      body.targets .define false = ["y", "add", "z", "x", "y"] ∧
      s = .call (.function ["add", "x", "y"] inner) [operatorFunction .add, .identifier "x"] ∧
      ∃ given fresh, ["add", "x", "y"] = (given ++ fresh).map mangle ∧
        LinesUp ⟨["x"], []⟩ ["z"] (body.targets .define false) given fresh
          [operatorFunction .add, .identifier "x"] := by
  have h : lowerScope 20 ⟨["x"], []⟩ false ["z"]
      (.list .plain [.symbol "do",
        .list .plain [.symbol "def", .symbol "y", .boolean true],
        .list .plain [.symbol "def", .symbol "add", .symbol "sub"],
        .list .plain [.symbol "def", .symbol "z", .boolean true],
        .list .plain [.symbol "def", .symbol "x", .symbol "y"],
        .list .plain [.symbol "def", .symbol "y", .boolean true]]) =
      .ok (.call (.function ["add", "x", "y"] (.sequence [
          .assignment (.identifier "y") (.literal (.boolean true)),
          .assignment (.identifier "add") (operatorFunction .sub),
          .assignment (.identifier "z") (.literal (.boolean true)),
          .assignment (.identifier "x") (.identifier "y"),
          .assignment (.identifier "y") (.literal (.boolean true))]))
        [operatorFunction .add, .identifier "x"]) := by
    rfl
  obtain ⟨k, inner, -, -, hwrapped, -, hlines⟩ := lowerScope_lines_up h
  obtain ⟨ps, args, hs⟩ := hwrapped.2 ⟨"y", by decide, by decide⟩
  cases hs
  obtain ⟨given, fresh, hps, hgiven, -⟩ := hlines _ _ rfl
  exact ⟨_, _, _, h, rfl, rfl, given, fresh, hps, hgiven⟩

end MiniLisp
