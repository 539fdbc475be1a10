import MiniLisp.Proofs.Evaluation
import MiniLisp.Script.Lowering

/-!
# What scripts compute

The meaning of the nine kinds of script expressions. Operands are evaluated from left to right,
all of them before the operation. A variable is a cell of the memory; a function keeps the cells
that were in sight where it was made, and every call makes new cells for its parameters, those
without an argument being undefined. An assignment to a name that nothing declares makes a global
variable. A script in which a function repeats a parameter is refused before it runs.

`Script.run` is total by a bound on the nesting of evaluations: a script terminates with a value
when some bound, and every larger one, gives that value.

What an operator does to operands that are not two numbers is left open (`Script.Operators`).
-/

namespace MiniLisp

/-- The cells of the names in sight; an inner name stands before an outer one. -/
abbrev CellEnv := List (String × Nat)

/-- The values of scripts. -/
inductive ScriptValue where
  | undefined
  | atom (a : Atom)
  | array (items : List ScriptValue)
  /-- A function with the cells that were in sight where it was made. -/
  | function (params : List String) (body : Script) (env : CellEnv)

namespace ScriptValue

/-- Whether a value chooses the first branch of a conditional. -/
def truthy : ScriptValue → Bool
  | .undefined => false
  | .atom (.boolean b) => b
  | .atom (.number x) => !(x == 0) && !x.isNaN
  | .atom (.text s) => s ≠ ""
  | .array _ | .function .. => true

end ScriptValue

namespace Script

/-- Why a script has no value. -/
inductive Error where
  /-- A name was read that nothing declares. -/
  | undeclared (name : String)
  | notFunction
  /-- Operands that the operator refuses. -/
  | badOperands
  /-- An assignment to something that is no name. -/
  | badTarget
  | hole
  /-- A function with a parameter that occurs twice. -/
  | repeatedParam
  /-- The bound on nested evaluations is spent. -/
  | spent
deriving DecidableEq

/-- The contents of all cells, and the global variables that assignments made. -/
structure Memory where
  cells : List ScriptValue := []
  globals : List (String × ScriptValue) := []

/-- Computations on the memory that may end in an error. -/
abbrev Run := EStateM Error Memory

/-- What the binary operators do, by their signs. -/
abbrev Operators := String → ScriptValue → ScriptValue → Except Error ScriptValue

/-- On two numbers, the operators are the natives that they stand for. -/
def Operators.Numeric (ops : Operators) : Prop :=
  ∀ (op : Operator) (x y : Float) (a : Atom), op.apply x y = .ok (.atom a) →
    ops op.sign (.atom (.number x)) (.atom (.number y)) = .ok (.atom a)

/-- The operators of the natives, which take nothing but two numbers. -/
def Operators.natives : Operators := fun sign x y =>
  match Operator.all.find? (·.sign == sign), x, y with
  | some op, .atom (.number a), .atom (.number b) =>
    match op.apply a b with
    | .ok (.atom r) => .ok (.atom r)
    | _ => .error .badOperands
  | _, _, _ => .error .badOperands

theorem Operators.natives_numeric : Operators.natives.Numeric := by
  intro op x y a h
  have hsign : Operator.all.find? (·.sign == op.sign) = some op := by cases op <;> rfl
  simp [natives, hsign, h]

/-- The value of a variable. -/
def read (env : CellEnv) (name : String) : Run ScriptValue := fun m =>
  match env.lookup name with
  | some cell => .ok (m.cells.getD cell .undefined) m
  | none =>
    match m.globals.lookup name with
    | some v => .ok v m
    | none => .error (.undeclared name) m

/-- Gives a variable a value. -/
def write (env : CellEnv) (name : String) (v : ScriptValue) : Run Unit := fun m =>
  match env.lookup name with
  | some cell => .ok () { m with cells := m.cells.set cell v }
  | none => .ok () { m with globals := (name, v) :: m.globals }

/-- One argument for each parameter: further ones are dropped, missing ones are undefined. -/
def fill : List String → List ScriptValue → List ScriptValue
  | [], _ => []
  | _ :: params, [] => .undefined :: fill params []
  | _ :: params, v :: args => v :: fill params args

/-- Makes cells for parameters and brings them in sight. -/
def declare (env : CellEnv) (params : List String) (args : List ScriptValue) : Run CellEnv :=
  fun m => .ok (params.zipIdx m.cells.length ++ env) { m with cells := m.cells ++ fill params args }

/-- Computes a value for every element of a list, from left to right. -/
def each (f : Script → Run ScriptValue) : List Script → Run (List ScriptValue)
  | [] => pure []
  | s :: rest => do
    let v ← f s
    let vs ← each f rest
    return v :: vs

/-- Computes values in order and gives the last one. -/
def inOrder (f : Script → Run ScriptValue) : List Script → Run ScriptValue
  | [] => pure .undefined
  | [s] => f s
  | s :: rest => do
    let _ ← f s
    inOrder f rest

/-- The value of an operation. -/
def operate (ops : Operators) (op : String) (left right : ScriptValue) : Run ScriptValue :=
  match ops op left right with
  | .ok v => pure v
  | .error e => throw e

/-- Evaluates a script with the given cells in sight. -/
def eval (ops : Operators) (fuel : Nat) (env : CellEnv) (s : Script) : Run ScriptValue :=
  match fuel with
  | 0 => throw .spent
  | fuel + 1 =>
    match s with
    | .literal a => pure (.atom a)
    | .identifier name => read env name
    | .binary op left right => do
      let x ← eval ops fuel env left
      let y ← eval ops fuel env right
      operate ops op x y
    | .array items => do return .array (← each (eval ops fuel env) items)
    | .call callee args => do
      let f ← eval ops fuel env callee
      let vs ← each (eval ops fuel env) args
      match f with
      | .function params body captured => do
        let inner ← declare captured params vs
        eval ops fuel inner body
      | _ => throw .notFunction
    | .function params body => pure (.function params body env)
    | .sequence items => inOrder (eval ops fuel env) items
    | .conditional test yes no => do
      let v ← eval ops fuel env test
      eval ops fuel env (if v.truthy then yes else no)
    | .assignment (.identifier name) value => do
      let v ← eval ops fuel env value
      write env name v
      return v
    | .assignment .. => throw .badTarget
    | .hole => throw .hole

mutual

/-- Whether no function in a script repeats a parameter. -/
def distinctParams : Script → Bool
  | .literal _ | .identifier _ | .hole => true
  | .binary _ left right => left.distinctParams && right.distinctParams
  | .array items => distinctParamsAll items
  | .call callee args => callee.distinctParams && distinctParamsAll args
  | .function params body => decide params.Nodup && body.distinctParams
  | .sequence items => distinctParamsAll items
  | .conditional test yes no =>
    test.distinctParams && yes.distinctParams && no.distinctParams
  | .assignment target value => target.distinctParams && value.distinctParams

/-- Whether no function in several scripts repeats a parameter. -/
def distinctParamsAll : List Script → Bool
  | [] => true
  | s :: rest => s.distinctParams && distinctParamsAll rest

end

/-- Runs a script that is a whole program. -/
def run (ops : Operators) (fuel : Nat) (s : Script) : Except Error ScriptValue :=
  if s.distinctParams then
    match eval ops fuel [] s {} with
    | .ok v _ => .ok v
    | .error e _ => .error e
  else .error .repeatedParam

/-- A script ends with a value, however large the bound on nested evaluations is from some
bound on. -/
def EndsWith (ops : Operators) (s : Script) (v : ScriptValue) : Prop :=
  ∃ least, ∀ fuel, least ≤ fuel → s.run ops fuel = .ok v

/-! ## Evaluation from some bound on -/

/-- From the bound `least` on, a script ends with a value and leaves a memory. -/
def Reaches (ops : Operators) (least : Nat) (env : CellEnv) (s : Script) (m : Memory)
    (v : ScriptValue) (m' : Memory) : Prop :=
  ∀ fuel, least ≤ fuel → eval ops fuel env s m = .ok v m'

/-- The same of several scripts that are evaluated in order. -/
def ReachesAll (ops : Operators) (least : Nat) (env : CellEnv) (ss : List Script) (m : Memory)
    (vs : List ScriptValue) (m' : Memory) : Prop :=
  ∀ fuel, least ≤ fuel → each (eval ops fuel env) ss m = .ok vs m'

section Reaches

variable {ops : Operators} {k : Nat} {env : CellEnv} {m m₁ m₂ m₃ : Memory}

theorem Reaches.mono {s : Script} {v : ScriptValue} {k' : Nat}
    (h : Reaches ops k env s m v m₁) (hk : k ≤ k') : Reaches ops k' env s m v m₁ :=
  fun fuel hf => h fuel (Nat.le_trans hk hf)

theorem ReachesAll.mono {ss : List Script} {vs : List ScriptValue} {k' : Nat}
    (h : ReachesAll ops k env ss m vs m₁) (hk : k ≤ k') : ReachesAll ops k' env ss m vs m₁ :=
  fun fuel hf => h fuel (Nat.le_trans hk hf)

theorem reachesAll_nil : ReachesAll ops k env [] m [] m := fun _ _ => rfl

theorem reachesAll_cons {s : Script} {ss : List Script} {v : ScriptValue} {vs : List ScriptValue}
    (hs : Reaches ops k env s m v m₁) (hss : ReachesAll ops k env ss m₁ vs m₂) :
    ReachesAll ops k env (s :: ss) m (v :: vs) m₂ := by
  intro fuel hf
  simp [each, bind, EStateM.bind, hs fuel hf, hss fuel hf, pure, EStateM.pure]

theorem each_cons_eq_ok {f : Script → Run ScriptValue} {s : Script} {ss : List Script}
    {vs : List ScriptValue} (h : each f (s :: ss) m = .ok vs m₁) :
    ∃ x xs m₂, f s m = .ok x m₂ ∧ each f ss m₂ = .ok xs m₁ ∧ vs = x :: xs := by
  obtain ⟨x, m₂, hx, h⟩ := EStateM.bind_eq_ok h
  obtain ⟨xs, m₃, hxs, h⟩ := EStateM.bind_eq_ok h
  cases h
  exact ⟨x, xs, m₂, hx, hxs, rfl⟩

/-- To reach a value with a frame more, it suffices to compute it with one frame taken off. -/
theorem reaches_succ {s : Script} {v : ScriptValue}
    (h : ∀ fuel, k ≤ fuel → eval ops (fuel + 1) env s m = .ok v m₁) :
    Reaches ops (k + 1) env s m v m₁ := by
  intro fuel hf
  obtain ⟨f, rfl⟩ : ∃ f, fuel = f + 1 := ⟨fuel - 1, by omega⟩
  exact h f (by omega)

theorem reaches_literal (a : Atom) : Reaches ops 1 env (.literal a) m (.atom a) m :=
  reaches_succ fun _ _ => rfl

theorem reaches_function (params : List String) (body : Script) :
    Reaches ops 1 env (.function params body) m (.function params body env) m :=
  reaches_succ fun _ _ => rfl

theorem reaches_identifier {name : String} {v : ScriptValue} (h : read env name m = .ok v m) :
    Reaches ops 1 env (.identifier name) m v m :=
  reaches_succ fun _ _ => h

theorem reaches_binary {op : String} {s t : Script} {x y z : ScriptValue}
    (hst : ReachesAll ops k env [s, t] m [x, y] m₂) (h : ops op x y = .ok z) :
    Reaches ops (k + 1) env (.binary op s t) m z m₂ :=
  reaches_succ fun fuel hf => by
    obtain ⟨_, _, m₁, hs, hrest, heq⟩ := each_cons_eq_ok (hst fuel hf)
    obtain ⟨_, _, m₃, ht, hnil, heq'⟩ := each_cons_eq_ok hrest
    cases hnil
    cases heq'
    cases heq
    have hoperate : operate ops op x y m₂ = .ok z m₂ := by
      rw [operate, h]
      rfl
    exact (EStateM.bind_of_ok hs).trans ((EStateM.bind_of_ok ht).trans hoperate)

theorem reaches_array {ss : List Script} {vs : List ScriptValue}
    (h : ReachesAll ops k env ss m vs m₁) :
    Reaches ops (k + 1) env (.array ss) m (.array vs) m₁ :=
  reaches_succ fun fuel hf => EStateM.bind_of_ok (h fuel hf)

theorem reaches_call {callee body : Script} {args : List Script} {params : List String}
    {captured : CellEnv} {vs : List ScriptValue} {v : ScriptValue}
    (hc : Reaches ops k env callee m (.function params body captured) m₁)
    (ha : ReachesAll ops k env args m₁ vs m₂)
    (hb : Reaches ops k (params.zipIdx m₂.cells.length ++ captured) body
      { m₂ with cells := m₂.cells ++ fill params vs } v m₃) :
    Reaches ops (k + 1) env (.call callee args) m v m₃ :=
  reaches_succ fun fuel hf =>
    (EStateM.bind_of_ok (hc fuel hf)).trans
      ((EStateM.bind_of_ok (ha fuel hf)).trans (hb fuel hf))

theorem inOrder_eq_ok {f : Script → Run ScriptValue} {ss : List Script} {vs : List ScriptValue}
    {v : ScriptValue} (h : each f ss m = .ok vs m₁) (hv : vs.getLast? = some v) :
    inOrder f ss m = .ok v m₁ := by
  induction ss generalizing m vs with
  | nil =>
    cases h
    cases hv
  | cons s ss ih =>
    obtain ⟨x, xs, m₂, hx, hxs, rfl⟩ := each_cons_eq_ok h
    cases ss with
    | nil =>
      cases hxs
      cases hv
      exact hx
    | cons t ss =>
      obtain ⟨y, ys, m₃, -, -, rfl⟩ := each_cons_eq_ok hxs
      rw [inOrder]
      · simp only [bind, EStateM.bind, hx]
        exact ih hxs (by simpa [List.getLast?_cons_cons] using hv)
      · simp

theorem reaches_sequence {ss : List Script} {vs : List ScriptValue} {v : ScriptValue}
    (h : ReachesAll ops k env ss m vs m₁) (hv : vs.getLast? = some v) :
    Reaches ops (k + 1) env (.sequence ss) m v m₁ :=
  reaches_succ fun fuel hf => inOrder_eq_ok (h fuel hf) hv

theorem reaches_conditional {s yes no : Script} {x v : ScriptValue}
    (hs : Reaches ops k env s m x m₁)
    (hb : Reaches ops k env (if x.truthy then yes else no) m₁ v m₂) :
    Reaches ops (k + 1) env (.conditional s yes no) m v m₂ :=
  reaches_succ fun fuel hf => (EStateM.bind_of_ok (hs fuel hf)).trans (hb fuel hf)

theorem reaches_assignment {name : String} {s : Script} {v : ScriptValue}
    (hs : Reaches ops k env s m v m₁) (hw : write env name v m₁ = .ok () m₂) :
    Reaches ops (k + 1) env (.assignment (.identifier name) s) m v m₂ :=
  reaches_succ fun fuel hf => (EStateM.bind_of_ok (hs fuel hf)).trans (EStateM.bind_of_ok hw)

/-! ### A bound that suffices -/

theorem each_of_inOrder_eq_ok {f : Script → Run ScriptValue} {ss : List Script} {v : ScriptValue}
    (hss : ss ≠ []) (h : inOrder f ss m = .ok v m₁) :
    ∃ vs, each f ss m = .ok vs m₁ ∧ vs.getLast? = some v := by
  induction ss generalizing m with
  | nil => exact absurd rfl hss
  | cons s ss ih =>
    cases ss with
    | nil =>
      rw [inOrder] at h
      exact ⟨[v], by simp [each, bind, EStateM.bind, h, pure, EStateM.pure], rfl⟩
    | cons t ss =>
      rw [inOrder] at h
      · obtain ⟨x, m₂, hx, hrest⟩ := EStateM.bind_eq_ok h
        obtain ⟨vs, hvs, hlast⟩ := ih (by simp) hrest
        obtain ⟨y, ys, m₃, -, -, rfl⟩ := each_cons_eq_ok hvs
        refine ⟨x :: y :: ys, ?_, by simpa [List.getLast?_cons_cons] using hlast⟩
        rw [each]
        simp [bind, EStateM.bind, hx, hvs, pure, EStateM.pure]
      · simp

theorem reachesAll_of_each (ih : ∀ {env : CellEnv} {s : Script} {m m' : Memory} {v : ScriptValue},
      eval ops k env s m = .ok v m' → Reaches ops k env s m v m')
    {ss : List Script} {vs : List ScriptValue} (h : each (eval ops k env) ss m = .ok vs m₁) :
    ReachesAll ops k env ss m vs m₁ := by
  induction ss generalizing m vs with
  | nil =>
    cases h
    exact reachesAll_nil
  | cons s ss ihs =>
    obtain ⟨x, xs, m₂, hx, hxs, rfl⟩ := each_cons_eq_ok h
    exact reachesAll_cons (ih hx) (ihs hxs)

theorem memory_of_read {name : String} {v : ScriptValue} (h : read env name m = .ok v m₁) :
    m₁ = m := by
  unfold read at h
  split at h
  · cases h
    rfl
  · split at h
    · cases h
      rfl
    · cases h

/-- A bound that suffices once suffices from then on. -/
theorem reaches_of_eval {s : Script} {v : ScriptValue} (h : eval ops k env s m = .ok v m₁) :
    Reaches ops k env s m v m₁ := by
  induction k generalizing env s m v m₁ with
  | zero =>
    cases h
  | succ k ih =>
    cases s with
    | literal a =>
      cases h
      exact (reaches_literal a).mono (by omega)
    | identifier name =>
      obtain rfl := memory_of_read h
      exact (reaches_identifier h).mono (by omega)
    | binary op s t =>
      obtain ⟨x, m₂, hx, h⟩ := EStateM.bind_eq_ok h
      obtain ⟨y, m₃, hy, h⟩ := EStateM.bind_eq_ok h
      unfold operate at h
      cases hz : ops op x y with
      | ok z =>
        rw [hz] at h
        cases h
        exact reaches_binary (reachesAll_cons (ih hx) (reachesAll_cons (ih hy) reachesAll_nil)) hz
      | error e =>
        rw [hz] at h
        cases h
    | array items =>
      obtain ⟨vs, m₂, hvs, h⟩ := EStateM.bind_eq_ok h
      cases h
      exact reaches_array (reachesAll_of_each ih hvs)
    | call callee args =>
      obtain ⟨f, m₂, hf, h⟩ := EStateM.bind_eq_ok h
      obtain ⟨vs, m₃, hvs, h⟩ := EStateM.bind_eq_ok h
      cases f with
      | function params body captured =>
        obtain ⟨inner, m₄, hinner, h⟩ := EStateM.bind_eq_ok h
        cases hinner
        exact reaches_call (ih hf) (reachesAll_of_each ih hvs) (ih h)
      | _ => cases h
    | function params body =>
      cases h
      exact (reaches_function params body).mono (by omega)
    | sequence items =>
      cases items with
      | nil =>
        cases h
        exact reaches_succ fun _ _ => rfl
      | cons t ts =>
        obtain ⟨vs, hvs, hlast⟩ := each_of_inOrder_eq_ok (by simp) h
        exact reaches_sequence (reachesAll_of_each ih hvs) hlast
    | conditional test yes no =>
      obtain ⟨x, m₂, hx, h⟩ := EStateM.bind_eq_ok h
      exact reaches_conditional (ih hx) (ih h)
    | assignment target value =>
      cases target with
      | identifier name =>
        obtain ⟨x, m₂, hx, h⟩ := EStateM.bind_eq_ok h
        obtain ⟨_, m₃, hw, h⟩ := EStateM.bind_eq_ok h
        cases h
        exact reaches_assignment (ih hx) hw
      | _ => cases h
    | hole =>
      cases h

end Reaches

/-- A script that has a value with some bound ends with that value. -/
theorem endsWith_of_run {ops : Operators} {fuel : Nat} {s : Script} {v : ScriptValue}
    (h : s.run ops fuel = .ok v) : s.EndsWith ops v := by
  refine ⟨fuel, fun fuel' hf => ?_⟩
  unfold run at h ⊢
  split at h
  · rename_i hs
    rw [if_pos hs]
    split at h
    · rename_i v' m hv
      cases h
      rw [reaches_of_eval hv fuel' hf]
    · cases h
  · cases h

/-- A script ends with one value only. -/
theorem EndsWith.unique {ops : Operators} {s : Script} {v v' : ScriptValue}
    (h : s.EndsWith ops v) (h' : s.EndsWith ops v') : v = v' := by
  obtain ⟨least, h⟩ := h
  obtain ⟨least', h'⟩ := h'
  have heq := (h (max least least') (Nat.le_max_left _ _)).symm.trans
    (h' (max least least') (Nat.le_max_right _ _))
  simpa using heq

end Script

namespace Value

mutual

/-- The script value of a value that is built of atoms and lists only: every list is an array,
and the atoms stay as they are. -/
def image? : Value → Option ScriptValue
  | .atom a => some (.atom a)
  | .list _ items => (imageAll? items).map .array
  | _ => none

/-- The script values of several such values. -/
def imageAll? : List Value → Option (List ScriptValue)
  | [] => some []
  | v :: rest => (image? v).bind fun w => (imageAll? rest).map (w :: ·)

end

end Value

end MiniLisp
