import MiniLisp.Proofs.Faults
import MiniLisp.Proofs.Functions

/-!
# How many frames an evaluation takes

The activations that are under way at one time form a stack, in which each has started the next one;
each of them holds one frame. An expression costs the frames that its own evaluation can have on the
stack, up to the call of a closure but without the body of the closure (`Value.CostsAtMost`). Where
each body costs no more than the frames that a unit of call depth adds, the depth and not the frames
ends a recursion: a stack is never larger than the cost of the expression and of one body for each
unit of depth (`Realm.length_stack_le`). So the frames suffice for evaluation, and what may still
take more than there are is to write the text of a value (`Store.frames_bounded`).
-/

namespace MiniLisp

open Eval Relation

/-! ## Stacks -/

namespace Activation

/-- Activations that are under way at one time, from the first one on. -/
def Stack (a : Activation) (rest : List Activation) : Prop := (a :: rest).IsChain Starts

/-- An activation starts another one, other than the body of a closure. -/
def StartsOwn (a b : Activation) : Prop :=
  a.Starts b ∧ ∀ params body home args, a.task ≠ .closure params body home args

/-- What an activation and those that are part of its own work, without bodies of closures, can have
on the stack. -/
def CostsAtMost (a : Activation) (n : Nat) : Prop :=
  ∀ rest : List Activation, (a :: rest).IsChain StartsOwn → rest.length + 1 ≤ n

variable {a b : Activation} {n : Nat} {rest : List Activation} {e : Fault}

theorem CostsAtMost.pos (h : a.CostsAtMost n) : 1 ≤ n := h [] (.singleton a)

theorem CostsAtMost.step (h : a.CostsAtMost n) (hstarts : a.StartsOwn b) :
    b.CostsAtMost (n - 1) := by
  intro rest hrest
  have hlength := h (b :: rest) (.cons_cons hstarts hrest)
  rw [List.length_cons] at hlength
  omega

/-- An activation that starts another one stays at its depth, or enters the body of a closure, which
spends one unit. -/
theorem Starts.cases_own (h : a.Starts b) :
    a.StartsOwn b ∧ b.depth = a.depth ∨ ∃ params body home args,
      a.task = .closure params body home args ∧ a.depth = b.depth + 1 ∧
        b.task = .evaluate a.store.next body := by
  obtain ⟨f, d, st, t⟩ := a
  obtain ⟨k, hframes, hstarts⟩ := id h
  cases hstarts with
  | body hdepth harity => exact .inr ⟨_, _, _, _, rfl, hdepth, rfl⟩
  | _ => exact .inl ⟨⟨h, by simp⟩, rfl⟩

/-! ### Where frames are spent -/

/-- Natives give no fault that has to do with frames. -/
theorem not_isFrameLimit_of_call {fn : Native} {args : List Value} (h : fn.call args = .error e) :
    e.isFrameLimit = false := by
  rw [Bool.eq_false_iff]
  intro hlimit
  have hkind : e.kind = .exhausted := by
    cases e <;> first | rfl | cases hlimit
  rcases Native.kind_of_call h with hk | ⟨hk, -⟩ | ⟨-, text, -, hexcess⟩
  · rw [hk] at hkind
    cases hkind
  · rw [hk] at hkind
    cases hkind
  · rw [hkind] at hexcess
    cases hexcess

/-- A run that is out of frames has had a stack with all of them on it. -/
theorem exists_stack_of_frameLimit (h : a.Fails .frameLimit) :
    ∃ rest, a.Stack rest ∧ rest.length = a.frames := by
  -- the fault comes from an activation that this one starts, with one frame less, until none is left
  obtain ⟨n, hn⟩ : ∃ n, n = a.frames := ⟨_, rfl⟩
  induction n generalizing a with
  | zero => exact ⟨[], .singleton a, hn⟩
  | succ n ih =>
    obtain ⟨f, d, st, t⟩ := a
    cases hn
    cases Task.origin_of_fails h with
    | own he => cases he
    | text he _ _ => cases he
    | @started b hstarts hfails =>
      obtain ⟨rest, hstack, hlength⟩ := ih hfails hstarts.frames_eq.symm
      refine ⟨b :: rest, .cons_cons ⟨n, rfl, hstarts⟩ hstack, ?_⟩
      rw [List.length_cons, hlength, hstarts.frames_eq]
    | native ht hcall => cases not_isFrameLimit_of_call hcall

/-- A run that is out of frames for a text has come to an activation that writes the text. -/
theorem exists_writes_of_textLimit (h : a.Fails .textLimit) :
    ∃ b rest f v, a.Leads b ∧ a.Stack rest ∧ b.frames = f + 1 ∧ rest.length + b.frames = a.frames ∧
      b.task.Writes f b.depth b.store v ∧ v.fits f = false := by
  obtain ⟨n, hn⟩ : ∃ n, n = a.frames := ⟨_, rfl⟩
  induction n generalizing a with
  | zero => cases eq_frameLimit_of_fails_zero h hn.symm
  | succ n ih =>
    obtain ⟨f, d, st, t⟩ := a
    cases hn
    cases Task.origin_of_fails h with
    | own he => cases he
    | @text v _ hwrites hdeep =>
      exact ⟨_, [], n, v, .refl, .singleton _, rfl, Nat.zero_add _, hwrites, hdeep⟩
    | @started b hstarts hfails =>
      obtain ⟨c, rest, f, v, hleads, hstack, hframes, hlength, hwrites⟩ :=
        ih hfails hstarts.frames_eq.symm
      have hstep : Starts ⟨n + 1, d, st, t⟩ b := ⟨n, rfl, hstarts⟩
      refine ⟨c, b :: rest, f, v, .head hstep hleads, .cons_cons hstep hstack, hframes, ?_, hwrites⟩
      rw [hstarts.frames_eq] at hlength
      show rest.length + 1 + c.frames = n + 1
      omega
    | native ht hcall => cases not_isFrameLimit_of_call hcall

end Activation

/-! ## Costs -/

namespace Value

/-- The most frames that the evaluation of an expression itself can have on the stack, whatever it
finds in the store. -/
def CostsAtMost (expr : Value) (n : Nat) : Prop :=
  ∀ f d st scope, Activation.CostsAtMost ⟨f, d, st, .evaluate scope expr⟩ n

/-- What a form adds to the cost of its parts, if it evaluates them. -/
def formCost (form : Form) (parts : Nat) : Nat :=
  match form with
  | .quote | .lambda => 1
  | _ => 1 + parts

mutual

/-- A cost that can be told from an expression, by the levels that evaluation goes into. -/
def cost : Value → Nat
  | .list .plain items => 1 + applicationCost items
  | .list .vector items => 2 + costAll items
  | .braces entries => 2 + costAll entries
  | _ => 1

/-- The cost of an application. When its head and its operands are done, a call takes two frames. -/
def applicationCost : List Value → Nat
  | [] => 1
  | .symbol word :: operands =>
    match Form.ofName? word with
    | some form => 1 + formCost form (costAll operands)
    | none => 1 + max 2 (1 + costAll operands)
  | head :: operands => 1 + max head.cost (max 2 (1 + costAll operands))

/-- The largest of several costs. -/
def costAll : List Value → Nat
  | [] => 0
  | v :: rest => max v.cost (costAll rest)

end

theorem cost_le_costAll {v : Value} {vs : List Value} (h : v ∈ vs) : v.cost ≤ costAll vs := by
  induction vs with
  | nil => cases h
  | cons w vs ih =>
    rw [costAll]
    rcases List.mem_cons.1 h with rfl | h
    · exact Nat.le_max_left _ _
    · exact Nat.le_trans (ih h) (Nat.le_max_right _ _)

end Value

/-- The cost of a task. -/
def Task.cost : Task → Nat
  | .evaluate _ expr => expr.cost
  | .operands _ items | .dictionary _ items => 1 + Value.costAll items
  | .application _ items => Value.applicationCost items
  | .form _ special parts => Value.formCost special (Value.costAll parts)
  | .apply .. => 2
  | .closure .. => 1

theorem Value.formCost_pos (form : Form) (parts : Nat) : 0 < formCost form parts := by
  cases form <;> simp [formCost]

theorem Task.cost_pos (t : Task) : 0 < t.cost := by
  cases t with
  | evaluate scope expr =>
    rw [cost]
    unfold Value.cost
    split <;> omega
  | application scope items =>
    rw [cost]
    unfold Value.applicationCost
    split
    · exact Nat.one_pos
    · split <;> omega
    · omega
  | form scope special parts => exact Value.formCost_pos _ _
  | _ =>
    rw [cost]
    omega

/-- What a task starts costs less, unless it is the body of a closure. -/
theorem Activation.StartsOwn.cost_lt {a b : Activation} (h : a.StartsOwn b) :
    b.task.cost < a.task.cost := by
  obtain ⟨f, d, st, t⟩ := a
  obtain ⟨⟨k, hframes, hstarts⟩, hown⟩ := h
  cases hstarts with
  | vector | application | dictionary =>
    simp only [Task.cost, Value.cost]
    omega
  | @operand scope before after vs expr st₁ hbefore =>
    have hle : expr.cost ≤ Value.costAll (before ++ expr :: after) :=
      Value.cost_le_costAll (by simp)
    simp only [Task.cost]
    omega
  | form hword =>
    simp only [Task.cost, Value.applicationCost, hword]
    omega
  | nameOperands hword _ | nameCall hword _ _ =>
    simp only [Task.cost, Value.applicationCost, hword]
    omega
  | head | headOperands _ | headCall _ _ =>
    simp only [Task.cost, Value.applicationCost]
    omega
  | @entry scope before after key expr pairs st₁ heven hbefore =>
    have hle : expr.cost ≤ Value.costAll (before ++ .atom (.text key) :: expr :: after) :=
      Value.cost_le_costAll (by simp)
    simp only [Task.cost]
    omega
  | defined | assigned | condition =>
    simp only [Task.cost, Value.formCost, Value.costAll]
    omega
  | @sequenced scope before after vs expr st₁ hbefore =>
    have hle : expr.cost ≤ Value.costAll (before ++ expr :: after) :=
      Value.cost_le_costAll (by simp)
    simp only [Task.cost, Value.formCost]
    omega
  | @chosen scope condition yes no b st₁ hcondition =>
    have hle : (if b then yes else no).cost ≤ Value.costAll [condition, yes, no] :=
      Value.cost_le_costAll (by cases b <;> simp)
    simp only [Task.cost, Value.formCost]
    omega
  | closure =>
    simp only [Task.cost]
    omega
  | body _ _ => exact absurd rfl (hown _ _ _ _)

/-- The cost that is told from a task is one. -/
theorem Activation.costsAtMost_cost (a : Activation) : a.CostsAtMost a.task.cost := by
  intro rest h
  induction rest generalizing a with
  | nil => exact a.task.cost_pos
  | cons b rest ih =>
    obtain ⟨hstarts, hrest⟩ := List.isChain_cons_cons.1 h
    have hlength := ih b hrest
    have hlt := hstarts.cost_lt
    rw [List.length_cons]
    omega

theorem Value.costsAtMost_cost (expr : Value) : expr.CostsAtMost expr.cost :=
  fun _ _ _ _ => Activation.costsAtMost_cost _

theorem Value.CostsAtMost.mono {expr : Value} {m n : Nat} (h : expr.CostsAtMost m) (hmn : m ≤ n) :
    expr.CostsAtMost n :=
  fun f d st scope rest hrest => Nat.le_trans (h f d st scope rest hrest) hmn

/-! ## The bound -/

/-- A stack has room for what an activation still costs and for one body at each depth below. -/
theorem Realm.length_stack_le {r : Realm}
    (hkind : ∀ body, r.callable body → body.CostsAtMost framesPerCall) {a : Activation}
    {rest : List Activation} {n : Nat} (ha : r.Holds a) (hcost : a.CostsAtMost n)
    (h : a.Stack rest) : rest.length + 1 ≤ n + framesPerCall * a.depth := by
  -- along the stack: a step within an expression lowers the cost that is left, and a step into a
  -- body trades one unit of depth for the cost of that body
  induction rest generalizing a n with
  | nil =>
    have hpos := hcost.pos
    show 0 + 1 ≤ _
    omega
  | cons b rest ih =>
    obtain ⟨hstarts, hrest⟩ := List.isChain_cons_cons.1 h
    have hb : r.Holds b := holds_of_leads ha (.single hstarts)
    rw [List.length_cons]
    rcases hstarts.cases_own with ⟨hown, hdepth⟩ | ⟨params, body, home, args, htask, hdepth, hbody⟩
    · have hle := ih hb (hcost.step hown) hrest
      rw [hdepth] at hle
      have hpos := (hcost.step hown).pos
      omega
    · have hbodyCost : b.CostsAtMost framesPerCall := by
        obtain ⟨f, d, st, t⟩ := b
        cases hbody
        have htaskHolds := ha.task
        rw [htask] at htaskHolds
        exact hkind body htaskHolds.2.1 f d st _
      have hle := ih hb hbodyCost hrest
      -- whatever of its cost the caller has not used is not needed
      have hpos := hcost.pos
      rw [hdepth, Nat.mul_add, Nat.mul_one]
      omega

theorem Fault.cases_of_exhausted {e : Fault} (h : e.kind = .exhausted) :
    e = .callDepth ∨ e = .frameLimit ∨ e = .textLimit := by
  cases e with
  | callDepth => exact .inl rfl
  | frameLimit => exact .inr (.inl rfl)
  | textLimit => exact .inr (.inr rfl)
  | _ => cases h

namespace Store

variable {st : Store} {scope : ScopeId} {expr : Value} {cost depth : Nat}

theorem fails_of_evaluate {e : Fault} {s : Store} (h : st.evaluate depth scope expr = .error e s)
    (he : e.kind = .exhausted) :
    Activation.Fails ⟨activationFrames depth, depth, st, .evaluate scope expr⟩ e := by
  rcases Nat.lt_or_ge maxFrames (frameAllowance depth) with hlt | hle
  · rw [evaluate_of_lt st scope expr hlt] at h
    cases h
    cases he
  · rw [evaluate_of_le st scope expr hle] at h
    exact ⟨s, h⟩

/-- The call depth and not the frames ends a recursion. Where the bodies of all functions, in the
expression and in what it can reach, cost no more than the frames of one call, an evaluation never
has more frames on the stack than the expression costs and one body for each unit of depth. So if
the expression costs no more than the frames that every evaluation has, without those reserved for
what is not counted, it is not for evaluating that frames are missing, but only for writing the text
of a value that nests deeper than what is left. -/
theorem frames_bounded (depth : Nat) (hcost : expr.CostsAtMost cost)
    (hcode : ∀ body ∈ expr.functions ++ expr.bodies, body.CostsAtMost framesPerCall)
    (hheap : ∀ id name v, st.Reachable (roots scope expr) id → st.valueAt? id name = some v →
      ∀ body ∈ v.bodies, body.CostsAtMost framesPerCall) :
    (∀ frames stack, Activation.Stack ⟨frames, depth, st, .evaluate scope expr⟩ stack →
      stack.length + 1 ≤ cost + framesPerCall * depth) ∧
    (cost + reservedFrames ≤ baseFrames → ∀ e s, st.evaluate depth scope expr = .error e s →
      e.kind = .exhausted → e.message = "Maximum recursion depth exceeded" → e = .textLimit ∧
        ∃ b left v, Activation.Leads ⟨activationFrames depth, depth, st, .evaluate scope expr⟩ b ∧
          b.frames = left + 1 ∧ baseFrames - reservedFrames - cost ≤ left ∧
          b.task.Writes left b.depth b.store v ∧ v.fits left = false) := by
  have hbound (frames : Nat) {stack : List Activation}
      (h : Activation.Stack ⟨frames, depth, st, .evaluate scope expr⟩ stack) :
      stack.length + 1 ≤ cost + framesPerCall * depth :=
    Realm.length_stack_le (fun _ => And.left) (holds_realm hcode hheap frames depth)
      (hcost frames depth st scope) h
  refine ⟨fun frames stack => hbound frames, fun hbase e s hfault hkind hmessage => ?_⟩
  have hfails := fails_of_evaluate hfault hkind
  rcases Fault.cases_of_exhausted hkind with rfl | rfl | rfl
  · exact absurd hmessage (by decide +kernel)
  · obtain ⟨stack, hstack, hlength⟩ := Activation.exists_stack_of_frameLimit hfails
    have hle := hbound _ hstack
    replace hlength : stack.length = activationFrames depth := hlength
    rw [activationFrames, frameAllowance] at hlength
    omega
  · obtain ⟨b, stack, left, v, hleads, hstack, hframes, hlength, hwrites, hdeep⟩ :=
      Activation.exists_writes_of_textLimit hfails
    have hle := hbound _ hstack
    replace hlength : stack.length + b.frames = activationFrames depth := hlength
    rw [hframes, activationFrames, frameAllowance] at hlength
    exact ⟨rfl, b, left, v, hleads, hframes, by omega, hwrites, hdeep⟩

/-- There are only natives in a global scope. -/
theorem valueAt?_global {n : String} {v : Value} {id : ScopeId}
    (h : (pushGlobal {} 0).valueAt? id n = some v) : ∃ fn home, v = .native fn home := by
  rw [pushGlobal, valueAt?_push] at h
  split at h
  · rw [lookup_nativeBindings] at h
    obtain ⟨fn, -, rfl⟩ := Option.map_eq_some_iff.1 h
    exact ⟨fn, 0, rfl⟩
  · cases h

/-- Beside natives there is one value in a global scope with one name defined. -/
theorem valueAt?_define_global {name n : String} {v w : Value} {id : ScopeId}
    (h : ((pushGlobal {} 0).define 0 name v).valueAt? id n = some w) :
    w = v ∨ ∃ fn home, w = .native fn home := by
  rw [valueAt?_define] at h
  split at h
  · cases h
    exact .inl rfl
  · exact .inr (valueAt?_global h)

/-- A global scope with a function that calls itself without end. -/
def endless : Store :=
  (pushGlobal {} 0).define 0 "f" (.closure [] (.list .plain [.symbol "f"]) 0 0)

theorem frames_bounded_endless :
    let expr := Value.list .plain [.symbol "f"]
    expr.CostsAtMost 4 ∧
      (∀ body ∈ expr.functions ++ expr.bodies, body.CostsAtMost framesPerCall) ∧
      (∀ id name v, endless.Reachable (roots 0 expr) id → endless.valueAt? id name = some v →
        ∀ body ∈ v.bodies, body.CostsAtMost framesPerCall) ∧
      (Outcome.exhausted (endless.evaluate 30 0 expr)) ∧
      (∀ frames stack, Activation.Stack ⟨frames, 30, endless, .evaluate 0 expr⟩ stack →
        stack.length + 1 ≤ 4 + framesPerCall * 30) ∧
      ∀ e s, endless.evaluate 30 0 expr = .error e s → e ≠ .frameLimit := by
  intro expr
  have hcost : expr.CostsAtMost 4 := expr.costsAtMost_cost
  have hcall : expr.CostsAtMost framesPerCall := hcost.mono (by decide)
  have hcode : ∀ body ∈ expr.functions ++ expr.bodies, body.CostsAtMost framesPerCall :=
    List.forall_mem_nil _
  have hheap (id : ScopeId) (name : String) (v : Value) (_ : endless.Reachable (roots 0 expr) id)
      (hv : endless.valueAt? id name = some v) :
      ∀ body ∈ v.bodies, body.CostsAtMost framesPerCall := by
    rcases valueAt?_define_global hv with rfl | ⟨fn, home, rfl⟩
    · exact List.forall_mem_singleton.2 hcall
    · exact List.forall_mem_nil _
  obtain ⟨hstack, hends⟩ := frames_bounded 30 hcost hcode hheap
  refine ⟨hcost, hcode, hheap, by decide +kernel, hstack, ?_⟩
  rintro e s h rfl
  cases (hends (by decide) _ s h rfl rfl).1

/-- A list in a list, so many times. -/
def nest : Nat → Value
  | 0 => .number 1
  | n + 1 => .list .plain [nest n]

theorem bodies_nest (n : Nat) : (nest n).bodies = [] := by
  have hclosures : (nest n).closures = [] := by
    induction n with
    | zero => rfl
    | succ n ih => simpa [nest, Value.closures, Value.closuresAll] using ih
  rw [Value.bodies, hclosures]
  rfl

/-- A value that is too deep for the frames left is not printed. -/
theorem evaluate_print_of_not_fits {home f d : Nat} {name : String} {v : Value}
    (hprint : st.get? scope "print" = some (.native .print home))
    (hname : st.get? scope name = some v) (hdeep : v.fits (f + 1) = false) :
    MiniLisp.evaluate (f + 4) d scope (.list .plain [.symbol "print", .symbol name]) st =
      .error .textLimit st := by
  have hfn : lookup scope "print" st = .ok (.native .print home) st := by
    simp only [lookup, hprint]
  have harg : MiniLisp.evaluate (f + 1) d scope (.symbol name) st = .ok v st := by
    unfold MiniLisp.evaluate
    simp only [lookup, hname]
  have hargs : evaluateAll (f + 2) d scope [.symbol name] st = .ok [v] st := by
    unfold evaluateAll
    rw [each, EStateM.bind_of_ok harg]
    rfl
  have hwrite : writeLine (f + 1) v st = .error .textLimit st := if_neg (by simp [hdeep])
  unfold MiniLisp.evaluate
  unfold evaluateApplication
  show (lookup scope "print" >>= _) st = _
  rw [EStateM.bind_of_ok hfn, EStateM.bind_of_ok hargs]
  unfold MiniLisp.apply
  exact EStateM.bind_of_error hwrite

/-- An evaluation at depth one ends for want of frames, though its cost is no more than the frames
that every evaluation has, and the functions in it, the only ones there are, cost no more than the
frames of a call. -/
structure Overruns (st : Store) (expr : Value) (cost : Nat) : Prop where
  costs : expr.CostsAtMost cost
  cost_le : cost ≤ baseFrames
  code : ∀ body ∈ expr.functions ++ expr.bodies, body.CostsAtMost framesPerCall
  heap : ∀ id name v, st.valueAt? id name = some v → v.bodies = []
  ends : ∃ e s, st.evaluate 1 0 expr = .error e s ∧ e.kind = .exhausted ∧
    e.message = "Maximum recursion depth exceeded"

/-- A sequence in a sequence, so many times. -/
def sequences : Nat → Value → Value
  | 0, v => v
  | n + 1, v => .list .plain [.symbol "do", sequences n v]

/-- A call of a function, deep in sequences, whose body is deep in sequences. -/
def deepCall : Value :=
  sequences 331 (.list .vector [.list .plain
    [.list .plain [.symbol "lambda", .list .vector [], sequences 16 (.list .vector [])]]])

/-- Where hardly a frame is spent, they do not suffice to print a value that is deep enough. And
where all that every evaluation has are spent, those of a call do not suffice for a body that costs
as many, because some are reserved. -/
theorem overruns_within_base :
    Overruns ((pushGlobal {} 0).define 0 "x" (nest 1100))
        (.list .plain [.symbol "print", .symbol "x"]) 4 ∧
      Overruns (pushGlobal {} 0) deepCall 1000 := by
  constructor
  · refine ⟨Value.costsAtMost_cost _, by decide, List.forall_mem_nil _, fun id name v hv => ?_, ?_⟩
    · rcases valueAt?_define_global hv with rfl | ⟨fn, home, rfl⟩
      · exact bodies_nest 1100
      · rfl
    · have hdeep : (nest 1100).fits 1017 = false := by decide +kernel
      exact ⟨.textLimit, _, evaluate_print_of_not_fits rfl rfl hdeep, rfl, rfl⟩
  · have hcost : deepCall.cost = 1000 := by decide +kernel
    have hbodies : ∀ body ∈ deepCall.functions ++ deepCall.bodies, body.cost ≤ framesPerCall := by
      decide +kernel
    have hexhausted : Outcome.exhausted ((pushGlobal {} 0).evaluate 1 0 deepCall) := by
      decide +kernel
    have hmessage : (Outcome.answer ((pushGlobal {} 0).evaluate 1 0 deepCall)).mapError
        Fault.message = .error "Maximum recursion depth exceeded" := by
      decide +kernel
    refine ⟨hcost ▸ deepCall.costsAtMost_cost, by decide, fun body hbody =>
      body.costsAtMost_cost.mono (hbodies body hbody), fun id name v hv => ?_, ?_⟩
    · obtain ⟨fn, home, rfl⟩ := valueAt?_global hv
      rfl
    · cases h : (pushGlobal {} 0).evaluate 1 0 deepCall with
      | ok v s =>
        rw [h] at hexhausted
        cases hexhausted
      | error e s =>
        rw [h] at hexhausted hmessage
        exact ⟨e, s, rfl, hexhausted, Except.error.inj hmessage⟩

end Store

end MiniLisp
