import Mathlib
import MiniLisp.Token.Stream

/-!
# The grammar of expressions

`Derives ts v` says, by the rules of the grammar alone, that the tokens `ts` write the value `v`.
The reader is a machine with a stack of open levels, so the two are related through the stack:
`Closes` and `Ends` say what the open levels still ask of the tokens to come. A run that succeeds
has a derivation behind it (`derives_of_readExpr`), and a derivation drives the machine over its
tokens and no further (`runs_of_derivations`), as long as nothing is nested deeper than the
allowance. No tokens derive two values (`Derives.unique`).
-/

namespace MiniLisp

/-! ## Derivations -/

/-- The tokens that are expressions by themselves. -/
inductive Leaf : Token → Value → Prop
  | number {t : Token} (h : t.kind = .number) : Leaf t t.value
  | text {t : Token} (h : t.kind = .text) : Leaf t t.value
  | yes {t : Token} (h : t.kind = .symbol) (hname : t.text = "true") : Leaf t (.boolean true)
  | no {t : Token} (h : t.kind = .symbol) (hname : t.text = "false") : Leaf t (.boolean false)
  | symbol {t : Token} (h : t.kind = .symbol) (hyes : t.text ≠ "true") (hno : t.text ≠ "false") :
      Leaf t (.symbol t.text)

/-- What brackets make of the items between them. Round brackets need an item. -/
inductive Encloses : Bracket → List Value → Value → Prop
  | round (v : Value) (vs : List Value) : Encloses .round (v :: vs) (.list .plain (v :: vs))
  | square (vs : List Value) : Encloses .square vs (.list .vector vs)
  | curly (vs : List Value) : Encloses .curly vs (.braces vs)

mutual

/-- The tokens write the value as one expression. -/
inductive Derives : List Token → Value → Prop
  | leaf {t : Token} {v : Value} (h : Leaf t v) : Derives [t] v
  | quoted {q : Token} {ts : List Token} {v : Value} (hq : q.kind = .quote) (hv : Derives ts v) :
      Derives (q :: ts) (.list .plain [.symbol "quote", v])
  | brackets {b : Bracket} {o c : Token} {ts : List Token} {vs : List Value} {v : Value}
      (ho : o.kind = .opener b) (hvs : DerivesAll ts vs) (hc : c.kind = .closer b)
      (hv : Encloses b vs v) : Derives (o :: (ts ++ [c])) v

/-- The tokens write the values, one after the other. -/
inductive DerivesAll : List Token → List Value → Prop
  | nil : DerivesAll [] []
  | cons {ts ts' : List Token} {v : Value} {vs : List Value} (hv : Derives ts v)
      (hvs : DerivesAll ts' vs) : DerivesAll (ts ++ ts') (v :: vs)

end

theorem encloses_iff {b : Bracket} {vs : List Value} {v : Value} :
    Encloses b vs v ↔ ¬(b = .round ∧ vs = []) ∧ v = Reader.close b vs := by
  constructor
  · rintro (⟨v, vs⟩ | vs | vs) <;> simp [Reader.close]
  · rintro ⟨hne, rfl⟩
    cases b with
    | round =>
      cases vs with
      | nil => exact absurd ⟨rfl, rfl⟩ hne
      | cons v vs => exact .round v vs
    | square => exact .square vs
    | curly => exact .curly vs

theorem leaf_symbolValue {t : Token} (h : t.kind = .symbol) :
    Leaf t (Reader.symbolValue t.text) := by
  unfold Reader.symbolValue
  split
  · exact .yes h ‹_›
  split
  · exact .no h ‹_›
  · exact .symbol h ‹_› ‹_›

theorem Leaf.unique {t : Token} {v w : Value} (hv : Leaf t v) (hw : Leaf t w) : v = w := by
  cases hv <;> cases hw <;> simp_all

/-- The kinds of tokens that can begin an expression. -/
def Token.Kind.begins : Token.Kind → Bool
  | .number | .symbol | .text | .quote | .opener _ => true
  | .closer _ | .eof | .other _ => false

theorem Leaf.kind_cases {t : Token} {v : Value} (h : Leaf t v) :
    t.kind = .number ∨ t.kind = .text ∨ t.kind = .symbol := by
  cases h <;> simp_all

theorem Leaf.begins {t : Token} {v : Value} (h : Leaf t v) : t.kind.begins = true := by
  rcases h.kind_cases with hk | hk | hk <;> rw [hk] <;> rfl

theorem Derives.head {ts : List Token} {v : Value} (h : Derives ts v) :
    ∃ t rest, ts = t :: rest ∧ t.kind.begins = true := by
  cases h with
  | leaf h => exact ⟨_, _, rfl, h.begins⟩
  | quoted hq _ => exact ⟨_, _, rfl, by rw [hq]; rfl⟩
  | brackets ho _ _ _ => exact ⟨_, _, rfl, by rw [ho]; rfl⟩

/-- Induction on derivations of expressions and of sequences of expressions together. -/
theorem derivation_induction {P : List Token → Value → Prop}
    {Q : List Token → List Value → Prop}
    (leaf : ∀ {t v}, Leaf t v → P [t] v)
    (quoted : ∀ {q ts v}, q.kind = .quote → Derives ts v → P ts v →
      P (q :: ts) (.list .plain [.symbol "quote", v]))
    (brackets : ∀ {b o c ts vs v}, o.kind = .opener b → DerivesAll ts vs → c.kind = .closer b →
      Encloses b vs v → Q ts vs → P (o :: (ts ++ [c])) v)
    (nil : Q [] [])
    (cons : ∀ {ts ts' v vs}, Derives ts v → DerivesAll ts' vs → P ts v → Q ts' vs →
      Q (ts ++ ts') (v :: vs)) :
    (∀ {ts v}, Derives ts v → P ts v) ∧ ∀ {ts vs}, DerivesAll ts vs → Q ts vs :=
  ⟨fun h => @Derives.rec (fun ts v _ => P ts v) (fun ts vs _ => Q ts vs) @leaf @quoted
      @brackets nil @cons _ _ h,
    fun h => @DerivesAll.rec (fun ts v _ => P ts v) (fun ts vs _ => Q ts vs) @leaf @quoted
      @brackets nil @cons _ _ h⟩

/-! ### At most one value -/

/-- Where an expression ends is settled by its tokens: no derivation goes on where another one
stops. The items of brackets are settled together with the closing bracket after them. -/
theorem derivations_eq_of_append :
    (∀ {s v}, Derives s v → ∀ {s' r r' v'}, Derives s' v' → s ++ r = s' ++ r' →
      s = s' ∧ v = v') ∧
    ∀ {s vs}, DerivesAll s vs → ∀ {s' r r' c c' b b' vs'}, DerivesAll s' vs' →
      c.kind = .closer b → c'.kind = .closer b' → s ++ c :: r = s' ++ c' :: r' →
      s = s' ∧ vs = vs' ∧ c = c' := by
  apply derivation_induction
  case leaf =>
    intro t v hl s' r r' v' h' heq
    have hk := hl.kind_cases
    cases h' with
    | leaf hl' =>
      obtain ⟨rfl, -⟩ := List.cons.inj heq
      exact ⟨rfl, hl.unique hl'⟩
    | quoted hq _ =>
      obtain ⟨rfl, -⟩ := List.cons.inj heq
      simp [hq] at hk
    | brackets ho _ _ _ =>
      obtain ⟨rfl, -⟩ := List.cons.inj heq
      simp [ho] at hk
  case quoted =>
    intro q ts v hq _ ih s' r r' v' h' heq
    cases h' with
    | leaf hl' =>
      obtain ⟨rfl, -⟩ := List.cons.inj heq
      have hk := hl'.kind_cases
      simp [hq] at hk
    | quoted _ hv' =>
      obtain ⟨rfl, htail⟩ := List.cons.inj heq
      obtain ⟨rfl, rfl⟩ := ih hv' htail
      exact ⟨rfl, rfl⟩
    | brackets ho _ _ _ =>
      obtain ⟨rfl, -⟩ := List.cons.inj heq
      simp [hq] at ho
  case brackets =>
    intro b o c ts vs v ho _ hc hv ih s' r r' v' h' heq
    cases h' with
    | leaf hl' =>
      obtain ⟨rfl, -⟩ := List.cons.inj heq
      have hk := hl'.kind_cases
      simp [ho] at hk
    | quoted hq _ =>
      obtain ⟨rfl, -⟩ := List.cons.inj heq
      simp [hq] at ho
    | brackets ho' hvs' hc' hv' =>
      simp only [List.append_assoc, List.cons_append, List.nil_append] at heq
      obtain ⟨rfl, htail⟩ := List.cons.inj heq
      obtain rfl := Token.Kind.opener.inj (ho.symm.trans ho')
      obtain ⟨rfl, rfl, rfl⟩ := ih hvs' hc hc' htail
      rw [encloses_iff] at hv hv'
      exact ⟨rfl, hv.2.trans hv'.2.symm⟩
  case nil =>
    intro s' r r' c c' b b' vs' h' hc _ heq
    cases h' with
    | nil => exact ⟨rfl, rfl, (List.cons.inj heq).1⟩
    | cons hv' _ =>
      obtain ⟨t, rest, rfl, ht⟩ := hv'.head
      obtain ⟨rfl, -⟩ := List.cons.inj heq
      rw [hc] at ht
      cases ht
  case cons =>
    intro ts ts' v vs hv _ ihv ihvs s' r r' c c' b b' vs' h' hc hc' heq
    cases h' with
    | nil =>
      obtain ⟨t, rest, rfl, ht⟩ := hv.head
      obtain ⟨rfl, -⟩ := List.cons.inj heq
      rw [hc'] at ht
      cases ht
    | cons hv' hvs' =>
      rw [List.append_assoc, List.append_assoc] at heq
      obtain ⟨rfl, rfl⟩ := ihv hv' heq
      obtain ⟨rfl, rfl, rfl⟩ := ihvs hvs' hc hc' (List.append_cancel_left heq)
      exact ⟨rfl, rfl, rfl⟩

theorem Derives.unique {ts : List Token} {v w : Value} (hv : Derives ts v) (hw : Derives ts w) :
    v = w :=
  (derivations_eq_of_append.1 hv hw (rfl : ts ++ [] = ts ++ [])).2

/-! ## Nesting -/

/-- What a token makes of the weights of the open levels, the innermost one first: two for a
bracket and one for a quote, which is open as long as its expression is. -/
def openAfter (levels : List Nat) (t : Token) : List Nat :=
  match t.kind with
  | .quote => 1 :: levels
  | .opener _ => 2 :: levels
  | .closer _ => levels.tail.dropWhile (· == 1)
  | _ => levels.dropWhile (· == 1)

/-- The weight of the open levels where it is largest. -/
def nestingFrom (levels : List Nat) : List Token → Nat
  | [] => levels.sum
  | t :: ts => max levels.sum (nestingFrom (openAfter levels t) ts)

/-- How deep tokens are nested. -/
def nesting (ts : List Token) : Nat := nestingFrom [] ts

theorem sum_le_nestingFrom (levels : List Nat) (ts : List Token) :
    levels.sum ≤ nestingFrom levels ts := by
  cases ts with
  | nil => exact Nat.le_refl _
  | cons t ts => exact Nat.le_max_left _ _

theorem nestingFrom_append (ts ts' : List Token) (levels : List Nat) :
    nestingFrom levels (ts ++ ts') =
      max (nestingFrom levels ts) (nestingFrom (ts.foldl openAfter levels) ts') := by
  induction ts generalizing levels with
  | nil => exact (Nat.max_eq_right (sum_le_nestingFrom levels ts')).symm
  | cons t ts ih => simp only [List.cons_append, nestingFrom, List.foldl_cons, ih, Nat.max_assoc]

/-- An expression closes what it opens, and the quotes before it. -/
theorem foldl_openAfter :
    (∀ {ts v}, Derives ts v → ∀ levels : List Nat,
      ts.foldl openAfter levels = levels.dropWhile (· == 1)) ∧
    ∀ {ts vs}, DerivesAll ts vs → ∀ levels : List Nat,
      ts.foldl openAfter (2 :: levels) = 2 :: levels := by
  apply derivation_induction
  case leaf =>
    intro t v hl levels
    rcases hl.kind_cases with hk | hk | hk <;> simp [openAfter, hk]
  case quoted =>
    intro q ts v hq _ ih levels
    simp [openAfter, hq, ih]
  case brackets =>
    intro b o c ts vs v ho _ hc _ ih levels
    simp [openAfter, ho, hc, ih]
  case nil => exact fun _ => rfl
  case cons =>
    intro ts ts' v vs _ _ ihv ihvs levels
    rw [List.foldl_append, ihv]
    exact ihvs levels

/-! ## The reader follows the grammar -/

namespace Reader

/-- The weights of the open levels. -/
def weights (stack : List Level) : List Nat := stack.map Level.weight

theorem step_of_begins {t : Token} (h : t.kind.begins = true) (rest : List Token)
    (stack : List Level) : step t rest stack = beginWith t rest stack := by
  unfold step
  split
  · unfold continueWith
    split <;> simp_all [Token.Kind.begins]
  · rfl

theorem beginWith_of_leaf {t : Token} {v : Value} (h : Leaf t v) (rest : List Token)
    (stack : List Level) : beginWith t rest stack = give v stack := by
  cases h <;> simp_all [beginWith, symbolValue]

theorem atEnd_append_of_derives {ts : List Token} {v : Value} (h : Derives ts v)
    (rest : List Token) : atEnd (ts ++ rest) = false := by
  obtain ⟨t, ts', rfl, ht⟩ := h.head
  have hne : t.kind ≠ .eof := by
    intro he
    rw [he] at ht
    cases ht
  simpa [atEnd] using hne

theorem enter_of_nestingFrom {level : Level} {stack : List Level} {ts : List Token}
    (h : nestingFrom (weights (level :: stack)) ts ≤ allowance) :
    enter level stack = .next (level :: stack) :=
  if_pos (Nat.le_trans (sum_le_nestingFrom _ _) h)

/-- A derivation drives the reader over its tokens. -/
theorem runs_of_derivations :
    (∀ {ts v}, Derives ts v → ∀ stack, nestingFrom (weights stack) ts ≤ allowance → ∀ rest,
      run stack (ts ++ rest) = match finish v stack with
        | .error w => ⟨.ok w, rest⟩
        | .ok stack => run stack rest) ∧
    ∀ {ts vs}, DerivesAll ts vs → ∀ {b opener items stack},
      nestingFrom (2 :: weights stack) ts ≤ allowance → ∀ rest,
      run (.bracket b opener items :: stack) (ts ++ rest) =
        run (.bracket b opener (vs.reverse ++ items) :: stack) rest := by
  apply derivation_induction
  case leaf =>
    intro t v hl stack _ rest
    rw [List.singleton_append, run, step_of_begins hl.begins, beginWith_of_leaf hl, give]
    cases finish v stack <;> rfl
  case quoted =>
    intro q ts v hq hv ih stack hdepth rest
    have hinner : nestingFrom (weights (.quote :: stack)) ts ≤ allowance := by
      rw [nestingFrom, openAfter, hq] at hdepth
      exact Nat.le_trans (Nat.le_max_right _ _) hdepth
    have hstep : step q (ts ++ rest) stack = .next (.quote :: stack) := by
      rw [step_of_begins (by rw [hq]; rfl), beginWith, hq]
      simp only [atEnd_append_of_derives hv]
      exact enter_of_nestingFrom hinner
    rw [List.cons_append, run, hstep]
    exact ih _ hinner rest
  case brackets =>
    intro b o c ts vs v ho _ hc hv ih stack hdepth rest
    have hinner : nestingFrom (2 :: weights stack) (ts ++ [c]) ≤ allowance := by
      rw [nestingFrom, openAfter, ho] at hdepth
      exact Nat.le_trans (Nat.le_max_right _ _) hdepth
    have hitems : nestingFrom (2 :: weights stack) ts ≤ allowance := by
      rw [nestingFrom_append] at hinner
      exact Nat.le_trans (Nat.le_max_left _ _) hinner
    have hopen : step o (ts ++ c :: rest) stack = .next (.bracket b o [] :: stack) := by
      rw [step_of_begins (by rw [ho]; rfl), beginWith, ho]
      exact enter_of_nestingFrom hinner
    obtain ⟨hne, rfl⟩ := encloses_iff.1 hv
    have hclose : step c rest (.bracket b o vs.reverse :: stack) = give (close b vs) stack := by
      have hround : ¬(b = .round ∧ vs.reverse = []) := by simpa using hne
      simp only [step, continueWith, hc, ne_eq, not_true_eq_false, if_false, if_neg hround,
        List.reverse_reverse]
    rw [List.cons_append, List.append_assoc, List.singleton_append, run, hopen]
    dsimp only
    rw [ih hitems, List.append_nil, run, hclose, give]
    cases finish (close b vs) stack <;> rfl
  case nil => exact fun _ _ => rfl
  case cons =>
    intro ts ts' v vs hv _ ihv ihvs b opener items stack hdepth rest
    rw [nestingFrom_append, foldl_openAfter.1 hv] at hdepth
    rw [List.append_assoc, ihv (.bracket b opener items :: stack)
      (Nat.le_trans (Nat.le_max_left _ _) hdepth)]
    simpa [finish] using ihvs (Nat.le_trans (Nat.le_max_right _ _) hdepth) rest

theorem readExpr_of_derives {ts : List Token} {v : Value} (h : Derives ts v)
    (hdepth : nesting ts ≤ allowance) (rest : List Token) :
    readExpr (ts ++ rest) = ⟨.ok v, rest⟩ :=
  runs_of_derivations.1 h [] hdepth rest

/-! ## The grammar follows the reader -/

/-- What the open levels still ask of the tokens after a finished value, for `v` to be the
result. -/
def Closes : List Level → Value → List Token → Value → Prop
  | [], w, ts, v => ts = [] ∧ v = w
  | .quote :: stack, w, ts, v => Closes stack (quoted w) ts v
  | .bracket b _ items :: stack, w, ts, v => ∃ inner ws c rest u,
    ts = inner ++ c :: rest ∧ DerivesAll inner ws ∧ c.kind = .closer b ∧
      Encloses b (items.reverse ++ w :: ws) u ∧ Closes stack u rest v

/-- What the open levels ask of all tokens to come: an expression is next, or a bracket is closed. -/
def Ends (stack : List Level) (ts : List Token) (v : Value) : Prop :=
  (∃ first w rest, ts = first ++ rest ∧ Derives first w ∧ Closes stack w rest v) ∨
  ∃ b opener items outer c rest u, stack = .bracket b opener items :: outer ∧ ts = c :: rest ∧
    c.kind = .closer b ∧ Encloses b items.reverse u ∧ Closes outer u rest v

/-- What a step asks of the tokens after it. -/
def Step.Ends : Step → List Token → Value → Prop
  | .next stack, ts, v => Reader.Ends stack ts v
  | .done w, ts, v => ts = [] ∧ v = w
  | _, _, _ => False

theorem closes_of_give {w v : Value} {stack : List Level} {ts : List Token}
    (h : (give w stack).Ends ts v) : Closes stack w ts v := by
  unfold give at h
  induction stack generalizing w with
  | nil => exact h
  | cons level stack ih =>
    cases level with
    | quote => exact ih h
    | bracket b opener items =>
      rcases h with ⟨first, w', rest, rfl, hfirst, inner, ws, c, rest', u, rfl, hinner, hc, hu, hcl⟩
        | ⟨b', _, _, outer, c, rest, u, heq, rfl, hc, hu, hcl⟩
      · refine ⟨first ++ inner, w' :: ws, c, rest', u, by simp, .cons hfirst hinner, hc, ?_, hcl⟩
        simpa using hu
      · cases heq
        exact ⟨[], [], c, rest, u, rfl, .nil, hc, by simpa using hu, hcl⟩

theorem ends_of_enter {level : Level} {stack : List Level} {ts : List Token} {v : Value}
    (h : (enter level stack).Ends ts v) : Reader.Ends (level :: stack) ts v := by
  unfold enter at h
  split at h
  · exact h
  · cases h

theorem ends_of_beginWith {t : Token} {rest ts : List Token} {stack : List Level} {v : Value}
    (h : (beginWith t rest stack).Ends ts v) : Reader.Ends stack (t :: ts) v := by
  unfold beginWith at h
  split at h
  · exact .inl ⟨[t], _, ts, rfl, .leaf (.number ‹_›), closes_of_give h⟩
  · exact .inl ⟨[t], _, ts, rfl, .leaf (.text ‹_›), closes_of_give h⟩
  · exact .inl ⟨[t], _, ts, rfl, .leaf (leaf_symbolValue ‹_›), closes_of_give h⟩
  · rename_i hq
    split at h
    · cases h
    · rcases ends_of_enter h with ⟨first, w, rest', rfl, hw, hcl⟩ | ⟨_, _, _, _, _, _, _, heq, _⟩
      · exact .inl ⟨t :: first, _, rest', rfl, .quoted hq hw, hcl⟩
      · cases heq
  · rename_i b ho
    rcases ends_of_enter h with
      ⟨first, w, rest', rfl, hw, inner, ws, c, rest'', u, rfl, hinner, hc, hu, hcl⟩
      | ⟨_, _, _, _, c, rest', u, heq, rfl, hc, hu, hcl⟩
    · refine .inl ⟨t :: (first ++ inner ++ [c]), u, rest'', by simp, ?_, hcl⟩
      exact .brackets ho (.cons hw hinner) hc hu
    · cases heq
      exact .inl ⟨[t, c], u, rest', rfl, .brackets ho .nil hc hu, hcl⟩
  all_goals cases h

theorem ends_of_step {t : Token} {rest ts : List Token} {stack : List Level} {v : Value}
    (h : (step t rest stack).Ends ts v) : Reader.Ends stack (t :: ts) v := by
  unfold step at h
  split at h
  · rename_i b opener items outer
    unfold continueWith at h
    split at h
    · rename_i b' hc
      split at h
      · cases h
      split at h
      · cases h
      · rename_i hb hne
        obtain rfl : b' = b := by simpa using hb
        have hu : Encloses b' items.reverse (close b' items.reverse) :=
          encloses_iff.2 ⟨by simpa using hne, rfl⟩
        exact .inr ⟨b', opener, items, outer, t, ts, _, rfl, rfl, hc, hu, closes_of_give h⟩
    · cases h
    · exact ends_of_beginWith h
  · exact ends_of_beginWith h

/-- The open levels after a step weigh what `openAfter` says, and stay within the allowance, or the
step has halted because they do not. -/
def Step.Weighs (levels : List Nat) : Step → Prop
  | .next stack => weights stack = levels ∧ levels.sum ≤ allowance
  | .done _ => levels = []
  | .halt .exhausted => allowance < levels.sum
  | _ => True

theorem weighs_give {v : Value} {stack : List Level} (h : (weights stack).sum ≤ allowance) :
    (give v stack).Weighs ((weights stack).dropWhile (· == 1)) := by
  unfold give
  induction stack generalizing v with
  | nil => rfl
  | cons level stack ih =>
    cases level with
    | quote =>
      refine ih (Nat.le_trans ?_ h)
      simp [weights]
    | bracket b opener items => exact ⟨rfl, h⟩

theorem weighs_enter (level : Level) (stack : List Level) :
    (enter level stack).Weighs (level.weight :: weights stack) := by
  unfold enter
  split
  · exact ⟨rfl, ‹_›⟩
  · exact Nat.lt_of_not_le ‹_›

theorem weighs_beginWith {t : Token} {rest : List Token} {stack : List Level}
    (h : (weights stack).sum ≤ allowance) :
    (beginWith t rest stack).Weighs (openAfter (weights stack) t) := by
  unfold beginWith openAfter
  cases t.kind with
  | number => exact weighs_give h
  | text => exact weighs_give h
  | symbol => exact weighs_give h
  | quote =>
    dsimp only
    split
    · trivial
    · exact weighs_enter .quote stack
  | opener b => exact weighs_enter (.bracket b t []) stack
  | closer b => trivial
  | eof => trivial
  | other name => trivial

theorem weighs_step (t : Token) (rest : List Token) {stack : List Level}
    (h : (weights stack).sum ≤ allowance) :
    (step t rest stack).Weighs (openAfter (weights stack) t) := by
  unfold step
  split
  · rename_i b opener items outer
    unfold continueWith
    split
    · rename_i b' hc
      have houter : (weights outer).sum ≤ allowance := by
        refine Nat.le_trans ?_ h
        simp [weights]
      split
      · trivial
      split
      · trivial
      · rw [openAfter, hc]
        exact weighs_give houter
    · trivial
    · exact weighs_beginWith h
  · exact weighs_beginWith h

/-- A run that succeeds takes what the open levels ask for, within the allowance. -/
theorem ends_of_run {ts rest : List Token} {stack : List Level} {v : Value}
    (h : run stack ts = ⟨.ok v, rest⟩) (hstack : (weights stack).sum ≤ allowance) :
    ∃ taken, ts = taken ++ rest ∧ Reader.Ends stack taken v ∧
      nestingFrom (weights stack) taken ≤ allowance := by
  induction ts generalizing stack with
  | nil =>
    cases stack with
    | nil => cases h
    | cons level stack => cases level <;> cases h
  | cons t ts ih =>
    have hweighs := weighs_step t ts hstack
    rw [run] at h
    cases hs : step t ts stack with
    | next stack' =>
      rw [hs] at h hweighs
      obtain ⟨hlevels, hsum⟩ := hweighs
      obtain ⟨taken, rfl, hends, hdepth⟩ := ih h (hlevels ▸ hsum)
      rw [hlevels] at hdepth
      have htaken : (step t (taken ++ rest) stack).Ends taken v := by rwa [hs]
      exact ⟨t :: taken, rfl, ends_of_step htaken, Nat.max_le.2 ⟨hstack, hdepth⟩⟩
    | done w =>
      have htaken : (step t ts stack).Ends [] w := by rw [hs]; exact ⟨rfl, rfl⟩
      rw [hs] at h hweighs
      cases h
      refine ⟨[t], rfl, ends_of_step htaken, Nat.max_le.2 ⟨hstack, ?_⟩⟩
      rw [hweighs]
      exact Nat.zero_le _
    | halt e => rw [hs] at h; cases h
    | stop e => rw [hs] at h; cases h

theorem derives_of_readExpr {ts rest : List Token} {v : Value}
    (h : readExpr ts = ⟨.ok v, rest⟩) :
    ∃ taken, ts = taken ++ rest ∧ Derives taken v ∧ nesting taken ≤ allowance := by
  obtain ⟨taken, rfl, hends, hdepth⟩ := ends_of_run h (Nat.zero_le _)
  rcases hends with ⟨first, w, rest', rfl, hw, rfl, rfl⟩ | ⟨_, _, _, _, _, _, _, heq, _⟩
  · exact ⟨first ++ [], rfl, by simpa using hw, hdepth⟩
  · cases heq

end Reader

/-! ## Whole sources -/

/-- No derivation takes an end token. -/
theorem kind_ne_eof_of_derivations :
    (∀ {ts v}, Derives ts v → ∀ t ∈ ts, t.kind ≠ .eof) ∧
    ∀ {ts vs}, DerivesAll ts vs → ∀ t ∈ ts, t.kind ≠ .eof := by
  apply derivation_induction
  case leaf =>
    intro t v hl
    rcases hl.kind_cases with hk | hk | hk <;> simp [hk]
  case quoted =>
    intro q ts v hq _ ih
    simpa [hq] using ih
  case brackets =>
    intro b o c ts vs v ho _ hc _ ih t ht
    simp only [List.mem_cons, List.mem_append, List.not_mem_nil, or_false] at ht
    rcases ht with rfl | ht | rfl
    · simp [ho]
    · exact ih t ht
    · simp [hc]
  case nil => simp
  case cons =>
    intro ts ts' v vs _ _ ihv ihvs t ht
    rcases List.mem_append.1 ht with ht | ht
    · exact ihv t ht
    · exact ihvs t ht

theorem eq_of_append_eof {ts ts' rest rest' : List Token} {t t' : Token}
    (h : ts ++ t :: rest = ts' ++ t' :: rest') (hts : ∀ u ∈ ts, u.kind ≠ .eof)
    (hts' : ∀ u ∈ ts', u.kind ≠ .eof) (ht : t.kind = .eof) (ht' : t'.kind = .eof) : ts = ts' := by
  rcases List.append_eq_append_iff.1 h with ⟨more, rfl, hmore⟩ | ⟨more, rfl, hmore⟩
  · cases more with
    | nil => simp
    | cons u more =>
      obtain ⟨rfl, -⟩ := List.cons.inj hmore
      exact absurd ht (hts' t (by simp))
  · cases more with
    | nil => simp
    | cons u more =>
      obtain ⟨rfl, -⟩ := List.cons.inj hmore
      exact absurd ht' (hts t' (by simp))

/-- The reader accepts the tokens before the end exactly if they derive the value and are not
nested too deeply. -/
theorem parse_eq_ok_iff {ts rest : List Token} {t : Token} {v : Value}
    (hts : ∀ u ∈ ts, u.kind ≠ .eof) (ht : t.kind = .eof) :
    parse (ts ++ t :: rest) = .ok v ↔ Derives ts v ∧ nesting ts ≤ Reader.allowance := by
  constructor
  · intro h
    unfold parse Reader.readAll at h
    split at h
    · cases h
    cases hr : Reader.readExpr (ts ++ t :: rest) with
    | mk result left =>
      rw [hr] at h
      cases result with
      | error e => cases h
      | ok w =>
        obtain ⟨taken, heq, hw, hdepth⟩ := Reader.derives_of_readExpr hr
        have htaken := kind_ne_eof_of_derivations.1 hw
        dsimp only at h
        split at h
        · -- the end token cannot be among the tokens that were taken
          rw [List.append_nil] at heq
          exact absurd ht (htaken t (heq ▸ by simp))
        · rename_i t' left'
          split at h
          · obtain rfl := eq_of_append_eof heq hts htaken ht ‹_›
            cases h
            exact ⟨hw, hdepth⟩
          · cases h
  · rintro ⟨hv, hdepth⟩
    unfold parse Reader.readAll
    rw [Reader.atEnd_append_of_derives hv, Reader.readExpr_of_derives hv hdepth]
    simp [ht]

/-- Reading one expression from a stream moves the stream past the tokens of the expression. -/
theorem Stream.parseExpr_of_derives {s : Stream} {ts rest : List Token} {v : Value}
    (hs : s.rest = ts ++ rest) (hv : Derives ts v) (hdepth : nesting ts ≤ Reader.allowance) :
    s.parseExpr = (.ok v, { s with index := s.index + ts.length }) := by
  unfold parseExpr leave
  rw [hs, Reader.readExpr_of_derives hv hdepth]
  have hlength := congrArg List.length hs
  obtain ⟨t, ts', rfl, -⟩ := hv.head
  simp only [Stream.rest, List.length_drop, List.length_append, List.length_cons] at hlength ⊢
  congr 2
  omega

theorem Stream.rest_parseExpr_of_derives {s : Stream} {ts rest : List Token} {v : Value}
    (hs : s.rest = ts ++ rest) (hv : Derives ts v) (hdepth : nesting ts ≤ Reader.allowance) :
    s.parseExpr.2.rest = rest := by
  rw [parseExpr_of_derives hs hv hdepth, Stream.rest, ← List.drop_drop]
  change (s.rest.drop ts.length) = rest
  rw [hs, List.drop_left]

/-- The reader accepts exactly the grammar. Of tokens that are not nested too deeply, it gives what
they derive and refuses the others; in front of any further tokens it reads what the first ones
derive, and stops behind them; and no tokens derive two values. -/
theorem parse_iff_derives :
    (∀ (ts rest : List Token) (t : Token), (∀ u ∈ ts, u.kind ≠ .eof) → t.kind = .eof →
      nesting ts ≤ Reader.allowance →
        (∀ v, parse (ts ++ t :: rest) = .ok v ↔ Derives ts v) ∧
        ((¬∃ v, Derives ts v) → ∃ e, parse (ts ++ t :: rest) = .error e)) ∧
    (∀ (s : Stream) (ts rest : List Token) (v : Value), s.rest = ts ++ rest → Derives ts v →
      nesting ts ≤ Reader.allowance → s.parseExpr.1 = .ok v ∧ s.parseExpr.2.rest = rest) ∧
    ∀ (ts : List Token) (v w : Value), Derives ts v → Derives ts w → v = w := by
  refine ⟨fun ts rest t hts ht hdepth => ⟨fun v => ?_, fun hnone => ?_⟩,
    fun s ts rest v hs hv hdepth => ⟨?_, Stream.rest_parseExpr_of_derives hs hv hdepth⟩,
    fun ts v w hv hw => hv.unique hw⟩
  · rw [parse_eq_ok_iff hts ht]
    exact and_iff_left hdepth
  · cases hp : parse (ts ++ t :: rest) with
    | error e => exact ⟨e, rfl⟩
    | ok v => exact absurd ⟨v, ((parse_eq_ok_iff hts ht).1 hp).1⟩ hnone
  · rw [Stream.parseExpr_of_derives hs hv hdepth]

/-- The tokens of `'(f [] true)`. -/
theorem parse_iff_derives_quoted_call :
    Derives
      [⟨.quote, "\x27", 0, .nothing⟩, ⟨.opener .round, "(", 1, .nothing⟩,
        ⟨.symbol, "f", 2, .text "f"⟩, ⟨.opener .square, "[", 4, .nothing⟩,
        ⟨.closer .square, "]", 5, .nothing⟩, ⟨.symbol, "true", 7, .text "true"⟩,
        ⟨.closer .round, ")", 11, .nothing⟩]
      (.list .plain [.symbol "quote",
        .list .plain [.symbol "f", .list .vector [], .boolean true]]) :=
  ((parse_iff_derives.1 _ [] (Token.ending 12) (by decide) rfl (by decide)).1 _).1 rfl

end MiniLisp
