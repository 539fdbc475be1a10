import MiniLisp.Proofs.EarliestError
import MiniLisp.Proofs.Equality

/-!
# Streams never run off their end

A stream has an end token, and nothing that is done with it moves it past the first one
(`Stream.Within`). Reading is described twice. `Reader.run` keeps a stack of open levels; the rules
of `Stream.ReadsExpr` and `Stream.ReadsItems` call each other, one for an expression and one for the
loop over the items between brackets, and look only at tokens that are there. The rules apply to
every stream that is within its tokens, because an item moves the stream (`Stream.exists_reads`),
and what they give is what the stack gives (`Stream.parseExpr_eq_iff`).
-/

namespace MiniLisp

theorem Leaf.kind_ne_eof {t : Token} {v : Value} (h : Leaf t v) : t.kind ≠ .eof := by
  rcases h.kind_cases with hk | hk | hk <;> simp [hk]

namespace Reader

/-! ## The reader with open levels -/

/-- The reading after an expression inside of open levels. -/
def conclude (r : Except Halt Value) (stack : List Level) (rest : List Token) : Reading Halt :=
  match r with
  | .ok v => resume v stack rest
  | .error e => ⟨.error e, rest⟩

theorem enter_eq (level : Level) (stack : List Level) :
    enter level stack = if level.weight + weight stack ≤ allowance then .next (level :: stack)
      else .halt .exhausted :=
  rfl

theorem step_opener {t : Token} {b : Bracket} (ht : t.kind = .opener b) (rest : List Token)
    (stack : List Level) : step t rest stack = enter (.bracket b t []) stack := by
  rw [step_of_begins (by rw [ht]; rfl), beginWith, ht]

/-- The stack of the host is spent only on tokens that are nested too deeply. -/
theorem allowance_lt_of_exhausted {stack : List Level} {ts : List Token}
    (h : (run stack ts).result = .error .exhausted) :
    allowance < nestingFrom (weights stack) ts := by
  by_cases hstack : (weights stack).sum ≤ allowance
  · induction ts generalizing stack with
    | nil =>
      rcases stack with _ | ⟨_ | _, _⟩ <;> cases h
    | cons t ts ih =>
      have hinner (hlt : allowance < nestingFrom (openAfter (weights stack) t) ts) :
          allowance < nestingFrom (weights stack) (t :: ts) :=
        Nat.lt_of_lt_of_le hlt (Nat.le_max_right _ _)
      have hweighs := weighs_step t ts hstack
      rw [run] at h
      cases hs : step t ts stack with
      | next stack' =>
        rw [hs] at h hweighs
        obtain ⟨hlevels, hsum⟩ := hweighs
        exact hinner (hlevels ▸ ih h (hlevels ▸ hsum))
      | done v => rw [hs] at h; cases h
      | halt e =>
        rw [hs] at h hweighs
        cases h
        exact hinner (Nat.lt_of_lt_of_le hweighs (sum_le_nestingFrom _ _))
      | stop e => rw [hs] at h; cases h
  · exact Nat.lt_of_lt_of_le (Nat.lt_of_not_le hstack) (sum_le_nestingFrom _ _)

/-- Reading all tokens makes a refusal of a spent stack. -/
theorem readAll_of_exhausted {tokens : List Token}
    (h : (readExpr tokens).result = .error .exhausted) :
    (readAll tokens).result = .error .tooDeep := by
  have hend : atEnd tokens = false := by
    rcases tokens with _ | ⟨t, ts⟩
    · cases h
    · refine decide_eq_false fun ht => ?_
      obtain ⟨e, hstep⟩ := step_eof []
      rw [readExpr, run, hstep t ts ht] at h
      cases h
  unfold readAll
  rw [hend]
  cases hr : readExpr tokens with
  | mk result rest =>
    rw [hr] at h
    cases h
    rfl

/-- Reading all tokens looks at what one expression leaves, and takes no more. -/
theorem rest_readAll (tokens : List Token) :
    (readAll tokens).rest = tokens ∨ (readAll tokens).rest = (readExpr tokens).rest := by
  unfold readAll
  split
  · exact .inl rfl
  right
  rcases readExpr tokens with ⟨_ | v, rest⟩
  · rfl
  · cases rest with
    | nil => rfl
    | cons t rest =>
      dsimp only
      split <;> rfl

end Reader

namespace Stream

/-! ## Places -/

/-- The token at the place of a stream, if there is one. -/
def token? (s : Stream) : Option Token := s.tokens[s.index]?

/-- The stream one place further. -/
def next (s : Stream) : Stream := { s with index := s.index + 1 }

/-- The place of the first end token. -/
def firstEnd (s : Stream) : Nat := s.tokens.findIdx fun t => t.kind = .eof

/-- A stream that has an end token and is not behind the first one. -/
structure Within (s : Stream) : Prop where
  index_le : s.index ≤ s.firstEnd
  firstEnd_lt : s.firstEnd < s.tokens.length

/-- A stream with the same tokens at the same place or further on, still within them. -/
structure Ahead (s s' : Stream) : Prop where
  tokens_eq : s'.tokens = s.tokens
  index_le : s.index ≤ s'.index
  within : s'.Within

section Places

variable {s s' s'' : Stream} {t : Token}

theorem within_ofTokens (tokens : List Token) : (ofTokens tokens).Within := by
  have hlast : ∃ t ∈ (ofTokens tokens).tokens, t.kind = .eof := by
    unfold ofTokens
    split
    · exact ⟨_, List.mem_singleton_self _, rfl⟩
    · rename_i last hlast
      split
      · exact ⟨last, List.mem_of_getLast? hlast, ‹_›⟩
      · exact ⟨_, List.mem_append_right _ (List.mem_singleton_self _), rfl⟩
  have hindex : (ofTokens tokens).index = 0 := by
    unfold ofTokens
    split
    · rfl
    · split <;> rfl
  refine ⟨hindex ▸ Nat.zero_le _, List.findIdx_lt_length.2 ?_⟩
  simpa using hlast

theorem Within.index_lt (h : s.Within) : s.index < s.tokens.length :=
  Nat.lt_of_le_of_lt h.index_le h.firstEnd_lt

theorem Within.token?_eq (h : s.Within) : s.token? = some s.peek := by
  have hrest : s.rest.head? = s.token? := List.head?_drop
  rw [peek, List.headD_eq_head?_getD, hrest, token?, List.getElem?_eq_getElem h.index_lt]
  rfl

theorem rest_of_token? (h : s.token? = some t) : s.rest = t :: s.next.rest := by
  obtain ⟨hlt, ht⟩ := List.getElem?_eq_some_iff.1 h
  rw [rest, List.drop_eq_getElem_cons hlt, ht]
  rfl

/-- Only the first end token stops a stream. -/
theorem Within.lt_firstEnd (h : s.Within) (ht : s.token? = some t) (hkind : t.kind ≠ .eof) :
    s.index < s.firstEnd := by
  refine Nat.lt_of_le_of_ne h.index_le fun heq => hkind ?_
  rw [token?, heq, List.getElem?_eq_getElem h.firstEnd_lt] at ht
  obtain rfl := Option.some.inj ht
  exact of_decide_eq_true (List.findIdx_getElem (w := h.firstEnd_lt))

theorem Within.next (h : s.Within) (ht : s.token? = some t) (hkind : t.kind ≠ .eof) :
    s.next.Within :=
  ⟨h.lt_firstEnd ht hkind, h.firstEnd_lt⟩

theorem atEnd_rest (ht : s.token? = some t) : Reader.atEnd s.rest = decide (t.kind = .eof) := by
  rw [rest_of_token? ht, Reader.atEnd]

theorem Ahead.firstEnd_eq (h : s.Ahead s') : s'.firstEnd = s.firstEnd := by
  rw [firstEnd, h.tokens_eq, firstEnd]

theorem Within.ahead (h : s.Within) : s.Ahead s := ⟨rfl, Nat.le_refl _, h⟩

theorem Within.ahead_next (h : s.Within) (ht : s.token? = some t) (hkind : t.kind ≠ .eof) :
    s.Ahead s.next :=
  ⟨rfl, Nat.le_succ _, h.next ht hkind⟩

theorem Ahead.trans (h : s.Ahead s') (h' : s'.Ahead s'') : s.Ahead s'' :=
  ⟨h'.tokens_eq.trans h.tokens_eq, Nat.le_trans h.index_le h'.index_le, h'.within⟩

/-- The tokens that are left tell the place. -/
theorem Ahead.leave_rest (h : s.Ahead s') : s.leave s'.rest = s' := by
  have hlt := h.within.index_lt
  obtain ⟨tokens, index⟩ := s'
  obtain rfl : tokens = s.tokens := h.tokens_eq
  simp only [leave, rest, List.length_drop]
  congr 1
  exact Nat.sub_sub_self (Nat.le_of_lt hlt)

end Places

/-! ## Reading by rules -/

open Reader (Halt)

/-- What brackets give for the items between them. -/
def enclose (b : Bracket) (opener : Token) (items : List Value) : Except Halt Value :=
  if b = .round ∧ items = [] then .error (.refused (.emptyForm opener.position))
  else .ok (Reader.close b items)

mutual

/-- Reading an expression inside of levels that weigh `depth` ends with a result, and leaves the
stream at another place. -/
inductive ReadsExpr : (depth : Nat) → Stream → Except Halt Value → Stream → Prop
  | leaf {depth : Nat} {s : Stream} {t : Token} {v : Value} (ht : s.token? = some t)
      (hv : Leaf t v) : ReadsExpr depth s (.ok v) s.next
  | dangling {depth : Nat} {s : Stream} {q t : Token} (hq : s.token? = some q)
      (hkind : q.kind = .quote) (ht : s.next.token? = some t) (hend : t.kind = .eof) :
      ReadsExpr depth s (.error (.refused (.danglingQuote q.position))) s.next
  | deepQuote {depth : Nat} {s : Stream} {q t : Token} (hq : s.token? = some q)
      (hkind : q.kind = .quote) (ht : s.next.token? = some t) (hgoes : t.kind ≠ .eof)
      (hdeep : Reader.allowance < 1 + depth) : ReadsExpr depth s (.error .exhausted) s.next
  | quote {depth : Nat} {s s' : Stream} {q t : Token} {r : Except Halt Value}
      (hq : s.token? = some q) (hkind : q.kind = .quote) (ht : s.next.token? = some t)
      (hgoes : t.kind ≠ .eof) (hdeep : 1 + depth ≤ Reader.allowance)
      (h : ReadsExpr (1 + depth) s.next r s') : ReadsExpr depth s (r.map Reader.quoted) s'
  | deepBrackets {depth : Nat} {s : Stream} {o : Token} {b : Bracket} (ho : s.token? = some o)
      (hkind : o.kind = .opener b) (hdeep : Reader.allowance < 2 + depth) :
      ReadsExpr depth s (.error .exhausted) s.next
  | brackets {depth : Nat} {s s' : Stream} {o : Token} {b : Bracket}
      {r : Except Halt (List Value)} (ho : s.token? = some o) (hkind : o.kind = .opener b)
      (hdeep : 2 + depth ≤ Reader.allowance) (h : ReadsItems (2 + depth) b o s.next r s') :
      ReadsExpr depth s (r.bind (enclose b o)) s'
  | unopened {depth : Nat} {s : Stream} {t : Token} {b : Bracket} (ht : s.token? = some t)
      (hkind : t.kind = .closer b) :
      ReadsExpr depth s (.error (.refused (.unmatched t.text t.position))) s.next
  | ended {depth : Nat} {s : Stream} {t : Token} (ht : s.token? = some t) (hend : t.kind = .eof) :
      ReadsExpr depth s (.error (.refused .unexpectedEnd)) s
  | unknown {depth : Nat} {s : Stream} {t : Token} {name : String} (ht : s.token? = some t)
      (hkind : t.kind = .other name) : ReadsExpr depth s (.error (.refused .unexpectedEnd)) s.next

/-- The loop over the items behind an opening bracket ends with the items or a refusal. -/
inductive ReadsItems : (depth : Nat) → Bracket → Token → Stream →
    Except Halt (List Value) → Stream → Prop
  | close {depth : Nat} {b : Bracket} {o c : Token} {s : Stream} (hc : s.token? = some c)
      (hkind : c.kind = .closer b) : ReadsItems depth b o s (.ok []) s.next
  | unclosed {depth : Nat} {b : Bracket} {o t : Token} {s : Stream} (ht : s.token? = some t)
      (hend : t.kind = .eof) :
      ReadsItems depth b o s (.error (.refused (.unmatched o.text o.position))) s
  | mismatched {depth : Nat} {b b' : Bracket} {o c : Token} {s : Stream} (hc : s.token? = some c)
      (hkind : c.kind = .closer b') (hb : b' ≠ b) :
      ReadsItems depth b o s (.error (.refused (.mismatched c.text c.position b))) s
  | failed {depth : Nat} {b : Bracket} {o t : Token} {s s' : Stream} {e : Halt}
      (ht : s.token? = some t) (hgoes : t.kind ≠ .eof) (hcloser : ∀ b', t.kind ≠ .closer b')
      (h : ReadsExpr depth s (.error e) s') : ReadsItems depth b o s (.error e) s'
  | item {depth : Nat} {b : Bracket} {o t : Token} {s u s' : Stream} {v : Value}
      {r : Except Halt (List Value)} (ht : s.token? = some t) (hgoes : t.kind ≠ .eof)
      (hcloser : ∀ b', t.kind ≠ .closer b') (h : ReadsExpr depth s (.ok v) u)
      (hrest : ReadsItems depth b o u r s') : ReadsItems depth b o s (r.map (v :: ·)) s'

end

/-! ## Every expression moves the stream -/

mutual

/-- Reading stays within the tokens, and an expression takes one of them at least. -/
theorem ReadsExpr.ahead {depth : Nat} {s s' : Stream} {r : Except Halt Value} :
    ReadsExpr depth s r s' → s.Within →
      s.Ahead s' ∧ ∀ v, r = .ok v → s.index < s'.index
  | .leaf ht hv, h => ⟨h.ahead_next ht hv.kind_ne_eof, fun _ _ => Nat.lt_succ_self _⟩
  | .dangling hq hkind _ _, h | .deepQuote hq hkind _ _ _, h | .deepBrackets hq hkind _, h
  | .unopened hq hkind, h | .unknown hq hkind, h =>
    ⟨h.ahead_next hq (by simp [hkind]), by rintro _ ⟨⟩⟩
  | .ended _ _, h => ⟨h.ahead, by rintro _ ⟨⟩⟩
  | .quote hq hkind _ _ _ hr, h => by
    have hnext := h.ahead_next hq (by simp [hkind])
    have hahead := (hr.ahead hnext.within).1
    exact ⟨hnext.trans hahead, fun _ _ => hahead.index_le⟩
  | .brackets ho hkind _ hr, h => by
    have hnext := h.ahead_next ho (by simp [hkind])
    have hahead := (hr.ahead hnext.within).1
    exact ⟨hnext.trans hahead, fun _ _ => hahead.index_le⟩

/-- The loop takes a token for each item, and one for the closing bracket. -/
theorem ReadsItems.ahead {depth : Nat} {b : Bracket} {o : Token} {s s' : Stream}
    {r : Except Halt (List Value)} : ReadsItems depth b o s r s' → s.Within →
      s.Ahead s' ∧ ∀ vs, r = .ok vs → s.index + vs.length < s'.index
  | .close hc hkind, h =>
    ⟨h.ahead_next hc (by simp [hkind]), by rintro _ ⟨⟩; exact Nat.lt_succ_self _⟩
  | .unclosed _ _, h | .mismatched _ _ _, h => ⟨h.ahead, by rintro _ ⟨⟩⟩
  | .failed _ _ _ hr, h => ⟨(hr.ahead h).1, by rintro _ ⟨⟩⟩
  | .item (r := r) _ _ _ hv hrest, h => by
    obtain ⟨hahead, hmoves⟩ := hv.ahead h
    obtain ⟨hahead', hcount⟩ := hrest.ahead hahead.within
    refine ⟨hahead.trans hahead', fun vs hvs => ?_⟩
    cases r with
    | error e => cases hvs
    | ok ws =>
      cases hvs
      have hlt := hmoves _ rfl
      have hle := hcount ws rfl
      rw [List.length_cons]
      omega

end

/-! ## The rules always apply -/

section Total

variable {s : Stream}

/-- The rules for an expression apply if those behind its first token do. -/
theorem exists_readsExpr (h : s.Within)
    (ih : s.next.Within → (∀ depth, ∃ r s', ReadsExpr depth s.next r s') ∧
      ∀ depth b o, ∃ r s', ReadsItems depth b o s.next r s') (depth : Nat) :
    ∃ r s', ReadsExpr depth s r s' := by
  have ht := h.token?_eq
  have hnext (hkind : s.peek.kind ≠ .eof) : s.next.Within := h.next ht hkind
  cases hkind : s.peek.kind with
  | number => exact ⟨_, _, .leaf ht (.number hkind)⟩
  | symbol => exact ⟨_, _, .leaf ht (leaf_symbolValue hkind)⟩
  | text => exact ⟨_, _, .leaf ht (.text hkind)⟩
  | quote =>
    have hwithin := hnext (by simp [hkind])
    by_cases hend : s.next.peek.kind = .eof
    · exact ⟨_, _, .dangling ht hkind hwithin.token?_eq hend⟩
    by_cases hdeep : 1 + depth ≤ Reader.allowance
    · obtain ⟨r, s', hr⟩ := (ih hwithin).1 (1 + depth)
      exact ⟨_, _, .quote ht hkind hwithin.token?_eq hend hdeep hr⟩
    · exact ⟨_, _, .deepQuote ht hkind hwithin.token?_eq hend (Nat.lt_of_not_le hdeep)⟩
  | opener b =>
    have hwithin := hnext (by simp [hkind])
    by_cases hdeep : 2 + depth ≤ Reader.allowance
    · obtain ⟨r, s', hr⟩ := (ih hwithin).2 (2 + depth) b s.peek
      exact ⟨_, _, .brackets ht hkind hdeep hr⟩
    · exact ⟨_, _, .deepBrackets ht hkind (Nat.lt_of_not_le hdeep)⟩
  | closer b => exact ⟨_, _, .unopened ht hkind⟩
  | eof => exact ⟨_, _, .ended ht hkind⟩
  | other name => exact ⟨_, _, .unknown ht hkind⟩

/-- The loop ends if its first item does and it ends from every later place. -/
theorem exists_readsItems (h : s.Within) (hexpr : ∀ depth, ∃ r s', ReadsExpr depth s r s')
    (ih : ∀ s', s.Ahead s' → s.index < s'.index →
      ∀ depth b o, ∃ r s'', ReadsItems depth b o s' r s'') (depth : Nat) (b : Bracket) (o : Token) :
    ∃ r s', ReadsItems depth b o s r s' := by
  have ht := h.token?_eq
  by_cases hend : s.peek.kind = .eof
  · exact ⟨_, _, .unclosed ht hend⟩
  by_cases hcloser : ∃ b', s.peek.kind = .closer b'
  · obtain ⟨b', hkind⟩ := hcloser
    by_cases hb : b' = b
    · exact ⟨_, _, .close ht (hb ▸ hkind)⟩
    · exact ⟨_, _, .mismatched ht hkind hb⟩
  have hcloser : ∀ b', s.peek.kind ≠ .closer b' := not_exists.1 hcloser
  obtain ⟨r, s', hr⟩ := hexpr depth
  cases r with
  | error e => exact ⟨_, _, .failed ht hend hcloser hr⟩
  | ok v =>
    obtain ⟨hahead, hmoves⟩ := hr.ahead h
    obtain ⟨r', s'', hrest⟩ := ih s' hahead (hmoves v rfl) depth b o
    exact ⟨_, _, .item ht hend hcloser hr hrest⟩

/-- Reading an expression and the loop over items end from every place within the tokens. -/
theorem exists_reads (h : s.Within) :
    (∀ depth, ∃ r s', ReadsExpr depth s r s') ∧
      ∀ depth b o, ∃ r s', ReadsItems depth b o s r s' := by
  -- the induction is on the tokens before the first end token
  induction hk : s.firstEnd - s.index using Nat.strongRecOn generalizing s with
  | _ k ih =>
    have hlater (s' : Stream) (hahead : s.Ahead s') (hlt : s.index < s'.index) :=
      ih (s'.firstEnd - s'.index)
        (by have := hahead.within.index_le; have := hahead.firstEnd_eq; omega) hahead.within rfl
    have hexpr := exists_readsExpr h fun hnext => hlater s.next ⟨rfl, Nat.le_succ _, hnext⟩
      (Nat.lt_succ_self _)
    exact ⟨hexpr, exists_readsItems h hexpr fun s' hahead hlt => (hlater s' hahead hlt).2⟩

end Total

/-! ## The rules give what the stack gives -/

open Reader

/-- What halts a step ends the reading. -/
theorem run_of_halt {s : Stream} {t : Token} {stack : List Level} {e : Halt}
    (ht : s.token? = some t) (h : step t s.next.rest stack = .halt e) :
    run stack s.rest = ⟨.error e, s.next.rest⟩ := by
  rw [rest_of_token? ht, run, h]

theorem run_of_stop {s : Stream} {t : Token} {stack : List Level} {e : ParseError}
    (ht : s.token? = some t) (h : step t s.next.rest stack = .stop e) :
    run stack s.rest = ⟨.error (.refused e), s.rest⟩ := by
  rw [rest_of_token? ht, run, h]

theorem run_of_next {s : Stream} {t : Token} {stack stack' : List Level}
    (ht : s.token? = some t) (h : step t s.next.rest stack = .next stack') :
    run stack s.rest = run stack' s.next.rest := by
  rw [rest_of_token? ht, run, h]

/-- A token that neither ends nor closes anything begins an expression, also between brackets. -/
theorem step_of_token? {s : Stream} {t : Token} {stack : List Level} (ht : s.token? = some t)
    (hgoes : t.kind ≠ .eof) (hcloser : ∀ b, t.kind ≠ .closer b) (u : Token) (rest : List Token)
    (hu : s.token? = some u) : step u rest stack = beginWith u rest stack := by
  obtain rfl := Option.some.inj (ht.symm.trans hu)
  unfold step
  split
  · unfold continueWith
    split
    · exact absurd ‹_› (hcloser _)
    · exact absurd ‹_› hgoes
    · rfl
  · rfl

mutual

/-- Where a token is to begin an expression, the stack goes on with what the rules give for it. -/
theorem ReadsExpr.run_eq {depth : Nat} {s s' : Stream} {r : Except Halt Value}
    {stack : List Level} : ReadsExpr depth s r s' → s.Within → depth = weight stack →
      (∀ t rest, s.token? = some t → step t rest stack = beginWith t rest stack) →
      run stack s.rest = conclude r stack s'.rest
  | .leaf ht hv, _, _, hbegin => by
    rw [rest_of_token? ht]
    exact run_of_give ((hbegin _ _ ht).trans (beginWith_of_leaf hv _ _))
  | .dangling hq hkind ht hend, _, _, _ => by
    refine run_of_halt hq ?_
    rw [step_quote hkind, atEnd_rest ht, decide_eq_true hend, if_pos rfl]
  | .deepQuote hq hkind ht hgoes hdeep, _, hdepth, _ => by
    refine run_of_halt hq ?_
    rw [step_quote hkind, atEnd_rest ht, decide_eq_false hgoes, if_neg Bool.false_ne_true, enter_eq,
      ← hdepth]
    exact if_neg (Nat.not_le.2 hdeep)
  | .quote (r := r) (q := q) hq hkind ht hgoes hdeep hr, h, hdepth, _ => by
    have hstep : step q s.next.rest stack = .next (.quote :: stack) := by
      rw [step_quote hkind, atEnd_rest ht, decide_eq_false hgoes, if_neg Bool.false_ne_true,
        enter_eq, ← hdepth]
      exact if_pos hdeep
    have hrun : run (.quote :: stack) s.next.rest = conclude r (.quote :: stack) s'.rest :=
      hr.run_eq (h.next hq (by simp [hkind])) (congrArg (1 + ·) hdepth) fun _ _ _ => rfl
    rw [run_of_next hq hstep, hrun]
    cases r <;> rfl
  | .deepBrackets ho hkind hdeep, _, hdepth, _ => by
    refine run_of_halt ho ?_
    rw [step_opener hkind, enter_eq, ← hdepth]
    exact if_neg (Nat.not_le.2 hdeep)
  | .brackets (o := o) (b := b) ho hkind hdeep hr, h, hdepth, _ => by
    have hstep : step o s.next.rest stack = .next (.bracket b o [] :: stack) := by
      rw [step_opener hkind, enter_eq, ← hdepth]
      exact if_pos hdeep
    rw [run_of_next ho hstep, hr.run_eq (h.next ho (by simp [hkind])) (congrArg (2 + ·) hdepth)]
    rfl
  | .unopened ht hkind, _, _, hbegin => by
    refine run_of_halt ht ?_
    rw [hbegin _ _ ht, beginWith, hkind]
  | .ended ht hend, _, _, hbegin => by
    refine run_of_stop ht ?_
    rw [hbegin _ _ ht, beginWith, hend]
  | .unknown ht hkind, _, _, hbegin => by
    refine run_of_halt ht ?_
    rw [hbegin _ _ ht, beginWith, hkind]

/-- With an open bracket on the stack, the stack goes on with what the loop gives, behind the items
that were read before. -/
theorem ReadsItems.run_eq {depth : Nat} {b : Bracket} {o : Token} {s s' : Stream}
    {r : Except Halt (List Value)} {stack : List Level} {items : List Value} :
    ReadsItems depth b o s r s' → s.Within → depth = 2 + weight stack →
      run (.bracket b o items :: stack) s.rest =
        conclude (r.bind fun vs => enclose b o (items.reverse ++ vs)) stack s'.rest
  | .close (c := c) hc hkind, _, _ => by
    by_cases hempty : b = .round ∧ items = []
    · have hstep : step c s.next.rest (.bracket b o items :: stack) =
          .refuse (.emptyForm o.position) := by
        simp only [step, continueWith, hkind, ne_eq, not_true_eq_false, if_false, if_pos hempty]
      rw [run_of_halt hc hstep]
      simp [conclude, Except.bind, enclose, hempty]
    · have hv : Encloses b items.reverse (Reader.close b items.reverse) :=
        encloses_iff.2 ⟨by simpa using hempty, rfl⟩
      rw [rest_of_token? hc, run_of_give (step_closer hkind s.next.rest hv o stack)]
      simp [conclude, Except.bind, enclose, hempty]
  | .unclosed ht hend, _, _ => by
    refine run_of_stop ht ?_
    simp only [step, continueWith, hend]
  | .mismatched hc hkind hb, _, _ => by
    refine run_of_stop hc ?_
    simp only [step, continueWith, hkind, if_pos hb]
  | .failed (e := e) ht hgoes hcloser hr, h, hdepth => by
    have hrun : run (.bracket b o items :: stack) s.rest =
        conclude (.error e) (.bracket b o items :: stack) s'.rest :=
      hr.run_eq h hdepth (step_of_token? ht hgoes hcloser)
    exact hrun
  | .item (u := u) (r := r) (v := v) ht hgoes hcloser hv hrest, h, hdepth => by
    have hrun : run (.bracket b o items :: stack) s.rest =
        conclude (.ok v) (.bracket b o items :: stack) u.rest :=
      hv.run_eq h hdepth (step_of_token? ht hgoes hcloser)
    rw [hrun]
    -- the finished item is put before the others, and the bracket stays open
    change run (.bracket b o (v :: items) :: stack) u.rest = _
    rw [hrest.run_eq (hv.ahead h).1.within hdepth]
    cases r with
    | error e => rfl
    | ok vs => simp [Except.map, Except.bind]

end

section Whole

variable {s s' : Stream} {r : Except Halt Value}

theorem readExpr_of_reads (h : s.Within) (hr : ReadsExpr 0 s r s') :
    readExpr s.rest = ⟨r, s'.rest⟩ := by
  have hrun : run [] s.rest = conclude r [] s'.rest := hr.run_eq h rfl fun _ _ _ => rfl
  rw [readExpr, hrun]
  cases r <;> rfl

theorem parseExpr_of_reads (h : s.Within) (hr : ReadsExpr 0 s r s') : s.parseExpr = (r, s') := by
  rw [parseExpr, readExpr_of_reads h hr, (hr.ahead h).1.leave_rest]

/-- Reading an expression from a stream gives what the rules give, and nothing else. -/
theorem parseExpr_eq_iff (h : s.Within) : s.parseExpr = (r, s') ↔ ReadsExpr 0 s r s' := by
  refine ⟨fun heq => ?_, parseExpr_of_reads h⟩
  obtain ⟨r₀, s₀, hr⟩ := (exists_reads h).1 0
  rw [parseExpr_of_reads h hr] at heq
  cases heq
  exact hr

/-- Reading all of a stream leaves it where it is, or where reading one expression does. -/
theorem parse_place (h : s.Within) : s.parse.2 = s ∨ s.parse.2 = s.parseExpr.2 := by
  rcases rest_readAll s.rest with hrest | hrest
  · exact .inl (by rw [parse, hrest, h.ahead.leave_rest])
  · exact .inr (by rw [parse, hrest, parseExpr])

end Whole

/-! ## Sequences of operations -/

/-- What can be done with a stream. -/
inductive Operation where
  | peek
  | advance
  | atEnd
  | parseExpr
  | parse

/-- The stream after an operation, whether the operation succeeds or fails. -/
def after (s : Stream) : Operation → Stream
  | .peek | .atEnd => s
  | .advance => s.advance.2
  | .parseExpr => s.parseExpr.2
  | .parse => s.parse.2

/-- The stream after operations, one after the other. -/
def afterAll (s : Stream) (ops : List Operation) : Stream := ops.foldl after s

section Operations

variable {s : Stream}

theorem Within.ahead_advance (h : s.Within) : s.Ahead s.advance.2 := by
  unfold advance
  dsimp only
  split
  · exact h.ahead
  · rename_i hkind
    exact h.ahead_next h.token?_eq (by simpa [Stream.atEnd] using hkind)

theorem Within.ahead_parseExpr (h : s.Within) : s.Ahead s.parseExpr.2 :=
  (((parseExpr_eq_iff h).1 rfl).ahead h).1

/-- An operation stays within the tokens and does not go back. -/
theorem Within.ahead_after (h : s.Within) (op : Operation) : s.Ahead (s.after op) := by
  cases op with
  | peek => exact h.ahead
  | advance => exact h.ahead_advance
  | atEnd => exact h.ahead
  | parseExpr => exact h.ahead_parseExpr
  | parse =>
    rcases parse_place h with heq | heq
    · rw [after, heq]
      exact h.ahead
    · rw [after, heq]
      exact h.ahead_parseExpr

theorem Within.ahead_afterAll (h : s.Within) (ops : List Operation) : s.Ahead (s.afterAll ops) := by
  induction ops generalizing s with
  | nil => exact h.ahead
  | cons op ops ih =>
    have hstep := h.ahead_after op
    exact hstep.trans (ih hstep.within)

theorem Within.atEnd_iff (h : s.Within) : s.atEnd = true ↔ s.index = s.firstEnd := by
  have hkind : s.atEnd = true ↔ s.peek.kind = .eof := decide_eq_true_iff
  rw [hkind]
  constructor
  · intro hend
    refine Nat.le_antisymm h.index_le (Nat.le_of_not_lt fun hlt => ?_)
    have hbefore := List.not_of_lt_findIdx hlt
    have htoken := h.token?_eq
    rw [token?, List.getElem?_eq_getElem h.index_lt] at htoken
    rw [Option.some.inj htoken] at hbefore
    exact of_decide_eq_false hbefore hend
  · intro heq
    by_contra hkind
    exact absurd heq (Nat.ne_of_lt (h.lt_firstEnd h.token?_eq hkind))

theorem Within.index_advance (h : s.Within) :
    s.advance.2.index = if s.index < s.firstEnd then s.index + 1 else s.index := by
  unfold advance
  by_cases hend : s.atEnd = true
  · rw [if_pos hend, if_neg (Nat.not_lt.2 (Nat.le_of_eq (h.atEnd_iff.1 hend).symm))]
  · have hne : s.index ≠ s.firstEnd := fun heq => hend (h.atEnd_iff.2 heq)
    rw [if_neg hend, if_pos (Nat.lt_of_le_of_ne h.index_le hne)]

end Operations

/-- Whatever is done with a stream, it goes forward and not past its first end token, so that there
is always a token to look at; to take a token moves it by one, until it is at that end. An
expression that is read takes a token, and so the loop over the items between brackets, inside of
any open levels, ends with the items, a refusal or a spent stack; and the stack of the host is spent
only where the tokens are nested deeper than the allowance. Reading all of a stream refuses such
tokens. -/
theorem stays_within (tokens : List Token) (ops : List Operation) :
    let s := (ofTokens tokens).afterAll ops
    s.tokens = (ofTokens tokens).tokens ∧ s.index ≤ s.firstEnd ∧
      s.tokens[s.index]? = some s.peek ∧ (s.atEnd = true ↔ s.index = s.firstEnd) ∧
      s.advance.1 = s.peek ∧
      s.advance.2.index = (if s.index < s.firstEnd then s.index + 1 else s.index) ∧
      (∀ more, s.index ≤ (s.afterAll more).index ∧ (s.afterAll more).index ≤ s.firstEnd) ∧
      (∀ v, s.parseExpr.1 = .ok v → s.index < s.parseExpr.2.index) ∧
      (s.parseExpr.1 = .error .exhausted →
        allowance < nesting s.rest ∧ s.parse.1 = .error .tooDeep) ∧
      (∀ r s', s.parseExpr = (r, s') ↔ ReadsExpr 0 s r s') ∧
      ∀ (stack : List Level) (b : Bracket) (opener : Token), ∃ r s',
        ReadsItems (2 + weight stack) b opener s r s' ∧
        run (.bracket b opener [] :: stack) s.rest =
          conclude (r.bind (enclose b opener)) stack s'.rest ∧
        s.index ≤ s'.index ∧ s'.index ≤ s.firstEnd ∧
        (∀ vs, r = .ok vs → s.index + vs.length < s'.index) ∧
        (r = .error .exhausted → allowance < nestingFrom (2 :: weights stack) s.rest) := by
  intro s
  have hstart : (ofTokens tokens).Ahead s := (within_ofTokens tokens).ahead_afterAll ops
  have h := hstart.within
  have hbound {s' : Stream} (hahead : s.Ahead s') : s'.index ≤ s.firstEnd :=
    hahead.firstEnd_eq ▸ hahead.within.index_le
  refine ⟨hstart.tokens_eq, h.index_le, h.token?_eq, h.atEnd_iff, rfl, h.index_advance,
    fun more => ?_, fun v hv => ?_, fun hdeep => ⟨allowance_lt_of_exhausted hdeep,
      readAll_of_exhausted hdeep⟩, fun r s' => parseExpr_eq_iff h, fun stack b opener => ?_⟩
  · have hmore := h.ahead_afterAll more
    exact ⟨hmore.index_le, hbound hmore⟩
  · exact (((parseExpr_eq_iff h).1 rfl).ahead h).2 v hv
  · obtain ⟨r, s', hr⟩ := (exists_reads h).2 (2 + weight stack) b opener
    obtain ⟨hahead, hcount⟩ := hr.ahead h
    have hrun : run (.bracket b opener [] :: stack) s.rest =
        conclude (r.bind (enclose b opener)) stack s'.rest := hr.run_eq h rfl
    refine ⟨r, s', hr, hrun, hahead.index_le, hbound hahead, hcount, fun hdeep => ?_⟩
    rw [hdeep] at hrun
    exact allowance_lt_of_exhausted (congrArg Reading.result hrun)

/-- A quote before so many opening brackets. -/
def openings (count : Nat) : Stream :=
  ofTokens (⟨.quote, "\x27", 0, .nothing⟩ ::
    List.replicate count ⟨.opener .square, "[", 1, .nothing⟩)

/-- What is nested too deeply is neither read as an expression nor refused, unless all of the stream
is to be read. -/
theorem parseExpr_openings :
    (openings 600).parseExpr.1 = .error .exhausted ∧ (openings 600).parseExpr.2.index = 497 ∧
      (openings 600).parse.1 = .error .tooDeep := by
  decide +kernel

end Stream

end MiniLisp
