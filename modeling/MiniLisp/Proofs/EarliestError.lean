import MiniLisp.Proofs.Grammar

/-!
# The earliest possible error

The reader refuses tokens as soon as no expression can begin with those that it has seen
(`parse_error_earliest`). Before that, whatever levels are open, an item and the brackets that are
due complete them (`Reader.run_completion`). At the token that is refused, what the open levels ask
for cannot come any more: a step goes on where the rest of an expression does
(`Reader.ends_step`).
-/

namespace MiniLisp

namespace Reader

/-! ## Steps and what follows them -/

/-- A step looks at the tokens behind its own only to see whether a quote is the last one. -/
theorem step_congr {t : Token} {rest rest' : List Token}
    (h : t.kind = .quote → atEnd rest = atEnd rest') (stack : List Level) :
    step t rest stack = step t rest' stack := by
  have hbegin (stack : List Level) : beginWith t rest stack = beginWith t rest' stack := by
    unfold beginWith
    split
    all_goals first
      | rfl
      | rw [h ‹_›]
  unfold step
  split
  · unfold continueWith
    split
    · rfl
    · rfl
    · exact hbegin _
  · exact hbegin _

/-- The end is refused and stays. -/
theorem step_eof (stack : List Level) :
    ∃ e, ∀ (t : Token) (rest : List Token), t.kind = .eof → step t rest stack = .stop e := by
  rcases stack with _ | ⟨_ | ⟨b, opener, items⟩, stack⟩
  · exact ⟨.unexpectedEnd, fun t rest ht => by simp only [step, beginWith, ht]⟩
  · exact ⟨.unexpectedEnd, fun t rest ht => by simp only [step, beginWith, ht]⟩
  · exact ⟨.unmatched opener.text opener.position,
      fun t rest ht => by simp only [step, continueWith, ht]⟩

theorem step_quote {t : Token} (ht : t.kind = .quote) (rest : List Token) (stack : List Level) :
    step t rest stack =
      if atEnd rest then .refuse (.danglingQuote t.position) else enter .quote stack := by
  rw [step_of_begins (by rw [ht]; rfl), beginWith, ht]

theorem enter_of_sum {level : Level} {stack : List Level}
    (h : (level.weight :: weights stack).sum ≤ allowance) :
    enter level stack = .next (level :: stack) :=
  if_pos h

theorem step_quote_eq_next {t : Token} {rest : List Token} {stack : List Level}
    (ht : t.kind = .quote) (hrest : atEnd rest = false)
    (hdepth : (openAfter (weights stack) t).sum ≤ allowance) :
    step t rest stack = .next (.quote :: stack) := by
  have hopen : openAfter (weights stack) t = 1 :: weights stack := by rw [openAfter, ht]
  rw [hopen] at hdepth
  rw [step_quote ht, hrest, if_neg Bool.false_ne_true]
  exact enter_of_sum hdepth

theorem step_opener_eq_next {t : Token} {b : Bracket} {stack : List Level}
    (ht : t.kind = .opener b) (rest : List Token)
    (hdepth : (openAfter (weights stack) t).sum ≤ allowance) :
    step t rest stack = .next (.bracket b t [] :: stack) := by
  have hopen : openAfter (weights stack) t = 2 :: weights stack := by rw [openAfter, ht]
  rw [hopen] at hdepth
  rw [step_of_begins (by rw [ht]; rfl), beginWith, ht]
  exact enter_of_sum hdepth

/-- The bracket that is due closes its items, if they may stand between such brackets. -/
theorem step_closer {t : Token} {b : Bracket} (ht : t.kind = .closer b) (rest : List Token)
    {items : List Value} {v : Value} (hv : Encloses b items.reverse v) (opener : Token)
    (stack : List Level) : step t rest (.bracket b opener items :: stack) = give v stack := by
  obtain ⟨hround, rfl⟩ := encloses_iff.1 hv
  have hround : ¬(b = .round ∧ items = []) := by simpa using hround
  simp only [step, continueWith, ht, ne_eq, not_true_eq_false, if_false, if_neg hround]

/-! ## Open levels can be completed -/

/-- The closing brackets that are due. -/
def closers : List Level → List Token
  | [] => []
  | .quote :: stack => closers stack
  | .bracket b _ _ :: stack => ⟨.closer b, b.closing.toString, 0, .nothing⟩ :: closers stack

/-- An item and the closing brackets that are due. -/
def completion (stack : List Level) : List Token := ⟨.text, "", 0, .nothing⟩ :: closers stack

/-- The reading after a finished value. -/
def resume (v : Value) (stack : List Level) (rest : List Token) : Reading Halt :=
  match finish v stack with
  | .error w => ⟨.ok w, rest⟩
  | .ok stack => run stack rest

theorem run_of_give {t : Token} {rest : List Token} {stack outer : List Level} {v : Value}
    (h : step t rest stack = give v outer) : run stack (t :: rest) = resume v outer rest := by
  rw [run, h, give, resume]
  cases finish v outer <;> rfl

theorem resume_closers (v : Value) (stack : List Level) (rest : List Token) :
    ∃ w, resume v stack (closers stack ++ rest) = ⟨.ok w, rest⟩ := by
  induction stack generalizing v with
  | nil => exact ⟨v, rfl⟩
  | cons level stack ih =>
    cases level with
    | quote => exact ih (quoted v)
    | bracket b opener items =>
      have hclose : Encloses b (v :: items).reverse (close b (v :: items).reverse) :=
        encloses_iff.2 ⟨by simp, rfl⟩
      obtain ⟨w, hw⟩ := ih (close b (v :: items).reverse)
      refine ⟨w, Eq.trans ?_ hw⟩
      show run (.bracket b opener (v :: items) :: stack) (_ :: (closers stack ++ rest)) = _
      exact run_of_give (step_closer rfl _ hclose opener stack)

/-- Whatever is open, some tokens complete it. -/
theorem run_completion (stack : List Level) (rest : List Token) :
    ∃ v, run stack (completion stack ++ rest) = ⟨.ok v, rest⟩ := by
  have hstep : step ⟨.text, "", 0, .nothing⟩ (closers stack ++ rest) stack = give .nothing stack :=
    step_of_begins rfl _ _
  obtain ⟨v, hv⟩ := resume_closers .nothing stack rest
  exact ⟨v, (run_of_give hstep).trans hv⟩

theorem kind_ne_eof_of_mem_closers {stack : List Level} : ∀ t ∈ closers stack, t.kind ≠ .eof := by
  induction stack with
  | nil => exact List.forall_mem_nil _
  | cons level stack ih =>
    cases level with
    | quote => exact ih
    | bracket b opener items => exact List.forall_mem_cons.2 ⟨by simp, ih⟩

/-- Further tokens, one at least, that the reader takes together with the given ones. -/
def Completable (stack : List Level) (ts : List Token) : Prop :=
  ∃ more, more ≠ [] ∧ (∀ t ∈ more, t.kind ≠ .eof) ∧
    ∀ rest, ∃ v, run stack (ts ++ (more ++ rest)) = ⟨.ok v, rest⟩

theorem completable_nil (stack : List Level) : Completable stack [] :=
  ⟨completion stack, List.cons_ne_nil _ _,
    List.forall_mem_cons.2 ⟨by simp, kind_ne_eof_of_mem_closers⟩, run_completion stack⟩

theorem atEnd_append {ts : List Token} (hts : ∀ t ∈ ts, t.kind ≠ .eof) (hne : ts ≠ [])
    (rest : List Token) : atEnd (ts ++ rest) = false := by
  obtain ⟨t, ts, rfl⟩ := List.exists_cons_of_ne_nil hne
  simpa [atEnd] using hts t List.mem_cons_self

/-- A token that is taken keeps the levels completable. -/
theorem Completable.cons {t : Token} {rest ts : List Token} {stack stack' : List Level}
    (h : Completable stack' ts) (hts : ∀ u ∈ ts, u.kind ≠ .eof)
    (hquote : t.kind = .quote → atEnd rest = false) (hstep : step t rest stack = .next stack') :
    Completable stack (t :: ts) := by
  obtain ⟨more, hne, hmore, hrun⟩ := h
  refine ⟨more, hne, hmore, fun rest' => ?_⟩
  have hend : atEnd (ts ++ (more ++ rest')) = false := by
    rw [← List.append_assoc]
    refine atEnd_append (fun u hu => ?_) (by simp [hne]) rest'
    exact (List.mem_append.1 hu).elim (hts u) (hmore u)
  obtain ⟨v, hv⟩ := hrun rest'
  refine ⟨v, ?_⟩
  rw [List.cons_append, run, step_congr (fun ht => hend.trans (hquote ht).symm), hstep]
  exact hv

/-! ## Steps follow the grammar -/

theorem ends_give {w v : Value} {stack : List Level} {ts : List Token} (h : Closes stack w ts v) :
    (give w stack).Ends ts v := by
  unfold give
  induction stack generalizing w with
  | nil => exact h
  | cons level stack ih =>
    cases level with
    | quote => exact ih h
    | bracket b opener items =>
      obtain ⟨inner, ws, c, rest, u, rfl, hinner, hc, hu, hcl⟩ := h
      cases hinner with
      | nil =>
        exact .inr ⟨b, opener, w :: items, stack, c, rest, u, rfl, rfl, hc, by simpa using hu, hcl⟩
      | @cons ts ts' x xs hx hxs =>
        refine .inl ⟨ts, x, ts' ++ c :: rest, by simp, hx, ts', xs, c, rest, u, rfl, hxs, hc, ?_,
          hcl⟩
        simpa using hu

/-- A step does not refuse a token with which the open levels can still be closed. -/
theorem ends_step {t : Token} {rest ts : List Token} {stack : List Level} {v : Value}
    (h : Reader.Ends stack (t :: ts) v) (hquote : t.kind = .quote → atEnd rest = false)
    (hdepth : (openAfter (weights stack) t).sum ≤ allowance) :
    (step t rest stack).Ends ts v := by
  rcases h with ⟨first, w, after, heq, hw, hcl⟩ | ⟨b, opener, items, outer, c, after, u, rfl, heq,
    hc, hu, hcl⟩
  · cases hw with
    | leaf hl =>
      obtain ⟨rfl, rfl⟩ := List.cons.inj heq
      rw [step_of_begins hl.begins, beginWith_of_leaf hl]
      exact ends_give hcl
    | @quoted q inner w hq hw =>
      obtain ⟨rfl, rfl⟩ := List.cons.inj heq
      rw [step_quote_eq_next hq (hquote hq) hdepth]
      exact .inl ⟨inner, w, after, rfl, hw, hcl⟩
    | @brackets b o c inner vs w ho hvs hc hw =>
      rw [List.cons_append, List.append_assoc] at heq
      obtain ⟨rfl, rfl⟩ := List.cons.inj heq
      rw [step_opener_eq_next ho rest hdepth]
      cases hvs with
      | nil => exact .inr ⟨b, t, [], stack, c, after, w, rfl, rfl, hc, hw, hcl⟩
      | @cons ts ts' x xs hx hxs =>
        refine .inl ⟨ts, x, ts' ++ c :: after, by simp, hx, ?_⟩
        exact ⟨ts', xs, c, after, w, rfl, hxs, hc, hw, hcl⟩
  · obtain ⟨rfl, rfl⟩ := List.cons.inj heq
    rw [step_closer hc rest hu]
    exact ends_give hcl

/-! ## Runs that fail -/

/-- The error is that the tokens end, and they might have gone on. -/
structure FailsAtEnd (stack : List Level) (ts : List Token) (e : ParseError) : Prop where
  completable : Completable stack ts
  always : ∀ stop rest, stop.kind = .eof →
    run stack (ts ++ stop :: rest) = ⟨.error (.refused e), stop :: rest⟩

/-- The error is at a token: before it the tokens might have gone on, with it they cannot. -/
structure FailsAtToken (stack : List Level) (front : List Token) (t : Token) (e : ParseError) :
    Prop where
  completable : Completable stack front
  hopeless : ∀ more v, ¬Reader.Ends stack (front ++ t :: more) v
  always : (∀ rest, run stack (front ++ t :: rest) = ⟨.error (.refused e), rest⟩) ∨
    ∀ rest, run stack (front ++ t :: rest) = ⟨.error (.refused e), t :: rest⟩

theorem sum_openAfter_le {levels : List Nat} {t : Token} {ts : List Token}
    (h : nestingFrom levels (t :: ts) ≤ allowance) : (openAfter levels t).sum ≤ allowance :=
  (sum_le_nestingFrom _ ts).trans ((Nat.le_max_right _ _).trans h)

/-- A quote before the end can be completed by what it quotes. -/
theorem failsAtEnd_quote {t : Token} {stack : List Level} (ht : t.kind = .quote)
    (hdepth : nestingFrom (weights stack) [t] ≤ allowance) :
    FailsAtEnd stack [t] (.danglingQuote t.position) := by
  refine ⟨?_, fun stop rest hstop => ?_⟩
  · -- any token but the end may stand behind the quote, such as another quote
    have hnext : atEnd [t] = false := by simp [atEnd, ht]
    exact (completable_nil (.quote :: stack)).cons (List.forall_mem_nil _) (fun _ => hnext)
      (step_quote_eq_next ht hnext (sum_openAfter_le hdepth))
  · have hend : atEnd (stop :: rest) = true := by simpa [atEnd] using hstop
    rw [List.singleton_append, run, step_quote ht, hend]
    rfl

section Taken

variable {t : Token} {rest ts : List Token} {stack stack' : List Level} {e : ParseError}

/-- An error at the end stays one with a token before it that is taken. -/
theorem FailsAtEnd.cons (h : FailsAtEnd stack' ts e) (hts : ∀ u ∈ ts, u.kind ≠ .eof)
    (hquote : t.kind = .quote → ts ≠ [] ∧ atEnd rest = false)
    (hstep : step t rest stack = .next stack') : FailsAtEnd stack (t :: ts) e := by
  refine ⟨h.completable.cons hts (fun ht => (hquote ht).2) hstep, fun stop rest' hstop => ?_⟩
  have hend (ht : t.kind = .quote) : atEnd (ts ++ stop :: rest') = atEnd rest := by
    rw [(hquote ht).2]
    exact atEnd_append hts (hquote ht).1 _
  rw [List.cons_append, run, step_congr hend, hstep]
  exact h.always stop rest' hstop

/-- An error at a token stays one with a token before it that is taken. -/
theorem FailsAtToken.cons {u : Token} (h : FailsAtToken stack' ts u e)
    (hts : ∀ w ∈ ts ++ [u], w.kind ≠ .eof) (hquote : t.kind = .quote → atEnd rest = false)
    (hdepth : (openAfter (weights stack) t).sum ≤ allowance)
    (hstep : step t rest stack = .next stack') : FailsAtToken stack (t :: ts) u e := by
  have hrun (rest' : List Token) :
      run stack (t :: ts ++ u :: rest') = run stack' (ts ++ u :: rest') := by
    have hend (ht : t.kind = .quote) : atEnd (ts ++ u :: rest') = atEnd rest := by
      rw [hquote ht, ← List.singleton_append, ← List.append_assoc]
      exact atEnd_append hts (by simp) rest'
    rw [List.cons_append, run, step_congr hend, hstep]
  refine ⟨h.completable.cons (fun w hw => hts w (List.mem_append_left _ hw)) hquote hstep,
    fun more v hends => ?_, ?_⟩
  · have hgoes := ends_step hends hquote hdepth
    rw [hstep] at hgoes
    exact h.hopeless more v hgoes
  · simpa only [hrun] using h.always

/-- A token that is refused, though it is no quote before the end, is hopeless. -/
theorem failsAtToken_of_step (hquote : t.kind = .quote → atEnd rest = false)
    (hdepth : (openAfter (weights stack) t).sum ≤ allowance)
    (hstep : step t rest stack = .refuse e ∨ step t rest stack = .stop e) :
    FailsAtToken stack [] t e := by
  have hkind : t.kind ≠ .quote := by
    intro ht
    rw [step_quote_eq_next ht (hquote ht) hdepth] at hstep
    rcases hstep with hstep | hstep <;> cases hstep
  have hcongr (rest' : List Token) : step t rest' stack = step t rest stack :=
    step_congr (fun ht => absurd ht hkind) stack
  refine ⟨completable_nil stack, fun more v hends => ?_, ?_⟩
  · have hgoes := ends_step hends hquote hdepth
    rcases hstep with hstep | hstep <;> rw [hstep] at hgoes <;> exact hgoes
  · refine hstep.imp (fun hstep rest' => ?_) (fun hstep rest' => ?_)
    · rw [List.nil_append, run, hcongr, hstep]
    · rw [List.nil_append, run, hcongr, hstep]

end Taken

/-- A run that fails fails at the end or at the first hopeless token. -/
theorem fails_of_run {ts rest : List Token} {stop : Token} {stack : List Level} {e : Halt}
    (hts : ∀ t ∈ ts, t.kind ≠ .eof) (hstop : stop.kind = .eof)
    (hdepth : nestingFrom (weights stack) ts ≤ allowance)
    (h : (run stack (ts ++ stop :: rest)).result = .error e) :
    FailsAtEnd stack ts e.refusal ∨ ∃ front t back, ts = front ++ t :: back ∧
      FailsAtToken stack front t e.refusal := by
  induction ts generalizing stack with
  | nil =>
    obtain ⟨e', hstep⟩ := step_eof stack
    have hrun (stop : Token) (rest : List Token) (hstop : stop.kind = .eof) :
        run stack (stop :: rest) = ⟨.error (.refused e'), stop :: rest⟩ := by
      rw [run, hstep stop rest hstop]
    rw [List.nil_append, hrun stop rest hstop] at h
    cases h
    exact .inl ⟨completable_nil stack, hrun⟩
  | cons t ts ih =>
    obtain ⟨ht, hts⟩ := List.forall_mem_cons.1 hts
    by_cases hlast : t.kind = .quote ∧ ts = []
    · obtain ⟨hquote, rfl⟩ := hlast
      have hfails := failsAtEnd_quote hquote hdepth
      rw [hfails.always stop rest hstop] at h
      cases h
      exact .inl hfails
    have hquote (hq : t.kind = .quote) : ts ≠ [] ∧ atEnd (ts ++ stop :: rest) = false := by
      have hne : ts ≠ [] := fun hnil => hlast ⟨hq, hnil⟩
      exact ⟨hne, atEnd_append hts hne _⟩
    have hsum := sum_openAfter_le hdepth
    have hweighs := weighs_step t (ts ++ stop :: rest) ((Nat.le_max_left _ _).trans hdepth)
    rw [List.cons_append, run] at h
    cases hstep : step t (ts ++ stop :: rest) stack with
    | next stack' =>
      rw [hstep] at h hweighs
      have hinner : nestingFrom (weights stack') ts ≤ allowance := by
        rw [hweighs.1]
        exact (Nat.le_max_right _ _).trans hdepth
      rcases ih hts hinner h with hfails | ⟨front, u, back, rfl, hfails⟩
      · exact .inl (hfails.cons hts hquote hstep)
      · refine .inr ⟨t :: front, u, back, rfl, ?_⟩
        refine hfails.cons (fun w hw => hts w ?_) (fun hq => (hquote hq).2) hsum hstep
        rw [← List.singleton_append, ← List.append_assoc]
        exact List.mem_append_left _ hw
    | done v =>
      rw [hstep] at h
      cases h
    | halt e' =>
      rw [hstep] at h hweighs
      cases h
      cases e with
      | refused e =>
        exact .inr ⟨[], t, ts, rfl,
          failsAtToken_of_step (fun hq => (hquote hq).2) hsum (.inl hstep)⟩
      | exhausted => exact absurd hsum (Nat.not_le.2 hweighs)
    | stop e' =>
      rw [hstep] at h
      cases h
      exact .inr ⟨[], t, ts, rfl,
        failsAtToken_of_step (fun hq => (hquote hq).2) hsum (.inr hstep)⟩

end Reader

/-! ## Whole sources -/

/-- The reader accepts the tokens before an end, wherever that stands and whatever follows it. -/
def Accepted (ts : List Token) : Prop :=
  (∀ t ∈ ts, t.kind ≠ .eof) ∧ ∀ stop rest, stop.kind = .eof →
    ∃ v, parse (ts ++ stop :: rest) = .ok v

/-- The error is about the end of the tokens. -/
structure ParseError.AboutEnd (e : ParseError) (ts : List Token) : Prop where
  /-- The tokens are accepted together with others behind them. -/
  viable : ∃ more, more ≠ [] ∧ Accepted (ts ++ more)
  /-- The reader stops at the end with this error, whatever follows the end. -/
  always : ∀ stop rest, stop.kind = .eof →
    Reader.readAll (ts ++ stop :: rest) = ⟨.error e, stop :: rest⟩

/-- The error is about the token `t` behind the tokens `front`. -/
structure ParseError.AboutToken (e : ParseError) (front : List Token) (t : Token) : Prop where
  /-- The tokens before are accepted, by themselves or together with others behind them. -/
  viable : ∃ more, Accepted (front ++ more)
  /-- No expression begins with the tokens before and this one, however deeply it is nested. -/
  hopeless : ∀ more v, ¬Derives (front ++ t :: more) v
  /-- The reader stops at the token or right behind it with this error, whatever follows. -/
  always : (∀ rest, Reader.readAll (front ++ t :: rest) = ⟨.error e, rest⟩) ∨
    ∀ rest, Reader.readAll (front ++ t :: rest) = ⟨.error e, t :: rest⟩

namespace Reader

theorem readAll_of_readExpr_error {ts left : List Token} {e : Halt}
    (hend : atEnd ts = false) (h : readExpr ts = ⟨.error e, left⟩) :
    readAll ts = ⟨.error e.refusal, left⟩ := by
  rw [readAll, hend, h]
  rfl

theorem accepted_of_run {ts : List Token} (hts : ∀ t ∈ ts, t.kind ≠ .eof) (hne : ts ≠ [])
    (h : ∀ rest, ∃ v, run [] (ts ++ rest) = ⟨.ok v, rest⟩) : Accepted ts := by
  refine ⟨hts, fun stop rest hstop => ?_⟩
  obtain ⟨v, hv⟩ := h (stop :: rest)
  refine ⟨v, ?_⟩
  rw [parse, readAll, atEnd_append hts hne, readExpr, hv]
  simp [hstop]

theorem Completable.accepted {ts : List Token} (h : Completable [] ts)
    (hts : ∀ t ∈ ts, t.kind ≠ .eof) : ∃ more, more ≠ [] ∧ Accepted (ts ++ more) := by
  obtain ⟨more, hne, hmore, hrun⟩ := h
  refine ⟨more, hne, accepted_of_run (fun t ht => ?_) (by simp [hne]) fun rest => ?_⟩
  · exact (List.mem_append.1 ht).elim (hts t) (hmore t)
  · rw [List.append_assoc]
    exact hrun rest

theorem FailsAtEnd.aboutEnd {ts : List Token} {e : ParseError} (h : FailsAtEnd [] ts e)
    (hts : ∀ t ∈ ts, t.kind ≠ .eof) (hne : ts ≠ []) : e.AboutEnd ts where
  viable := h.completable.accepted hts
  always stop rest hstop :=
    readAll_of_readExpr_error (atEnd_append hts hne _) (h.always stop rest hstop)

theorem FailsAtToken.aboutToken {front : List Token} {t : Token} {e : ParseError}
    (h : FailsAtToken [] front t e) (hts : ∀ u ∈ front ++ [t], u.kind ≠ .eof) :
    e.AboutToken front t where
  viable := by
    obtain ⟨more, -, hmore⟩ :=
      h.completable.accepted fun u hu => hts u (List.mem_append_left _ hu)
    exact ⟨more, hmore⟩
  hopeless more v hv := h.hopeless more v (.inl ⟨_, v, [], by simp, hv, rfl, rfl⟩)
  always := by
    have hend (rest : List Token) : atEnd (front ++ t :: rest) = false := by
      rw [← List.singleton_append, ← List.append_assoc]
      exact atEnd_append hts (by simp) rest
    have hall (rest : List Token) {left : List Token}
        (hrun : run [] (front ++ t :: rest) = ⟨.error (.refused e), left⟩) :
        readAll (front ++ t :: rest) = ⟨.error e, left⟩ :=
      readAll_of_readExpr_error (hend rest) hrun
    exact h.always.imp (fun hrun rest => hall rest (hrun rest)) fun hrun rest =>
      hall rest (hrun rest)

/-- A token behind a whole expression: the expression is accepted by itself, and no expression goes
on where another one ends. -/
theorem aboutToken_of_derives {front : List Token} {t : Token} {v : Value} (hv : Derives front v)
    (hdepth : nesting front ≤ allowance) (ht : t.kind ≠ .eof) :
    (ParseError.trailing t.text t.position).AboutToken front t where
  viable := by
    refine ⟨[], ?_⟩
    rw [List.append_nil]
    exact ⟨kind_ne_eof_of_derivations.1 hv, fun stop rest hstop =>
      ⟨v, (parse_eq_ok_iff (kind_ne_eof_of_derivations.1 hv) hstop).2 ⟨hv, hdepth⟩⟩⟩
  hopeless more w hw := by
    have hsplit : front ++ t :: more = (front ++ t :: more) ++ [] := by simp
    have heq := (derivations_eq_of_append.1 hv hw hsplit).1
    simp at heq
  always := by
    refine .inr fun rest => ?_
    rw [readAll, atEnd_append_of_derives hv, readExpr_of_derives hv hdepth]
    simp [ht]

end Reader

theorem exists_of_append_cons {ts taken rest left : List Token} {stop t : Token}
    (h : ts ++ stop :: rest = taken ++ t :: left) (hstop : stop.kind = .eof)
    (htaken : ∀ u ∈ taken, u.kind ≠ .eof) (ht : t.kind ≠ .eof) :
    ∃ back, ts = taken ++ t :: back := by
  rcases List.append_eq_append_iff.1 h with ⟨more, rfl, hmore⟩ | ⟨more, rfl, hmore⟩
  · cases more with
    | nil =>
      obtain ⟨rfl, -⟩ := List.cons.inj hmore
      exact absurd hstop ht
    | cons u more =>
      obtain ⟨rfl, -⟩ := List.cons.inj hmore
      exact absurd hstop (htaken stop (by simp))
  · cases more with
    | nil =>
      obtain ⟨rfl, -⟩ := List.cons.inj hmore
      exact absurd hstop ht
    | cons u more =>
      obtain ⟨rfl, -⟩ := List.cons.inj hmore
      exact ⟨more, rfl⟩

/-- The reader refuses tokens at the earliest place where it can: all of them might go on to tokens
that it accepts, and the error is about their end; or those before some token might go on, but not
together with that token, and the error is the same whatever follows. -/
theorem parse_error_earliest {ts rest : List Token} {stop : Token} {e : ParseError}
    (hts : ∀ t ∈ ts, t.kind ≠ .eof) (hstop : stop.kind = .eof)
    (hdepth : nesting ts ≤ Reader.allowance) (h : parse (ts ++ stop :: rest) = .error e) :
    e.AboutEnd ts ∨ ∃ front t back, ts = front ++ t :: back ∧ e.AboutToken front t := by
  by_cases hne : ts = []
  · subst hne
    have hempty (stop : Token) (rest : List Token) (hstop : stop.kind = .eof) :
        Reader.readAll (stop :: rest) = ⟨.error .emptyInput, stop :: rest⟩ := by
      simp [Reader.readAll, Reader.atEnd, hstop]
    rw [parse, List.nil_append, hempty stop rest hstop] at h
    cases h
    exact .inl ⟨(Reader.completable_nil []).accepted hts, hempty⟩
  have hend := Reader.atEnd_append hts hne (stop :: rest)
  cases hread : Reader.readExpr (ts ++ stop :: rest) with
  | mk result left =>
    cases result with
    | error e' =>
      rw [parse, Reader.readAll_of_readExpr_error hend hread] at h
      cases h
      have hrun : (Reader.run [] (ts ++ stop :: rest)).result = .error e' := by
        rw [← Reader.readExpr, hread]
      have hfrom : nestingFrom (Reader.weights []) ts ≤ Reader.allowance := hdepth
      rcases Reader.fails_of_run hts hstop hfrom hrun with hfails | ⟨front, t, back, rfl, hfails⟩
      · exact .inl (hfails.aboutEnd hts hne)
      · refine .inr ⟨front, t, back, rfl, hfails.aboutToken fun u hu => hts u ?_⟩
        rw [← List.singleton_append, ← List.append_assoc]
        exact List.mem_append_left _ hu
    | ok v =>
      obtain ⟨taken, heq, hv, htaken⟩ := Reader.derives_of_readExpr hread
      rw [parse, Reader.readAll, hend, hread] at h
      cases left with
      | nil => cases h
      | cons t left =>
        by_cases ht : t.kind = .eof
        · simp [ht] at h
        · obtain ⟨back, rfl⟩ := exists_of_append_cons heq hstop (kind_ne_eof_of_derivations.1 hv) ht
          have hparse : ParseError.trailing t.text t.position = e := by simpa [ht] using h
          rw [← hparse]
          exact .inr ⟨taken, t, back, rfl, Reader.aboutToken_of_derives hv htaken ht⟩

/-- The tokens of `(f [1 'x) ]` are refused at the round bracket, before the square one is seen. -/
theorem parse_error_earliest_mismatched :
    let ts : List Token :=
      [⟨.opener .round, "(", 0, .nothing⟩, ⟨.symbol, "f", 1, .text "f"⟩,
        ⟨.opener .square, "[", 3, .nothing⟩, ⟨.number, "1", 4, .number 1⟩,
        ⟨.quote, "\x27", 6, .nothing⟩, ⟨.symbol, "x", 7, .text "x"⟩,
        ⟨.closer .round, ")", 8, .nothing⟩, ⟨.closer .square, "]", 10, .nothing⟩]
    let e := ParseError.mismatched ")" 8 .square
    parse (ts ++ [Token.ending 11]) = .error e ∧
      (e.AboutEnd ts ∨ ∃ front t back, ts = front ++ t :: back ∧ e.AboutToken front t) := by
  intro ts e
  have h : parse (ts ++ [Token.ending 11]) = .error e := rfl
  exact ⟨h, parse_error_earliest (by decide) rfl (by decide) h⟩

end MiniLisp
