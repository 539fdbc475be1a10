import MiniLisp.Proofs.Runs

/-!
# The call depth decides nothing but when to give up

More calls and frames never change how an evaluation ends, unless the smaller budget ran out. Then
what was written by that time is what the evaluation with the larger budget writes first. The one
budget that this leaves out is the one that asks for more frames than there can be
(`Store.evaluate_tooManyFrames`).
-/

namespace MiniLisp

/-- The runs of one expression from one store, where the second one may have the larger budget. -/
def Bond.budgets : Bond where
  sight _ _ := True
  rel st st' := st' = st
  lax := True
  mono _ _ := trivial
  total _ _ _ := trivial
  next_eq h := by rw [h]
  owner? _ h _ := ⟨by rw [h], fun _ _ => trivial⟩
  valueAt? _ h _ := ⟨by rw [h], fun _ _ _ _ => trivial⟩
  define _ h _ _ := by rw [h]
  made h _ := by rw [h]
  mint h _ := by rw [h]
  push h _ := ⟨trivial, by rw [h]⟩
  write _ h := by rw [h]

theorem Bond.budgets_covers {k k' : Nat} (h : k ≤ k') : Bond.budgets.Covers k k' :=
  .inr ⟨trivial, h⟩

namespace Store

variable (st : Store) (scope : ScopeId) (expr : Value) {depth depth' : Nat}

theorem frameAllowance_mono (h : depth ≤ depth') :
    frameAllowance depth ≤ frameAllowance depth' := by
  unfold frameAllowance
  have := Nat.mul_le_mul_left framesPerCall h
  omega

/-- The runs of an expression with two budgets stay tied, whatever the store. -/
theorem tied_evaluate {frames frames' : Nat} (hframes : frames ≤ frames') (h : depth ≤ depth') :
    Bond.budgets.Tied 0 (MiniLisp.evaluate frames depth scope expr)
      (MiniLisp.evaluate frames' depth' scope expr) :=
  (Bond.tied (Bond.budgets_covers hframes)).evaluate (Bond.budgets_covers h) trivial
    fun _ _ => trivial

/-- An evaluation only adds to the text that was written. -/
theorem extends_evaluate (depth : Nat) :
    st.Extends (Outcome.store (st.evaluate depth scope expr)) := by
  rcases Nat.lt_or_ge maxFrames (frameAllowance depth) with h | h
  · rw [evaluate_of_lt st scope expr h]
    exact .refl st
  · rw [evaluate_of_le st scope expr h]
    exact (tied_evaluate scope expr (Nat.le_refl _) (Nat.le_refl depth)).adds trivial st

/-- Two evaluations that are both given their frames end alike, or the one with the smaller budget
is out of it. -/
theorem alike_evaluate (h : depth ≤ depth') (hframes : frameAllowance depth' ≤ maxFrames) :
    Bond.budgets.Alike st.next (st.evaluate depth scope expr) (st.evaluate depth' scope expr) := by
  have hmono := frameAllowance_mono h
  rw [evaluate_of_le st scope expr (Nat.le_trans hmono hframes),
    evaluate_of_le st scope expr hframes]
  have hspend : activationFrames depth ≤ activationFrames depth' := Nat.sub_le_sub_right hmono _
  exact (tied_evaluate scope expr hspend h).alike rfl (Nat.zero_le _)

/-- Raising the call depth changes nothing unless the calls or frames ran out; and then what was
written before is only added to. It is no restriction on expressions or stores that the larger
depth must be given its frames: with a depth that is not, nothing is evaluated. -/
theorem evaluate_of_le_callDepth (h : depth ≤ depth')
    (hframes : frameAllowance depth ≤ maxFrames → frameAllowance depth' ≤ maxFrames) :
    (¬Outcome.exhausted (st.evaluate depth scope expr) →
        st.evaluate depth' scope expr = st.evaluate depth scope expr) ∧
      (Outcome.exhausted (st.evaluate depth scope expr) →
        ∃ text more,
          (Outcome.store (st.evaluate depth scope expr)).output = st.output ++ text ∧
            (Outcome.store (st.evaluate depth' scope expr)).output = st.output ++ text ++ more) := by
  rcases Nat.lt_or_ge maxFrames (frameAllowance depth) with hlt | hle
  · have hlt' := Nat.lt_of_lt_of_le hlt (frameAllowance_mono h)
    rw [evaluate_of_lt st scope expr hlt, evaluate_of_lt st scope expr hlt']
    exact ⟨fun _ => rfl, fun he => nomatch he⟩
  · obtain ⟨text, htext⟩ := st.extends_evaluate scope expr depth
    have halike := st.alike_evaluate scope expr h (hframes hle)
    generalize st.evaluate depth scope expr = r, st.evaluate depth' scope expr = r' at halike htext
    cases halike with
    | ok hs =>
      obtain rfl := hs
      exact ⟨fun _ => rfl, False.elim⟩
    | error hs =>
      obtain rfl := hs
      exact ⟨fun _ => rfl, fun _ => ⟨text, "", htext, by simpa using htext⟩⟩
    | cut _ he hs hext =>
      obtain rfl := hs
      obtain ⟨more, hmore⟩ := hext
      exact ⟨fun hne => absurd he hne, fun _ => ⟨text, more, htext, by rw [hmore, ← htext]; rfl⟩⟩

/-- Two nested calls, with a line written before them and one inside. -/
def nestedCalls : Value :=
  let print (s : String) : Value := .list .plain [.symbol "print", .atom (.text s)]
  let call (body : Value) : Value :=
    .list .plain [.list .plain [.symbol "lambda", .list .plain [], body]]
  .list .plain [.symbol "do", print "out", call (call (print "in"))]

theorem evaluate_of_le_callDepth_nestedCalls :
    let run (depth : Nat) := (pushGlobal {} 0).evaluate depth 0 nestedCalls
    (¬Outcome.exhausted (run 2) ∧ run 3 = run 2) ∧
      Outcome.exhausted (run 1) ∧
        ∃ text more, (Outcome.store (run 1)).output = "" ++ text ∧
          (Outcome.store (run 2)).output = "" ++ text ++ more := by
  have hout : Outcome.exhausted ((pushGlobal {} 0).evaluate 1 0 nestedCalls) := by decide +kernel
  have hin : ¬Outcome.exhausted ((pushGlobal {} 0).evaluate 2 0 nestedCalls) := by decide +kernel
  exact ⟨⟨hin, (evaluate_of_le_callDepth _ 0 nestedCalls (show 2 ≤ 3 by decide)
      fun _ => by decide).1 hin⟩,
    hout, (evaluate_of_le_callDepth _ 0 nestedCalls (show 1 ≤ 2 by decide)
      fun _ => by decide).2 hout⟩

/-- The frames do matter: a depth for which there cannot be enough of them gives a fault where a
smaller one gives a value. -/
theorem evaluate_tooManyFrames :
    (pushGlobal {} 0).evaluate 42949652 0 (.number 1) = .ok (.number 1) (pushGlobal {} 0) ∧
      (pushGlobal {} 0).evaluate 42949653 0 (.number 1) =
        .error .tooManyFrames (pushGlobal {} 0) := by
  have hself (frames depth : Nat) (st : Store) :
      MiniLisp.evaluate (frames + 1) depth 0 (.number 1) st = .ok (.number 1) st := by
    unfold MiniLisp.evaluate
    rfl
  constructor
  · rw [evaluate_of_le _ 0 _ (by decide)]
    exact hself _ _ _
  · exact evaluate_of_lt _ 0 _ (by decide)

end Store

end MiniLisp
