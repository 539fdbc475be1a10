import MiniLisp.Proofs.Activations
import MiniLisp.Proofs.Equality
import MiniLisp.Proofs.Guards
import MiniLisp.Proofs.Number.Whole
import MiniLisp.Session

/-!
# Which faults there are

Natives refuse arguments and texts that they cannot use, and they leave nothing for the host to
refuse (`Native.kind_of_call`), with one exception: a whole number may be written with too many
digits or be too large for a double (`Native.Excess`). Those are the only texts that end a run in an
unusual fault, unless the run was not begun because it asks for more frames than there can be
(`Store.fault_kinds`).
-/

namespace MiniLisp

/-! ## Natives -/

namespace Native

/-- All that can go wrong in a computation is its arguments. -/
def ArgumentOnly {α : Type} (x : Except Fault α) : Prop := ∀ e, x = .error e → e.kind = .argument

namespace ArgumentOnly

variable {α β : Type} {x : Except Fault α}

theorem ok (a : α) : ArgumentOnly (.ok a) := nofun

theorem error {e : Fault} (h : e.kind = .argument) : ArgumentOnly (.error e : Except Fault α) := by
  rintro _ ⟨⟩
  exact h

theorem bind {k : α → Except Fault β} (hx : ArgumentOnly x) (hk : ∀ a, ArgumentOnly (k a)) :
    ArgumentOnly (x >>= k) := by
  cases x with
  | ok a => exact hk a
  | error e => exact .error (hx e rfl)

theorem map (hx : ArgumentOnly x) (g : α → β) : ArgumentOnly (x.map g) := by
  cases x with
  | ok a => exact .ok (g a)
  | error e => exact .error (hx e rfl)

end ArgumentOnly

theorem argumentOnly_operator (op : Operator) (x y : Value) : ArgumentOnly (op.call x y) := by
  unfold Operator.call
  split
  · rename_i x y
    obtain ⟨a, ha⟩ := op.apply_eq_atom x y
    rw [ha]
    exact .ok _
  · exact .error rfl

theorem argumentOnly_index (fn : Native) (v : Value) : ArgumentOnly (index fn v) := by
  intro e h
  rw [index_eq_error h]
  rfl

theorem argumentOnly_lengthOf (v : Value) : ArgumentOnly (lengthOf v) := by
  unfold lengthOf
  split
  · exact .ok _
  · exact .ok _
  · exact .error rfl

theorem argumentOnly_element {α : Type} (kind : String) (xs : List α) (give : α → Value)
    (i : Int) : ArgumentOnly (element kind xs give i) := by
  intro e h
  rw [(element_eq_error h).2]
  rfl

theorem argumentOnly_nthOf (seq i : Value) : ArgumentOnly (nthOf seq i) := by
  unfold nthOf
  split
  · exact (argumentOnly_index .nth i).bind fun _ => argumentOnly_element _ _ _ _
  · exact (argumentOnly_index .nth i).bind fun _ => argumentOnly_element _ _ _ _
  · exact .error rfl

theorem argumentOnly_sliceOf (seq low high : Value) : ArgumentOnly (sliceOf seq low high) := by
  refine (argumentOnly_index .slice low).bind fun i => ?_
  refine (argumentOnly_index .slice high).bind fun j => ?_
  split
  · exact .ok _
  · exact .ok _
  · exact .error rfl

theorem argumentOnly_joinItems (vs : List Value) : ArgumentOnly (joinItems vs) := by
  fun_induction joinItems vs with
  | case1 => exact .ok _
  | case2 flavor items rest ih => exact ih.map _
  | case3 => exact .error rfl

theorem argumentOnly_joinChars (vs : List Value) : ArgumentOnly (joinChars vs) := by
  fun_induction joinChars vs with
  | case1 => exact .ok _
  | case2 s rest ih => exact ih.map _
  | case3 => exact .error rfl

theorem argumentOnly_joined (first : Value) (rest : List Value) :
    ArgumentOnly (joined first rest) := by
  unfold joined
  split
  · exact (argumentOnly_joinItems _).map _
  · exact (argumentOnly_joinChars _).map _
  · exact .error rfl

/-- The texts of whole numbers that are too much, and the kind of fault that each of them gives. -/
inductive Excess (s : String) : Fault.Kind → Prop
  | digits {digits : List Char} (h : Numeral.IsWhole (Text.strip s.toList) digits)
      (hlong : 4300 < digits.length) : Excess s .digitLimit
  | size {digits : List Char} (h : Numeral.IsWhole (Text.strip s.toList) digits)
      (hshort : digits.length ≤ 4300)
      (hlarge : (2 ^ 54 - 1) * 2 ^ 970 ≤ Nat.ofDigitChars 10 digits 0) : Excess s .overflow

theorem kind_of_readInteger {s : String} {e : Fault} (h : readInteger s = .error e) :
    e.kind = .format ∨ Excess s e.kind := by
  unfold readInteger at h
  split at h
  · cases h
    exact .inl rfl
  · rename_i n hread
    obtain ⟨hwhole, hfraction, hexponent⟩ := Numeral.isWhole_of_read hread
    right
    split at h
    · rename_i hlong
      cases h
      exact .digits hwhole hlong
    · rename_i hshort
      split at h
      · rename_i hinf
        cases h
        exact .size hwhole (Nat.not_lt.1 hshort)
          ((Numeral.isInf_toFloat_iff hfraction hexponent).1 hinf)
      · split at h <;> cases h

theorem readInteger_of_excess {s : String} {kind : Fault.Kind} (h : Excess s kind) :
    ∃ e, readInteger s = .error e ∧ e.kind = kind ∧ e.shown = [] := by
  unfold readInteger
  cases h with
  | digits h hlong =>
    obtain ⟨negative, hread⟩ := Numeral.read_of_isWhole h
    have hlimit : Numeral.digitLimit < _ := hlong
    simp only [hread, if_pos hlimit]
    exact ⟨_, rfl, rfl, rfl⟩
  | size h hshort hlarge =>
    obtain ⟨negative, hread⟩ := Numeral.read_of_isWhole h
    have hinf := (Numeral.isInf_toFloat_iff (n := ⟨negative, _, [], 0⟩) rfl rfl).2 hlarge
    have hlimit : ¬Numeral.digitLimit < _ := Nat.not_lt.2 hshort
    simp only [hread, if_neg hlimit, if_pos hinf]
    exact ⟨_, rfl, rfl, rfl⟩

theorem readDecimal_eq_error {s : String} {e : Fault} (h : readDecimal s = .error e) :
    e = .notDecimal s := by
  unfold readDecimal at h
  split at h <;> cases h
  rfl

/-- A text, or what neither reader of numbers takes. -/
theorem text_or_refused (v : Value) :
    (∃ s, v = .atom (.text s)) ∨
      parseInteger.run [v] = .error (.notText .parseInteger v) ∧
        parseFloat.run [v] = .error (.notText .parseFloat v) := by
  cases v with
  | atom a =>
    cases a with
    | text s => exact .inl ⟨s, rfl⟩
    | _ => exact .inr ⟨rfl, rfl⟩
  | _ => exact .inr ⟨rfl, rfl⟩

/-- What a native with the right number of arguments can end in. Then it takes them apart, so the
host has nothing to refuse there. -/
theorem kind_of_run {fn : Native} {args : List Value} {e : Fault}
    (harity : fn.arity.allows args.length = true) (h : fn.run args = .error e) :
    e.kind = .argument ∨
      (e.kind = .format ∧ (fn = .parseInteger ∨ fn = .parseFloat) ∧
        ∃ text, args = [.atom (.text text)]) ∨
      fn = .parseInteger ∧ ∃ text, args = [.atom (.text text)] ∧ Excess text e.kind := by
  cases fn with
  | operator op =>
    obtain ⟨x, y, rfl⟩ := List.length_eq_two.1 (eq_of_beq harity)
    exact .inl (argumentOnly_operator op x y e h)
  | list => cases h
  | vector => cases h
  | length =>
    obtain ⟨seq, rfl⟩ := List.length_eq_one_iff.1 (eq_of_beq harity)
    exact .inl (argumentOnly_lengthOf seq e h)
  | nth =>
    obtain ⟨seq, i, rfl⟩ := List.length_eq_two.1 (eq_of_beq harity)
    exact .inl (argumentOnly_nthOf seq i e h)
  | slice =>
    obtain ⟨seq, low, high, rfl⟩ := List.length_eq_three.1 (eq_of_beq harity)
    exact .inl (argumentOnly_sliceOf seq low high e h)
  | concat | join =>
    cases args with
    | nil => cases harity
    | cons first rest => exact .inl (argumentOnly_joined first rest e h)
  | parseInteger =>
    obtain ⟨v, rfl⟩ := List.length_eq_one_iff.1 (eq_of_beq harity)
    rcases text_or_refused v with ⟨text, rfl⟩ | hno
    · rcases kind_of_readInteger h with hformat | hexcess
      · exact .inr (.inl ⟨hformat, .inl rfl, text, rfl⟩)
      · exact .inr (.inr ⟨rfl, text, rfl, hexcess⟩)
    · rw [hno.1] at h
      cases h
      exact .inl rfl
  | parseFloat =>
    obtain ⟨v, rfl⟩ := List.length_eq_one_iff.1 (eq_of_beq harity)
    rcases text_or_refused v with ⟨text, rfl⟩ | hno
    · obtain rfl := readDecimal_eq_error h
      exact .inr (.inl ⟨rfl, .inr rfl, text, rfl⟩)
    · rw [hno.2] at h
      cases h
      exact .inl rfl
  | print =>
    obtain ⟨v, rfl⟩ := List.length_eq_one_iff.1 (eq_of_beq harity)
    cases h

/-- What a call of a native can end in. -/
theorem kind_of_call {fn : Native} {args : List Value} {e : Fault} (h : fn.call args = .error e) :
    e.kind = .argument ∨
      (e.kind = .format ∧ (fn = .parseInteger ∨ fn = .parseFloat) ∧
        ∃ text, args = [.atom (.text text)]) ∨
      fn = .parseInteger ∧ ∃ text, args = [.atom (.text text)] ∧ Excess text e.kind := by
  unfold call at h
  split at h
  · rename_i harity
    exact kind_of_run harity h
  · cases h
    exact .inl rfl

end Native

/-! ## Runs -/

/-- A native that is given too much to read fails, whatever frames are left. -/
theorem Activation.fails_of_excess {a : Activation} {text : String} {kind : Fault.Kind}
    (h : a.Calls .parseInteger [.atom (.text text)]) (hexcess : Native.Excess text kind) :
    ∃ e, a.Fails e ∧ e.kind = kind := by
  obtain ⟨f, d, st, t⟩ := a
  obtain ⟨hframes, home, rfl⟩ := h
  obtain ⟨e, hread, hkind, hshown⟩ := Native.readInteger_of_excess hexcess
  obtain ⟨k, rfl⟩ := Nat.exists_eq_succ_of_ne_zero (Nat.ne_of_gt hframes)
  refine ⟨e, ⟨st, ?_⟩, hkind⟩
  have hcall : Native.parseInteger.call [.atom (.text text)] = .error e := hread
  have hwithin : e.within k = e := by simp [Fault.within, hshown]
  unfold MiniLisp.apply
  dsimp only
  unfold Eval.native
  simp only [hcall]
  unfold Eval.refuse
  rw [hwithin]
  rfl

namespace Store

/-- A native is called with some arguments when an expression is evaluated. -/
def Calls (st : Store) (depth : Nat) (scope : ScopeId) (expr : Value) (fn : Native)
    (args : List Value) : Prop :=
  frameAllowance depth ≤ maxFrames ∧ ∃ b : Activation,
    Activation.Leads ⟨activationFrames depth, depth, st, .evaluate scope expr⟩ b ∧ b.Calls fn args

variable {st : Store} {depth : Nat} {scope : ScopeId} {expr : Value} {e : Fault} {s : Store}

/-- An unusual fault comes from a text that is too much, if the run was begun. -/
theorem calls_of_unusual (hle : frameAllowance depth ≤ maxFrames)
    (h : st.evaluate depth scope expr = .error e s) (hunusual : e.kind.usual = false) :
    ∃ text, st.Calls depth scope expr .parseInteger [.atom (.text text)] ∧
      Native.Excess text e.kind := by
  rw [evaluate_of_le st scope expr hle] at h
  have hfails : Activation.Fails ⟨activationFrames depth, depth, st, .evaluate scope expr⟩ e :=
    ⟨s, h⟩
  rcases Activation.traced hfails with husual | ⟨b, fn, args, hleads, hcalls, hcall⟩
  · rw [hunusual] at husual
    cases husual
  · rcases Native.kind_of_call hcall with harg | ⟨hformat, -, -⟩ | ⟨rfl, text, rfl, hexcess⟩
    · rw [harg] at hunusual
      cases hunusual
    · rw [hformat] at hunusual
      cases hunusual
    · exact ⟨text, ⟨hle, b, hleads, hcalls⟩, hexcess⟩

theorem evaluate_of_excess {text : String} {kind : Fault.Kind}
    (h : st.Calls depth scope expr .parseInteger [.atom (.text text)])
    (hexcess : Native.Excess text kind) :
    ∃ e s, st.evaluate depth scope expr = .error e s ∧ e.kind = kind := by
  obtain ⟨hle, b, hleads, hcalls⟩ := h
  obtain ⟨e, hfails, hkind⟩ := Activation.fails_of_excess hcalls hexcess
  obtain ⟨s, hs⟩ := Activation.fails_of_leads hleads hfails
  exact ⟨e, s, (evaluate_of_le st scope expr hle).trans hs, hkind⟩

/-- How evaluations and calls of natives can end. An evaluation gives a value or a fault of a usual
kind, or it has called the reader of whole numbers on a text that is too much, or it asks for more
frames than there can be, and then nothing is evaluated. A native gives a value, or refuses its
arguments, or is one of the two readers of numbers and refuses the text, or is the reader of whole
numbers and the text is too much. A text that is too much ends every run that reads it. -/
theorem fault_kinds (st : Store) (depth : Nat) (scope : ScopeId) (expr : Value) (fn : Native)
    (args : List Value) (text : String) (kind : Fault.Kind) :
    ((∃ v s, st.evaluate depth scope expr = .ok v s) ∨
        ∃ e s, st.evaluate depth scope expr = .error e s ∧
          (e.kind ∈ [.unbound, .type, .argument, .format, .dictionaryKey, .dictionaryArity,
              .exhausted] ∨
            (∃ text, st.Calls depth scope expr .parseInteger [.atom (.text text)] ∧
              Native.Excess text e.kind) ∨
            maxFrames < frameAllowance depth ∧ e = .tooManyFrames ∧ s = st)) ∧
      ((∃ v, fn.call args = .ok v) ∨
        ∃ e, fn.call args = .error e ∧
          (e.kind = .argument ∨
            (e.kind = .format ∧ (fn = .parseInteger ∨ fn = .parseFloat) ∧
              ∃ text, args = [.atom (.text text)]) ∨
            fn = .parseInteger ∧ ∃ text, args = [.atom (.text text)] ∧
              Native.Excess text e.kind)) ∧
      (Native.Excess text kind →
        (∃ e, Native.parseInteger.call [.atom (.text text)] = .error e ∧ e.kind = kind) ∧
          (st.Calls depth scope expr .parseInteger [.atom (.text text)] →
            ∃ e s, st.evaluate depth scope expr = .error e s ∧ e.kind = kind)) := by
  refine ⟨?_, ?_, fun hexcess => ⟨?_, fun hcalls => evaluate_of_excess hcalls hexcess⟩⟩
  · cases h : st.evaluate depth scope expr with
    | ok v s => exact .inl ⟨v, s, rfl⟩
    | error e s =>
      refine .inr ⟨e, s, rfl, ?_⟩
      rcases Nat.lt_or_ge maxFrames (frameAllowance depth) with hlt | hle
      · rw [evaluate_of_lt st scope expr hlt] at h
        cases h
        exact .inr (.inr ⟨hlt, rfl, rfl⟩)
      · cases hkind : e.kind.usual with
        | true => exact .inl (Fault.Kind.usual_iff.1 hkind)
        | false => exact .inr (.inl (calls_of_unusual hle h hkind))
  · cases h : fn.call args with
    | ok v => exact .inl ⟨v, rfl⟩
    | error e => exact .inr ⟨e, rfl, Native.kind_of_call h⟩
  · obtain ⟨e, hread, hkind, -⟩ := Native.readInteger_of_excess hexcess
    exact ⟨e, hread, hkind⟩

/-- A number of ones. -/
def ones (n : Nat) : String := String.ofList (List.replicate n '1')

theorem isWhole_ones (n : Nat) :
    Numeral.IsWhole (Text.strip (ones (n + 1)).toList) (List.replicate (n + 1) '1') := by
  have hdrop : (List.replicate (n + 1) '1').dropWhile Text.isBlank = List.replicate (n + 1) '1' :=
    rfl
  refine ⟨⟨[], by simp, ?_⟩, nofun, fun c hc => ?_⟩
  · rw [ones, String.toList_ofList, Text.strip, hdrop, List.reverse_replicate, hdrop,
      List.reverse_replicate, List.nil_append]
  · rw [List.eq_of_mem_replicate hc]
    rfl

/-- One digit more than a whole number may have. -/
theorem excess_ones : Native.Excess (ones 4301) .digitLimit :=
  .digits (isWhole_ones 4300) (by rw [List.length_replicate]; decide)

theorem fault_kinds_ones :
    let expr : Value := .list .plain [.symbol "parse-integer", .atom (.text (ones 4301))]
    Native.Excess (ones 4301) .digitLimit ∧
      (pushGlobal {} 0).Calls 1 0 expr .parseInteger [.atom (.text (ones 4301))] ∧
      ∃ e s, (pushGlobal {} 0).evaluate 1 0 expr = .error e s ∧ e.kind = .digitLimit := by
  intro expr
  have hargs (f d : Nat) (st : Store) (a : Atom) :
      evaluateAll (f + 2) d 0 [.atom a] st = .ok [.atom a] st := by
    simp only [evaluateAll, Eval.each, MiniLisp.evaluate]
    rfl
  have hcalls : (pushGlobal {} 0).Calls 1 0 expr .parseInteger [.atom (.text (ones 4301))] := by
    refine ⟨by decide, ⟨1018, 1, pushGlobal {} 0, .apply (.native .parseInteger 0) _⟩, ?_,
      by decide, 0, rfl⟩
    exact .head ⟨1019, rfl, .application⟩
      (.single ⟨1018, rfl, .nameCall (by decide) rfl (hargs 1016 1 _ _)⟩)
  exact ⟨excess_ones, hcalls,
    ((fault_kinds _ 1 0 expr .parseInteger [] _ .digitLimit).2.2 excess_ones).2 hcalls⟩

/-- A run that asks for too many frames ends in an unusual fault, though it reads no number. -/
theorem fault_kinds_tooManyFrames :
    readSource "1" = .ok (.number 1) ∧
      (pushGlobal {} 0).evaluate 42949653 0 (.number 1) =
        .error .tooManyFrames (pushGlobal {} 0) ∧
      Fault.kind .tooManyFrames = .overflow ∧
      ∀ fn args, ¬(pushGlobal {} 0).Calls 42949653 0 (.number 1) fn args := by
  have hread : readSource "1" = .ok (.number 1) := by
    have hsome : (readSource "1").toOption = some (.number 1) := by decide +kernel
    cases h : readSource "1" <;> simp_all [Except.toOption]
  refine ⟨hread, evaluate_of_lt _ 0 _ (by decide), rfl, fun fn args h => ?_⟩
  exact absurd h.1 (by decide)

end Store

end MiniLisp
