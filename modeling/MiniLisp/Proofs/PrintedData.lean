import MiniLisp.Proofs.EarliestError
import MiniLisp.Proofs.Evaluation
import MiniLisp.Proofs.RoundTrip
import MiniLisp.Proofs.Runs

/-!
# Data from its text

The canonical text of plain data is an expression whose value is the data again, and the text of a
closure is the `lambda` form that makes it (`runSource_toText`). The reader does not give back the
value itself but `Value.literal`, an expression with the same text (`Value.chars_literal`), in which
a dictionary is not evaluated yet and a closure is not made yet.
-/

namespace MiniLisp

namespace Value

mutual

/-- The expression that has the text of a value. -/
def literal : Value → Value
  | .list .vector items => .list .vector (literalAll items)
  | .dictionary pairs => .braces (literalPairs pairs)
  | .closure params body _ _ =>
    .list .plain [.symbol Form.lambda.name, .list .plain (params.map .symbol), body]
  | v => v

/-- The expressions that have the texts of several values. -/
def literalAll : List Value → List Value
  | [] => []
  | v :: rest => literal v :: literalAll rest

/-- The expressions that have the texts of keys and values in turn. -/
def literalPairs : List (String × Value) → List Value
  | [] => []
  | (key, v) :: rest => .text key :: literal v :: literalPairs rest

end

mutual

/-- Whether a value is plain data: atoms that come back from their texts, and vectors and
dictionaries of such data. -/
def isData : Value → Bool
  | .atom a => a.printable
  | .list .vector items => isDataAll items
  | .dictionary pairs => isDataPairs pairs
  | _ => false

/-- Whether several values are plain data. -/
def isDataAll : List Value → Bool
  | [] => true
  | v :: rest => isData v && isDataAll rest

/-- Whether keys and values are plain data. -/
def isDataPairs : List (String × Value) → Bool
  | [] => true
  | (key, v) :: rest => (Atom.text key).printable && isData v && isDataPairs rest

end

/-! ## The text of a literal -/

theorem chars_list (flavor : Flavor) (items : List Value) :
    (Value.list flavor items).chars = flavor.bracket.surround (spaced (itemChars items)) :=
  rfl

theorem chars_dictionary (pairs : List (String × Value)) :
    (Value.dictionary pairs).chars = Bracket.curly.surround (spaced (pairChars pairs)) :=
  rfl

/-- The text of a closure is that of the form that makes it. -/
theorem chars_closure (params : List String) (body : Value) (scope : ScopeId) (serial : Nat) :
    (Value.closure params body scope serial).chars = (Value.list .plain
      [.symbol Form.lambda.name, .list .plain (params.map .symbol), body]).chars := by
  have hparams : itemChars (params.map .symbol) = params.map String.toList := by
    rw [itemChars_eq_map, List.map_map]
    rfl
  rw [chars_list, itemChars, itemChars, itemChars, itemChars, chars_list, hparams, spaced,
    List.intercalate_cons_cons, List.intercalate_cons_cons, List.intercalate_singleton]
  show "(lambda ".toList ++ Bracket.round.surround (spaced (params.map String.toList)) ++ [' '] ++
    body.chars ++ [')'] = ['('] ++ ("lambda".toList ++ [' '] ++
      (Bracket.round.surround (spaced (params.map String.toList)) ++ [' '] ++ body.chars)) ++ [')']
  simp

mutual

theorem chars_literal : (v : Value) → v.literal.chars = v.chars
  | .list .vector items => by rw [literal, chars_list, itemChars_literalAll items, chars_list]
  | .dictionary pairs => by
    rw [literal, chars_dictionary, ← itemChars_literalPairs pairs]
    rfl
  | .closure params body scope serial => by rw [literal, chars_closure]
  | .list .plain _ | .atom _ | .symbol _ | .braces _ | .native .. | .nothing => by
    simp only [literal]

theorem itemChars_literalAll : (vs : List Value) → itemChars (literalAll vs) = itemChars vs
  | [] => by rw [literalAll]
  | v :: rest => by
    rw [literalAll, itemChars, chars_literal v, itemChars_literalAll rest, itemChars]

theorem itemChars_literalPairs :
    (ps : List (String × Value)) → itemChars (literalPairs ps) = pairChars ps
  | [] => by rw [literalPairs, itemChars, pairChars]
  | (key, v) :: rest => by
    rw [literalPairs, itemChars, itemChars, chars_literal v, itemChars_literalPairs rest, pairChars]
    rfl

end

theorem toText_literal (v : Value) : v.literal.toText = v.toText := by
  rw [toText, chars_literal, toText]

mutual

theorem printable_literal : (v : Value) → v.isData = true → v.literal.printable = true
  | .atom _, h => by simpa only [literal, printable, isData] using h
  | .list .vector items, h => by
    simp only [isData] at h
    simpa only [literal, printable] using printableAll_literalAll items h
  | .dictionary pairs, h => by
    simp only [isData] at h
    simpa only [literal, printable] using printableAll_literalPairs pairs h
  | .list .plain _, h | .symbol _, h | .braces _, h | .native .., h | .closure .., h
  | .nothing, h => by simp [isData] at h

theorem printableAll_literalAll :
    (vs : List Value) → isDataAll vs = true → printableAll (literalAll vs) = true
  | [], _ => by simp only [literalAll, printableAll]
  | v :: rest, h => by
    rw [isDataAll, Bool.and_eq_true] at h
    rw [literalAll, printableAll, printable_literal v h.1, printableAll_literalAll rest h.2]
    rfl

theorem printableAll_literalPairs :
    (ps : List (String × Value)) → isDataPairs ps = true → printableAll (literalPairs ps) = true
  | [], _ => by simp only [literalPairs, printableAll]
  | (key, v) :: rest, h => by
    rw [isDataPairs, Bool.and_eq_true, Bool.and_eq_true] at h
    rw [literalPairs, printableAll, printableAll, printable_literal v h.1.2,
      printableAll_literalPairs rest h.2, printable, h.1.1]
    rfl

end

theorem printableAll_symbols {names : List String} (h : ∀ name ∈ names, isSymbolName name = true) :
    printableAll (names.map .symbol) = true := by
  induction names with
  | nil => simp only [List.map_nil, printableAll]
  | cons name names ih =>
    rw [List.forall_mem_cons] at h
    rw [List.map_cons, printableAll, printable, h.1, ih h.2]
    rfl

theorem printable_literal_closure {params : List String} {body : Value} (scope : ScopeId)
    (serial : Nat) (hne : params ≠ []) (hparams : ∀ p ∈ params, isSymbolName p = true)
    (hbody : body.printable = true) :
    (closure params body scope serial).literal.printable = true := by
  have hlist : (Value.list .plain (params.map .symbol)).printable = true := by
    cases params with
    | nil => exact absurd rfl hne
    | cons p ps => simpa only [List.map_cons, printable] using printableAll_symbols hparams
  have hword : (Value.symbol Form.lambda.name).printable = true := by decide
  have hall : printableAll
      [.symbol Form.lambda.name, .list .plain (params.map .symbol), body] = true := by
    rw [printableAll, printableAll, printableAll, printableAll, hword, hlist, hbody]
    rfl
  simpa only [literal, printable] using hall

end Value

/-! ## Reading back, or too deep to read -/

namespace Reader

theorem enter_of_lt {level : Level} {stack : List Level}
    (h : allowance < (weights (level :: stack)).sum) : enter level stack = .halt .exhausted :=
  if_neg (Nat.not_le.2 h)

/-- Tokens that derive a value but are nested too deeply exhaust the reader, whatever follows. -/
theorem exhausted_of_derivations :
    (∀ {ts v}, Derives ts v → ∀ stack, (weights stack).sum ≤ allowance →
      allowance < nestingFrom (weights stack) ts → ∀ rest,
      (run stack (ts ++ rest)).result = .error .exhausted) ∧
    ∀ {ts vs}, DerivesAll ts vs → ∀ {b opener items stack},
      (2 :: weights stack).sum ≤ allowance → allowance < nestingFrom (2 :: weights stack) ts →
      ∀ rest,
        (run (.bracket b opener items :: stack) (ts ++ rest)).result = .error .exhausted := by
  apply derivation_induction
  case leaf =>
    intro t v hl stack hstack hdeep rest
    rw [hl.nestingFrom_eq] at hdeep
    omega
  case quoted =>
    intro q ts v hq hv ih stack hstack hdeep rest
    have hopen : openAfter (weights stack) q = weights (.quote :: stack) := by
      rw [openAfter, hq]
      rfl
    have hstep : step q (ts ++ rest) stack = enter .quote stack := by
      rw [step_quote hq, atEnd_append_of_derives hv]
      rfl
    rw [nestingFrom, hopen, lt_max_iff, or_iff_right (Nat.not_lt.2 hstack)] at hdeep
    rw [List.cons_append, run, hstep]
    rcases Nat.lt_or_ge allowance (weights (.quote :: stack)).sum with hlt | hle
    · rw [enter_of_lt hlt]
    · rw [enter_of_sum hle]
      exact ih _ hle hdeep rest
  case brackets =>
    intro b o c ts vs v ho hvs hc hv ih stack hstack hdeep rest
    have hstep : step o (ts ++ [c] ++ rest) stack = enter (.bracket b o []) stack := by
      rw [step_of_begins (by rw [ho]; rfl), beginWith, ho]
    rw [nestingFrom_brackets ho hc hvs] at hdeep
    rw [List.cons_append, run, hstep]
    rcases Nat.lt_or_ge allowance (weights (.bracket b o [] :: stack)).sum with hlt | hle
    · rw [enter_of_lt hlt]
    · rw [enter_of_sum hle, List.append_assoc]
      exact ih hle hdeep ([c] ++ rest)
  case nil =>
    intro b opener items stack hstack hdeep rest
    exact absurd hdeep (Nat.not_lt.2 hstack)
  case cons =>
    intro ts ts' v vs hv _ ihv ihvs b opener items stack hstack hdeep rest
    rw [nestingFrom_cons_derives hv, lt_max_iff] at hdeep
    rw [List.append_assoc]
    rcases Nat.lt_or_ge allowance (nestingFrom (2 :: weights stack) ts) with hlt | hle
    · exact ihv (.bracket b opener items :: stack) hstack hlt (ts' ++ rest)
    · -- the first expression is read as an item, and the others are too deep
      rw [runs_of_derivations.1 hv (.bracket b opener items :: stack) hle]
      exact ihvs hstack (hdeep.resolve_left (Nat.not_lt.2 hle)) rest

end Reader

theorem parse_tooDeep_of_derives {ts : List Token} {v : Value} (hv : Derives ts v)
    (hdeep : Reader.allowance < nesting ts) (rest : List Token) :
    parse (ts ++ rest) = .error .tooDeep := by
  have hresult : (Reader.readExpr (ts ++ rest)).result = .error .exhausted :=
    Reader.exhausted_of_derivations.1 hv [] (Nat.zero_le _) hdeep rest
  cases hr : Reader.readExpr (ts ++ rest) with
  | mk result left =>
    rw [hr] at hresult
    cases hresult
    rw [parse, Reader.readAll_of_readExpr_error (Reader.atEnd_append_of_derives hv rest) hr]
    rfl

theorem printable_of_readSource_toText {v : Value} (h : readSource v.toText = .ok v) :
    v.printable = true :=
  ((readSource_toText_of_wellRead (wellRead_of_readSource h)).1 h).1

/-- A printable value comes back from its text unless that is nested too deeply. -/
theorem readSource_toText {v : Value} (h : v.printable = true) : readSource v.toText =
    if v.nesting ≤ Reader.allowance then .ok v else .error (.syntactic .tooDeep) := by
  rcases lex_toText (Value.wellRead_of_printable v h) with
    ⟨hbad, -⟩ | ⟨ts, w, t, hw, hiff, hnesting, ht, hts⟩
  · rw [h] at hbad
    cases hbad
  · obtain rfl := hiff.2 h
    unfold readSource
    rw [hts, ← hnesting]
    by_cases hdepth : nesting ts ≤ Reader.allowance
    · have hparse : parse (ts ++ [t]) = .ok w :=
        (parse_eq_ok_iff (kind_ne_eof_of_derivations.1 hw) ht).2 ⟨hw, hdepth⟩
      simp only [hparse, if_pos hdepth]
    · have hparse := parse_tooDeep_of_derives hw (Nat.not_le.1 hdepth) [t]
      simp only [hparse, if_neg hdepth]

/-- The text of a closure without parameters has round brackets with nothing between them. -/
theorem lex_toText_closure_nil {body : Value} (hbody : body.printable = true) (scope : ScopeId)
    (serial : Nat) : ∃ rest, lex (Value.closure [] body scope serial).toText = .ok
      (⟨.opener .round, "(", 0, .nothing⟩ :: ⟨.symbol, "lambda", 1, .text "lambda"⟩ ::
        ⟨.opener .round, "(", 8, .nothing⟩ :: ⟨.closer .round, ")", 9, .nothing⟩ :: rest) := by
  have htext : (Value.closure [] body scope serial).toText.toList = Bracket.round.opening ::
      ("lambda".toList ++ ' ' :: Bracket.round.opening :: Bracket.round.closing :: ' ' ::
        (body.chars ++ [Bracket.round.closing])) := by
    rw [Value.toText, String.toList_ofList]
    show "(lambda ".toList ++ Bracket.round.surround (spaced []) ++ [' '] ++ body.chars ++ [')'] = _
    simp [spaced, Bracket.surround, Bracket.opening, Bracket.closing]
  have hword (rest : List Char) : Lexer.scan 1 ("lambda".toList ++ ' ' :: rest) =
      (Lexer.scan 8 rest).map (⟨.symbol, "lambda", 1, .text "lambda"⟩ :: ·) := by
    have hsymbol : Lexer.isSymbol "lambda".toList = true := by decide
    obtain ⟨hne, hchars⟩ := Lexer.isWordChar_of_isSymbol hsymbol
    have hrest : Lexer.Delimited (' ' :: rest) := rfl
    rw [Lexer.scan_word hne hchars hrest (Lexer.judgeWord_symbol hsymbol),
      Lexer.scan_blank (by decide), String.ofList_toList]
    rfl
  rw [lex, htext, Lexer.scan_opening, hword, Lexer.scan_opening, Lexer.scan_closing,
    Lexer.scan_blank (by decide)]
  rcases rereads_of_wellRead body (Value.wellRead_of_printable body hbody) 11
      [Bracket.round.closing] rfl with ⟨hbad, -⟩ | ⟨ts, w, -, -, -, hscan⟩
  · rw [hbody] at hbad
    cases hbad
  · refine ⟨ts ++ [⟨.closer .round, ")", 11 + body.chars.length, .nothing⟩,
      Token.ending (11 + body.chars.length + 1)], ?_⟩
    change Except.map _ (Except.map _ (Except.map _ (Except.map _
      (Lexer.scan 11 (body.chars ++ [Bracket.round.closing]))))) = _
    rw [hscan, Lexer.scan_closing, Lexer.scan_nil]
    rfl

theorem readSource_toText_closure_nil {body : Value} (hbody : body.printable = true)
    (scope : ScopeId) (serial : Nat) :
    readSource (Value.closure [] body scope serial).toText =
      .error (.syntactic (.emptyForm 8)) := by
  obtain ⟨rest, hlex⟩ := lex_toText_closure_nil hbody scope serial
  unfold readSource
  rw [hlex]
  rfl

/-! ## Evaluating a literal -/

section Evaluating

variable {depth : Nat} {scope : ScopeId} {st : Store}

open Eval Value

theorem evaluateDictionary_of_eachPair {frames : Nat} {entries : List Value}
    {ps : List (String × Value)} (heven : entries.length % 2 = 0)
    (h : eachPair frames (evaluate frames depth scope) entries st = .ok ps st) :
    evaluateDictionary (frames + 1) depth scope entries st = .ok (.dictionary ps) st := by
  rw [evaluateDictionary]
  cases hlast : entries.getLast? with
  | none =>
    rw [List.getLast?_eq_none_iff.1 hlast, eachPair] at h
    cases h
    rfl
  | some key =>
    dsimp only
    rw [if_neg (not_not.2 heven), EStateM.bind_of_ok h]
    rfl

theorem length_literalPairs (ps : List (String × Value)) :
    (literalPairs ps).length = 2 * ps.length := by
  induction ps with
  | nil => simp only [literalPairs, List.length_nil]
  | cons p ps ih =>
    rw [literalPairs, List.length_cons, List.length_cons, ih, List.length_cons]
    omega

mutual

theorem evaluate_literal : (v : Value) → v.isData = true → ∀ {frames : Nat},
    v.literal.nesting < frames → evaluate frames depth scope v.literal st = .ok v st
  | .atom a, _, frames + 1, _ => by
    simp only [literal, evaluate]
    rfl
  | .list .vector items, h, frames, hframes => by
    rw [isData] at h
    rw [literal, Value.nesting] at hframes
    obtain ⟨k, rfl⟩ : ∃ k, frames = k + 2 := ⟨frames - 2, by omega⟩
    have hitems : evaluateAll (k + 1) depth scope (literalAll items) st = .ok items st := by
      rw [evaluateAll]
      exact each_literalAll items h (by omega)
    rw [literal, evaluate, EStateM.bind_of_ok hitems]
    rfl
  | .dictionary pairs, h, frames, hframes => by
    rw [isData] at h
    rw [literal, Value.nesting] at hframes
    obtain ⟨k, rfl⟩ : ∃ k, frames = k + 2 := ⟨frames - 2, by omega⟩
    rw [literal, evaluate]
    exact evaluateDictionary_of_eachPair (by rw [length_literalPairs]; omega)
      (eachPair_literalPairs pairs h (by omega))
  | .list .plain _, h, _, _ | .symbol _, h, _, _ | .braces _, h, _, _ | .native .., h, _, _
  | .closure .., h, _, _ | .nothing, h, _, _ => by simp [isData] at h

theorem each_literalAll : (vs : List Value) → isDataAll vs = true → ∀ {frames : Nat},
    nestingAll (literalAll vs) < frames →
    each (evaluate frames depth scope) (literalAll vs) st = .ok vs st
  | [], _, _, _ => by rw [literalAll, each]; rfl
  | v :: rest, h, frames, hframes => by
    rw [isDataAll, Bool.and_eq_true] at h
    rw [literalAll, nestingAll, max_lt_iff] at hframes
    rw [literalAll, each, EStateM.bind_of_ok (evaluate_literal v h.1 hframes.1),
      EStateM.bind_of_ok (each_literalAll rest h.2 hframes.2)]
    rfl

theorem eachPair_literalPairs : (ps : List (String × Value)) → isDataPairs ps = true →
    ∀ {frames : Nat}, nestingAll (literalPairs ps) < frames →
    eachPair frames (evaluate frames depth scope) (literalPairs ps) st = .ok ps st
  | [], _, _, _ => by rw [literalPairs, eachPair]; rfl
  | (key, v) :: rest, h, frames, hframes => by
    rw [isDataPairs, Bool.and_eq_true, Bool.and_eq_true] at h
    rw [literalPairs, nestingAll, nestingAll, max_lt_iff, max_lt_iff] at hframes
    rw [literalPairs, eachPair, EStateM.bind_of_ok (evaluate_literal v h.1.2 hframes.2.1),
      EStateM.bind_of_ok (eachPair_literalPairs rest h.2 hframes.2.2)]
    rfl

end

theorem symbolNames_map_symbol (names : List String) :
    symbolNames (names.map .symbol) = .ok names := by
  induction names with
  | nil => rfl
  | cons name names ih =>
    rw [List.map_cons, symbolNames, ih]
    rfl

theorem evaluate_literal_closure (params : List String) (body : Value) (serial : Nat)
    {frames : Nat} (hframes : 3 ≤ frames) :
    evaluate frames depth scope (closure params body scope serial).literal st =
      .ok (closure params body scope (st.made scope)) (st.mint scope) := by
  obtain ⟨k, rfl⟩ : ∃ k, frames = k + 3 := ⟨frames - 3, by omega⟩
  have hform : Form.ofName? Form.lambda.name = some .lambda := by decide
  have hparams : (list .plain (params.map .symbol)).params = .ok params :=
    symbolNames_map_symbol params
  simp only [literal, evaluate, evaluateApplication, hform, evaluateForm, hparams]
  rfl

end Evaluating

/-! ## Running a text -/

/-- What comes of running a text that is read as a literal: the reader and the call depth may refuse
it, and else it is evaluated. -/
theorem Store.runSource_of_printable {st st' : Store} {settings : Settings} {scope : ScopeId}
    {v w : Value} (hv : v.literal.printable = true)
    (heval : ∀ frames, baseFrames ≤ frames → v.literal.nesting ≤ Reader.allowance →
      MiniLisp.evaluate frames settings.callDepth scope v.literal st = .ok w st') :
    st.runSource settings scope v.toText =
      if v.literal.nesting ≤ Reader.allowance then
        if frameAllowance settings.callDepth ≤ maxFrames then (.ok w, st')
        else (.error (.fault .tooManyFrames), st)
      else (.error (.syntactic .tooDeep), st) := by
  rw [runSource, ← Value.toText_literal, readSource_toText hv]
  by_cases hdepth : v.literal.nesting ≤ Reader.allowance
  · simp only [if_pos hdepth, run]
    rcases Nat.lt_or_ge maxFrames (frameAllowance settings.callDepth) with hlt | hle
    · rw [evaluate_of_lt st scope _ hlt, if_neg (Nat.not_le.2 hlt)]
    · have hbase : baseFrames ≤ activationFrames settings.callDepth := by
        have hpos := settings.callDepth_pos
        simp only [activationFrames, frameAllowance, baseFrames, framesPerCall, reservedFrames]
        omega
      rw [evaluate_of_le st scope _ hle, heval _ hbase hdepth, if_pos hle]
  · simp only [if_neg hdepth]

/-- Plain data come back when their text is run, in any scope, and a closure with parameters when
its text is run in the scope of the closure, as one more that is made there. Nothing is printed or
bound. The text is refused exactly if it is nested too deeply, or if the closure has no parameters;
and it is not evaluated if the call depth asks for more frames than there can be. -/
theorem runSource_toText (st : Store) (settings : Settings) (scope : ScopeId) :
    (∀ v : Value, v.isData = true →
      st.runSource settings scope v.toText =
        if v.literal.nesting ≤ Reader.allowance then
          if frameAllowance settings.callDepth ≤ maxFrames then (.ok v, st)
          else (.error (.fault .tooManyFrames), st)
        else (.error (.syntactic .tooDeep), st)) ∧
    (∀ (params : List String) (body : Value) (serial : Nat),
      (∀ p ∈ params, Value.isSymbolName p = true) → readSource body.toText = .ok body →
      st.runSource settings scope (Value.closure params body scope serial).toText =
        if params = [] then (.error (.syntactic (.emptyForm 8)), st)
        else if (Value.closure params body scope serial).literal.nesting ≤ Reader.allowance then
          if frameAllowance settings.callDepth ≤ maxFrames then
            (.ok (.closure params body scope (st.made scope)), st.mint scope)
          else (.error (.fault .tooManyFrames), st)
        else (.error (.syntactic .tooDeep), st)) ∧
    (st.mint scope).output = st.output ∧
      ∀ id name, (st.mint scope).valueAt? id name = st.valueAt? id name := by
  refine ⟨fun v hv => ?_, fun params body serial hparams hread => ?_, rfl, st.valueAt?_mint scope⟩
  · refine Store.runSource_of_printable (Value.printable_literal v hv)
      fun frames hbase hdepth => evaluate_literal v hv ?_
    exact Nat.lt_of_lt_of_le (Nat.lt_of_le_of_lt hdepth (by decide)) hbase
  · have hbody := printable_of_readSource_toText hread
    by_cases hne : params = []
    · subst hne
      rw [Store.runSource, readSource_toText_closure_nil hbody, if_pos rfl]
    · rw [if_neg hne]
      refine Store.runSource_of_printable
        (Value.printable_literal_closure scope serial hne hparams hbody)
        fun frames hbase _ => evaluate_literal_closure params body serial ?_
      exact Nat.le_trans (by decide) hbase

/-- A key twice, an empty dictionary and an escaped text inside a vector, and a closure that uses a
parameter name twice. -/
theorem runSource_toText_nested :
    let st := Store.pushGlobal {} 0
    let v : Value := .list .vector [.number (-0.5), .dictionary [("k", .boolean true),
      ("k", .list .vector []), ("", .dictionary [])], .text "a\"\n\\"]
    let body : Value := .list .plain [.symbol "add", .symbol "x", .braces [.text "k"]]
    let f : Value := .closure ["x", "y", "x"] body 0 0
    v.isData = true ∧ readSource body.toText = .ok body ∧
      st.runSource {} 0 v.toText = (.ok v, st) ∧ st.runSource {} 0 f.toText = (.ok f, st.mint 0) ∧
      st.runSource { callDepth := 42949653 } 0 v.toText = (.error (.fault .tooManyFrames), st) := by
  intro st v body f
  obtain ⟨hdata, hclosure, -⟩ := runSource_toText st {} 0
  have hv : v.isData = true := by decide +kernel
  have hdepth : v.literal.nesting ≤ Reader.allowance := by decide +kernel
  have hbody : readSource body.toText = .ok body :=
    (readSource_toText (by decide)).trans (if_pos (by decide))
  refine ⟨hv, hbody, ?_, ?_, ?_⟩
  · exact (hdata v hv).trans ((if_pos hdepth).trans (if_pos (by decide)))
  · exact (hclosure ["x", "y", "x"] body 0 (by decide) hbody).trans
      ((if_neg (by decide)).trans ((if_pos (by decide)).trans (if_pos (by decide))))
  · exact ((runSource_toText st { callDepth := 42949653 } 0).1 v hv).trans
      ((if_pos hdepth).trans (if_neg (by decide)))

end MiniLisp
