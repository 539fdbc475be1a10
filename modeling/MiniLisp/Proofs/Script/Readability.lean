import MiniLisp.Proofs.Script.Lexemes
import MiniLisp.Proofs.Script.Unambiguity
import MiniLisp.Proofs.Script.WellFormed

/-!
# Printed scripts read one way

The text of a well-formed script reads as this script and as no other (`reads_print_iff`). The
lexer finds the lexemes that were printed (`lex_toText`), and they are derived as the script
(`derives_tokens`) and as nothing else (`eq_of_derives`). Both go by induction on the script: an
operand is printed without signs outside of brackets (`tight_tokens`), so the lemmas about the last
rule of a derivation apply to each form.
-/

namespace MiniLisp.Script

variable {l : Nat} {t : Token} {ts : List Token} {s : Script}

theorem Token.listed_single (x : List Token) : Token.listed [x] = x := by
  simp [Token.listed]

theorem Token.listed_cons (x y : List Token) (parts : List (List Token)) :
    Token.listed (x :: y :: parts) = x ++ .sign "," :: Token.listed (y :: parts) := by
  rw [Token.listed, List.intercalate_cons_cons, List.append_assoc]
  rfl

/-! ## Literals -/

theorem mem_literalWords {name : String} {a : Atom}
    (h : (Token.word name).literal? = some a) : name ∈ literalWords := by
  unfold Token.literal? at h
  split at h <;> simp_all [literalWords]

/-- A number is one lexeme, or a minus and a lexeme. -/
theorem numberTokens_cases {x : Float} (h : x.isNaN = false) :
    (∃ t, numberTokens x = [t] ∧ t.literal? = some (.number x) ∧
        (Layout.script.numberText x).head? ≠ some '-') ∨
      ∃ t y, numberTokens x = [.sign "-", t] ∧ t.literal? = some (.number y) ∧ -y = x ∧
        (Layout.script.numberText x).head? = some '-' := by
  have hx := ofModel_pack_unpack x
  rw [numberTokens, Layout.numberText]
  cases hunpack : x.toModel.unpack with
  | notANumber =>
    have hnan : x.isNaN = x.toModel.unpack.isNaN := rfl
    rw [hnan, hunpack] at h
    cases h
  | infinity s =>
    rw [hunpack] at hx
    cases s with
    | positive => exact .inl ⟨_, rfl, by rw [← hx]; rfl, (by decide : some 'I' ≠ some '-')⟩
    | negative => exact .inr ⟨.word "Infinity", 1 / 0, rfl, rfl, by rw [← hx]; decide, rfl⟩
  | zero s =>
    rw [hunpack] at hx
    cases s with
    | positive => exact .inl ⟨_, rfl, by rw [← hx]; rfl, (by decide : some '0' ≠ some '-')⟩
    | negative => exact .inr ⟨.number 0, 0, rfl, rfl, by rw [← hx]; decide, rfl⟩
  | finite s m e hm =>
    have hc := Decimal.coefficient_pos_of_toFloat hunpack (Decimal.toFloat_shortest hunpack)
    obtain ⟨c, cs, htext, hdigit, -⟩ := decimalText_eq_cons hc
    cases s with
    | positive =>
      refine .inl ⟨_, rfl, by rw [abs_eq_self hunpack]; rfl, ?_⟩
      change (Layout.canonical.decimalText _).head? ≠ _
      rw [htext]
      rintro ⟨⟩
      cases hdigit
    | negative => exact .inr ⟨.number x.abs, x.abs, rfl, rfl, neg_abs_eq_self hunpack, rfl⟩

/-! ## Existence -/

/-- Expressions that are printed with brackets where they are nested. -/
theorem derives_wrap (h : Derives Level.comma ts s) :
    Derives Level.call (wrapTokens true ts) s ∧ Derives Level.comma (wrapTokens false ts) s :=
  ⟨.group h, h⟩

theorem not_mem_literalWords {name : String} (h : isIdentifier name = true) :
    name ∉ literalWords := by
  unfold isIdentifier at h
  split at h
  · cases h
  · simpa using (Bool.and_eq_true_iff.1 h).2

/-- The operator with a sign. -/
theorem exists_operator {op : String}
    (h : (Operator.all.map Operator.sign).contains op = true) : ∃ o : Operator, o.sign = op := by
  obtain ⟨o, -, ho⟩ := List.mem_map.1 (List.contains_iff_mem.1 h)
  exact ⟨o, ho⟩

mutual

/-- The lexemes of a printed script write it: as tightly as a call where it is nested. -/
theorem derives_tokens : (s : Script) → s.wellFormed = true →
    Derives Level.call (s.tokens true) s ∧ Derives Level.comma (s.tokens false) s
  | .literal (.number x), h => by
    rw [tokens, tokens, literalTokens, literalTokens]
    rcases numberTokens_cases (by simpa [wellFormed, notNaN] using h) with
      ⟨t, htokens, hliteral, hhead⟩ | ⟨t, y, htokens, hliteral, rfl, hhead⟩
    · simp only [htokens, beq_false_of_ne hhead, Bool.and_false]
      exact ⟨.literal hliteral, .literal hliteral⟩
    · rw [htokens, hhead]
      exact derives_wrap (.negative (by decide) hliteral)
  | .literal (.boolean b), _ => by cases b <;> exact ⟨.literal rfl, .literal rfl⟩
  | .literal (.text s), _ => ⟨.literal rfl, .literal rfl⟩
  | .identifier name, h =>
    ⟨.identifier (not_mem_literalWords h), .identifier (not_mem_literalWords h)⟩
  | .binary op left right, h => by
    simp only [wellFormed, Bool.and_eq_true] at h
    obtain ⟨⟨hop, hleft⟩, hright⟩ := h
    obtain ⟨o, rfl⟩ := exists_operator hop
    exact derives_wrap (.binary o (Nat.zero_le _)
      ((derives_tokens left hleft).1.mono (by cases o <;> decide))
      ((derives_tokens right hright).1.mono (by cases o <;> decide)))
  | .array items, h => ⟨.array (derives_items items h), .array (derives_items items h)⟩
  | .call callee args, h => by
    simp only [wellFormed, Bool.and_eq_true] at h
    have hcallee := (derives_tokens callee h.1).1
    have hargs := derives_items args h.2
    exact ⟨.call hcallee hargs, .call hcallee hargs⟩
  | .function params body, h => by
    simp only [wellFormed, Bool.and_eq_true] at h
    obtain ⟨hparams, hbody⟩ := h
    exact derives_wrap (.function (by decide)
      (fun p hp => not_mem_literalWords (List.all_eq_true.1 hparams p hp))
      ((derives_tokens body hbody).1.mono (by decide)))
  | .sequence items, h => by
    simp only [wellFormed, Bool.and_eq_true, decide_eq_true_eq] at h
    have hitems := Derives.sequence (derives_items items h.2) h.1
    exact ⟨.group hitems, .group hitems⟩
  | .conditional test yes no, h => by
    simp only [wellFormed, Bool.and_eq_true] at h
    obtain ⟨⟨htest, hyes⟩, hno⟩ := h
    exact derives_wrap (.conditional (by decide) ((derives_tokens test htest).1.mono (by decide))
      ((derives_tokens yes hyes).1.mono (by decide)) ((derives_tokens no hno).1.mono (by decide)))
  | .assignment (.identifier name) value, h => by
    simp only [wellFormed, Bool.and_eq_true] at h
    exact derives_wrap (.assignment (by decide) (.identifier (not_mem_literalWords h.1))
      ((derives_tokens value h.2).1.mono (by decide)))

theorem derives_items : (items : List Script) → wellFormedAll items = true →
    DerivesList (Token.listed (itemTokens items)) items
  | [], _ => .nil
  | [s], h => by
    rw [wellFormedAll, Bool.and_eq_true] at h
    rw [itemTokens, itemTokens, Token.listed_single]
    exact .single ((derives_tokens s h.1).1.mono (by decide))
  | s :: s' :: rest, h => by
    rw [wellFormedAll, Bool.and_eq_true] at h
    rw [itemTokens, itemTokens, Token.listed_cons]
    exact .cons ((derives_tokens s h.1).1.mono (by decide)) (derives_items (s' :: rest) h.2)
      (List.cons_ne_nil _ _)

end

/-! ## Uniqueness -/

/-- The name that a lexeme is. -/
def Token.name? : Token → Option String
  | .word name => some name
  | _ => none

/-- The names of parameters are found in their lexemes. -/
theorem filterMap_params (params : List String) :
    (Token.listed (params.map fun p => [.word p])).filterMap Token.name? = params := by
  induction params with
  | nil => rfl
  | cons p params ih =>
    cases params with
    | nil => rfl
    | cons q params =>
      rw [List.map_cons, List.map_cons, Token.listed_cons]
      exact congrArg (p :: ·) ih

theorem params_inj {params params' : List String}
    (h : Token.listed (params.map fun p => [.word p]) =
      Token.listed (params'.map fun p => [.word p])) : params = params' := by
  rw [← filterMap_params params, h, filterMap_params]

theorem eq_of_derives_literal {a : Atom} (ht : t.literal? = some a) (h : Derives l [t] s) :
    s = .literal a := by
  rcases h.of_single (tight_literal ht) with ⟨b, hb, rfl⟩ | ⟨name, rfl, hname, -⟩
  · rw [ht] at hb
    cases hb
    rfl
  · exact absurd (mem_literalWords ht) hname

theorem eq_of_derives_negative {x : Float} (ht : t.literal? = some (.number x))
    (h : Derives l [.sign "-", t] s) : s = .literal (.number (-x)) := by
  have hsplit : Split "-" [] [t] s := Derives.split h (show Balanced [] from rfl) rfl
    (tight_literal ht).outer_eq (by decide)
  cases hsplit with
  | negative _ _ hlast hliteral =>
    cases hlast
    rw [ht] at hliteral
    cases hliteral
    rfl
  | binary _ _ hleft _ => exact absurd rfl hleft.shape.ne_nil
  | function hr _ _ => exact absurd hr (by decide)
  | function₁ hr _ _ => exact absurd hr (by decide)
  | assignment hr _ _ => exact absurd hr (by decide)

theorem eq_of_derives_identifier {name : String} (hname : name ∉ literalWords)
    (h : Derives l [.word name] s) : s = .identifier name := by
  rcases h.of_single (tight_word name) with ⟨a, ha, -⟩ | ⟨name', heq, -, rfl⟩
  · exact absurd (mem_literalWords ha) hname
  · cases heq
    rfl

theorem tight_tokens (h : s.wellFormed = true) : Tight (s.tokens true) :=
  (derives_tokens s h).1.shape.isTight

/-- Brackets around a nested expression do not change what it writes. -/
theorem Derives.of_wrap {nested : Bool} (h : Derives l (wrapTokens nested ts) s)
    (hts : Balanced ts) : ∃ k, Derives k ts s := by
  cases nested with
  | false => exact ⟨l, h⟩
  | true =>
    rcases Derives.of_surround h hts with ⟨-, hgroup⟩ | ⟨hb, -⟩
    · exact ⟨_, hgroup⟩
    · cases hb

/-- Lexemes of nested scripts with a sign between them. -/
theorem Derives.of_wrap_sign {nested : Bool} {r : String} {x y : List Token}
    (h : Derives l (wrapTokens nested (x ++ .sign r :: y)) s) (hx : Tight x) (hy : Tight y)
    (hr : r ≠ ",") : Split r x y s := by
  obtain ⟨k, h⟩ := h.of_wrap (hx.balanced.append (hy.balanced.cons_sign r))
  exact h.split hx.balanced hx.outer_eq hy.outer_eq hr

/-- The only signs outside of brackets in a printed list are commas. -/
theorem outer_items : (items : List Script) → wellFormedAll items = true →
    ∀ r ∈ outer 0 (Token.listed (itemTokens items)), r = ","
  | [], _ => nofun
  | [s], h => by
    rw [wellFormedAll, Bool.and_eq_true] at h
    rw [itemTokens, itemTokens, Token.listed_single, (tight_tokens h.1).outer_eq]
    nofun
  | s :: s' :: rest, h => by
    rw [wellFormedAll, Bool.and_eq_true] at h
    have hs := tight_tokens h.1
    rw [itemTokens, itemTokens, Token.listed_cons, outer_append_sign hs.balanced, hs.outer_eq]
    exact List.forall_mem_cons.2 ⟨rfl, outer_items (s' :: rest) h.2⟩

mutual

/-- The lexemes of a printed script write no other script. -/
theorem eq_of_derives : (s : Script) → s.wellFormed = true → ∀ {nested l t},
    Derives l (s.tokens nested) t → t = s
  | .literal (.number x), h, nested, l, t, ht => by
    rw [tokens, literalTokens] at ht
    rcases numberTokens_cases (by simpa [wellFormed, notNaN] using h) with
      ⟨u, htokens, hliteral, hhead⟩ | ⟨u, y, htokens, hliteral, rfl, -⟩
    · simp only [htokens, beq_false_of_ne hhead, Bool.and_false] at ht
      exact eq_of_derives_literal hliteral ht
    · rw [htokens] at ht
      obtain ⟨k, ht⟩ := ht.of_wrap ((tight_literal hliteral).balanced.cons_sign "-")
      exact eq_of_derives_negative hliteral ht
  | .literal (.boolean b), _, nested, l, t, ht => by
    cases b <;> exact eq_of_derives_literal rfl ht
  | .literal (.text s), _, nested, l, t, ht => eq_of_derives_literal rfl ht
  | .identifier name, h, nested, l, t, ht => eq_of_derives_identifier (not_mem_literalWords h) ht
  | .binary op left right, h, nested, l, t, ht => by
    simp only [wellFormed, Bool.and_eq_true] at h
    obtain ⟨⟨hop, hleft⟩, hright⟩ := h
    obtain ⟨o, rfl⟩ := exists_operator hop
    obtain ⟨hcomma, hassign, harrow, -⟩ := Operator.sign_ne o
    cases Derives.of_wrap_sign ht (tight_tokens hleft) (tight_tokens hright) hcomma with
    | negative _ hx _ _ => exact absurd hx (tight_tokens hleft).ne_nil
    | binary o' hsign hleft' hright' =>
      rw [hsign, eq_of_derives left hleft hleft', eq_of_derives right hright hright']
    | function hr _ _ => exact absurd hr harrow
    | function₁ hr _ _ => exact absurd hr harrow
    | assignment hr _ _ => exact absurd hr hassign
  | .array items, h, nested, l, t, ht => by
    rcases Derives.of_surround ht (derives_items items h).balanced with
      ⟨hb, -⟩ | ⟨-, items', rfl, hitems⟩
    · cases hb
    · rw [eq_of_derives_items items h hitems]
  | .call callee args, h, nested, l, t, ht => by
    simp only [wellFormed, Bool.and_eq_true] at h
    obtain ⟨callee', args', rfl, hcallee, hargs⟩ :=
      Derives.of_call ht (tight_tokens h.1) (derives_items args h.2).balanced
    rw [eq_of_derives callee h.1 hcallee, eq_of_derives_items args h.2 hargs]
  | .function params body, h, nested, l, t, ht => by
    simp only [wellFormed, Bool.and_eq_true] at h
    -- the arrow tells the rule, and the brackets before it hold the parameters
    cases Derives.of_wrap_sign ht (Tight.surround .round (balanced_params params))
      (tight_tokens h.2) (by decide) with
    | negative _ hx _ _ => cases hx
    | binary o hr _ _ => exact absurd hr.symm (Operator.sign_ne o).2.2.1
    | function _ hparams hbody =>
      rw [params_inj (surround_inj hparams).2, eq_of_derives body h.2 hbody]
    | function₁ _ hx _ => exact (append_surround_ne_single (x := []) hx).elim
    | assignment hr _ _ => exact absurd hr (by decide)
  | .sequence items, h, nested, l, t, ht => by
    simp only [wellFormed, Bool.and_eq_true, decide_eq_true_eq] at h
    have hitems := derives_items items h.2
    rcases Derives.of_surround ht hitems.balanced with ⟨-, ht⟩ | ⟨hb, -⟩
    · -- commas are the only signs outside, so it is no conditional
      have hcomma := hitems.comma_mem h.1
      have hcommas := outer_items items h.2
      rcases ht.of_outer (List.ne_nil_of_mem hcomma) fun r hr => .inl (hcommas r hr) with
        ⟨x, y, z, test, yes, no, htokens, -, htest, -⟩ | ⟨items', rfl, hitems', -⟩
      · have hquestion : "?" ∈ outer 0 (Token.listed (itemTokens items)) := by
          rw [htokens, outer_append_sign htest.shape.balanced]
          simp
        exact absurd (hcommas _ hquestion) (by decide)
      · rw [eq_of_derives_items items h.2 hitems']
    · cases hb
  | .conditional test yes no, h, nested, l, t, ht => by
    simp only [wellFormed, Bool.and_eq_true] at h
    obtain ⟨⟨htest, hyes⟩, hno⟩ := h
    have hbalanced : Balanced (test.tokens true ++ .sign "?" ::
        (yes.tokens true ++ .sign ":" :: no.tokens true)) :=
      (tight_tokens htest).balanced.append (((tight_tokens hyes).balanced.append
        ((tight_tokens hno).balanced.cons_sign ":")).cons_sign "?")
    obtain ⟨k, ht⟩ := Derives.of_wrap ht hbalanced
    obtain ⟨test', yes', no', rfl, htest', hyes', hno'⟩ :=
      ht.ternary (tight_tokens htest) (tight_tokens hyes) (tight_tokens hno)
    rw [eq_of_derives test htest htest', eq_of_derives yes hyes hyes', eq_of_derives no hno hno']
  | .assignment (.identifier name) value, h, nested, l, t, ht => by
    simp only [wellFormed, Bool.and_eq_true] at h
    have hname := not_mem_literalWords h.1
    cases Derives.of_wrap_sign ht (tight_word name) (tight_tokens h.2) (by decide) with
    | negative _ hx _ _ => cases hx
    | binary o hr _ _ => exact absurd hr.symm (Operator.sign_ne o).2.1
    | function hr _ _ => exact absurd hr (by decide)
    | function₁ hr _ _ => exact absurd hr (by decide)
    | assignment _ htarget hvalue =>
      rw [eq_of_derives_identifier hname htarget, eq_of_derives value h.2 hvalue]

theorem eq_of_derives_items : (items : List Script) → wellFormedAll items = true →
    ∀ {items'}, DerivesList (Token.listed (itemTokens items)) items' → items' = items
  | [], _, _, h' => h'.of_nil
  | [s], h, items', h' => by
    rw [wellFormedAll, Bool.and_eq_true] at h
    rw [itemTokens, itemTokens, Token.listed_single] at h'
    obtain ⟨t, rfl, ht⟩ := h'.of_tight (tight_tokens h.1)
    rw [eq_of_derives s h.1 ht]
  | s :: s' :: rest, h, items', h' => by
    rw [wellFormedAll, Bool.and_eq_true] at h
    rw [itemTokens, itemTokens, Token.listed_cons] at h'
    obtain ⟨t, rest', rfl, ht, hrest⟩ := h'.of_cons (tight_tokens h.1)
    rw [eq_of_derives s h.1 ht, eq_of_derives_items (s' :: rest) h.2 hrest]

end

/-! ## Texts -/

mutual

/-- The frames that it takes to write the text of a tree. -/
def textFrames : Script → Nat
  | .binary _ left right => 1 + max (textFrames left) (textFrames right)
  | .array items | .sequence items => 3 + textFramesAll items
  | .call callee args => 1 + max (textFrames callee) (2 + textFramesAll args)
  | .function _ body => 1 + textFrames body
  | .conditional test yes no =>
    1 + max (textFrames test) (max (textFrames yes) (textFrames no))
  | .assignment target value => 1 + max (textFrames target) (textFrames value)
  | .literal _ | .identifier _ | .hole => 1

/-- The frames that it takes to write the texts of several trees. -/
def textFramesAll : List Script → Nat
  | [] => 0
  | s :: rest => max (textFrames s) (textFramesAll rest)

end

mutual

/-- The way through a tree without holes is open if there are frames for it. -/
theorem walk_of_wellFormed : (s : Script) → s.wellFormed = true → ∀ frames,
    s.walk frames = afford (.host .recursion) s.textFrames frames ()
  | .literal _, _, _ | .identifier _, _, _ => rfl
  | .binary op left right, h, frames => by
    simp only [wellFormed, Bool.and_eq_true] at h
    simp only [walk, walk_of_wellFormed left h.1.2, walk_of_wellFormed right h.2, afford_bind,
      spend_afford, textFrames]
  | .array items, h, frames => by
    simp only [walk, walkAll_of_wellFormedAll items h, spend_afford, textFrames]
  | .call callee args, h, frames => by
    simp only [wellFormed, Bool.and_eq_true] at h
    simp only [walk, walk_of_wellFormed callee h.1, walkAll_of_wellFormedAll args h.2, afford_bind,
      spend_afford, textFrames]
  | .function params body, h, frames => by
    simp only [wellFormed, Bool.and_eq_true] at h
    simp only [walk, walk_of_wellFormed body h.2, spend_afford, textFrames]
  | .sequence items, h, frames => by
    simp only [wellFormed, Bool.and_eq_true] at h
    simp only [walk, walkAll_of_wellFormedAll items h.2, spend_afford, textFrames]
  | .conditional test yes no, h, frames => by
    simp only [wellFormed, Bool.and_eq_true] at h
    simp only [walk, walk_of_wellFormed test h.1.1, walk_of_wellFormed yes h.1.2,
      walk_of_wellFormed no h.2, afford_bind, spend_afford, textFrames]
  | .assignment (.identifier name) value, h, frames => by
    simp only [wellFormed, Bool.and_eq_true] at h
    have hname (frames : Nat) :
        (identifier name).walk frames = afford (.host .recursion) 1 frames () := rfl
    rw [walk]
    simp only [hname, walk_of_wellFormed value h.2, afford_bind, spend_afford, textFrames]

theorem walkAll_of_wellFormedAll : (items : List Script) → wellFormedAll items = true →
    ∀ frames, walkAll items frames = afford (.host .recursion) (textFramesAll items) frames ()
  | [], _, _ => rfl
  | s :: rest, h, frames => by
    rw [wellFormedAll, Bool.and_eq_true] at h
    simp only [walkAll, walk_of_wellFormed s h.1, walkAll_of_wellFormedAll rest h.2, afford_bind,
      textFramesAll]

end

theorem lex_toText (h : s.wellFormed = true) : lex s.toText.toList = some (s.tokens false) := by
  have hlex := lexes_chars s h false [] stops_nil
  rw [List.append_nil, lex_nil, Option.map_some, List.append_nil] at hlex
  rw [toText, String.toList_ofList, hlex]

end MiniLisp.Script
