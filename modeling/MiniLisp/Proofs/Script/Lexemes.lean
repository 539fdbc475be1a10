import MiniLisp.Proofs.Lexer
import MiniLisp.Proofs.Script.Reader

/-!
# The lexemes of printed scripts

The lexer finds in the text of a script the lexemes that the printer wrote (`lexes_chars`). An
operand is always followed by a blank, a comma or a bracket (`Stops`), so no lexeme runs into the
next one.
-/

namespace MiniLisp.Script

open Float.Model.UnpackedFloat (Sign)

/-- The characters that can follow an operand. -/
def stopChars : List Char := [' ', ',', '(', ')', ']', '\x7d']

/-- What can follow an operand. -/
def Stops (rest : List Char) : Prop := ∀ c ∈ rest.head?, c ∈ stopChars

theorem stops_nil : Stops [] := nofun

theorem stops_cons {c : Char} (h : c ∈ stopChars) (rest : List Char) :
    Stops (c :: rest) := by
  intro d hd
  cases hd
  exact h

/-- No character of a kind can follow an operand, so none is taken. -/
theorem Stops.takeWhile_eq_nil {rest : List Char} (h : Stops rest) {p : Char → Bool}
    (hp : stopChars.any p = false) : rest.takeWhile p = [] := by
  cases rest with
  | nil => rfl
  | cons c rest =>
    have hc : ¬p c = true := List.any_eq_false.1 hp c (h c rfl)
    simp [hc]

/-- A text is cut into lexemes, whatever follows it. -/
def Lexes (cs : List Char) (ts : List Token) : Prop :=
  ∀ rest, Stops rest → lex (cs ++ rest) = (lex rest).map (ts ++ ·)

/-! ## Single lexemes -/

theorem lex_nil : lex [] = some [] := by rw [lex]

theorem lex_blank (rest : List Char) : lex (' ' :: rest) = lex rest := by
  rw [lex, if_pos (by decide)]

theorem lex_of_cut {c : Char} {cs rest : List Char} {t : Token} (hspace : isSpace c = false)
    (h : cut (c :: cs) = some (t, rest)) : lex (c :: cs) = (lex rest).map (t :: ·) := by
  rw [lex, if_neg (by simp [hspace])]
  split
  · rename_i hnone
    rw [h] at hnone
    cases hnone
  · rename_i hsome
    rw [h] at hsome
    cases hsome
    rfl

theorem isSpace_eq_false {p : Char → Bool} {c : Char} (hc : p c = true)
    (hp : spaces.any p = false) : isSpace c = false :=
  Bool.eq_false_iff.2 fun hspace =>
    List.any_eq_false.1 hp c (List.contains_iff_mem.1 hspace) hc

theorem lexes_of_cut {c : Char} {cs : List Char} {t : Token} (hspace : isSpace c = false)
    (h : ∀ rest, Stops rest → cut (c :: (cs ++ rest)) = some (t, rest)) :
    Lexes (c :: cs) [t] :=
  fun rest hrest => lex_of_cut hspace (h rest hrest)

/-! ### Words -/

/-- Whether a text is one word. -/
def isWord (cs : List Char) : Bool :=
  match cs with
  | [] => false
  | c :: cs => isWordStart c && cs.all isWordChar

theorem isWord_of_isIdentifier {name : String} (h : isIdentifier name = true) :
    isWord name.toList = true := by
  rw [isIdentifier] at h
  split at h
  · cases h
  next c cs hname =>
    simp only [Bool.and_eq_true, Bool.or_eq_true] at h
    obtain ⟨⟨hstart, hchars⟩, -⟩ := h
    have hword : isWordStart c = true := by
      rw [isWordStart, Bool.or_eq_true, Bool.or_eq_true]
      exact hstart.imp_left .inl
    rw [hname, isWord, hword, hchars]
    rfl

theorem lexes_word (name : String) (h : isWord name.toList = true) :
    Lexes name.toList [.word name] := by
  obtain ⟨cs, hname⟩ : ∃ cs, cs = name.toList := ⟨_, rfl⟩
  rw [← hname] at h ⊢
  cases cs with
  | nil => cases h
  | cons c cs =>
    obtain ⟨hstart, hchars⟩ := Bool.and_eq_true_iff.1 h
    refine lexes_of_cut (isSpace_eq_false hstart (by decide)) fun rest hrest => ?_
    obtain ⟨htake, hdrop⟩ := takeWhile_dropWhile_append (List.all_eq_true.1 hchars)
      (hrest.takeWhile_eq_nil (by decide))
    rw [cut, if_pos hstart, htake, hdrop, hname, String.ofList_toList]

/-! ### Texts -/

/-- The four digits of a control character are read as it. -/
theorem hexChar?_hex : ∀ n < 0x20, ∃ d₁ d₂ d₃ d₄, Text.hex 4 n = [d₁, d₂, d₃, d₄] ∧
    hexChar? [d₁, d₂, d₃, d₄] = some (Char.ofNat n) := by
  have hdigits : ∀ n < 0x20, (Text.hex 4 n).length = 4 ∧
      hexChar? (Text.hex 4 n) = some (Char.ofNat n) := by decide
  intro n hn
  obtain ⟨hlength, hchar⟩ := hdigits n hn
  obtain ⟨d₁, d₂, d₃, d₄, hhex⟩ := List.length_eq_four.1 hlength
  exact ⟨d₁, d₂, d₃, d₄, hhex, hhex ▸ hchar⟩

theorem textBody_escape (c : Char) (cs : List Char) :
    textBody (Text.escape c ++ cs) = (textBody cs).map fun (body, rest) => (c :: body, rest) := by
  unfold Text.escape
  split_ifs with h₁ h₂ h₃ h₄ h₅ h₆ h₇ h₈
  · rw [h₁]; rfl
  · rw [h₂]; rfl
  · rw [h₃]; rfl
  · rw [h₄]; rfl
  · rw [h₅]; rfl
  · rw [h₆]; rfl
  · rw [h₇]; rfl
  · obtain ⟨d₁, d₂, d₃, d₄, hhex, hchar⟩ := hexChar?_hex _ h₈
    rw [Char.ofNat_toNat] at hchar
    rw [hhex]
    change (hexChar? [d₁, d₂, d₃, d₄]).bind _ = _
    rw [hchar]
    rfl
  · rw [List.singleton_append, textBody]
    · simp [h₂, h₃, h₄]
    · exact h₁
    · exact fun _ _ _ _ _ h => absurd h h₂
    · exact fun _ _ h => absurd h h₂

theorem textBody_quoted (cs rest : List Char) :
    textBody (cs.flatMap Text.escape ++ '"' :: rest) = some (cs, rest) := by
  induction cs with
  | nil => rfl
  | cons c cs ih =>
    rw [List.flatMap_cons, List.append_assoc, textBody_escape, ih]
    rfl

theorem lexes_text (s : String) : Lexes (Text.quoted s.toList) [.text s] := by
  refine lexes_of_cut (by decide) fun rest _ => ?_
  have hbody := textBody_quoted s.toList rest
  change (textBody (s.toList.flatMap Text.escape ++ ['"'] ++ rest)).map _ = _
  rw [List.append_assoc, List.singleton_append, hbody]
  simp

/-! ### Numbers -/

theorem numeralChars_stops {rest : List Char} (h : Stops rest) :
    numeralChars false rest = ([], rest) := by
  cases rest with
  | nil => rfl
  | cons c rest =>
    have hstop : stopChars.any (fun c => isWordChar c || c == '.') = false := by decide
    have hc := List.any_eq_false.1 hstop c (h c rfl)
    rw [numeralChars, if_neg (by simpa using hc)]

/-- Digits and points in front of a number belong to it. -/
theorem numeralChars_append {front cs rest : List Char}
    (hfront : ∀ c ∈ front, c.isDigit = true ∨ c = '.')
    (h : numeralChars false (cs ++ rest) = (cs, rest)) :
    numeralChars false (front ++ cs ++ rest) = (front ++ cs, rest) := by
  induction front with
  | nil => exact h
  | cons c front ih =>
    have hc := hfront c List.mem_cons_self
    have htake : (isWordChar c || c == '.' || false && (c == '+' || c == '-')) = true := by
      rcases hc with hc | rfl
      · simp [isWordChar, Char.isAlphanum, hc]
      · rfl
    have hmark : (c == 'e' || c == 'E') = false := by
      refine Bool.or_eq_false_iff.2 ⟨beq_false_of_ne ?_, beq_false_of_ne ?_⟩
      all_goals
        rintro rfl
        revert hc
        decide
    rw [List.cons_append, List.cons_append, numeralChars, if_pos htake, hmark,
      ih fun d hd => hfront d (List.mem_cons_of_mem c hd)]

theorem numeralChars_plain {cs rest : List Char} (hcs : ∀ c ∈ cs, c.isDigit = true ∨ c = '.')
    (hrest : Stops rest) : numeralChars false (cs ++ rest) = (cs, rest) := by
  have htake := numeralChars_append hcs (show numeralChars false ([] ++ rest) = ([], rest) from
    numeralChars_stops hrest)
  rwa [List.append_nil] at htake

theorem numeralChars_exponent (e : Int) {rest : List Char} (h : Stops rest) :
    numeralChars false (('e' :: Layout.canonical.exponentText e) ++ rest) =
      ('e' :: Layout.canonical.exponentText e, rest) := by
  have hdigits : ∀ c ∈ Nat.toDigits 10 e.natAbs, c.isDigit = true ∨ c = '.' := fun c hc =>
    .inl (Nat.isDigit_of_mem_toDigits (b := 10) (by decide) (by decide) hc)
  have hnumber := numeralChars_plain hdigits h
  have hsign (cs : List Char) : ∀ c, c = '+' ∨ c = '-' → numeralChars false ('e' :: c :: cs) =
      ('e' :: c :: (numeralChars false cs).1, (numeralChars false cs).2) := by
    rintro c (rfl | rfl) <;> rfl
  rw [Numeral.exponentText_eq]
  have hwhole := hsign (Nat.toDigits 10 e.natAbs ++ rest) (if 0 ≤ e then '+' else '-')
    (by split_ifs <;> simp)
  rw [hnumber] at hwhole
  exact hwhole

theorem leadingZero_of_ne {c : Char} (h : c ≠ '0') (cs : List Char) :
    leadingZero (c :: cs) = false := by
  unfold leadingZero
  split
  · rename_i heq
    exact absurd (List.cons.inj heq).1 h
  · rfl

/-- A number begins with a digit, goes on with digits and points, and has no zero too many, whatever
follows it. -/
def Unsigned (cs : List Char) : Prop :=
  ∃ c rest, cs = c :: rest ∧ c.isDigit = true ∧ (∀ d ∈ rest, d.isDigit = true ∨ d = '.') ∧
    ∀ more, leadingZero (c :: (rest ++ more)) = false

theorem unsigned_place {c : Char} {rest : List Char} (hne : c ≠ '0')
    (hdigits : ∀ d ∈ c :: rest, d.isDigit = true) (n : Int) :
    Unsigned (Layout.canonical.place (c :: rest) n) := by
  obtain ⟨hc, hrest⟩ := List.forall_mem_cons.1 hdigits
  have hplain : ∀ d ∈ rest, d.isDigit = true ∨ d = '.' := fun d hd => .inl (hrest d hd)
  have hzero (k : Nat) : ∀ d ∈ List.replicate k '0', d.isDigit = true ∨ d = '.' := fun d hd =>
    .inl (List.eq_of_mem_replicate hd ▸ rfl)
  have happend {front back : List Char} (hfront : ∀ d ∈ front, d.isDigit = true ∨ d = '.')
      (hback : ∀ d ∈ back, d.isDigit = true ∨ d = '.') :
      ∀ d ∈ front ++ back, d.isDigit = true ∨ d = '.' := fun d hd =>
    (List.mem_append.1 hd).elim (hfront d) (hback d)
  have hpoint : ∀ d ∈ ['.'], d.isDigit = true ∨ d = '.' := List.forall_mem_singleton.2 (.inr rfl)
  unfold Layout.place
  split_ifs with hlength hpos
  · exact ⟨c, _, rfl, hc, happend (happend hplain (hzero _)) nofun,
      fun _ => leadingZero_of_ne hne _⟩
  · obtain ⟨k, hk⟩ : ∃ k, n.toNat = k + 1 := ⟨n.toNat - 1, by omega⟩
    rw [hk]
    exact ⟨c, _, rfl, hc, happend (happend (fun d hd => hplain d (List.mem_of_mem_take hd)) hpoint)
      fun d hd => hplain d (List.mem_of_mem_drop hd), fun _ => leadingZero_of_ne hne _⟩
  · exact ⟨'0', _, rfl, rfl, happend (happend hpoint (hzero _)) fun d hd => .inl (hdigits d hd),
      fun _ => rfl⟩

theorem unsigned_mantissa {c : Char} {rest : List Char} (hne : c ≠ '0')
    (hdigits : ∀ d ∈ c :: rest, d.isDigit = true) : Unsigned (Layout.mantissa (c :: rest)) := by
  obtain ⟨hc, hrest⟩ := List.forall_mem_cons.1 hdigits
  cases rest with
  | nil => exact ⟨c, [], rfl, hc, nofun, fun _ => leadingZero_of_ne hne _⟩
  | cons d rest =>
    refine ⟨c, _, rfl, hc, fun x hx => ?_, fun _ => leadingZero_of_ne hne _⟩
    rcases List.mem_cons.1 hx with rfl | hx
    · exact .inr rfl
    · exact .inl (hrest x hx)

/-- A decimal begins with a digit and is taken as a whole. -/
theorem decimalText_eq_cons {d : Decimal} (hc : 0 < d.coefficient) :
    ∃ c cs, Layout.canonical.decimalText d = c :: cs ∧ c.isDigit = true ∧
      leadingZero (c :: cs) = false ∧
      ∀ rest, Stops rest → numeralChars false (c :: (cs ++ rest)) = (c :: cs, rest) := by
  obtain ⟨a, as, hsignificant, hne⟩ := Decimal.significant_eq_cons hc
  have hdigits : ∀ x ∈ a :: as, x.isDigit = true := fun x hx =>
    Layout.isDigit_of_mem_significant (hsignificant ▸ hx)
  rw [Layout.decimalText, Layout.digitText, hsignificant]
  split_ifs
  · obtain ⟨c, cs, htext, hdigit, hplain, hzero⟩ := unsigned_place hne hdigits d.point
    exact ⟨c, cs, htext, hdigit, by simpa using hzero [], fun rest hrest =>
      numeralChars_plain (List.forall_mem_cons.2 ⟨.inl hdigit, hplain⟩) hrest⟩
  · obtain ⟨c, cs, htext, hdigit, hplain, hzero⟩ := unsigned_mantissa hne hdigits
    rw [htext, List.append_assoc]
    exact ⟨c, _, rfl, hdigit, hzero _, fun rest hrest => numeralChars_append
      (List.forall_mem_cons.2 ⟨.inl hdigit, hplain⟩) (numeralChars_exponent (d.point - 1) hrest)⟩

theorem isWordStart_of_isDigit {c : Char} (h : c.isDigit = true) : isWordStart c = false := by
  have halpha : c.isAlpha = false :=
    Lexer.not_isAlpha_of_isNumeralChar (by simp [Numeral.isNumeralChar, h])
  have hne : ∀ d, d.isDigit = false → (c == d) = false := fun d hd =>
    beq_false_of_ne (by rintro rfl; rw [h] at hd; cases hd)
  rw [isWordStart, halpha, hne '_' rfl, hne '$' rfl]
  rfl

theorem lexes_numeral {c : Char} {cs : List Char} {n : Numeral} (hdigit : c.isDigit = true)
    (hzero : leadingZero (c :: cs) = false) (hread : Numeral.read numeralForm (c :: cs) = some n)
    (htake : ∀ rest, Stops rest → numeralChars false (c :: (cs ++ rest)) = (c :: cs, rest)) :
    Lexes (c :: cs) [.number n.toFloat] := by
  refine lexes_of_cut (isSpace_eq_false hdigit (by decide)) fun rest hrest => ?_
  rw [cut, if_neg (by simp [isWordStart_of_isDigit hdigit]), if_pos hdigit, htake rest hrest]
  dsimp only
  rw [if_neg (by simp [hzero]), hread, Option.map_some]

theorem lexes_zero : Lexes ['0'] [.number 0] := by
  have hvalue : (Numeral.mk false ['0'] [] 0).toFloat = 0 := by decide
  rw [← hvalue]
  exact lexes_numeral rfl rfl rfl fun rest hrest =>
    numeralChars_plain (List.forall_mem_singleton.2 (.inl rfl)) hrest

/-- A decimal is one lexeme, with the double that it is read as. -/
theorem lexes_decimal {d : Decimal} (hc : 0 < d.coefficient) (hrange : d.trimmed.InRange) :
    Lexes (Layout.canonical.decimalText d) [.number d.toFloat] := by
  obtain ⟨c, cs, htext, hdigit, hzero, htake⟩ := decimalText_eq_cons hc
  obtain ⟨n, hread, hvalue⟩ := Layout.read_unsigned hc hrange
  rw [htext] at hread ⊢
  rw [← hvalue]
  exact lexes_numeral hdigit hzero hread htake

/-! ### Signs -/

/-- The signs that stand between two operands. -/
def connectives : List String := Operator.all.map Operator.sign ++ ["=>", "?", ":", "="]

theorem lex_connective {s : String} (h : s ∈ connectives) (rest : List Char) :
    lex (s.toList ++ ' ' :: rest) = (lex rest).map (.sign s :: ·) := by
  rw [← lex_blank rest]
  simp only [connectives, Operator.all, Operator.sign, List.map_cons, List.map_nil,
    List.cons_append, List.nil_append, List.mem_cons, List.not_mem_nil, or_false] at h
  rcases h with rfl | rfl | rfl | rfl | rfl | rfl | rfl | rfl | rfl | rfl | rfl | rfl | rfl | rfl |
    rfl | rfl
  all_goals exact lex_of_cut rfl rfl

/-- A minus is a sign of its own before what is no sign. -/
theorem lex_minus {c : Char} (h : c ≠ '-') (h' : c ≠ '=') (rest : List Char) :
    lex ('-' :: c :: rest) = (lex (c :: rest)).map (.sign "-" :: ·) := by
  refine lex_of_cut (by decide) ?_
  have hfind : (signs.find? fun s => s.toList.isPrefixOf ('-' :: c :: rest)) = some "-" := by
    simp [signs, List.find?, beq_false_of_ne h.symm, beq_false_of_ne h'.symm, List.isPrefixOf]
  change (signs.find? fun s => s.toList.isPrefixOf ('-' :: c :: rest)).map _ = _
  rw [hfind]
  rfl

theorem lexes_signed (s : Sign) {c : Char} {cs : List Char} {ts : List Token} (h : c ≠ '-')
    (h' : c ≠ '=') (hcs : Lexes (c :: cs) ts) :
    Lexes (Layout.signText s ++ c :: cs) (signTokens s ++ ts) := by
  intro rest hrest
  cases s with
  | positive => exact hcs rest hrest
  | negative =>
    refine (lex_minus h h' (cs ++ rest)).trans ?_
    rw [← List.cons_append, hcs rest hrest, Option.map_map]
    rfl

/-- The text of a number is cut into its sign and its digits or its word. -/
theorem lexes_number (x : Float) : Lexes (Layout.script.numberText x) (numberTokens x) := by
  rw [Layout.numberText, numberTokens]
  cases h : x.toModel.unpack with
  | notANumber => exact lexes_word "NaN" rfl
  | infinity s => exact lexes_signed s (by decide) (by decide) (lexes_word "Infinity" rfl)
  | zero s =>
    change Lexes (Layout.signText s ++ ['0'] ++ []) _
    rw [List.append_nil]
    exact lexes_signed s (by decide) (by decide) lexes_zero
  | finite s m e hm =>
    have hfloat := Decimal.toFloat_shortest h
    have hc := Decimal.coefficient_pos_of_toFloat h hfloat
    have hlexes := lexes_decimal hc (Decimal.inRange_shortest h)
    obtain ⟨c, cs, htext, hdigit, -⟩ := decimalText_eq_cons hc
    rw [hfloat, htext] at hlexes
    change Lexes (Layout.signText s ++ Layout.canonical.decimalText (Decimal.shortest x.abs m e)) _
    rw [htext]
    exact lexes_signed s (by rintro rfl; cases hdigit) (by rintro rfl; cases hdigit) hlexes

/-! ## Lexemes together -/

theorem Lexes.nil : Lexes [] [] := fun rest _ => (Option.map_id' (x := lex rest)).symm

theorem Lexes.append {cs ds : List Char} {ts us : List Token} (h : Lexes cs ts)
    (h' : Lexes ds us) (hstops : ∀ rest, Stops (ds ++ rest)) : Lexes (cs ++ ds) (ts ++ us) := by
  intro rest hrest
  rw [List.append_assoc, h _ (hstops rest), h' rest hrest, Option.map_map]
  simp [Function.comp_def]

theorem Lexes.surround (b : Bracket) {cs : List Char} {ts : List Token} (h : Lexes cs ts) :
    Lexes (b.surround cs) (Token.surround b ts) := by
  intro rest _
  have hopening (cs : List Char) : lex (b.opening :: cs) = (lex cs).map (.opening b :: ·) := by
    cases b <;> exact lex_of_cut rfl rfl
  have hclosing (cs : List Char) : lex (b.closing :: cs) = (lex cs).map (.closing b :: ·) := by
    cases b <;> exact lex_of_cut rfl rfl
  have hstops : Stops (b.closing :: rest) := stops_cons (by cases b <;> decide) rest
  rw [Bracket.surround, List.append_assoc, List.append_assoc]
  refine (hopening _).trans ?_
  rw [List.singleton_append, List.append_eq, List.nil_append, h _ hstops, hclosing,
    Option.map_map, Option.map_map]
  simp [Function.comp_def, Token.surround]

theorem Lexes.call {cs ds : List Char} {ts us : List Token} (h : Lexes cs ts)
    (h' : Lexes ds us) :
    Lexes (cs ++ Bracket.round.surround ds) (ts ++ Token.surround .round us) :=
  h.append (h'.surround .round) fun rest => stops_cons (by decide) (ds ++ [')'] ++ rest)

theorem Lexes.connect {s : String} (hs : s ∈ connectives) {cs ds : List Char} {ts us : List Token}
    (h : Lexes cs ts) (h' : Lexes ds us) :
    Lexes (cs ++ ' ' :: (s.toList ++ ' ' :: ds)) (ts ++ .sign s :: us) := by
  refine h.append (fun rest hrest => ?_) fun rest => stops_cons (by decide) _
  rw [List.cons_append, lex_blank, List.append_assoc, List.cons_append, lex_connective hs,
    h' rest hrest, Option.map_map]
  rfl

theorem Lexes.listed {css : List (List Char)} {tss : List (List Token)}
    (h : List.Forall₂ Lexes css tss) : Lexes (Script.listed css) (Token.listed tss) := by
  have hcomma (more : List Char) : lex (',' :: ' ' :: more) = (lex more).map (.sign "," :: ·) := by
    rw [← lex_blank more]
    exact lex_of_cut rfl rfl
  induction h with
  | nil => exact Lexes.nil
  | cons h hrest ih =>
    cases hrest with
    | nil => simpa [Script.listed, Token.listed] using h
    | cons =>
      rw [Script.listed, Token.listed, List.intercalate_cons_cons, List.intercalate_cons_cons,
        List.append_assoc, List.append_assoc]
      refine h.append (fun rest hstops => ?_) fun rest => stops_cons (by decide) _
      rw [List.append_assoc]
      refine (hcomma _).trans ?_
      have hlisted := ih rest hstops
      rw [Script.listed, Token.listed] at hlisted
      rw [List.append_eq, List.nil_append, hlisted, Option.map_map]
      rfl

theorem Lexes.wrap (nested : Bool) {cs : List Char} {ts : List Token} (h : Lexes cs ts) :
    Lexes (Script.wrap nested cs) (wrapTokens nested ts) := by
  cases nested with
  | false => exact h
  | true => exact h.surround .round

theorem lexes_literal (nested : Bool) (a : Atom) :
    Lexes (literalChars nested a) (literalTokens nested a) := by
  cases a with
  | number x => exact (lexes_number x).wrap _
  | boolean b => cases b <;> exact lexes_word _ rfl
  | text s => exact lexes_text s

mutual

/-- The lexemes of a printed script are the ones that the printer wrote. -/
theorem lexes_chars : (s : Script) → s.wellFormed = true → ∀ nested,
    Lexes (s.chars nested) (s.tokens nested)
  | .literal a, _, nested => lexes_literal nested a
  | .identifier name, h, _ => lexes_word name (isWord_of_isIdentifier h)
  | .binary op left right, h, nested => by
    simp only [wellFormed, Bool.and_eq_true] at h
    obtain ⟨⟨hop, hleft⟩, hright⟩ := h
    have hop : op ∈ connectives := List.mem_append_left _ (List.contains_iff_mem.1 hop)
    rw [chars, tokens, List.append_assoc, List.append_assoc, List.append_assoc]
    exact ((lexes_chars left hleft true).connect hop (lexes_chars right hright true)).wrap nested
  | .array items, h, _ => (Lexes.listed (lexes_items items h)).surround .square
  | .call callee args, h, _ => by
    simp only [wellFormed, Bool.and_eq_true] at h
    exact (lexes_chars callee h.1 true).call (Lexes.listed (lexes_items args h.2))
  | .function params body, h, nested => by
    simp only [wellFormed, Bool.and_eq_true] at h
    obtain ⟨hparams, hbody⟩ := h
    have hlisted : List.Forall₂ Lexes (params.map String.toList)
        (params.map fun p => [Token.word p]) := by
      rw [List.forall₂_map_left_iff, List.forall₂_map_right_iff, List.forall₂_same]
      exact fun p hp => lexes_word p (isWord_of_isIdentifier (List.all_eq_true.1 hparams p hp))
    rw [chars, tokens, List.append_assoc]
    exact (((Lexes.listed hlisted).surround .round).connect (s := "=>") (by decide)
      (lexes_chars body hbody true)).wrap nested
  | .sequence items, h, _ => by
    simp only [wellFormed, Bool.and_eq_true] at h
    exact (Lexes.listed (lexes_items items h.2)).surround .round
  | .conditional test yes no, h, nested => by
    simp only [wellFormed, Bool.and_eq_true] at h
    obtain ⟨⟨htest, hyes⟩, hno⟩ := h
    rw [chars, tokens, List.append_assoc, List.append_assoc, List.append_assoc]
    have hbranches := (lexes_chars yes hyes true).connect (s := ":") (by decide)
      (lexes_chars no hno true)
    exact ((lexes_chars test htest true).connect (s := "?") (by decide) hbranches).wrap nested
  | .assignment (.identifier name) value, h, nested => by
    simp only [wellFormed, Bool.and_eq_true] at h
    rw [chars, tokens, List.append_assoc]
    exact ((lexes_word name (isWord_of_isIdentifier h.1)).connect (s := "=") (by decide)
      (lexes_chars value h.2 true)).wrap nested

theorem lexes_items : (items : List Script) → wellFormedAll items = true →
    List.Forall₂ Lexes (itemChars items) (itemTokens items)
  | [], _ => .nil
  | s :: rest, h => by
    simp only [wellFormedAll, Bool.and_eq_true] at h
    exact .cons (lexes_chars s h.1 true) (lexes_items rest h.2)

end

end MiniLisp.Script
