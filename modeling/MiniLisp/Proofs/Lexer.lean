import MiniLisp.Proofs.Number.Text
import MiniLisp.Token.Lexer

/-!
# Lexemes one after the other

What the lexer makes of a text that is put together from lexemes: a word before something that
cannot continue it (`scan_word`), a text in double quotes (`scan_quoted`), a bracket
(`scan_opening`, `scan_closing`) and a blank (`scan_blank`). The escapes that the printer uses for
text are more than the lexer knows, so a text comes back exactly if it has no control characters
besides the tab and the line ends (`unescape_escape`).
-/

namespace MiniLisp

namespace Text

/-- The characters that come back from a text in double quotes: no control character but the tab,
the line feed and the carriage return. -/
def isPlain (c : Char) : Bool := 0x20 ≤ c.toNat || c == '\t' || c == '\n' || c == '\r'

/-- The characters that stand for themselves between double quotes. -/
def isOrdinary (c : Char) : Bool := c != '"' && c != '\\'

/-- An escape is one that the lexer knows, the character itself, or one that it does not know. -/
theorem escape_cases (c : Char) :
    (∃ d, escape c = ['\\', d] ∧ d ≠ '\n' ∧ escapeMeaning? d = some c ∧ isPlain c = true) ∨
    (escape c = [c] ∧ isOrdinary c = true ∧ isPlain c = true) ∨
    ∃ d rest, escape c = '\\' :: d :: rest ∧ d ≠ '\n' ∧ escapeMeaning? d = none ∧
      rest.all isOrdinary = true ∧ isPlain c = false := by
  have hhex : ∀ n < 0x20, (hex 4 n).all isOrdinary = true := by decide
  unfold escape
  split
  · subst_vars; exact .inl ⟨'"', rfl, by decide⟩
  split
  · subst_vars; exact .inl ⟨'\\', rfl, by decide⟩
  split
  · subst_vars; exact .inl ⟨'n', rfl, by decide⟩
  split
  · subst_vars; exact .inl ⟨'r', rfl, by decide⟩
  split
  · subst_vars; exact .inl ⟨'t', rfl, by decide⟩
  split
  · subst_vars; exact .inr (.inr ⟨'b', [], rfl, by decide⟩)
  split
  · subst_vars; exact .inr (.inr ⟨'f', [], rfl, by decide⟩)
  split
  · rename_i hlt
    refine .inr (.inr ⟨'u', hex 4 c.toNat, rfl, by decide, by decide, hhex _ hlt, ?_⟩)
    simp_all [isPlain]
  · rename_i hge
    exact .inr (.inl ⟨rfl, by simp [isOrdinary, *], by simp [isPlain]; omega⟩)

theorem unescape_ordinary {c : Char} (h : isOrdinary c = true) (cs : List Char) :
    unescape (c :: cs) = (unescape cs).map (c :: ·) := by
  have hc : c ≠ '\\' := by
    rintro rfl
    cases h
  rw [unescape.eq_def]
  split <;> simp_all

/-- A text is read back exactly if all its characters are plain. -/
theorem unescape_escape (cs : List Char) :
    (cs.all isPlain = true → unescape (cs.flatMap escape) = .ok cs) ∧
    (cs.all isPlain = false → ∃ c, unescape (cs.flatMap escape) = .error c) := by
  induction cs with
  | nil => simp [unescape]
  | cons c cs ih =>
    rw [List.flatMap_cons, List.all_cons]
    by_cases hplain : isPlain c = true
    · have hstep : unescape (escape c ++ cs.flatMap escape) =
          (unescape (cs.flatMap escape)).map (c :: ·) := by
        rcases escape_cases c with ⟨d, hd, -, hmeaning, -⟩ | ⟨hc, hordinary, -⟩ |
          ⟨_, _, _, _, _, _, hcontrol⟩
        · simp only [hd, List.cons_append, List.nil_append, unescape, hmeaning]
        · rw [hc, List.singleton_append, unescape_ordinary hordinary]
        · rw [hcontrol] at hplain
          cases hplain
      rw [hstep, hplain, Bool.true_and]
      refine ⟨fun h => by rw [ih.1 h]; rfl, fun h => ?_⟩
      obtain ⟨e, he⟩ := ih.2 h
      exact ⟨e, by rw [he]; rfl⟩
    · rcases escape_cases c with ⟨_, _, _, _, h⟩ | ⟨_, _, h⟩ | ⟨d, rest, hd, -, hmeaning, -, -⟩
      · exact absurd h hplain
      · exact absurd h hplain
      · simp only [Bool.not_eq_true] at hplain
        refine ⟨fun h => by simp [hplain] at h, fun _ => ⟨d, ?_⟩⟩
        simp only [hd, List.cons_append, unescape, hmeaning]

end Text

namespace Lexer

open Text

theorem textBody_ordinary {c : Char} (h : isOrdinary c = true) (cs : List Char) :
    textBody (c :: cs) = (textBody cs).map fun (body, after) => (c :: body, after) := by
  have hquote : c ≠ '"' := by rintro rfl; cases h
  have hslash : c ≠ '\\' := by rintro rfl; cases h
  rw [textBody.eq_def]
  split <;> simp_all

theorem textBody_slash {c : Char} (h : c ≠ '\n') (cs : List Char) :
    textBody ('\\' :: c :: cs) =
      (textBody cs).map fun (body, after) => ('\\' :: c :: body, after) := by
  rw [textBody, if_neg h]

theorem textBody_all_ordinary {front : List Char} (h : front.all isOrdinary = true)
    (cs : List Char) :
    textBody (front ++ cs) = (textBody cs).map fun (body, after) => (front ++ body, after) := by
  induction front with
  | nil => simp
  | cons c front ih =>
    rw [List.all_cons, Bool.and_eq_true] at h
    rw [List.cons_append, textBody_ordinary h.1, ih h.2, Option.map_map]
    rfl

theorem textBody_escape (c : Char) (cs : List Char) :
    textBody (escape c ++ cs) =
      (textBody cs).map fun (body, after) => (escape c ++ body, after) := by
  rcases escape_cases c with ⟨d, hd, hne, -⟩ | ⟨hc, hordinary, -⟩ | ⟨d, rest, hd, hne, -, hrest, -⟩
  · rw [hd]
    exact textBody_slash hne cs
  · rw [hc]
    exact textBody_ordinary hordinary cs
  · rw [hd, List.cons_append, List.cons_append, textBody_slash hne,
      textBody_all_ordinary hrest, Option.map_map]
    rfl

/-- The second quote of a printed text is where the printer put it. -/
theorem textBody_quoted (cs rest : List Char) :
    textBody (cs.flatMap escape ++ '"' :: rest) = some (cs.flatMap escape, rest) := by
  induction cs with
  | nil => rfl
  | cons c cs ih =>
    rw [List.flatMap_cons, List.append_assoc, textBody_escape, ih]
    rfl

/-! ## One lexeme -/

/-- What is cut off from a source that begins with `c`. -/
inductive CutsOff (c : Char) (cs : List Char) : Cut → Prop
  | blanks : isBlank c = true →
      CutsOff c cs ⟨.gap, c :: cs.takeWhile isBlank, cs.dropWhile isBlank⟩
  | comment : c = ';' →
      CutsOff c cs ⟨.gap, ';' :: cs.takeWhile (· != '\n'), cs.dropWhile (· != '\n')⟩
  | text {body after : List Char} : c = '"' → textBody cs = some (body, after) →
      CutsOff c cs ⟨judgeText body, '"' :: (body ++ ['"']), after⟩
  | unterminated : c = '"' → textBody cs = none →
      CutsOff c cs ⟨.bad .unterminated, '"' :: cs, []⟩
  | word : isWordChar c = true →
      CutsOff c cs ⟨judgeWord (c :: cs.takeWhile isWordChar), c :: cs.takeWhile isWordChar,
        cs.dropWhile isWordChar⟩
  | mark {kind : Token.Kind} : mark? c = some kind →
      CutsOff c cs ⟨.token kind .nothing, [c], cs⟩
  | unexpected : isBlank c = false → c ≠ ';' → c ≠ '"' → isWordChar c = false →
      mark? c = none → CutsOff c cs ⟨.bad .unexpected, [c], cs⟩

theorem cutsOff_cut (c : Char) (cs : List Char) : CutsOff c cs (cut c cs) := by
  unfold cut
  by_cases hblank : isBlank c = true
  · rw [if_pos hblank]
    exact .blanks hblank
  rw [if_neg hblank]
  by_cases hcomment : c = ';'
  · rw [if_pos hcomment, hcomment]
    exact .comment rfl
  rw [if_neg hcomment]
  by_cases hquote : c = '"'
  · rw [if_pos hquote, cutText]
    cases hbody : textBody cs with
    | none => exact .unterminated hquote hbody
    | some parts => exact .text hquote hbody
  rw [if_neg hquote]
  by_cases hword : isWordChar c = true
  · rw [if_pos hword]
    exact .word hword
  rw [if_neg hword]
  cases hmark : mark? c with
  | none => exact .unexpected (by simpa using hblank) hcomment hquote (by simpa using hword) hmark
  | some kind => exact .mark hmark

theorem scan_nil (position : Nat) : scan position [] = .ok [Token.ending position] := by
  rw [scan.eq_def]

theorem scan_of_gap {position : Nat} {c : Char} {cs : List Char}
    (h : (cut c cs).lexeme = .gap) :
    scan position (c :: cs) = scan (position + (cut c cs).text.length) (cut c cs).rest := by
  rw [scan.eq_def]
  dsimp only
  rw [h]

theorem scan_of_token {position : Nat} {c : Char} {cs : List Char} {kind : Token.Kind}
    {value : Value} (h : (cut c cs).lexeme = .token kind value) :
    scan position (c :: cs) =
      (scan (position + (cut c cs).text.length) (cut c cs).rest).map
        (⟨kind, String.ofList (cut c cs).text, position, value⟩ :: ·) := by
  rw [scan.eq_def]
  dsimp only
  rw [h]

theorem scan_of_bad {position : Nat} {c : Char} {cs : List Char} {cause : LexCause}
    (h : (cut c cs).lexeme = .bad cause) :
    scan position (c :: cs) = .error ⟨cause, String.ofList (cut c cs).text, position⟩ := by
  rw [scan.eq_def]
  dsimp only
  rw [h]

theorem cut_blank {c : Char} (h : isBlank c = true) (cs : List Char) :
    cut c cs = cutRun (fun _ => .gap) isBlank c cs := if_pos h

/-- A blank may be skipped by itself. -/
theorem scan_blank {c : Char} (h : isBlank c = true) (position : Nat) (cs : List Char) :
    scan position (c :: cs) = scan (position + 1) cs := by
  rw [scan_of_gap (by rw [cut_blank h]; rfl), cut_blank h]
  show scan (position + (cs.takeWhile isBlank).length.succ) (cs.dropWhile isBlank) = _
  cases cs with
  | nil => rfl
  | cons d cs =>
    by_cases hd : isBlank d = true
    · rw [scan_of_gap (by rw [cut_blank hd]; rfl), cut_blank hd, List.takeWhile_cons_of_pos hd,
        List.dropWhile_cons_of_pos hd]
      congr 1
      simp only [cutRun, List.length_cons]
      omega
    · rw [List.takeWhile_cons_of_neg hd, List.dropWhile_cons_of_neg hd]
      rfl

theorem scan_opening (position : Nat) (b : Bracket) (cs : List Char) :
    scan position (b.opening :: cs) =
      (scan (position + 1) cs).map (⟨.opener b, b.opening.toString, position, .nothing⟩ :: ·) := by
  have hcut : cut b.opening cs = ⟨.token (.opener b) .nothing, [b.opening], cs⟩ := by
    cases b <;> rfl
  rw [scan_of_token (by rw [hcut]), hcut]
  cases b <;> rfl

theorem scan_closing (position : Nat) (b : Bracket) (cs : List Char) :
    scan position (b.closing :: cs) =
      (scan (position + 1) cs).map (⟨.closer b, b.closing.toString, position, .nothing⟩ :: ·) := by
  have hcut : cut b.closing cs = ⟨.token (.closer b) .nothing, [b.closing], cs⟩ := by
    cases b <;> rfl
  rw [scan_of_token (by rw [hcut]), hcut]
  cases b <;> rfl

theorem cut_quote (cs rest : List Char) :
    cut '"' (cs.flatMap escape ++ '"' :: rest) =
      ⟨judgeText (cs.flatMap escape), quoted cs, rest⟩ := by
  change cutText (cs.flatMap escape ++ '"' :: rest) = _
  rw [cutText, textBody_quoted]
  rfl

/-- A printed text is read back, unless it has a control character that the lexer has no escape
for. -/
theorem scan_quoted (position : Nat) (cs rest : List Char) :
    (cs.all isPlain = true → scan position (quoted cs ++ rest) =
      (scan (position + (quoted cs).length) rest).map
        (⟨.text, String.ofList (quoted cs), position, .text (String.ofList cs)⟩ :: ·)) ∧
    (cs.all isPlain = false → ∃ e, scan position (quoted cs ++ rest) = .error e) := by
  have hquoted : quoted cs ++ rest = '"' :: (cs.flatMap escape ++ '"' :: rest) := by
    simp [quoted]
  rw [hquoted]
  refine ⟨fun h => ?_, fun h => ?_⟩
  · have hlexeme : (cut '"' (cs.flatMap escape ++ '"' :: rest)).lexeme =
        .token .text (.text (String.ofList cs)) := by
      rw [cut_quote]
      simp only [judgeText, (unescape_escape cs).1 h]
    rw [scan_of_token hlexeme, cut_quote]
  · obtain ⟨c, hc⟩ := (unescape_escape cs).2 h
    have hlexeme : (cut '"' (cs.flatMap escape ++ '"' :: rest)).lexeme =
        .bad (.unknownEscape c) := by
      rw [cut_quote]
      simp only [judgeText, hc]
    exact ⟨_, scan_of_bad hlexeme⟩

/-! ## Words -/

/-- What cannot continue a word. -/
def Delimited (cs : List Char) : Prop := cs.takeWhile isWordChar = []

theorem toNat_of_isWordChar {c : Char} (h : isWordChar c = true) :
    45 ≤ c.toNat ∧ c.toNat ≤ 122 ∧ c.toNat ≠ 59 := by
  simp only [isWordChar, Char.isAlphanum, Char.isAlpha, Char.isUpper, Char.isLower, Char.isDigit,
    Bool.or_eq_true, Bool.and_eq_true, decide_eq_true_eq, beq_iff_eq, ge_iff_le,
    UInt32.le_iff_toNat_le] at h
  change ((((65 ≤ c.toNat ∧ c.toNat ≤ 90) ∨ 97 ≤ c.toNat ∧ c.toNat ≤ 122) ∨
    48 ≤ c.toNat ∧ c.toNat ≤ 57) ∨ c = '.') ∨ c = '-' at h
  rcases h with (((h | h) | h) | rfl) | rfl
  · omega
  · omega
  · omega
  · decide
  · decide

theorem cut_word {c : Char} (h : isWordChar c = true) (cs : List Char) :
    cut c cs = cutRun judgeWord isWordChar c cs := by
  obtain ⟨hlow, hhigh, hcomment⟩ := toNat_of_isWordChar h
  have hblank : ¬isBlank c = true := by
    simp only [isBlank, Bool.or_eq_true, Bool.and_eq_true, decide_eq_true_eq, beq_iff_eq]
    omega
  have hsemicolon : c ≠ ';' := by rintro rfl; exact hcomment rfl
  have hquote : c ≠ '"' := by rintro rfl; exact absurd hlow (by decide)
  rw [cut, if_neg hblank, if_neg hsemicolon, if_neg hquote, if_pos h]

/-- A word is taken as a whole before something that cannot continue it. -/
theorem cut_word_append {c : Char} {cs rest : List Char}
    (h : ∀ d ∈ c :: cs, isWordChar d = true) (hrest : Delimited rest) :
    cut c (cs ++ rest) = ⟨judgeWord (c :: cs), c :: cs, rest⟩ := by
  have hcs : ∀ d ∈ cs, isWordChar d = true := fun d hd => h d (List.mem_cons_of_mem c hd)
  obtain ⟨htake, hdrop⟩ := takeWhile_dropWhile_append hcs hrest
  rw [cut_word (h c List.mem_cons_self), cutRun]
  simp only [htake, hdrop]

theorem scan_word {position : Nat} {word rest : List Char} {kind : Token.Kind} {value : Value}
    (hne : word ≠ []) (h : ∀ c ∈ word, isWordChar c = true) (hrest : Delimited rest)
    (hjudge : judgeWord word = .token kind value) :
    scan position (word ++ rest) = (scan (position + word.length) rest).map
      (⟨kind, String.ofList word, position, value⟩ :: ·) := by
  cases word with
  | nil => exact absurd rfl hne
  | cons c cs =>
    have hcut := cut_word_append h hrest
    rw [List.cons_append, scan_of_token (by rw [hcut]; exact hjudge), hcut]

theorem isWordChar_of_isNumeralChar {c : Char} (h : Numeral.isNumeralChar c = true) :
    isWordChar c = true := by
  simp only [Numeral.isNumeralChar, isWordChar, Char.isAlphanum, Bool.or_eq_true] at h ⊢
  tauto

theorem not_isAlpha_of_isNumeralChar {c : Char} (h : Numeral.isNumeralChar c = true) :
    c.isAlpha = false := by
  rw [Bool.eq_false_iff]
  simp only [Numeral.isNumeralChar, Char.isAlpha, Char.isUpper, Char.isLower, Char.isDigit,
    Bool.or_eq_true, Bool.and_eq_true, decide_eq_true_eq, beq_iff_eq, ge_iff_le,
    UInt32.le_iff_toNat_le, ne_eq] at h ⊢
  change ((48 ≤ c.toNat ∧ c.toNat ≤ 57) ∨ c = '.') ∨ c = '-' at h
  change ¬((65 ≤ c.toNat ∧ c.toNat ≤ 90) ∨ 97 ≤ c.toNat ∧ c.toNat ≤ 122)
  rcases h with (h | rfl) | rfl
  · omega
  · decide
  · decide

theorem read_eq_none_of_isAlpha {word : List Char} {d : Char} (hd : d ∈ word)
    (hletter : d.isAlpha = true) : Numeral.read .word word = none := by
  cases hread : Numeral.read .word word with
  | none => rfl
  | some n =>
    rw [not_isAlpha_of_isNumeralChar (Numeral.isNumeralChar_of_read hread d hd)] at hletter
    cases hletter

/-- A word that begins like a number and has a letter is neither a number nor a symbol. -/
theorem judgeWord_bad {c d : Char} {cs : List Char} (hc : Numeral.isNumeralChar c = true)
    (hd : d ∈ cs) (hletter : d.isAlpha = true) : ∃ cause, judgeWord (c :: cs) = .bad cause := by
  have hread := read_eq_none_of_isAlpha (List.mem_cons_of_mem c hd) hletter
  have hsymbol : isSymbol (c :: cs) = false := by
    simp [isSymbol, not_isAlpha_of_isNumeralChar hc]
  exact ⟨_, by rw [judgeWord, hread, hsymbol]; rfl⟩

/-- Such a word is refused, whatever follows it. -/
theorem scan_bad {position : Nat} {front rest : List Char} {d : Char} (hne : front ≠ [])
    (h : ∀ c ∈ front, Numeral.isNumeralChar c = true) (hd : d.isAlpha = true) :
    ∃ e, scan position (front ++ d :: rest) = .error e := by
  cases front with
  | nil => exact absurd rfl hne
  | cons c cs =>
    have hcs : ∀ c ∈ cs, isWordChar c = true := fun c hc =>
      isWordChar_of_isNumeralChar (h c (List.mem_cons_of_mem _ hc))
    have hword : isWordChar d = true := by simp [isWordChar, Char.isAlphanum, hd]
    have hcut : (cut c (cs ++ d :: rest)).lexeme =
        judgeWord (c :: (cs ++ d :: rest.takeWhile isWordChar)) := by
      rw [cut_word (isWordChar_of_isNumeralChar (h c List.mem_cons_self)), cutRun,
        List.takeWhile_append_of_pos hcs, List.takeWhile_cons_of_pos hword]
    obtain ⟨cause, hcause⟩ := judgeWord_bad (h c List.mem_cons_self)
      (List.mem_append_right cs (List.mem_cons_self (a := d))) hd
    exact ⟨_, scan_of_bad (hcut.trans hcause)⟩

/-- Symbol words are symbols. -/
theorem judgeWord_symbol {word : List Char} (h : isSymbol word = true) :
    judgeWord word = .token .symbol (.text (String.ofList word)) := by
  have hread : Numeral.read .word word = none := by
    cases word with
    | nil => cases h
    | cons c cs =>
      have hc : c.isAlpha = true := by
        simp only [isSymbol, Bool.and_eq_true] at h
        exact h.1.1
      exact read_eq_none_of_isAlpha List.mem_cons_self hc
  rw [judgeWord, hread, h]
  rfl

theorem isWordChar_of_isSymbol {word : List Char} (h : isSymbol word = true) :
    word ≠ [] ∧ ∀ c ∈ word, isWordChar c = true := by
  cases word with
  | nil => cases h
  | cons c cs =>
    simp only [isSymbol, Bool.and_eq_true, List.all_eq_true, Bool.or_eq_true] at h
    refine ⟨by simp, fun d hd => ?_⟩
    rcases List.mem_cons.1 hd with rfl | hd
    · simp [isWordChar, Char.isAlphanum, h.1.1]
    · rcases h.1.2 d hd with hd | hd <;> simp [isWordChar, hd]

end Lexer

end MiniLisp
