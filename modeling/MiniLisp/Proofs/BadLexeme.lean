import MiniLisp.Proofs.Tiling

/-!
# The first bad lexeme

A source that the lexer refuses has a first bad lexeme, and the error shows its text and its place
(`lex_error_shows`). What stands before it is accepted by itself: a lexeme that is cut off from a
source is cut off in the same way when the source ends somewhere behind it (`CutsOff.truncate`). A
lexeme is bad in exactly one of four ways (`Flaw`).
-/

namespace MiniLisp

namespace Text

/-- A text with an escape that has no meaning has one behind a part in which no escape is open. -/
theorem exists_of_unescape_eq_error {cs : List Char} {c : Char} (h : unescape cs = .error c) :
    ∃ front back, cs = front ++ '\\' :: c :: back ∧ escapeOpen front = false ∧
      escapeMeaning? c = none := by
  fun_induction unescape cs with
  | case1 d rest e hmeaning ih =>
    cases hrest : unescape rest with
    | ok ds =>
      rw [hrest] at h
      cases h
    | error d' =>
      rw [hrest] at h
      cases h
      obtain ⟨front, back, rfl, hopen, hc⟩ := ih hrest
      exact ⟨'\\' :: d :: front, back, rfl, hopen, hc⟩
  | case2 d rest hmeaning =>
    cases h
    exact ⟨[], rest, rfl, rfl, hmeaning⟩
  | case3 d rest hslash ih =>
    cases hrest : unescape rest with
    | ok ds =>
      rw [hrest] at h
      cases h
    | error d' =>
      rw [hrest] at h
      cases h
      obtain ⟨front, back, rfl, hopen, hc⟩ := ih hrest
      have hd : d ≠ '\\' := by
        rintro rfl
        cases front with
        | nil => exact hslash _ _ rfl rfl
        | cons a front => exact hslash _ _ rfl rfl
      exact ⟨d :: front, back, rfl, (escapeOpen_cons_of_ne hd front).trans hopen, hc⟩
  | case4 => cases h

end Text

namespace Lexer

open Text

/-! ## What stands before -/

section Truncation

variable {c : Char} {cs front tail : List Char} {head : Cut}

theorem cutRun_takeWhile (lexeme : List Char → Lexeme) {p : Char → Bool}
    (hrest : cs.dropWhile p = front ++ tail) :
    cutRun lexeme p c (cs.takeWhile p ++ front) =
      ⟨lexeme (c :: cs.takeWhile p), c :: cs.takeWhile p, front⟩ := by
  have hfront : front.takeWhile p = [] := by
    refine takeWhile_eq_nil fun d hd => ?_
    have hhead : d ∈ (cs.dropWhile p).head? := by
      rw [hrest, List.head?_append, Option.mem_def.1 hd]
      rfl
    exact head?_dropWhile hhead
  obtain ⟨htake, hdrop⟩ :=
    takeWhile_dropWhile_append (fun d hd => List.mem_takeWhile_imp hd) hfront
  rw [cutRun, htake, hdrop]

/-- A lexeme that is not bad is cut off in the same way if the source ends somewhere behind it. -/
theorem CutsOff.truncate (h : CutsOff c cs head) (hgood : ∀ cause, head.lexeme ≠ .bad cause)
    (hrest : head.rest = front ++ tail) :
    ∃ text, head.text = c :: text ∧ cut c (text ++ front) = { head with rest := front } := by
  cases h with
  | blanks hc => exact ⟨_, rfl, (cut_blank hc _).trans (cutRun_takeWhile _ hrest)⟩
  | comment hc =>
    subst hc
    exact ⟨_, rfl, cutRun_takeWhile (fun _ => .gap) hrest⟩
  | @text body after hc hbody =>
    subst hc
    have hclosed : textBody (body ++ '"' :: front) = some (body, front) :=
      textBody_eq_some_iff.2 ⟨rfl, (textBody_eq_some_iff.1 hbody).2⟩
    refine ⟨_, rfl, ?_⟩
    show cutText (body ++ ['"'] ++ front) = _
    rw [List.append_assoc, List.singleton_append, cutText, hclosed]
  | unterminated => exact absurd rfl (hgood _)
  | word hc => exact ⟨_, rfl, (cut_word hc _).trans (cutRun_takeWhile _ hrest)⟩
  | mark hmark => exact ⟨[], rfl, cut_mark hmark front⟩
  | unexpected => exact absurd rfl (hgood _)

theorem CutsOff.scan_truncate (h : CutsOff c cs head) (hgood : ∀ cause, head.lexeme ≠ .bad cause)
    (hrest : head.rest = front ++ tail) {position : Nat} {tokens : List Token}
    (hscan : scan (position + head.text.length) front = .ok tokens) :
    ∃ tokens, scan position (head.text ++ front) = .ok tokens := by
  obtain ⟨text, htext, hcut⟩ := h.truncate hgood hrest
  rw [htext, List.cons_append]
  cases hlexeme : head.lexeme with
  | gap =>
    rw [scan_of_gap (by rw [hcut]; exact hlexeme), hcut]
    exact ⟨tokens, hscan⟩
  | token kind value =>
    rw [scan_of_token (by rw [hcut]; exact hlexeme), hcut]
    dsimp only
    rw [hscan]
    exact ⟨_, rfl⟩
  | bad cause => exact absurd hlexeme (hgood cause)

end Truncation

end Lexer

/-! ## Flaws -/

/-- The ways in which a lexeme can be bad. -/
inductive Flaw where
  /-- It is a character that no lexeme begins with. -/
  | character
  /-- It is a word that is neither a number nor a symbol. -/
  | word
  /-- It is a text with an escape that has no meaning. -/
  | escape
  /-- It is a quote without a second one, and all that stands behind it. -/
  | unclosed
deriving DecidableEq

/-- The flaw that a refusal names. -/
def LexCause.flaw : LexCause → Flaw
  | unexpected => .character
  | unterminated => .unclosed
  | unknownEscape _ => .escape
  | leadingHyphen | trailingHyphen | leadingPoint | trailingPoint | malformed => .word

/-- The characters that stand at the beginning of lexemes, besides blanks and those of words. -/
def Lexer.signs : List Char := [';', '"', '\x27', '(', ')', '[', ']', '\x7b', '\x7d']

/-- A lexeme has a flaw, between two parts of a source. -/
def Flaw.Holds (before lexeme after : List Char) : Flaw → Prop
  | character => ∃ c, lexeme = [c] ∧ Text.isBlank c = false ∧ Lexer.isWordChar c = false ∧
      c ∉ Lexer.signs
  | word => IsRun before lexeme after ∧ (∀ n : Numeral, ¬n.IsWord lexeme) ∧
      Lexer.isSymbol lexeme = false
  | escape => ∃ body, lexeme = '"' :: (body ++ ['"']) ∧ Text.IsEnclosed body ∧
      ∃ front c back, body = front ++ '\\' :: c :: back ∧ Text.escapeOpen front = false ∧
        c ∉ ['"', '\\', 'n', 't', 'r']
  | unclosed => after = [] ∧ ∃ cs, lexeme = '"' :: cs ∧
      ∀ body rest, cs = body ++ '"' :: rest → ¬Text.IsEnclosed body

namespace Lexer

open Text

section Flawed

variable {c : Char} {cs : List Char} {head : Cut} {cause : LexCause}

theorem judgeWord_eq_bad {word : List Char} (h : judgeWord word = .bad cause) :
    cause.flaw = .word ∧ (∀ n : Numeral, ¬n.IsWord word) ∧ isSymbol word = false := by
  unfold judgeWord at h
  split at h
  · cases h
  rename_i hread
  split at h
  · cases h
  rename_i hsymbol
  cases h
  refine ⟨?_, fun n hn => ?_, by simpa using hsymbol⟩
  · unfold wordFault
    split_ifs <;> rfl
  · rw [Numeral.read_of_isWord hn] at hread
    cases hread

theorem judgeText_eq_bad {body : List Char} (h : judgeText body = .bad cause) :
    ∃ c, cause = .unknownEscape c ∧ unescape body = .error c := by
  unfold judgeText at h
  split at h
  · cases h
  · rename_i c hunescape
    cases h
    exact ⟨c, rfl, hunescape⟩

theorem not_mem_of_escapeMeaning (h : escapeMeaning? c = none) :
    c ∉ ['"', '\\', 'n', 't', 'r'] := by
  intro hmem
  fin_cases hmem <;> cases h

theorem not_mem_signs (hcomment : c ≠ ';') (hquote : c ≠ '"') (hmark : mark? c = none) :
    c ∉ signs := by
  intro hmem
  fin_cases hmem
  · exact hcomment rfl
  · exact hquote rfl
  all_goals cases hmark

/-- What is cut off as a bad lexeme has the flaw that is named. -/
theorem CutsOff.flawed (h : CutsOff c cs head) (hbad : head.lexeme = .bad cause)
    {before : List Char} (hborder : Border before (c :: cs)) :
    cause.flaw.Holds before head.text head.rest := by
  cases h with
  | blanks => cases hbad
  | comment => cases hbad
  | @text body after _ hbody =>
    obtain ⟨d, rfl, hunescape⟩ := judgeText_eq_bad hbad
    obtain ⟨front, back, hsplit, hopen, hd⟩ := exists_of_unescape_eq_error hunescape
    exact ⟨body, rfl, (textBody_eq_some_iff.1 hbody).2, front, d, back, hsplit, hopen,
      not_mem_of_escapeMeaning hd⟩
  | unterminated _ hbody =>
    cases hbad
    refine ⟨rfl, cs, rfl, fun body rest heq hclosed => ?_⟩
    rw [textBody_eq_some_iff.2 ⟨heq, hclosed⟩] at hbody
    cases hbody
  | word hc =>
    obtain ⟨hflaw, hnumber, hsymbol⟩ := judgeWord_eq_bad hbad
    rw [hflaw]
    exact ⟨isRun_takeWhile hc hborder, hnumber, hsymbol⟩
  | mark => cases hbad
  | unexpected hblank hcomment hquote hword hmark =>
    cases hbad
    exact ⟨c, rfl, hblank, hword, not_mem_signs hcomment hquote hmark⟩

end Flawed

/-- An error shows the first bad lexeme of what stands behind `before`. -/
def Shows (before cs : List Char) (position : Nat) (e : LexError) : Prop :=
  ∃ front after, cs = front ++ (e.lexeme.toList ++ after) ∧
    e.position = position + front.length ∧ e.lexeme ≠ "" ∧
    (∃ tokens, scan position front = .ok tokens) ∧
    e.cause.flaw.Holds (before ++ front) e.lexeme.toList after

/-- A lexeme that is not bad is passed over. -/
theorem shows_of_good {c : Char} {before cs : List Char} {position : Nat} {e : LexError}
    (hgood : ∀ cause, (cut c cs).lexeme ≠ .bad cause)
    (h : Shows (before ++ (cut c cs).text) (cut c cs).rest (position + (cut c cs).text.length) e) :
    Shows before (c :: cs) position e := by
  obtain ⟨front, after, hrest, hposition, hne, ⟨tokens, hscan⟩, hflaw⟩ := h
  refine ⟨(cut c cs).text ++ front, after, ?_, ?_, hne,
    (cutsOff_cut c cs).scan_truncate hgood hrest hscan, ?_⟩
  · rw [List.append_assoc, ← hrest, text_append_rest]
  · rw [hposition, List.length_append, Nat.add_assoc]
  · rwa [List.append_assoc] at hflaw

/-- A bad lexeme is shown. -/
theorem shows_of_bad {c : Char} {before cs : List Char} (position : Nat) {cause : LexCause}
    (hbad : (cut c cs).lexeme = .bad cause) (hborder : Border before (c :: cs)) :
    Shows before (c :: cs) position ⟨cause, String.ofList (cut c cs).text, position⟩ := by
  refine ⟨[], (cut c cs).rest, ?_, rfl, ?_, ⟨_, scan_nil position⟩, ?_⟩
  · rw [String.toList_ofList, List.nil_append, text_append_rest]
  · intro hempty
    exact text_ne_nil c cs (by simpa using hempty)
  · rw [String.toList_ofList, List.append_nil]
    exact (cutsOff_cut c cs).flawed hbad hborder

/-- A scan that fails shows the first bad lexeme. -/
theorem shows_of_scan {position : Nat} {before cs : List Char} {e : LexError}
    (hborder : Border before cs) (h : scan position cs = .error e) :
    Shows before cs position e := by
  fun_induction scan position cs generalizing before with
  | case1 => cases h
  | case2 position c cs head next =>
    rename_i hlexeme ih
    exact shows_of_good (fun cause => by rw [hlexeme]; simp)
      (ih ((cutsOff_cut c cs).border before) h)
  | case3 position c cs head next kind value =>
    rename_i hlexeme ih
    cases hscan : scan next head.rest with
    | ok rest =>
      rw [hscan] at h
      cases h
    | error e' =>
      rw [hscan] at h
      cases h
      exact shows_of_good (fun cause => by rw [hlexeme]; simp)
        (ih ((cutsOff_cut c cs).border before) hscan)
  | case4 position c cs head cause =>
    rename_i hlexeme
    cases h
    exact shows_of_bad position hlexeme hborder

end Lexer

namespace Flaw

/-- How a lexeme with a flaw begins. -/
theorem Holds.head {before lexeme after : List Char} {flaw : Flaw}
    (h : flaw.Holds before lexeme after) : ∃ c cs, lexeme = c :: cs ∧
      (flaw = character ↔ Lexer.isWordChar c = false ∧ c ≠ '"') ∧
      (flaw = word ↔ Lexer.isWordChar c = true) := by
  cases flaw with
  | character =>
    obtain ⟨c, rfl, -, hword, hsigns⟩ := h
    refine ⟨c, [], rfl, iff_of_true rfl ⟨hword, ?_⟩, by simp [hword]⟩
    rintro rfl
    exact hsigns (by decide)
  | word =>
    obtain ⟨c, cs, rfl⟩ := List.exists_cons_of_ne_nil h.1.ne_nil
    have hc := h.1.word c List.mem_cons_self
    exact ⟨c, cs, rfl, by simp [hc], by simp [hc]⟩
  | escape =>
    obtain ⟨body, rfl, -⟩ := h
    exact ⟨'"', _, rfl, by simp, by decide⟩
  | unclosed =>
    obtain ⟨-, cs, rfl, -⟩ := h
    exact ⟨'"', cs, rfl, by simp, by decide⟩

/-- A lexeme has at most one flaw. -/
theorem Holds.unique {before lexeme after : List Char} {flaw flaw' : Flaw}
    (h : flaw.Holds before lexeme after) (h' : flaw'.Holds before lexeme after) :
    flaw = flaw' := by
  have hclosed : ¬(escape.Holds before lexeme after ∧ unclosed.Holds before lexeme after) := by
    rintro ⟨⟨body, rfl, hbody, -⟩, -, cs, hcs, hopen⟩
    exact hopen body [] (List.cons.inj hcs).2.symm hbody
  obtain ⟨c, cs, rfl, hcharacter, hword⟩ := h.head
  obtain ⟨c', cs', heq, hcharacter', hword'⟩ := h'.head
  obtain ⟨rfl, rfl⟩ := List.cons.inj heq
  rw [← hcharacter'] at hcharacter
  rw [← hword'] at hword
  cases flaw <;> cases flaw' <;> simp_all

end Flaw

/-- The lexer refuses a source at its first bad lexeme: the error shows the text of the lexeme and
its place, the part of the source before it is accepted by itself, and the lexeme has one flaw, the
one that the error names. -/
theorem lex_error_shows {source : String} {e : LexError} (h : lex source = .error e) :
    e.lexeme ≠ "" ∧ ∃ before after, source = before ++ e.lexeme ++ after ∧
      before.length = e.position ∧ (∃ tokens, lex before = .ok tokens) ∧
      ∀ flaw : Flaw, flaw.Holds before.toList e.lexeme.toList after.toList ↔
        flaw = e.cause.flaw := by
  have hborder : Border [] source.toList := by
    intro c hc
    cases hc
  obtain ⟨front, after, hsource, hposition, hne, ⟨tokens, hscan⟩, hflaw⟩ :=
    Lexer.shows_of_scan hborder h
  refine ⟨hne, String.ofList front, String.ofList after, ?_, ?_, ⟨tokens, ?_⟩, fun flaw => ?_⟩
  · rw [← String.toList_inj]
    simpa using hsource
  · rw [String.length_ofList, hposition, Nat.zero_add]
  · rwa [lex, String.toList_ofList]
  · rw [String.toList_ofList, String.toList_ofList]
    refine ⟨fun hother => hother.unique hflaw, ?_⟩
    rintro rfl
    exact hflaw

/-- A quote after a comment with another quote in it is not closed by a quote in the next line, for
a backslash stands before the line end. -/
theorem lex_error_shows_broken_line :
    lex "(\"\\\"\" ; \"\n\"x\\\ny\")" =
        .error ⟨.unterminated, "\"x\\\ny\")", 10⟩ ∧
      ∃ before after, "(\"\\\"\" ; \"\n\"x\\\ny\")" = before ++ "\"x\\\ny\")" ++ after ∧
        before.length = 10 ∧ (∃ tokens, lex before = .ok tokens) ∧
        ∀ flaw : Flaw, flaw.Holds before.toList "\"x\\\ny\")".toList after.toList ↔
          flaw = .unclosed := by
  have h : lex "(\"\\\"\" ; \"\n\"x\\\ny\")" =
      .error ⟨.unterminated, "\"x\\\ny\")", 10⟩ :=
    eq_error_of_map (by decide +kernel)
  exact ⟨h, (lex_error_shows h).2⟩

end MiniLisp
