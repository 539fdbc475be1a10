import MiniLisp.Proofs.Lexer
import MiniLisp.Proofs.Syntax

/-!
# Tokens tile the source

`Tiles source start tokens` says that tokens cover a source from a place on: they stand one after
the other, each with the text that the source has at its place, and between them there are blanks
and comments only. Words are taken whole, and a text in double quotes goes to the first quote that
is not escaped. The lexer gives the tokens that tile a source from its beginning, and fails where
there are none (`lex_eq_ok_iff_tiles`).
-/

namespace MiniLisp

/-! ## Texts in double quotes -/

namespace Text

/-- Whether a text ends within an escape, in a backslash that is not itself escaped. -/
def escapeOpen (cs : List Char) : Bool :=
  cs.foldl (fun pending c => !pending && c == '\\') false

/-- What stands between a quote and the first quote behind it that is not escaped. -/
structure IsBody (body : List Char) : Prop where
  closed : escapeOpen body = false
  escaped : ∀ front back, body = front ++ '"' :: back → escapeOpen front = true

theorem escapeOpen_cons_of_ne {c : Char} (h : c ≠ '\\') (cs : List Char) :
    escapeOpen (c :: cs) = escapeOpen cs := by
  rw [escapeOpen, List.foldl_cons, beq_eq_false_iff_ne.2 h]
  rfl

theorem escapeOpen_ordinary {c : Char} (h : isOrdinary c = true) (cs : List Char) :
    escapeOpen (c :: cs) = escapeOpen cs := by
  refine escapeOpen_cons_of_ne ?_ cs
  rintro rfl
  cases h

theorem isBody_nil : IsBody [] := ⟨rfl, by simp⟩

theorem isBody_ordinary {c : Char} (h : isOrdinary c = true) (cs : List Char) :
    IsBody (c :: cs) ↔ IsBody cs := by
  constructor
  · intro hbody
    refine ⟨escapeOpen_ordinary h cs ▸ hbody.closed, fun front back heq => ?_⟩
    rw [← escapeOpen_ordinary h]
    exact hbody.escaped (c :: front) back (by rw [heq, List.cons_append])
  · intro hbody
    refine ⟨(escapeOpen_ordinary h cs).trans hbody.closed, fun front back heq => ?_⟩
    cases front with
    | nil =>
      obtain ⟨rfl, -⟩ := List.cons.inj heq
      cases h
    | cons d front =>
      obtain ⟨rfl, htail⟩ := List.cons.inj heq
      rw [escapeOpen_ordinary h]
      exact hbody.escaped front back htail

theorem isBody_slash (c : Char) (cs : List Char) : IsBody ('\\' :: c :: cs) ↔ IsBody cs := by
  constructor
  · intro hbody
    exact ⟨hbody.closed, fun front back heq =>
      hbody.escaped ('\\' :: c :: front) back (by rw [heq]; rfl)⟩
  · intro hbody
    refine ⟨hbody.closed, fun front back heq => ?_⟩
    rcases front with _ | ⟨d, _ | ⟨e, front⟩⟩
    · exact absurd (List.cons.inj heq).1 (by decide)
    · obtain ⟨rfl, -⟩ := List.cons.inj heq
      rfl
    · obtain ⟨rfl, htail⟩ := List.cons.inj heq
      exact hbody.escaped front back (List.cons.inj htail).2

/-- What can stand between two quotes: every quote in it is escaped, it does not end within an
escape, and no line end is escaped. -/
structure IsEnclosed (body : List Char) : Prop extends IsBody body where
  unbroken : ∀ front back, body = front ++ '\n' :: back → escapeOpen front = false

theorem isEnclosed_nil : IsEnclosed [] := ⟨isBody_nil, by simp⟩

theorem isEnclosed_ordinary {c : Char} (h : isOrdinary c = true) (cs : List Char) :
    IsEnclosed (c :: cs) ↔ IsEnclosed cs := by
  constructor
  · intro hbody
    refine ⟨(isBody_ordinary h cs).1 hbody.toIsBody, fun front back heq => ?_⟩
    rw [← escapeOpen_ordinary h]
    exact hbody.unbroken (c :: front) back (by rw [heq, List.cons_append])
  · intro hbody
    refine ⟨(isBody_ordinary h cs).2 hbody.toIsBody, fun front back heq => ?_⟩
    cases front with
    | nil => rfl
    | cons d front =>
      obtain ⟨rfl, htail⟩ := List.cons.inj heq
      rw [escapeOpen_ordinary h]
      exact hbody.unbroken front back htail

theorem isEnclosed_slash (c : Char) (cs : List Char) :
    IsEnclosed ('\\' :: c :: cs) ↔ c ≠ '\n' ∧ IsEnclosed cs := by
  constructor
  · intro hbody
    refine ⟨?_, (isBody_slash c cs).1 hbody.toIsBody, fun front back heq => ?_⟩
    · rintro rfl
      exact absurd (hbody.unbroken ['\\'] cs rfl) (by decide)
    · exact hbody.unbroken ('\\' :: c :: front) back (by rw [heq]; rfl)
  · rintro ⟨hc, hbody⟩
    refine ⟨(isBody_slash c cs).2 hbody.toIsBody, fun front back heq => ?_⟩
    rcases front with _ | ⟨d, _ | ⟨e, front⟩⟩
    · rfl
    · obtain ⟨-, htail⟩ := List.cons.inj heq
      exact absurd (List.cons.inj htail).1 hc
    · obtain ⟨rfl, htail⟩ := List.cons.inj heq
      exact hbody.unbroken front back (List.cons.inj htail).2

end Text

namespace Lexer

open Text

/-- A text ends at its first quote that is not escaped, unless a line end is escaped before it. -/
theorem textBody_eq_some_iff {cs body after : List Char} :
    textBody cs = some (body, after) ↔ cs = body ++ '"' :: after ∧ IsEnclosed body := by
  constructor
  · intro h
    refine ⟨textBody_eq h, ?_⟩
    fun_induction textBody cs generalizing body after with
    | case1 => cases h
    | case2 rest =>
      cases h
      exact isEnclosed_nil
    | case3 => cases h
    | case4 => cases h
    | case5 c rest hc ih =>
      obtain ⟨⟨b, a⟩, hb, heq⟩ := Option.map_eq_some_iff.1 h
      cases heq
      exact (isEnclosed_slash c b).2 ⟨hc, ih hb⟩
    | case6 c rest hquote hlast hslash ih =>
      obtain ⟨⟨b, a⟩, hb, heq⟩ := Option.map_eq_some_iff.1 h
      cases heq
      have hne : c ≠ '\\' := by
        intro hc
        cases rest with
        | nil => exact hlast hc rfl
        | cons d rest => exact hslash d rest hc rfl
      exact (isEnclosed_ordinary (by simpa [isOrdinary] using ⟨hquote, hne⟩) b).2 (ih hb)
  · rintro ⟨rfl, hbody⟩
    -- by recursion on the body, an escape at a time
    induction hlength : body.length using Nat.strongRecOn generalizing body with
    | ind n ih =>
      subst hlength
      rcases body with _ | ⟨c, body⟩
      · rfl
      by_cases hslash : c = '\\'
      · subst hslash
        rcases body with _ | ⟨d, body⟩
        · exact absurd hbody.closed (by decide)
        obtain ⟨hd, hbody⟩ := (isEnclosed_slash d body).1 hbody
        rw [List.cons_append, List.cons_append, textBody_slash hd,
          ih body.length (by simp) hbody rfl]
        rfl
      · have hquote : c ≠ '"' := by
          rintro rfl
          exact absurd (hbody.escaped [] body rfl) (by decide)
        have hc : isOrdinary c = true := by simpa [isOrdinary] using ⟨hquote, hslash⟩
        rw [List.cons_append, textBody_ordinary hc,
          ih body.length (by simp) ((isEnclosed_ordinary hc body).1 hbody) rfl]
        rfl

/-- A text whose escapes are known has no escaped line end. -/
theorem isEnclosed_of_unescape {body cs : List Char} (h : IsBody body)
    (hunescape : unescape body = .ok cs) : IsEnclosed body := by
  fun_induction unescape body generalizing cs with
  | case1 c rest d hmeaning ih =>
    have hc : c ≠ '\n' := by
      rintro rfl
      cases hmeaning
    cases hrest : unescape rest with
    | error e =>
      rw [hrest] at hunescape
      cases hunescape
    | ok ds => exact (isEnclosed_slash c rest).2 ⟨hc, ih ((isBody_slash c rest).1 h) hrest⟩
  | case2 => cases hunescape
  | case3 c rest hslash ih =>
    have hquote : c ≠ '"' := by
      rintro rfl
      exact absurd (h.escaped [] rest rfl) (by decide)
    have hne : c ≠ '\\' := by
      rintro rfl
      cases rest with
      | nil => exact absurd h.closed (by decide)
      | cons d rest => exact hslash d rest rfl rfl
    have hc : isOrdinary c = true := by simpa [isOrdinary] using ⟨hquote, hne⟩
    cases hrest : unescape rest with
    | error e =>
      rw [hrest] at hunescape
      cases hunescape
    | ok ds => exact (isEnclosed_ordinary hc rest).2 (ih ((isBody_ordinary hc rest).1 h) hrest)
  | case4 => exact isEnclosed_nil

end Lexer

/-! ## Tilings -/

/-- The place behind a token. -/
def Token.stop (t : Token) : Nat := t.position + t.text.length

/-- The place behind the last of some tokens, or `start` where there are none. -/
def stopOf (start : Nat) (tokens : List Token) : Nat :=
  (tokens.getLast?.map Token.stop).getD start

/-- A stretch of a source, before `rest`, that has blanks and comments only. A comment goes from a
semicolon to the next line end or to the end of the source. -/
inductive Gap (rest : List Char) : List Char → Prop
  | nil : Gap rest []
  | blank {c : Char} {cs : List Char} : Text.isBlank c = true → Gap rest cs → Gap rest (c :: cs)
  | comment {body cs : List Char} : '\n' ∉ body → (∀ c ∈ (cs ++ rest).head?, c = '\n') →
      Gap rest cs → Gap rest (';' :: (body ++ cs))

/-- A run of word characters between two parts of a source, as long as it can be. -/
structure IsRun (before word after : List Char) : Prop where
  ne_nil : word ≠ []
  word : ∀ c ∈ word, Lexer.isWordChar c = true
  before : ∀ c ∈ before.getLast?, Lexer.isWordChar c = false
  after : ∀ c ∈ after.head?, Lexer.isWordChar c = false

/-- The text and the value of a token between two parts of a source are right for its kind. -/
def Token.Made (before after : List Char) (t : Token) : Prop :=
  match t.kind with
  | .number => IsRun before t.text.toList after ∧
      ∃ n : Numeral, n.IsWord t.text.toList ∧ t.value = .number n.toFloat
  | .symbol => IsRun before t.text.toList after ∧ Lexer.isSymbol t.text.toList = true ∧
      t.value = .text t.text
  | .text => ∃ body cs, t.text.toList = '"' :: (body ++ ['"']) ∧ Text.IsBody body ∧
      Text.unescape body = .ok cs ∧ t.value = .text (String.ofList cs)
  | .quote | .opener _ | .closer _ =>
      ∃ c, t.text.toList = [c] ∧ Lexer.mark? c = some t.kind ∧ t.value = .nothing
  | .eof | .other _ => False

/-- Tokens tile a source from a place on. -/
structure Tiles (source : List Char) (start : Nat) (tokens : List Token) : Prop where
  /-- There is one end token: the last token, at the end of the source. -/
  ending : ∃ front, tokens = front ++ [Token.ending source.length] ∧ ∀ t ∈ front, t.kind ≠ .eof
  increasing : tokens.Pairwise (·.position < ·.position)
  slice : ∀ t ∈ tokens, source.extract t.position t.stop = t.text.toList
  /-- What stands before a token, behind the token before it, is a gap. -/
  gap : ∀ front t back, tokens = front ++ t :: back → stopOf start front ≤ t.position ∧
    Gap (source.drop t.position) (source.extract (stopOf start front) t.position)
  made : ∀ t ∈ tokens, t.kind ≠ .eof → t.Made (source.take t.position) (source.drop t.stop)

theorem stopOf_cons (start : Nat) (t : Token) (tokens : List Token) :
    stopOf start (t :: tokens) = stopOf t.stop tokens := by
  rw [stopOf, List.getLast?_cons, stopOf]
  cases tokens.getLast? <;> rfl

theorem drop_eq_extract_append (source : List Char) {start stop : Nat} (h : start ≤ stop) :
    source.drop start = source.extract start stop ++ source.drop stop := by
  have hsplit := List.take_append_drop (stop - start) (source.drop start)
  rw [List.drop_drop, Nat.add_sub_cancel' h] at hsplit
  exact hsplit.symm

/-! ### Scanning over a gap and a token -/

namespace Lexer

open Text

theorem takeWhile_eq_nil {p : Char → Bool} {cs : List Char} (h : ∀ c ∈ cs.head?, p c = false) :
    cs.takeWhile p = [] := by
  cases cs with
  | nil => rfl
  | cons c cs => exact List.takeWhile_cons_of_neg (by simpa using h c rfl)

theorem scan_gap {rest gap : List Char} (h : Gap rest gap) (position : Nat) :
    scan position (gap ++ rest) = scan (position + gap.length) rest := by
  induction h generalizing position with
  | nil => rfl
  | @blank c cs hc _ ih =>
    rw [List.cons_append, scan_blank hc, ih, List.length_cons]
    congr 1
    omega
  | @comment body cs hbody hnext _ ih =>
    have hstop : (cs ++ rest).takeWhile (· != '\n') = [] :=
      takeWhile_eq_nil fun c hc => by simpa using hnext c hc
    have hline : ∀ c ∈ body, (c != '\n') = true := by
      intro c hc
      rw [bne_iff_ne]
      rintro rfl
      exact hbody hc
    obtain ⟨htake, hdrop⟩ := takeWhile_dropWhile_append hline hstop
    have hcut : cut ';' (body ++ (cs ++ rest)) = ⟨.gap, ';' :: body, cs ++ rest⟩ := by
      show cutRun (fun _ => .gap) (· != '\n') ';' (body ++ (cs ++ rest)) = _
      rw [cutRun, htake, hdrop]
    rw [List.cons_append, List.append_assoc, scan_of_gap (by rw [hcut]), hcut, ih]
    simp only [List.length_cons, List.length_append]
    congr 1
    omega

theorem cut_mark {c : Char} {kind : Token.Kind} (h : mark? c = some kind) (cs : List Char) :
    cut c cs = ⟨.token kind .nothing, [c], cs⟩ := by
  unfold mark? at h
  repeat' split at h
  all_goals cases h
  all_goals subst_vars; rfl

theorem scan_of_made {before after : List Char} {t : Token} (h : t.Made before after) :
    scan t.position (t.text.toList ++ after) = (scan t.stop after).map (t :: ·) := by
  have hword (hrun : IsRun before t.text.toList after)
      (hjudge : judgeWord t.text.toList = .token t.kind t.value) :
      scan t.position (t.text.toList ++ after) = (scan t.stop after).map (t :: ·) := by
    rw [scan_word hrun.ne_nil hrun.word (takeWhile_eq_nil hrun.after) hjudge,
      String.ofList_toList, String.length_toList, Token.stop]
  have hmark {c : Char} (htext : t.text.toList = [c]) (hkind : mark? c = some t.kind)
      (hvalue : t.value = .nothing) :
      scan t.position (t.text.toList ++ after) = (scan t.stop after).map (t :: ·) := by
    have hcut := cut_mark hkind after
    rw [htext, List.singleton_append, scan_of_token (by rw [hcut]), hcut, ← hvalue, ← htext,
      String.ofList_toList, String.length_toList, Token.stop]
  unfold Token.Made at h
  split at h
  · rename_i hkind
    obtain ⟨hrun, n, hn, hvalue⟩ := h
    exact hword hrun (by rw [judgeWord, Numeral.read_of_isWord hn, hkind, hvalue])
  · rename_i hkind
    obtain ⟨hrun, hsymbol, hvalue⟩ := h
    exact hword hrun (by rw [judgeWord_symbol hsymbol, String.ofList_toList, hkind, hvalue])
  · rename_i hkind
    obtain ⟨body, cs, htext, hbody, hunescape, hvalue⟩ := h
    have hjudge : judgeText body = .token t.kind t.value := by
      simp only [judgeText, hunescape, hkind, hvalue]
    have hcut : cut '"' (body ++ '"' :: after) = ⟨judgeText body, t.text.toList, after⟩ := by
      show cutText (body ++ '"' :: after) = _
      rw [cutText, textBody_eq_some_iff.2 ⟨rfl, isEnclosed_of_unescape hbody hunescape⟩, htext]
    have hsource : t.text.toList ++ after = '"' :: (body ++ '"' :: after) := by
      rw [htext]
      simp
    rw [hsource, scan_of_token (by rw [hcut]; exact hjudge), hcut, String.ofList_toList,
      String.length_toList, Token.stop]
  · obtain ⟨c, htext, hkind, hvalue⟩ := h
    exact hmark htext hkind hvalue
  · obtain ⟨c, htext, hkind, hvalue⟩ := h
    exact hmark htext hkind hvalue
  · obtain ⟨c, htext, hkind, hvalue⟩ := h
    exact hmark htext hkind hvalue
  · exact h.elim
  · exact h.elim

end Lexer

/-! ### Tiles are scanned -/

section Scanned

variable {source before after more : List Char} {start : Nat} {t : Token} {tokens : List Token}

theorem head?_append {rest : List Char} {p : Char → Prop} (hrest : ∀ c ∈ rest.head?, p c)
    (hmore : ∀ c ∈ more.head?, p c) : ∀ c ∈ (rest ++ more).head?, p c := by
  cases rest with
  | nil => exact hmore
  | cons d rest => exact hrest

/-- A gap stays one when the source goes on with a line end. -/
theorem Gap.append {rest gap : List Char} (h : Gap rest gap)
    (hmore : ∀ c ∈ more.head?, c = '\n') : Gap (rest ++ more) gap := by
  induction h with
  | nil => exact .nil
  | blank hc _ ih => exact .blank hc ih
  | comment hbody hnext _ ih =>
    refine .comment hbody ?_ ih
    rw [← List.append_assoc]
    exact head?_append hnext hmore

theorem IsRun.append {word : List Char} (h : IsRun before word after)
    (hmore : ∀ c ∈ more.head?, c = '\n') : IsRun before word (after ++ more) := by
  refine ⟨h.ne_nil, h.word, h.before, head?_append h.after fun c hc => ?_⟩
  rw [hmore c hc]
  rfl

/-- A token stays right when the source goes on with a line end. -/
theorem Token.Made.append (h : t.Made before after) (hmore : ∀ c ∈ more.head?, c = '\n') :
    t.Made before (after ++ more) := by
  unfold Token.Made at h ⊢
  split at h
  · exact ⟨h.1.append hmore, h.2⟩
  · exact ⟨h.1.append hmore, h.2⟩
  all_goals exact h

theorem Token.Made.text_ne_nil (h : t.Made before after) : t.text.toList ≠ [] := by
  unfold Token.Made at h
  split at h
  · exact h.1.ne_nil
  · exact h.1.ne_nil
  · obtain ⟨body, cs, htext, -⟩ := h
    simp [htext]
  · obtain ⟨c, htext, -⟩ := h
    simp [htext]
  · obtain ⟨c, htext, -⟩ := h
    simp [htext]
  · obtain ⟨c, htext, -⟩ := h
    simp [htext]
  · exact h.elim
  · exact h.elim

theorem Token.Made.kind_ne_eof (h : t.Made before after) : t.kind ≠ .eof := by
  intro hkind
  unfold Token.Made at h
  rw [hkind] at h
  exact h

theorem Token.Made.position_lt_stop (h : t.Made before after) : t.position < t.stop := by
  have hlength := List.length_pos_iff.2 h.text_ne_nil
  rw [String.length_toList] at hlength
  rw [Token.stop]
  omega

namespace Tiles

theorem tail (h : Tiles source start (t :: tokens)) (ht : t.kind ≠ .eof) :
    Tiles source t.stop tokens where
  ending := by
    obtain ⟨front, heq, hfront⟩ := h.ending
    cases front with
    | nil =>
      obtain ⟨rfl, -⟩ := List.cons.inj heq
      exact absurd rfl ht
    | cons u front =>
      exact ⟨front, (List.cons.inj heq).2, fun v hv => hfront v (List.mem_cons_of_mem u hv)⟩
  increasing := h.increasing.of_cons
  slice u hu := h.slice u (List.mem_cons_of_mem t hu)
  gap front u back heq := by
    rw [← stopOf_cons start]
    exact h.gap (t :: front) u back (by rw [heq, List.cons_append])
  made u hu := h.made u (List.mem_cons_of_mem t hu)

/-- Scanning from the place of a tiling gives its tokens, and the scan goes on behind a line end as
at the beginning of a source. -/
theorem scan_append (h : Tiles source start tokens) (more : List Char)
    (hmore : ∀ c ∈ more.head?, c = '\n') :
    Lexer.scan start (source.drop start ++ more) =
      (Lexer.scan source.length more).map (tokens.dropLast ++ ·) := by
  induction tokens generalizing start with
  | nil =>
    obtain ⟨front, heq, -⟩ := h.ending
    simp at heq
  | cons t tokens ih =>
    obtain ⟨hstart, hgap⟩ := h.gap [] t tokens rfl
    change start ≤ t.position at hstart
    change Gap (source.drop t.position) (source.extract start t.position) at hgap
    have hscan (hle : t.position ≤ source.length) :
        Lexer.scan start (source.drop start ++ more) =
          Lexer.scan t.position (source.drop t.position ++ more) := by
      have hlength : (source.extract start t.position).length = t.position - start := by
        simp only [List.length_take, List.length_drop]
        omega
      rw [drop_eq_extract_append source hstart, List.append_assoc,
        Lexer.scan_gap (hgap.append hmore), hlength, Nat.add_sub_cancel' hstart]
    by_cases ht : t.kind = .eof
    · -- only the last token is an end token
      obtain ⟨front, heq, hfront⟩ := h.ending
      cases front with
      | nil =>
        obtain ⟨rfl, rfl⟩ := List.cons.inj heq
        rw [hscan (Nat.le_refl _)]
        show Lexer.scan source.length (source.drop source.length ++ more) = _
        rw [List.drop_length, List.nil_append]
        cases Lexer.scan source.length more <;> rfl
      | cons u front =>
        obtain ⟨rfl, -⟩ := List.cons.inj heq
        exact absurd ht (hfront t List.mem_cons_self)
    · have hmade := h.made t List.mem_cons_self ht
      have hslice := h.slice t List.mem_cons_self
      have hle : t.position ≤ source.length := by
        by_contra hlt
        refine hmade.text_ne_nil ?_
        rw [← hslice]
        simp only [List.take_eq_nil_iff, List.drop_eq_nil_iff]
        omega
      have htail := h.tail ht
      have hne : tokens ≠ [] := by
        obtain ⟨front, rfl, -⟩ := htail.ending
        simp
      rw [hscan hle, drop_eq_extract_append source hmade.position_lt_stop.le, hslice,
        List.append_assoc, Lexer.scan_of_made (hmade.append hmore), ih htail,
        List.dropLast_cons_of_ne_nil hne]
      cases Lexer.scan source.length more <;> rfl

theorem scan_eq (h : Tiles source start tokens) :
    Lexer.scan start (source.drop start) = .ok tokens := by
  obtain ⟨front, rfl, -⟩ := h.ending
  have hscan := h.scan_append [] (by simp)
  rw [List.append_nil, Lexer.scan_nil, List.dropLast_concat] at hscan
  exact hscan

end Tiles

end Scanned

/-! ### Scanning tiles -/

/-- No word goes over the border between two parts of a source. -/
def Border (before after : List Char) : Prop :=
  ∀ c ∈ before.getLast?, ∀ d ∈ after.head?, Lexer.isWordChar d = true → Lexer.isWordChar c = false

namespace Lexer

open Text

section Cuts

variable {c : Char} {cs : List Char} {head : Cut} {kind : Token.Kind} {value : Value}

theorem judgeWord_eq_token {word : List Char} (h : judgeWord word = .token kind value) :
    (kind = .number ∧ ∃ n : Numeral, n.IsWord word ∧ value = .number n.toFloat) ∨
    (kind = .symbol ∧ isSymbol word = true ∧ value = .text (String.ofList word)) := by
  unfold judgeWord at h
  split at h
  · rename_i n hread
    cases h
    exact .inl ⟨rfl, n, Numeral.isWord_of_read hread, rfl⟩
  · split at h
    · rename_i hsymbol
      cases h
      exact .inr ⟨rfl, hsymbol, rfl⟩
    · cases h

theorem judgeText_eq_token {body : List Char} (h : judgeText body = .token kind value) :
    kind = .text ∧ ∃ cs, unescape body = .ok cs ∧ value = .text (String.ofList cs) := by
  unfold judgeText at h
  split at h
  · rename_i cs hunescape
    cases h
    exact ⟨rfl, cs, hunescape, rfl⟩
  · cases h

theorem judgeWord_ne_gap (word : List Char) : judgeWord word ≠ .gap := by
  unfold judgeWord
  split
  · simp
  · split <;> simp

theorem judgeText_ne_gap (body : List Char) : judgeText body ≠ .gap := by
  unfold judgeText
  split <;> simp

theorem head?_dropWhile {p : Char → Bool} {d : Char} (h : d ∈ (cs.dropWhile p).head?) :
    p d = false := by
  have hne : cs.dropWhile p ≠ [] := by
    intro hnil
    rw [hnil] at h
    cases h
  rw [List.head?_eq_some_head hne, Option.mem_some_iff] at h
  rw [← h]
  exact List.head_dropWhile_not p hne

theorem not_isWordChar_of_isBlank (h : isBlank c = true) : isWordChar c = false := by
  rw [Bool.eq_false_iff]
  intro hword
  obtain ⟨hlow, hhigh, -⟩ := toNat_of_isWordChar hword
  simp only [isBlank, Bool.or_eq_true, Bool.and_eq_true, decide_eq_true_eq, beq_iff_eq] at h
  omega

theorem not_isWordChar_of_mark (h : mark? c = some kind) : isWordChar c = false := by
  unfold mark? at h
  repeat' split at h
  all_goals first
    | (subst_vars; decide)
    | cases h

theorem gap_append {gap rest blanks : List Char} (h : ∀ d ∈ blanks, isBlank d = true)
    (hgap : Gap rest gap) : Gap rest (blanks ++ gap) := by
  induction blanks with
  | nil => exact hgap
  | cons d blanks ih =>
    obtain ⟨hd, hblanks⟩ := List.forall_mem_cons.1 h
    exact .blank hd (ih hblanks)

/-- What is cut off as a gap lengthens the gap behind it. -/
theorem CutsOff.gap (h : CutsOff c cs head) (hlexeme : head.lexeme = .gap) {gap rest : List Char}
    (hrest : head.rest = gap ++ rest) (hgap : Gap rest gap) : Gap rest (head.text ++ gap) := by
  cases h with
  | blanks hc => exact .blank hc (gap_append (fun d hd => List.mem_takeWhile_imp hd) hgap)
  | comment hc =>
    refine .comment (fun hmem => ?_) (fun d hd => ?_) hgap
    · exact absurd (List.mem_takeWhile_imp hmem) (by decide)
    · rw [← hrest] at hd
      simpa using head?_dropWhile hd
  | text => exact absurd hlexeme (judgeText_ne_gap _)
  | unterminated => cases hlexeme
  | word => exact absurd hlexeme (judgeWord_ne_gap _)
  | mark => cases hlexeme
  | unexpected => cases hlexeme

theorem isRun_takeWhile (hc : isWordChar c = true) {before : List Char}
    (hborder : Border before (c :: cs)) :
    IsRun before (c :: cs.takeWhile isWordChar) (cs.dropWhile isWordChar) := by
  refine ⟨by simp, ?_, fun d hd => hborder d hd c rfl hc, fun d hd => head?_dropWhile hd⟩
  exact List.forall_mem_cons.2 ⟨hc, fun d hd => List.mem_takeWhile_imp hd⟩

/-- What is cut off as a token is right for its kind. -/
theorem CutsOff.made (h : CutsOff c cs head) (hlexeme : head.lexeme = .token kind value)
    {before : List Char} (hborder : Border before (c :: cs)) (position : Nat) :
    Token.Made before head.rest ⟨kind, String.ofList head.text, position, value⟩ := by
  cases h with
  | blanks => cases hlexeme
  | comment => cases hlexeme
  | text _ hbody =>
    obtain ⟨rfl, ds, hunescape, rfl⟩ := judgeText_eq_token hlexeme
    exact ⟨_, ds, String.toList_ofList, (textBody_eq_some_iff.1 hbody).2.toIsBody, hunescape, rfl⟩
  | unterminated => cases hlexeme
  | word hc =>
    have hrun := isRun_takeWhile hc hborder
    rw [← String.toList_ofList (l := c :: cs.takeWhile isWordChar)] at hrun
    rcases judgeWord_eq_token hlexeme with ⟨rfl, n, hn, rfl⟩ | ⟨rfl, hsymbol, rfl⟩
    · exact ⟨hrun, n, by rwa [String.toList_ofList], rfl⟩
    · exact ⟨hrun, by rwa [String.toList_ofList], rfl⟩
  | mark hmark =>
    cases hlexeme
    have hc : (String.ofList [c]).toList = [c] := String.toList_ofList
    rcases mark?_cases hmark with rfl | ⟨b, rfl⟩ | ⟨b, rfl⟩
    · exact ⟨c, hc, hmark, rfl⟩
    · exact ⟨c, hc, hmark, rfl⟩
    · exact ⟨c, hc, hmark, rfl⟩
  | unexpected => cases hlexeme

/-- No word goes over the end of what is cut off. -/
theorem CutsOff.border (h : CutsOff c cs head) (before : List Char) :
    Border (before ++ head.text) head.rest := by
  intro a ha d hd hword
  have hlast : a ∈ head.text.getLast? := by
    have hne : head.text ≠ [] := by cases h <;> simp
    rwa [List.getLast?_append_of_ne_nil _ hne] at ha
  cases h with
  | blanks hc =>
    refine not_isWordChar_of_isBlank ?_
    rcases List.mem_cons.1 (List.mem_of_getLast? hlast) with rfl | hmem
    · exact hc
    · exact List.mem_takeWhile_imp hmem
  | comment =>
    obtain rfl : d = '\n' := by simpa using head?_dropWhile hd
    cases hword
  | text =>
    obtain rfl : '"' = a := by simpa [List.getLast?_cons] using hlast
    rfl
  | unterminated => cases hd
  | word =>
    rw [head?_dropWhile hd] at hword
    cases hword
  | mark hmark =>
    obtain rfl : c = a := by simpa using hlast
    exact not_isWordChar_of_mark hmark
  | unexpected _ _ _ hc _ =>
    obtain rfl : c = a := by simpa using hlast
    exact hc

end Cuts

end Lexer

section Tiled

variable {source before : List Char} {start : Nat} {t : Token} {tokens : List Token}

namespace Tiles

theorem start_le (h : Tiles source start tokens) : ∀ t ∈ tokens, start ≤ t.position := by
  cases tokens with
  | nil => exact List.forall_mem_nil _
  | cons u tokens =>
    have hle : start ≤ u.position := (h.gap [] u tokens rfl).1
    exact List.forall_mem_cons.2
      ⟨hle, fun t ht => hle.trans ((List.pairwise_cons.1 h.increasing).1 t ht).le⟩

theorem singleton (source : List Char) :
    Tiles source source.length [Token.ending source.length] where
  ending := ⟨[], rfl, List.forall_mem_nil _⟩
  increasing := List.pairwise_singleton _ _
  slice := by simp [Token.ending, Token.stop]
  gap front t back heq := by
    obtain ⟨rfl, rfl, rfl⟩ : front = [] ∧ t = Token.ending source.length ∧ back = [] := by
      simpa [List.append_eq_singleton_iff, eq_comm] using heq
    exact ⟨Nat.le_refl _, by simpa [stopOf, Token.ending] using Gap.nil⟩
  made t ht hkind := by
    rw [List.mem_singleton.1 ht] at hkind
    exact absurd rfl hkind

/-- A token and a tiling from behind it make a tiling from the token on. -/
theorem cons (hslice : source.extract t.position t.stop = t.text.toList)
    (hmade : t.Made (source.take t.position) (source.drop t.stop))
    (h : Tiles source t.stop tokens) : Tiles source t.position (t :: tokens) where
  ending := by
    obtain ⟨front, rfl, hfront⟩ := h.ending
    exact ⟨t :: front, rfl, List.forall_mem_cons.2 ⟨hmade.kind_ne_eof, hfront⟩⟩
  increasing :=
    .cons (fun u hu => hmade.position_lt_stop.trans_le (h.start_le u hu)) h.increasing
  slice := List.forall_mem_cons.2 ⟨hslice, h.slice⟩
  gap front u back heq := by
    cases front with
    | nil =>
      obtain ⟨rfl, -⟩ := List.cons.inj heq
      exact ⟨Nat.le_refl _, by simpa [stopOf] using Gap.nil⟩
    | cons v front =>
      obtain ⟨rfl, htokens⟩ := List.cons.inj heq
      rw [stopOf_cons]
      exact h.gap front u back htokens
  made := List.forall_mem_cons.2 ⟨fun _ => hmade, h.made⟩

/-- A tiling may begin earlier, if the first gap still is one. -/
theorem of_le {earlier : Nat} (h : Tiles source start tokens) (hle : earlier ≤ start)
    (hgap : ∀ stop, start ≤ stop → Gap (source.drop stop) (source.extract start stop) →
      Gap (source.drop stop) (source.extract earlier stop)) : Tiles source earlier tokens where
  ending := h.ending
  increasing := h.increasing
  slice := h.slice
  gap front u back heq := by
    obtain ⟨hfirst, hfirstGap⟩ := h.gap front u back heq
    cases front with
    | nil => exact ⟨hle.trans hfirst, hgap u.position hfirst hfirstGap⟩
    | cons v front => exact ⟨hfirst, hfirstGap⟩
  made := h.made

end Tiles

theorem extract_append_extract (source : List Char) {i j k : Nat} (hij : i ≤ j) (hjk : j ≤ k) :
    source.extract i k = source.extract i j ++ source.extract j k := by
  have hi := drop_eq_extract_append source hij
  rw [drop_eq_extract_append source hjk, drop_eq_extract_append source (hij.trans hjk),
    ← List.append_assoc] at hi
  exact List.append_cancel_right hi

theorem extract_middle (before text after : List Char) :
    (before ++ text ++ after).extract before.length (before.length + text.length) = text := by
  rw [List.append_assoc, List.extract, List.drop_left, Nat.add_sub_cancel_left, List.take_left]

/-- The tokens of a source tile it from the place on where the scan begins. -/
theorem tiles_of_scan {cs : List Char} {position : Nat} (hposition : position = before.length)
    (hborder : Border before cs) (h : Lexer.scan position cs = .ok tokens) :
    Tiles (before ++ cs) position tokens := by
  fun_induction Lexer.scan position cs generalizing before tokens with
  | case1 position =>
    cases h
    rw [List.append_nil, hposition]
    exact Tiles.singleton before
  | case2 position c cs head next =>
    rename_i hlexeme ih
    have hcut : Lexer.CutsOff c cs head := Lexer.cutsOff_cut c cs
    have hnext : next = (before ++ head.text).length := by
      rw [List.length_append, ← hposition]
    have htiles := ih hnext (hcut.border before) h
    rw [← Lexer.text_append_rest c cs, ← List.append_assoc]
    refine htiles.of_le (Nat.le_add_right _ _) fun stop hstop hgap => ?_
    have htext := extract_middle before head.text head.rest
    rw [← hposition] at htext
    rw [extract_append_extract _ (Nat.le_add_right position head.text.length) hstop, htext]
    refine hcut.gap hlexeme ?_ hgap
    rw [← drop_eq_extract_append _ hstop, hnext, List.drop_left]
  | case3 position c cs head next kind value =>
    rename_i hlexeme ih
    have hcut : Lexer.CutsOff c cs head := Lexer.cutsOff_cut c cs
    have hnext : next = (before ++ head.text).length := by
      rw [List.length_append, ← hposition]
    cases hrest : Lexer.scan next head.rest with
    | error e =>
      rw [hrest] at h
      cases h
    | ok rest =>
      rw [hrest] at h
      cases h
      have htiles := ih hnext (hcut.border before) hrest
      have hmade := hcut.made hlexeme hborder position
      rw [← Lexer.text_append_rest c cs, ← List.append_assoc]
      let t : Token := ⟨kind, String.ofList head.text, position, value⟩
      have hstop : t.stop = next := by
        rw [Token.stop, String.length_ofList]
      have hbefore : (before ++ head.text ++ head.rest).take t.position = before := by
        show (before ++ head.text ++ head.rest).take position = before
        rw [hposition, List.append_assoc, List.take_left]
      have hafter : (before ++ head.text ++ head.rest).drop t.stop = head.rest := by
        rw [hstop, hnext, List.drop_left]
      refine Tiles.cons (t := t) ?_ (by rw [hbefore, hafter]; exact hmade) (hstop ▸ htiles)
      rw [hstop]
      show (before ++ head.text ++ head.rest).extract position (position + head.text.length) = _
      rw [hposition, extract_middle, String.toList_ofList]
  | case4 => cases h

end Tiled

theorem tiles_of_lex {source : String} {tokens : List Token} (h : lex source = .ok tokens) :
    Tiles source.toList 0 tokens := by
  have hborder : Border [] source.toList := by
    intro c hc
    cases hc
  exact tiles_of_scan rfl hborder h

/-- The lexer accepts the sources that tokens tile, and gives these tokens. -/
theorem lex_eq_ok_iff_tiles (source : String) (tokens : List Token) :
    lex source = .ok tokens ↔ Tiles source.toList 0 tokens :=
  ⟨tiles_of_lex, fun h => h.scan_eq⟩

/-! ## Two sources with a line end between them -/

/-- A token that stands so many characters further on. -/
def Token.shift (t : Token) (distance : Nat) : Token :=
  { t with position := t.position + distance }

/-- A refused lexeme that stands so many characters further on. -/
def LexError.shift (e : LexError) (distance : Nat) : LexError :=
  { e with position := e.position + distance }

/-- A scan that begins further on gives the same at places further on. -/
theorem Lexer.scan_add (position distance : Nat) (cs : List Char) :
    scan (position + distance) cs =
      ((scan position cs).map (List.map (·.shift distance))).mapError (·.shift distance) := by
  fun_induction scan position cs with
  | case1 position =>
    rw [scan_nil]
    rfl
  | case2 position c cs head next =>
    rename_i hlexeme ih
    rw [scan_of_gap hlexeme, Nat.add_right_comm]
    exact ih
  | case3 position c cs head next kind value =>
    rename_i hlexeme ih
    rw [scan_of_token hlexeme, Nat.add_right_comm]
    refine (congrArg (Except.map _) ih).trans ?_
    cases scan next head.rest <;> rfl
  | case4 position c cs head cause hlexeme =>
    rw [scan_of_bad hlexeme]
    rfl

/-- A source that the lexer accepts may stand before a line end and any other source: the lexer
makes of the other source what it makes of it alone, at places further on. -/
theorem lex_append_newline {a : String} {tokens : List Token} (h : lex a = .ok tokens)
    (b : String) :
    (∀ others, lex b = .ok others →
      lex (a ++ "\n" ++ b) = .ok (tokens.dropLast ++ others.map (·.shift (a.length + 1)))) ∧
    ∀ e, lex b = .error e → lex (a ++ "\n" ++ b) = .error (e.shift (a.length + 1)) := by
  have hscan : lex (a ++ "\n" ++ b) =
      (Lexer.scan (a.length + 1) b.toList).map (tokens.dropLast ++ ·) := by
    have htiles := tiles_of_lex h
    have hjoined : (a ++ "\n" ++ b).toList = a.toList ++ '\n' :: b.toList := by
      rw [String.toList_append, String.toList_append, List.append_assoc]
      rfl
    rw [lex, hjoined, ← Lexer.scan_blank (c := '\n') (by decide), ← String.length_toList]
    exact htiles.scan_append ('\n' :: b.toList) (by simp)
  have hshift := Lexer.scan_add 0 (a.length + 1) b.toList
  rw [Nat.zero_add] at hshift
  rw [hscan, hshift]
  constructor
  · intro others hb
    have hb : Lexer.scan 0 b.toList = .ok others := hb
    rw [hb]
    rfl
  · intro e hb
    have hb : Lexer.scan 0 b.toList = .error e := hb
    rw [hb]
    rfl

theorem exists_of_isOk {ε α : Type} {r : Except ε α} (h : r.isOk = true) : ∃ x, r = .ok x := by
  cases r with
  | error e => cases h
  | ok x => exact ⟨x, rfl⟩

theorem eq_error_of_map {ε α : Type} {r : Except ε α} {e : ε}
    (h : r.map (fun _ => ()) = .error e) : r = .error e := by
  cases r with
  | error e => exact congrArg Except.error (Except.error.inj h)
  | ok x => cases h

/-- A comment with a quote in it and an escaped backslash before a quote do not reach over the line
end, neither into a source that is accepted nor into one that is not. -/
theorem lex_append_newline_comment :
    ∃ tokens others,
      lex "(f \"a\\\\\") ; \"(" = .ok tokens ∧ lex " ;) \n 'b-2" = .ok others ∧
      lex ("(f \"a\\\\\") ; \"(" ++ "\n" ++ " ;) \n 'b-2") =
        .ok (tokens.dropLast ++ others.map (·.shift 15)) ∧
      lex "1 \"\\\"" = .error ⟨.unterminated, "\"\\\"", 2⟩ ∧
      lex ("(f \"a\\\\\") ; \"(" ++ "\n" ++ "1 \"\\\"") =
        .error ⟨.unterminated, "\"\\\"", 17⟩ := by
  obtain ⟨tokens, ha⟩ := exists_of_isOk
    (show (lex "(f \"a\\\\\") ; \"(").isOk = true by decide +kernel)
  obtain ⟨others, hb⟩ := exists_of_isOk (show (lex " ;) \n 'b-2").isOk = true by decide +kernel)
  have hbad : lex "1 \"\\\"" = .error ⟨.unterminated, "\"\\\"", 2⟩ :=
    eq_error_of_map (by decide +kernel)
  exact ⟨tokens, others, ha, hb, (lex_append_newline ha _).1 others hb, hbad,
    (lex_append_newline ha _).2 _ hbad⟩

end MiniLisp
