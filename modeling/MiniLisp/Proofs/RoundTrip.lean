import MiniLisp.Proofs.Grammar
import MiniLisp.Proofs.Lexer
import MiniLisp.Proofs.Syntax
import MiniLisp.Value.Printer

/-!
# Values from their texts

Which values come back when their canonical text is read: `Value.printable` tells them by their
symbols, brackets, texts and numbers alone, and `readSource_toText_iff` says that it tells exactly
these, as long as the brackets are within the allowance of the reader. For the trees that a source
can write at all, `Rereads` follows the text of a value through the lexer, whatever stands behind
it: the lexer refuses it, or it gives tokens that derive some value.
-/

namespace MiniLisp

open Float.Model.UnpackedFloat in
/-- Zero but not negative zero, or a finite number that is written without an exponent. -/
def isPositional (x : Float) : Bool :=
  match x.toModel.unpack with
  | .zero .positive => true
  | .finite _ m e _ => Layout.canonical.positional (Decimal.shortest x.abs m e).point
  | _ => false

/-- The atoms that come back from their texts. -/
def Atom.printable : Atom → Bool
  | .number x => isPositional x
  | .boolean _ => true
  | .text s => s.toList.all Text.isPlain

namespace Value

mutual

/-- Whether a value comes back from its text, as far as its parts go. -/
def printable : Value → Bool
  | .atom a => a.printable
  | .symbol name => isSymbolName name
  | .list .plain [] => false
  | .list _ items => printableAll items
  | .braces entries => printableAll entries
  | _ => false

/-- Whether several values come back from their texts. -/
def printableAll : List Value → Bool
  | [] => true
  | v :: rest => printable v && printableAll rest

end

mutual

/-- How much of the allowance of the reader the brackets of a value take. -/
def nesting : Value → Nat
  | .list _ items => 2 + nestingAll items
  | .braces entries => 2 + nestingAll entries
  | _ => 0

/-- How much of the allowance the brackets of several values take, one after the other. -/
def nestingAll : List Value → Nat
  | [] => 0
  | v :: rest => max (nesting v) (nestingAll rest)

end

mutual

theorem wellRead_of_printable : (v : Value) → v.printable = true → v.wellRead = true
  | .atom _, _ => by rw [wellRead]
  | .symbol _, h => by rwa [wellRead, ← printable]
  | .list .plain [], h => by simp [printable] at h
  | .list .plain (v :: rest), h => by
    simp only [printable] at h
    simpa only [wellRead] using wellReadAll_of_printableAll (v :: rest) h
  | .list .vector items, h => by
    simp only [printable] at h
    simpa only [wellRead] using wellReadAll_of_printableAll items h
  | .braces entries, h => by
    simp only [printable] at h
    simpa only [wellRead] using wellReadAll_of_printableAll entries h
  | .dictionary _, h | .native .., h | .closure .., h | .nothing, h => by simp [printable] at h

theorem wellReadAll_of_printableAll :
    (vs : List Value) → printableAll vs = true → wellReadAll vs = true
  | [], _ => by rw [wellReadAll]
  | v :: rest, h => by
    rw [printableAll, Bool.and_eq_true] at h
    rw [wellReadAll, wellRead_of_printable v h.1, wellReadAll_of_printableAll rest h.2]
    rfl

end

end Value

/-! ## Leaves -/

open Lexer

/-- How the text of a value is read in front of what cannot continue it: it is refused, or read as
some value, and as the value itself exactly if that is printable. -/
def Rereads (v : Value) : Prop :=
  ∀ (position : Nat) (rest : List Char), Delimited rest →
    (v.printable = false ∧ ∃ e, scan position (v.chars ++ rest) = .error e) ∨
    ∃ ts w, Derives ts w ∧ (w = v ↔ v.printable = true) ∧
      (∀ levels, nestingFrom levels ts = levels.sum + v.nesting) ∧
      scan position (v.chars ++ rest) =
        (scan (position + v.chars.length) rest).map (ts ++ ·)

theorem sum_dropWhile_le (levels : List Nat) : (levels.dropWhile (· == 1)).sum ≤ levels.sum := by
  induction levels with
  | nil => exact Nat.le_refl _
  | cons n levels ih =>
    rw [List.dropWhile_cons]
    split
    · exact Nat.le_trans ih (by simp)
    · exact Nat.le_refl _

theorem Leaf.nestingFrom_eq {t : Token} {v : Value} (h : Leaf t v) (levels : List Nat) :
    nestingFrom levels [t] = levels.sum := by
  have hafter : openAfter levels t = levels.dropWhile (· == 1) :=
    foldl_openAfter.1 (.leaf h) levels
  rw [nestingFrom, nestingFrom, hafter]
  exact Nat.max_eq_left (sum_dropWhile_le levels)

/-- A value whose text is one lexeme. -/
theorem rereads_of_token {v w : Value} {t : Nat → Token} (hleaf : ∀ position, Leaf (t position) w)
    (hscan : ∀ position rest, Delimited rest → scan position (v.chars ++ rest) =
      (scan (position + v.chars.length) rest).map (t position :: ·))
    (hiff : w = v ↔ v.printable = true) (hnesting : v.nesting = 0) : Rereads v := by
  intro position rest hrest
  refine .inr ⟨[t position], w, .leaf (hleaf position), hiff, fun levels => ?_,
    hscan position rest hrest⟩
  rw [(hleaf position).nestingFrom_eq, hnesting, Nat.add_zero]

theorem rereads_of_refused {v : Value} (hv : v.printable = false)
    (h : ∀ position rest, ∃ e, scan position (v.chars ++ rest) = .error e) : Rereads v :=
  fun position rest _ => .inl ⟨hv, h position rest⟩

/-- A value whose text is a symbol word. -/
theorem rereads_of_symbol {v w : Value} (hsymbol : isSymbol v.chars = true)
    (hw : w = Reader.symbolValue (String.ofList v.chars)) (hiff : w = v ↔ v.printable = true)
    (hnesting : v.nesting = 0) : Rereads v := by
  obtain ⟨hne, hchars⟩ := isWordChar_of_isSymbol hsymbol
  refine rereads_of_token (t := fun position =>
      ⟨.symbol, String.ofList v.chars, position, .text (String.ofList v.chars)⟩)
    (fun position => ?_) (fun position rest hrest => ?_) hiff hnesting
  · rw [hw]
    exact leaf_symbolValue rfl
  · exact scan_word hne hchars hrest (judgeWord_symbol hsymbol)

theorem rereads_boolean (b : Bool) : Rereads (.boolean b) := by
  cases b with
  | true => exact rereads_of_symbol (by decide) rfl (iff_of_true rfl rfl) rfl
  | false => exact rereads_of_symbol (by decide) rfl (iff_of_true rfl rfl) rfl

theorem rereads_symbol {name : String} (h : Value.isSymbolName name = true) :
    Rereads (.symbol name) := by
  obtain ⟨hsymbol, hyes, hno⟩ : isSymbol name.toList = true ∧ name ≠ "true" ∧ name ≠ "false" := by
    simpa [Value.isSymbolName, and_assoc] using h
  have hvalue : Reader.symbolValue name = .symbol name := by
    rw [Reader.symbolValue, if_neg hyes, if_neg hno]
  refine rereads_of_symbol (w := .symbol name) hsymbol ?_ (iff_of_true rfl h) rfl
  change _ = Reader.symbolValue (String.ofList name.toList)
  rw [String.ofList_toList, hvalue]

theorem rereads_text (s : String) : Rereads (.text s) := by
  cases hplain : s.toList.all Text.isPlain with
  | true =>
    refine rereads_of_token (w := .text s) (t := fun position =>
        ⟨.text, String.ofList (Text.quoted s.toList), position, .text s⟩)
      (fun position => .text rfl) (fun position rest _ => ?_) (iff_of_true rfl hplain) rfl
    have hscan := (scan_quoted position s.toList rest).1 hplain
    rwa [String.ofList_toList] at hscan
  | false => exact rereads_of_refused hplain fun position rest =>
      (scan_quoted position s.toList rest).2 hplain

/-! ## Numbers -/

open Float.Model.UnpackedFloat

theorem Value.chars_number (x : Float) :
    (Value.number x).chars = Layout.canonical.numberText x :=
  rfl

theorem Value.printable_number (x : Float) : (Value.number x).printable = isPositional x :=
  rfl

/-- A number whose text is a numeral, for the number that the numeral stands for. -/
theorem rereads_of_numeral {x : Float} {n : Numeral}
    (hread : Numeral.read .word (Layout.canonical.numberText x) = some n)
    (hne : Layout.canonical.numberText x ≠ [])
    (hiff : n.toFloat = x ↔ isPositional x = true) : Rereads (.number x) := by
  refine rereads_of_token (w := .number n.toFloat) (t := fun position =>
      ⟨.number, String.ofList (Layout.canonical.numberText x), position, .number n.toFloat⟩)
    (fun position => .number rfl) (fun position rest hrest => ?_) ?_ rfl
  · rw [Value.chars_number]
    exact scan_word hne
      (fun c hc => isWordChar_of_isNumeralChar (Numeral.isNumeralChar_of_read hread c hc)) hrest
      (by rw [judgeWord, hread])
  · rw [Value.printable_number, ← hiff]
    exact ⟨fun h => by injection h with h; injection h, congrArg Value.number⟩

theorem rereads_zero {x : Float} {s : Sign} (h : x.toModel.unpack = .zero s) :
    Rereads (.number x) := by
  have htext : Layout.canonical.numberText x = ['0'] := by rw [Layout.numberText, h]; rfl
  obtain ⟨n, hread, hzero⟩ : ∃ n, Numeral.read .word ['0'] = some n ∧
      n.toFloat.toModel.unpack = .zero .positive :=
    ⟨_, rfl, rfl⟩
  refine rereads_of_numeral (n := n) (by rw [htext, hread]) (by simp [htext]) ⟨?_, ?_⟩
  · rintro rfl
    rw [isPositional, hzero]
  · intro hx
    rw [isPositional, h] at hx
    cases s with
    | positive => rw [← ofModel_pack_unpack x, h, ← hzero, ofModel_pack_unpack]
    | negative => cases hx

theorem rereads_infinity {x : Float} {s : Sign} (h : x.toModel.unpack = .infinity s) :
    Rereads (.number x) := by
  have hx : (Value.number x).printable = false := by rw [Value.printable_number, isPositional, h]
  have htext : (Value.number x).chars = Layout.signText s ++ "Infinity".toList := by
    rw [Value.chars_number, Layout.numberText, h]
    rfl
  cases s with
  | positive =>
    refine rereads_of_symbol (by rw [htext]; decide) rfl (iff_of_false ?_ (by simp [hx])) rfl
    rw [htext]
    exact fun h => by cases h
  | negative =>
    refine rereads_of_refused hx fun position rest => ?_
    rw [htext]
    have hminus : ∀ c ∈ ['-'], Numeral.isNumeralChar c = true := by simp [Numeral.isNumeralChar]
    exact scan_bad (by simp) hminus (by decide : 'I'.isAlpha = true)

theorem rereads_number (x : Float) : Rereads (.number x) := by
  cases h : x.toModel.unpack with
  | zero s => exact rereads_zero h
  | infinity s => exact rereads_infinity h
  | notANumber =>
    have hx : (Value.number x).printable = false := by rw [Value.printable_number, isPositional, h]
    have htext : (Value.number x).chars = "NaN".toList := by
      rw [Value.chars_number, Layout.numberText, h]
      rfl
    refine rereads_of_symbol (by rw [htext]; decide) rfl (iff_of_false ?_ (by simp [hx])) rfl
    rw [htext]
    exact fun h => by cases h
  | finite s m e hm =>
    have hx : isPositional x = Layout.canonical.positional (Decimal.shortest x.abs m e).point := by
      rw [isPositional, h]
    cases hpoint : Layout.canonical.positional (Decimal.shortest x.abs m e).point with
    | true =>
      obtain ⟨n, hread, hvalue⟩ := Layout.read_numberText h hpoint
      refine rereads_of_numeral hread ?_ (iff_of_true hvalue (hx.trans hpoint))
      intro hnil
      rw [hnil] at hread
      cases hread
    | false =>
      obtain ⟨front, rest, htext, hne, hfront⟩ := Layout.numberText_of_exponent h hpoint
      refine rereads_of_refused (by rw [Value.printable_number, hx, hpoint])
        fun position after => ?_
      rw [Value.chars_number, htext, List.append_assoc, List.cons_append]
      exact scan_bad hne hfront (by decide)

/-! ## Brackets -/

/-- How the texts of several values are read between brackets. -/
def RereadsAll (vs : List Value) : Prop :=
  ∀ (position : Nat) (rest : List Char), Delimited rest →
    (Value.printableAll vs = false ∧
      ∃ e, scan position (spaced (Value.itemChars vs) ++ rest) = .error e) ∨
    ∃ ts ws, DerivesAll ts ws ∧ ws.length = vs.length ∧
      (ws = vs ↔ Value.printableAll vs = true) ∧
      (∀ levels, nestingFrom (2 :: levels) ts = 2 + levels.sum + Value.nestingAll vs) ∧
      scan position (spaced (Value.itemChars vs) ++ rest) =
        (scan (position + (spaced (Value.itemChars vs)).length) rest).map (ts ++ ·)

theorem map_append_map (r : Except LexError (List Token)) (ts ts' : List Token) :
    (r.map (ts' ++ ·)).map (ts ++ ·) = r.map (ts ++ ts' ++ ·) := by
  cases r with
  | error e => rfl
  | ok us => exact congrArg Except.ok (List.append_assoc ts ts' us).symm

theorem nestingFrom_cons_derives {ts ts' : List Token} {v : Value} (h : Derives ts v)
    (levels : List Nat) :
    nestingFrom (2 :: levels) (ts ++ ts') =
      max (nestingFrom (2 :: levels) ts) (nestingFrom (2 :: levels) ts') := by
  rw [nestingFrom_append, foldl_openAfter.1 h]
  rfl

theorem rereadsAll_nil : RereadsAll [] := by
  intro position rest _
  refine .inr ⟨[], [], .nil, rfl, iff_of_true rfl rfl, fun levels => ?_, ?_⟩
  · simp [nestingFrom, Value.nestingAll]
  · change scan position rest = (scan position rest).map ([] ++ ·)
    cases scan position rest <;> rfl

theorem rereadsAll_singleton {v : Value} (hv : Rereads v) : RereadsAll [v] := by
  intro position rest hrest
  have htext : spaced (Value.itemChars [v]) = v.chars := by simp [spaced, Value.itemChars]
  have hprintable : Value.printableAll [v] = v.printable := by simp [Value.printableAll]
  rw [htext, hprintable]
  rcases hv position rest hrest with hbad | ⟨ts, w, hw, hiff, hnesting, hscan⟩
  · exact .inl hbad
  · refine .inr ⟨ts ++ [], [w], .cons hw .nil, rfl, by simpa using hiff, fun levels => ?_, ?_⟩
    · rw [List.append_nil, hnesting]
      simp [Value.nestingAll]
    · rw [List.append_nil, hscan]

theorem rereadsAll_cons {v w : Value} {vs : List Value} (hv : Rereads v)
    (hvs : RereadsAll (w :: vs)) : RereadsAll (v :: w :: vs) := by
  intro position rest hrest
  have htext : spaced (Value.itemChars (v :: w :: vs)) =
      v.chars ++ ' ' :: spaced (Value.itemChars (w :: vs)) := by
    simp [spaced, Value.itemChars, List.intercalate_cons_cons]
  have hprintable : Value.printableAll (v :: w :: vs) =
      (v.printable && Value.printableAll (w :: vs)) := by
    rw [Value.printableAll]
  have hdeepest : Value.nestingAll (v :: w :: vs) =
      max v.nesting (Value.nestingAll (w :: vs)) := by
    rw [Value.nestingAll]
  -- The blank ends the first text and is skipped, so the others are read as by themselves.
  rw [htext, hprintable, List.append_assoc, List.cons_append]
  rcases hv position (' ' :: (spaced (Value.itemChars (w :: vs)) ++ rest)) rfl with
    ⟨hbad, hscan⟩ | ⟨ts, u, hu, hiff, hnesting, hscan⟩
  · exact .inl ⟨by rw [hbad, Bool.false_and], hscan⟩
  rw [scan_blank (by decide)] at hscan
  rcases hvs (position + v.chars.length + 1) rest hrest with
    ⟨hbad, e, hrefused⟩ | ⟨ts', us, hus, hlength, hiffs, hnestings, hscans⟩
  · exact .inl ⟨by rw [hbad, Bool.and_false], e, by rw [hscan, hrefused]; rfl⟩
  · refine .inr ⟨ts ++ ts', u :: us, .cons hu hus, by simp [hlength], ?_, fun levels => ?_, ?_⟩
    · rw [List.cons_eq_cons, hiff, hiffs, Bool.and_eq_true]
    · rw [nestingFrom_cons_derives hu, hnesting, hnestings, List.sum_cons, hdeepest,
        Nat.add_max_add_left]
    · rw [hscan, hscans, map_append_map, List.length_append, List.length_cons]
      congr 2
      omega

theorem rereadsAll {vs : List Value} (h : ∀ v ∈ vs, Rereads v) : RereadsAll vs := by
  induction vs with
  | nil => exact rereadsAll_nil
  | cons v vs ih =>
    have hv := h v List.mem_cons_self
    have hvs := ih fun w hw => h w (List.mem_cons_of_mem v hw)
    cases vs with
    | nil => exact rereadsAll_singleton hv
    | cons w vs => exact rereadsAll_cons hv hvs

theorem nestingFrom_brackets {b : Bracket} {o c : Token} {ts : List Token} {vs : List Value}
    (ho : o.kind = .opener b) (hc : c.kind = .closer b) (h : DerivesAll ts vs)
    (levels : List Nat) :
    nestingFrom levels (o :: (ts ++ [c])) = nestingFrom (2 :: levels) ts := by
  have hopen : openAfter levels o = 2 :: levels := by simp [openAfter, ho]
  have hclose : openAfter (2 :: levels) c = levels.dropWhile (· == 1) := by simp [openAfter, hc]
  have hdrop := sum_dropWhile_le levels
  have hts := sum_le_nestingFrom (2 :: levels) ts
  rw [nestingFrom, hopen, nestingFrom_append, foldl_openAfter.2 h, nestingFrom, hclose,
    nestingFrom]
  rw [List.sum_cons] at hts ⊢
  omega

theorem chars_close (b : Bracket) (vs : List Value) :
    (Reader.close b vs).chars = b.surround (spaced (Value.itemChars vs)) := by
  cases b <;> rfl

/-- Brackets around values that are read one after the other. -/
theorem rereads_close {b : Bracket} {vs : List Value} (hb : ¬(b = .round ∧ vs = []))
    (hvs : RereadsAll vs) (hprintable : (Reader.close b vs).printable = Value.printableAll vs) :
    Rereads (Reader.close b vs) := by
  intro position rest _
  have htext : (Reader.close b vs).chars ++ rest =
      b.opening :: (spaced (Value.itemChars vs) ++ b.closing :: rest) := by
    simp [chars_close, Bracket.surround]
  have hlength : (Reader.close b vs).chars.length =
      1 + (spaced (Value.itemChars vs)).length + 1 := by
    simp [chars_close, Bracket.surround, Nat.add_comm]
  have hnest : (Reader.close b vs).nesting = 2 + Value.nestingAll vs := by
    cases b <;> simp only [Reader.close, Value.nesting]
  have hdelimited : Delimited (b.closing :: rest) := by cases b <;> rfl
  rw [htext, scan_opening, hprintable, hlength]
  rcases hvs (position + 1) (b.closing :: rest) hdelimited with
    ⟨hbad, e, hrefused⟩ | ⟨ts, ws, hws, hcount, hiff, hnesting, hscan⟩
  · exact .inl ⟨hbad, e, by rw [hrefused]; rfl⟩
  · have hne : ¬(b = .round ∧ ws = []) := fun h =>
      hb ⟨h.1, List.length_eq_zero_iff.1 (by rw [← hcount, h.2]; rfl)⟩
    refine .inr ⟨_, Reader.close b ws,
      .brackets (o := ⟨.opener b, b.opening.toString, position, .nothing⟩)
        (c := ⟨.closer b, b.closing.toString,
          position + 1 + (spaced (Value.itemChars vs)).length, .nothing⟩)
        rfl hws rfl (encloses_iff.2 ⟨hne, rfl⟩), ?_, fun levels => ?_, ?_⟩
    · rw [← hiff]
      cases b <;> simp [Reader.close]
    · rw [nestingFrom_brackets rfl rfl hws, hnesting, hnest]
      omega
    · rw [hscan, scan_closing]
      have hposition : position + 1 + (spaced (Value.itemChars vs)).length + 1 =
          position + (1 + (spaced (Value.itemChars vs)).length + 1) := by omega
      rw [hposition]
      cases scan (position + (1 + (spaced (Value.itemChars vs)).length + 1)) rest with
      | error e => rfl
      | ok us => simp [Except.map]

/-! ## Values -/

mutual

/-- Every tree that a source can write, read back from its text. -/
theorem rereads_of_wellRead : (v : Value) → v.wellRead = true → Rereads v
  | .number x, _ => rereads_number x
  | .boolean b, _ => rereads_boolean b
  | .text s, _ => rereads_text s
  | .symbol _, h => rereads_symbol (by simpa only [Value.wellRead] using h)
  | .list .plain [], h => by simp [Value.wellRead] at h
  | .list .plain (v :: vs), h =>
    rereads_close (b := .round) (by simp)
      (rereadsAll (rereads_of_wellReadAll (v :: vs) (by simpa only [Value.wellRead] using h)))
      (by simp only [Reader.close, Value.printable])
  | .list .vector vs, h =>
    rereads_close (b := .square) (by simp)
      (rereadsAll (rereads_of_wellReadAll vs (by simpa only [Value.wellRead] using h)))
      (by simp only [Reader.close, Value.printable])
  | .braces vs, h =>
    rereads_close (b := .curly) (by simp)
      (rereadsAll (rereads_of_wellReadAll vs (by simpa only [Value.wellRead] using h)))
      (by simp only [Reader.close, Value.printable])
  | .dictionary _, h | .native .., h | .closure .., h | .nothing, h => by
    simp [Value.wellRead] at h

theorem rereads_of_wellReadAll : (vs : List Value) → Value.wellReadAll vs = true →
    ∀ v ∈ vs, Rereads v
  | [], _ => by simp
  | v :: vs, h => by
    rw [Value.wellReadAll, Bool.and_eq_true] at h
    intro w hw
    rcases List.mem_cons.1 hw with hw | hw
    · rw [hw]
      exact rereads_of_wellRead v h.1
    · exact rereads_of_wellReadAll vs h.2 w hw

end

theorem readSource_eq_ok_iff {source : String} {v : Value} :
    readSource source = .ok v ↔ ∃ ts, lex source = .ok ts ∧ parse ts = .ok v := by
  unfold readSource
  cases lex source with
  | error e => simp
  | ok ts => cases hp : parse ts <;> simp [hp]

/-- The tokens of the text of a tree that a source can write, if the lexer takes the text. -/
theorem lex_toText {v : Value} (h : v.wellRead = true) :
    (v.printable = false ∧ ∃ e, lex v.toText = .error e) ∨
    ∃ ts w t, Derives ts w ∧ (w = v ↔ v.printable = true) ∧ nesting ts = v.nesting ∧
      t.kind = .eof ∧ lex v.toText = .ok (ts ++ [t]) := by
  have hlex : lex v.toText = Lexer.scan 0 (v.chars ++ []) := by
    rw [lex, Value.toText, String.toList_ofList, List.append_nil]
  rw [hlex]
  rcases rereads_of_wellRead v h 0 [] rfl with hbad | ⟨ts, w, hw, hiff, hnesting, hscan⟩
  · exact .inl hbad
  · refine .inr ⟨ts, w, Token.ending (0 + v.chars.length), hw, hiff, ?_, rfl, ?_⟩
    · rw [nesting, hnesting, List.sum_nil, Nat.zero_add]
    · rw [hscan, Lexer.scan_nil]
      rfl

theorem readSource_toText_of_wellRead {v : Value} (hread : v.wellRead = true) :
    readSource v.toText = .ok v ↔ v.printable = true ∧ v.nesting ≤ Reader.allowance := by
  rw [readSource_eq_ok_iff]
  rcases lex_toText hread with ⟨hbad, e, hlex⟩ | ⟨ts, w, t, hw, hiff, hnesting, ht, hlex⟩
  · rw [hlex]
    simp [hbad]
  · rw [hlex]
    simp only [Except.ok.injEq, exists_eq_left']
    rw [parse_eq_ok_iff (kind_ne_eof_of_derivations.1 hw) ht, hnesting, ← hiff]
    refine and_congr_left fun _ => ⟨fun hv => hw.unique hv, ?_⟩
    rintro rfl
    exact hw

/-- A value comes back from its canonical text exactly if it is printable and its brackets are
within the allowance of the reader. -/
theorem readSource_toText_iff (v : Value) :
    readSource v.toText = .ok v ↔ v.printable = true ∧ v.nesting ≤ Reader.allowance := by
  by_cases hread : v.wellRead = true
  · exact readSource_toText_of_wellRead hread
  · exact iff_of_false (fun h => hread (wellRead_of_readSource h))
      fun h => hread (Value.wellRead_of_printable v h.1)

end MiniLisp
