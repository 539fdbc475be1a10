import MiniLisp.Proofs.Faults
import MiniLisp.Proofs.Number.Count
import MiniLisp.Proofs.Sameness
import MiniLisp.Proofs.Tiling

/-!
# Three readers of numbers

Words of the source, texts of whole numbers and texts of decimal numbers are read by different
grammars. The grammars are ordered by what they allow, and a text that two of them allow is the same
numeral in both (`Numeral.read_mono`, `Numeral.read_whole_of_decimal`). The double of a whole number
is the one nearest to the integer, whichever way it is made (`Numeral.toFloat_of_whole`). Hence the
readers agree wherever they both read (`Native.readers_agree`).
-/

namespace MiniLisp

/-! ## Grammars -/

namespace Numeral

variable {cs rest after : List Char} {n : Numeral} {form form' : Form} {negative : Bool}

/-- The parts of a text that is read. -/
theorem read_eq_some_iff : read form cs = some n ↔
    ∃ rest after, splitSign form.plus cs = (n.negative, rest) ∧
      rest.takeWhile Char.isDigit = n.whole ∧ n.whole ≠ [] ∧
      splitFraction form.fraction (rest.dropWhile Char.isDigit) = some (n.fraction, after) ∧
      readExponent form.exponent after = some n.exponent := by
  obtain ⟨negative, whole, fraction, exponent⟩ := n
  unfold read
  cases hsign : splitSign form.plus cs with
  | mk sign unsigned =>
    dsimp only
    constructor
    · intro h
      split at h
      · cases h
      · rename_i hne
        obtain ⟨⟨fraction, after⟩, hfraction, h⟩ := Option.bind_eq_some_iff.1 h
        obtain ⟨exponent, hexponent, h⟩ := Option.bind_eq_some_iff.1 h
        cases h
        exact ⟨unsigned, after, rfl, rfl, by simpa using hne, hfraction, hexponent⟩
    · rintro ⟨rest, after, hparts, hwhole, hne, hfraction, hexponent⟩
      obtain ⟨rfl, rfl⟩ := Prod.mk.inj hparts
      rw [hwhole, if_neg (by simpa using hne), hfraction]
      show (readExponent form.exponent after >>= _) = _
      rw [hexponent]
      rfl

/-- A sign that is taken where fewer are allowed is taken where more are, before a digit. -/
theorem splitSign_mono {plus plus' : Bool} (hplus : plus = true → plus' = true)
    (h : splitSign plus cs = (negative, rest)) (hdigit : rest.takeWhile Char.isDigit ≠ []) :
    splitSign plus' cs = (negative, rest) := by
  unfold splitSign at h ⊢
  split at h
  · exact h
  · cases plus with
    | true =>
      rw [hplus rfl]
      exact h
    | false =>
      -- the plus sign is left in place, and is no digit
      obtain ⟨-, rfl⟩ := Prod.mk.inj h
      exact absurd (List.takeWhile_cons_of_neg (by decide)) hdigit
  · exact h

theorem splitFraction_mono {allowed allowed' : Bool} {parts : List Char × List Char}
    (hallowed : allowed = true → allowed' = true) (h : splitFraction allowed cs = some parts) :
    splitFraction allowed' cs = some parts := by
  cases allowed with
  | true => rwa [hallowed rfl]
  | false =>
    unfold splitFraction at h ⊢
    split at h
    · cases h
    · exact h

theorem readExponent_mono {allowed allowed' : Bool} {e : Int}
    (hallowed : allowed = true → allowed' = true) (h : readExponent allowed cs = some e) :
    readExponent allowed' cs = some e := by
  cases allowed with
  | true => rwa [hallowed rfl]
  | false =>
    obtain rfl := eq_nil_of_readExponent h
    exact h

/-- What is a numeral of a form is the same numeral in a form that allows more. -/
theorem read_mono (hplus : form.plus = true → form'.plus = true)
    (hfraction : form.fraction = true → form'.fraction = true)
    (hexponent : form.exponent = true → form'.exponent = true) (h : read form cs = some n) :
    read form' cs = some n := by
  obtain ⟨rest, after, hsign, hwhole, hne, hbehind, hend⟩ := read_eq_some_iff.1 h
  exact read_eq_some_iff.2 ⟨rest, after, splitSign_mono hplus hsign (hwhole.symm ▸ hne), hwhole,
    hne, splitFraction_mono hfraction hbehind, readExponent_mono hexponent hend⟩

theorem splitSign_suffix (plus : Bool) (cs : List Char) : (splitSign plus cs).2 <:+ cs := by
  unfold splitSign
  split
  · exact List.suffix_cons _ _
  · split
    · exact List.suffix_cons _ _
    · exact List.suffix_rfl
  · exact List.suffix_rfl

/-- A decimal number without a point and an exponent is a whole number. -/
theorem read_whole_of_decimal (h : read .decimal cs = some n) (hpoint : '.' ∉ cs)
    (hlower : 'e' ∉ cs) (hupper : 'E' ∉ cs) : read .whole cs = some n := by
  obtain ⟨rest, after, hsign, hwhole, hne, hbehind, hend⟩ := read_eq_some_iff.1 h
  have hpart : rest.dropWhile Char.isDigit ⊆ cs := by
    have hsuffix := splitSign_suffix Form.decimal.plus cs
    rw [hsign] at hsuffix
    exact fun c hc => hsuffix.subset ((List.dropWhile_suffix _).subset hc)
  unfold splitFraction at hbehind
  split at hbehind
  · rename_i digits hdrop
    exact absurd (hpart (by rw [hdrop]; exact List.mem_cons_self)) hpoint
  · rename_i hdrop
    obtain ⟨hfraction, rfl⟩ := Prod.mk.inj (Option.some.inj hbehind)
    have hnone : rest.dropWhile Char.isDigit = [] := by
      by_contra hsome
      obtain ⟨c, more, hc⟩ := List.exists_cons_of_ne_nil hsome
      have hmem : c ∈ cs := hpart (by rw [hc]; exact List.mem_cons_self)
      have hlower' : c ≠ 'e' := fun heq => hlower (heq ▸ hmem)
      have hupper' : c ≠ 'E' := fun heq => hupper (heq ▸ hmem)
      simp [hc, readExponent, hlower', hupper'] at hend
    rw [hnone] at hend
    refine read_eq_some_iff.2 ⟨rest, [], hsign, hwhole, hne, ?_, hend⟩
    rw [hnone, ← hfraction]
    rfl

/-! ## Whole numbers as doubles -/

/-- A minus sign and zeros. -/
def NegatedZero (cs : List Char) : Prop :=
  ∃ zeros, cs = '-' :: zeros ∧ zeros ≠ [] ∧ ∀ c ∈ zeros, c = '0'

theorem ofDigitChars_eq_zero_iff {digits : List Char} (h : ∀ c ∈ digits, c.isDigit = true)
    (k : Nat) : Nat.ofDigitChars 10 digits k = 0 ↔ k = 0 ∧ ∀ c ∈ digits, c = '0' := by
  induction digits generalizing k with
  | nil => simp
  | cons c digits ih =>
    obtain ⟨hc, hdigits⟩ := List.forall_mem_cons.1 h
    have hzero : c.toNat - '0'.toNat = 0 ↔ c = '0' := by
      have hlow : '0'.toNat ≤ c.toNat := by
        simp only [Char.isDigit, Bool.and_eq_true, decide_eq_true_eq, ge_iff_le] at hc
        exact hc.1
      rw [← Char.toNat_inj]
      omega
    rw [Nat.ofDigitChars_cons, ih hdigits, List.forall_mem_cons, Nat.add_eq_zero_iff, hzero,
      and_assoc]
    simp

/-- A whole number is negative if it begins with a minus sign. -/
theorem negative_iff_of_whole (h : read .whole cs = some n) :
    n.negative = true ↔ cs = '-' :: n.whole := by
  obtain ⟨rest, after, hsign, hwhole, -, hbehind, hend⟩ := read_eq_some_iff.1 h
  obtain ⟨-, rfl⟩ := splitFraction_false_eq_some hbehind
  have hdigits : rest = n.whole := by
    rw [← hwhole, eq_comm, List.takeWhile_eq_self_iff, ← List.dropWhile_eq_nil_iff]
    exact eq_nil_of_readExponent hend
  subst hdigits
  unfold splitSign at hsign
  split at hsign
  · simp_all
  · simp_all [Form.whole]
  · simp_all

/-- The double of a whole number is made from the integer as well as from the text. -/
theorem toFloat_of_whole (h : read .whole cs = some n) :
    n.decimal.toFloat = Number.ofNat n.decimal.coefficient := by
  obtain ⟨-, hfraction, hexponent⟩ := isWhole_of_read h
  have hdecimal : n.decimal = ⟨n.decimal.coefficient, 0⟩ := by
    simp [decimal, hfraction, hexponent]
  rw [hdecimal, Decimal.toFloat_whole]

theorem minus_mem_iff (h : read .whole cs = some n) : '-' ∈ cs ↔ n.negative = true := by
  rw [negative_iff_of_whole h]
  constructor
  · intro hmem
    obtain ⟨⟨sign, hsign, hcs⟩, -, hdigit⟩ := (isWhole_of_read h).1
    have hmark : '-' ∈ sign := by
      rw [hcs, List.mem_append] at hmem
      exact hmem.resolve_right fun hdigits => absurd (hdigit _ hdigits) (by decide)
    simp only [List.mem_cons, List.not_mem_nil, or_false] at hsign
    rcases hsign with rfl | rfl | rfl
    · cases hmark
    · exact absurd hmark (by decide)
    · exact hcs
  · intro hcs
    rw [hcs]
    exact List.mem_cons_self

theorem negatedZero_iff (h : read .whole cs = some n) :
    NegatedZero cs ↔ n.negative = true ∧ n.decimal.coefficient = 0 := by
  obtain ⟨hwhole, hfraction, -⟩ := isWhole_of_read h
  have hcoefficient : n.decimal.coefficient = 0 ↔ ∀ c ∈ n.whole, c = '0' := by
    rw [decimal, hfraction, List.append_nil, ofDigitChars_eq_zero_iff hwhole.isDigit]
    simp
  rw [negative_iff_of_whole h, hcoefficient]
  constructor
  · rintro ⟨zeros, rfl, hne, hzeros⟩
    have hdigits : IsWhole ('-' :: zeros) zeros :=
      ⟨⟨['-'], by simp, rfl⟩, hne, fun c hc => by rw [hzeros c hc]; rfl⟩
    obtain ⟨negative, hread⟩ := read_of_isWhole hdigits
    obtain rfl := Option.some.inj (h.symm.trans hread)
    exact ⟨rfl, hzeros⟩
  · rintro ⟨hcs, hzeros⟩
    exact ⟨n.whole, hcs, hwhole.ne_nil, hzeros⟩

/-- The double of a whole number where no zero is negative. -/
def wholeFloat (n : Numeral) : Float :=
  if n.decimal.coefficient = 0 then n.decimal.toFloat else n.toFloat

theorem wholeFloat_of_not_negatedZero (h : read .whole cs = some n) (hzero : ¬NegatedZero cs) :
    n.wholeFloat = n.toFloat := by
  unfold wholeFloat
  split
  · rename_i hcoefficient
    have hpositive : ¬n.negative = true := fun hnegative =>
      hzero ((negatedZero_iff h).2 ⟨hnegative, hcoefficient⟩)
    rw [toFloat, if_neg hpositive]
  · rfl

theorem doubles_of_negatedZero (h : read .whole cs = some n) (hzero : NegatedZero cs) :
    n.wholeFloat = 0 ∧ n.toFloat = -0 := by
  obtain ⟨hnegative, hcoefficient⟩ := (negatedZero_iff h).1 hzero
  have hdouble : n.decimal.toFloat = 0 := by
    rw [toFloat_of_whole h, hcoefficient]
    rfl
  rw [wholeFloat, if_pos hcoefficient, toFloat, if_pos hnegative, hdouble]
  exact ⟨rfl, rfl⟩

theorem wholeFloat_beq_toFloat (h : read .whole cs = some n) :
    (n.wholeFloat == n.toFloat) = true := by
  by_cases hzero : NegatedZero cs
  · obtain ⟨hwhole, hfloat⟩ := doubles_of_negatedZero h hzero
    rw [hwhole, hfloat]
    decide +kernel
  · rw [wholeFloat_of_not_negatedZero h hzero]
    exact Number.beq_iff.2 ⟨n.isNaN_toFloat, n.isNaN_toFloat, rfl⟩

end Numeral

theorem Text.strip_eq_self {cs : List Char} (h : ∀ c ∈ cs, isBlank c = false) : strip cs = cs := by
  have hdrop {ds : List Char} (hds : ∀ c ∈ ds, isBlank c = false) : ds.dropWhile isBlank = ds := by
    cases ds with
    | nil => rfl
    | cons d ds => exact List.dropWhile_cons_of_neg (by simp [hds d List.mem_cons_self])
  rw [strip, hdrop h, hdrop (by simpa using h), List.reverse_reverse]

/-! ## Readers -/

namespace Native

open Numeral

variable {s : String}

/-- A whole number is a decimal number too. The reader of decimal numbers gives a zero the sign that
is written, and the reader of whole numbers does not. -/
theorem readDecimal_of_readInteger {v : Value} (h : readInteger s = .ok v) :
    ∃ n, read .whole (Text.strip s.toList) = some n ∧ readDecimal s = .ok (.number n.toFloat) ∧
      v = .number n.wholeFloat := by
  unfold readInteger at h
  split at h
  · cases h
  · rename_i n hread
    have hdecimal : read .decimal (Text.strip s.toList) = some n :=
      read_mono (fun _ => rfl) (fun _ => rfl) (fun _ => rfl) hread
    refine ⟨n, hread, by rw [readDecimal, hdecimal], ?_⟩
    split at h
    · cases h
    · split at h
      · cases h
      · split at h
        · rename_i hzero
          cases h
          rw [wholeFloat, if_pos hzero]
        · rename_i hzero
          cases h
          rw [wholeFloat, if_neg hzero]

/-- A decimal number without a point and an exponent is read as a whole number, unless it has too
many digits or is too large. -/
theorem readInteger_of_readDecimal {v : Value} (h : readDecimal s = .ok v)
    (hpoint : '.' ∉ Text.strip s.toList) (hlower : 'e' ∉ Text.strip s.toList)
    (hupper : 'E' ∉ Text.strip s.toList) :
    (∃ w, readInteger s = .ok w) ∨ ∃ digits, IsWhole (Text.strip s.toList) digits ∧
      (4300 < digits.length ∧ readInteger s = .error (.tooManyDigits digits.length) ∨
        (2 ^ 54 - 1) * 2 ^ 970 ≤ Nat.ofDigitChars 10 digits 0 ∧
          readInteger s = .error .tooLarge) := by
  unfold readDecimal at h
  split at h
  · cases h
  · rename_i n hdecimal
    have hread := read_whole_of_decimal hdecimal hpoint hlower hupper
    obtain ⟨hwhole, hfraction, hexponent⟩ := isWhole_of_read hread
    simp only [readInteger, hread]
    by_cases hlong : digitLimit < n.whole.length
    · exact .inr ⟨n.whole, hwhole, .inl ⟨hlong, if_pos hlong⟩⟩
    · rw [if_neg hlong]
      by_cases hinf : n.toFloat.isInf = true
      · have hlarge := (isInf_toFloat_iff hfraction hexponent).1 hinf
        exact .inr ⟨n.whole, hwhole, .inr ⟨hlarge, if_pos hinf⟩⟩
      · rw [if_neg hinf]
        left
        split
        · exact ⟨_, rfl⟩
        · exact ⟨_, rfl⟩

/-- A number word is a decimal number, and the same. -/
theorem readDecimal_of_isWord {n : Numeral} (h : n.IsWord s.toList) :
    readDecimal s = .ok (.number n.toFloat) := by
  have hword := read_of_isWord h
  have hstrip : Text.strip s.toList = s.toList := by
    refine Text.strip_eq_self fun c hc => ?_
    rw [Bool.eq_false_iff]
    intro hblank
    have hchar := Lexer.isWordChar_of_isNumeralChar (isNumeralChar_of_read hword c hc)
    rw [Lexer.not_isWordChar_of_isBlank hblank] at hchar
    cases hchar
  have hdecimal : read .decimal s.toList = some n :=
    read_mono (fun _ => rfl) (fun _ => rfl) (fun _ => rfl) hword
  rw [readDecimal, hstrip, hdecimal]

/-- The readers of whole numbers, of decimal numbers and of the source agree. A whole number is a
decimal number and the same double, but that a negated zero is zero as the one and negative zero as
the other. A decimal number without a point and an exponent is a whole number unless it is too long
or too large. A number of the source is the same as a decimal number. -/
theorem readers_agree (s source : String) :
    (∀ v, parseInteger.call [.text s] = .ok v → ∃ x y digits,
      v = .number x ∧ parseFloat.call [.text s] = .ok (.number y) ∧ (x == y) = true ∧
      (¬NegatedZero (Text.strip s.toList) → x = y) ∧
      (NegatedZero (Text.strip s.toList) → x = 0 ∧ y = -0) ∧
      IsWhole (Text.strip s.toList) digits ∧
      y = if '-' ∈ Text.strip s.toList then -Number.ofNat (Nat.ofDigitChars 10 digits 0)
        else Number.ofNat (Nat.ofDigitChars 10 digits 0)) ∧
    (∀ w, parseFloat.call [.text s] = .ok w → '.' ∉ Text.strip s.toList →
      'e' ∉ Text.strip s.toList → 'E' ∉ Text.strip s.toList →
      (∃ v, parseInteger.call [.text s] = .ok v) ∨ ∃ digits,
        IsWhole (Text.strip s.toList) digits ∧
        (4300 < digits.length ∧
            parseInteger.call [.text s] = .error (.tooManyDigits digits.length) ∨
          (2 ^ 54 - 1) * 2 ^ 970 ≤ Nat.ofDigitChars 10 digits 0 ∧
            parseInteger.call [.text s] = .error .tooLarge)) ∧
    ∀ tokens, lex source = .ok tokens → ∀ t ∈ tokens, t.kind = .number →
      ∃ x, t.value = .number x ∧ parseFloat.call [.text t.text] = .ok (.number x) := by
  refine ⟨fun v h => ?_, fun w h => readInteger_of_readDecimal h, fun tokens h t ht hkind => ?_⟩
  · obtain ⟨n, hread, hdecimal, rfl⟩ := readDecimal_of_readInteger h
    obtain ⟨hwhole, hfraction, -⟩ := isWhole_of_read hread
    refine ⟨n.wholeFloat, n.toFloat, n.whole, rfl, hdecimal, wholeFloat_beq_toFloat hread,
      wholeFloat_of_not_negatedZero hread, doubles_of_negatedZero hread, hwhole, ?_⟩
    have hcoefficient : n.decimal.coefficient = Nat.ofDigitChars 10 n.whole 0 := by
      rw [decimal, hfraction, List.append_nil]
    simp only [minus_mem_iff hread, toFloat, toFloat_of_whole hread, hcoefficient]
  · have hmade := (tiles_of_lex h).made t ht (by rw [hkind]; decide)
    unfold Token.Made at hmade
    rw [hkind] at hmade
    obtain ⟨-, n, hword, hvalue⟩ := hmade
    exact ⟨n.toFloat, hvalue, readDecimal_of_isWord hword⟩

/-- A negated zero between blanks, a number in the middle between two doubles, and a word. -/
theorem readers_agree_halfway :
    (∃ x y, parseInteger.call [.text " -00\n"] = .ok (.number x) ∧
      parseFloat.call [.text " -00\n"] = .ok (.number y) ∧ x = 0 ∧ y = -0) ∧
    (parseInteger.call [.text "+9007199254740993"] = .ok (.number 9007199254740992) ∧
      parseFloat.call [.text "+9007199254740993"] = .ok (.number 9007199254740992)) ∧
    ∃ tokens, lex "-2.50" = .ok tokens ∧ ∃ t ∈ tokens, t.kind = .number ∧
      ∃ x, t.value = .number x ∧ parseFloat.call [.text t.text] = .ok (.number x) := by
  refine ⟨?_, ?_, ?_⟩
  · obtain ⟨v, hv⟩ := exists_of_isOk
      (show (parseInteger.call [.text " -00\n"]).isOk = true by decide +kernel)
    have hs : Text.strip " -00\n".toList = ['-', '0', '0'] := by decide +kernel
    obtain ⟨x, y, -, rfl, hy, -, -, hzero, -⟩ := (readers_agree " -00\n" "").1 v hv
    exact ⟨x, y, hv, hy, hzero ⟨['0', '0'], hs, by simp, by simp⟩⟩
  · have hv : parseInteger.call [.text "+9007199254740993"] = .ok (.number 9007199254740992) := by
      rfl
    obtain ⟨x, y, -, hx, hy, -, hsame, -⟩ := (readers_agree "+9007199254740993" "").1 _ hv
    have hplus : (Text.strip "+9007199254740993".toList).head? = some '+' := by decide +kernel
    have hxy : x = y := hsame (by rintro ⟨zeros, hcs, -⟩; rw [hcs] at hplus; cases hplus)
    exact ⟨hv, by rw [hy, hx, hxy]⟩
  · obtain ⟨tokens, hlex⟩ := exists_of_isOk (show (lex "-2.50").isOk = true by decide +kernel)
    have hnumber : (lex "-2.50").toOption.any (·.any (·.kind = .number)) = true := by
      decide +kernel
    obtain ⟨t, ht, hkind⟩ : ∃ t ∈ tokens, t.kind = .number := by
      rw [hlex] at hnumber
      simpa [Except.toOption] using hnumber
    exact ⟨tokens, hlex, t, ht, hkind, (readers_agree "" "-2.50").2.2 tokens hlex t ht hkind⟩

end Native

end MiniLisp
