import MiniLisp.Proofs.Number.Text

/-!
# What a number text denotes

The canonical text of a finite number other than zero denotes, as a rational number, what the
diagnostic text of its absolute value denotes, with the sign of the number. The digits and the place
of the point that the diagnostic text shows decide the layout of the canonical one: it has an
exponent exactly if the point is far from the digits, and is a number word otherwise. Reading it
gives the number back, so no other number has that text (`numberText_denotes`).
-/

namespace MiniLisp

open Float.Model Float.Model.UnpackedFloat

/-! ## Rational values -/

/-- A rational number with the sign of a double. -/
def signed : Sign → ℚ → ℚ
  | .positive, q => q
  | .negative, q => -q

/-- The rational number that a numeral denotes. -/
def Numeral.toRat (n : Numeral) : ℚ :=
  if n.negative then -n.decimal.toRat else n.decimal.toRat

/-- The rational number `0.digits * 10 ^ point`. -/
def behindPoint (digits : List Char) (point : Int) : ℚ :=
  Nat.ofDigitChars 10 digits 0 / 10 ^ digits.length * 10 ^ point

theorem Numeral.toRat_of_negates {n : Numeral} {s : Sign} (h : n.negative = negates s) :
    n.toRat = signed s n.decimal.toRat := by
  unfold toRat
  rw [h]
  cases s <;> rfl

theorem Decimal.toRat_eq_behindPoint (d : Decimal) :
    d.toRat = behindPoint d.significant d.point := by
  rw [← d.toRat_trimmed]
  exact toRat_ofDigits d.significant d.point

/-- Digits that neither begin nor end with a zero. -/
structure AreSignificant (digits : List Char) : Prop where
  ne_nil : digits ≠ []
  isDigit : ∀ c ∈ digits, c.isDigit = true
  head : digits.head? ≠ some '0'
  last : digits.getLast? ≠ some '0'

theorem Decimal.areSignificant {d : Decimal} (hc : 0 < d.coefficient) :
    AreSignificant d.significant := by
  obtain ⟨c, cs, heq, hne⟩ := significant_eq_cons hc
  refine ⟨significant_ne_nil hc, fun c => Layout.isDigit_of_mem_significant, ?_, ?_⟩
  · simpa [heq] using hne
  · rw [significant, List.getLast?_reverse]
    intro hzero
    have hnot := List.head?_dropWhile_not (· == '0') d.digits.reverse
    rw [hzero] at hnot
    cases hnot

/-! ## Texts of numbers -/

namespace Layout

variable {x : Float} {s : Sign} {m : Nat} {e : Int} {hm : 0 < m}

/-- The text of a number is read as its shortest digits with its sign, in every layout. -/
theorem read_decimal (h : x.toModel.unpack = .finite s m e hm) (l : Layout) :
    ∃ n, Numeral.read .decimal (l.numberText x) = some n ∧ n.negative = Numeral.negates s ∧
      n.decimal.toRat = (Decimal.shortest x.abs m e).toRat := by
  have hc := Decimal.coefficient_pos_of_toFloat h (Decimal.toFloat_shortest h)
  rw [numberText, h]
  exact read_decimalText hc l s true

theorem positional_canonical {n : Int} : canonical.positional n = true ↔ -6 < n ∧ n ≤ 21 := by
  simp only [positional, Bool.and_eq_true, decide_eq_true_eq]
  rfl

/-- The marks of an exponent. -/
def exponentMarks : List Char := ['e', 'E']

/-- The place of the point decides whether a number has an exponent or is a number word. -/
theorem layout_iff (h : x.toModel.unpack = .finite s m e hm) :
    ((∀ c ∈ canonical.numberText x, c ∉ exponentMarks) ↔
      canonical.positional (Decimal.shortest x.abs m e).point = true) ∧
    ((∃ n : Numeral, n.IsWord (canonical.numberText x)) ↔
      canonical.positional (Decimal.shortest x.abs m e).point = true) := by
  have hmarks : ∀ c ∈ exponentMarks, Numeral.isNumeralChar c = false :=
    List.forall_mem_cons.2 ⟨rfl, List.forall_mem_singleton.2 rfl⟩
  -- holds of any word, so it also shows that a text with a mark is none
  have hunmarked (n : Numeral) (hword : n.IsWord (canonical.numberText x)) :
      ∀ c ∈ canonical.numberText x, c ∉ exponentMarks := by
    intro c hc hmark
    have hchar := Numeral.isNumeralChar_of_read (Numeral.read_of_isWord hword) c hc
    rw [hmarks c hmark] at hchar
    cases hchar
  cases hpoint : canonical.positional (Decimal.shortest x.abs m e).point with
  | true =>
    obtain ⟨n, hread, -⟩ := read_numberText h hpoint
    have hword := Numeral.isWord_of_read hread
    exact ⟨iff_of_true (hunmarked n hword) rfl, iff_of_true ⟨n, hword⟩ rfl⟩
  | false =>
    obtain ⟨front, rest, htext, -, -⟩ := numberText_of_exponent h hpoint
    have hmarked : ¬∀ c ∈ canonical.numberText x, c ∉ exponentMarks := fun hnone =>
      hnone 'e' (by simp [htext]) (by decide)
    refine ⟨iff_of_false hmarked Bool.false_ne_true, iff_of_false ?_ Bool.false_ne_true⟩
    rintro ⟨n, hword⟩
    exact hmarked (hunmarked n hword)

/-- A finite number other than zero shares its text with no other number. -/
theorem numberText_injective (h : x.toModel.unpack = .finite s m e hm) {y : Float}
    (htext : canonical.numberText y = canonical.numberText x) : y = x := by
  obtain ⟨n, hread, hsign, hvalue⟩ := read_decimal h canonical
  have hx := toFloat_of_shortest h hsign hvalue
  rw [← htext] at hread
  cases hy : y.toModel.unpack with
  | finite s' m' e' hm' =>
    obtain ⟨n', hread', hsign', hvalue'⟩ := read_decimal hy canonical
    obtain rfl := Option.some.inj (hread'.symm.trans hread)
    rw [← toFloat_of_shortest hy hsign' hvalue', hx]
  | zero s' =>
    have hzero : Numeral.read .decimal (canonical.numberText y) = some ⟨false, ['0'], [], 0⟩ := by
      rw [numberText, hy]
      rfl
    obtain rfl := Option.some.inj (hzero.symm.trans hread)
    have hunpack : x.toModel.unpack = .zero .positive := by
      rw [← hx]
      rfl
    rw [hunpack] at h
    cases h
  | infinity s' =>
    have hnone : Numeral.read .decimal (canonical.numberText y) = none := by
      rw [numberText, hy]
      cases s' <;> rfl
    rw [hnone] at hread
    cases hread
  | notANumber =>
    have hnone : Numeral.read .decimal (canonical.numberText y) = none := by
      rw [numberText, hy]
      rfl
    rw [hnone] at hread
    cases hread

/-- Both texts of a number, the diagnostic one of its absolute value and the canonical one, are
numerals. With the digits `d` and the point `n` that the former shows, the latter denotes
`0.d * 10 ^ n` with the sign of the number, and it is read back as the number. -/
theorem numberText_denotes (h : x.toModel.unpack = .finite s m e hm) :
    ∃ shown text : Numeral,
      Numeral.read .decimal (diagnostic.numberText x.abs) = some shown ∧
      Numeral.read .decimal (canonical.numberText x) = some text ∧
      AreSignificant shown.decimal.significant ∧
      shown.toRat = behindPoint shown.decimal.significant shown.decimal.point ∧
      text.toRat = signed s (behindPoint shown.decimal.significant shown.decimal.point) ∧
      ((∀ c ∈ canonical.numberText x, c ∉ exponentMarks) ↔
        -6 < shown.decimal.point ∧ shown.decimal.point ≤ 21) ∧
      ((∃ word : Numeral, word.IsWord (canonical.numberText x)) ↔
        -6 < shown.decimal.point ∧ shown.decimal.point ≤ 21) ∧
      text.toFloat = x ∧
      ∀ y : Float, canonical.numberText y = canonical.numberText x → y = x := by
  have habs := unpack_abs h
  obtain ⟨shown, hshown, hpositive, hvalue⟩ := read_decimal habs diagnostic
  obtain ⟨text, htext, hsign, hvalue'⟩ := read_decimal h canonical
  rw [abs_eq_self habs] at hvalue
  have hc := Decimal.coefficient_pos_of_toFloat h (Decimal.toFloat_shortest h)
  have hc' : 0 < shown.decimal.coefficient := Decimal.toRat_pos.1 (hvalue ▸ Decimal.toRat_pos.2 hc)
  have hpoint := (Decimal.significant_of_toRat_eq hc' hc hvalue).2
  have hrat := shown.decimal.toRat_eq_behindPoint
  have hlayout := layout_iff h
  rw [← hpoint, positional_canonical] at hlayout
  refine ⟨shown, text, hshown, htext, Decimal.areSignificant hc', ?_, ?_, hlayout.1, hlayout.2,
    toFloat_of_shortest h hsign hvalue', fun y => numberText_injective h⟩
  · rw [Numeral.toRat_of_negates hpositive, hrat]
    rfl
  · rw [Numeral.toRat_of_negates hsign, hvalue', ← hvalue, hrat]

/-- The point of `0.15 * 10 ^ -6` is just too far from its digits. -/
theorem numberText_denotes_tiny :
    (∃ m e hm, (-1.5e-7 : Float).toModel.unpack = .finite .negative m e hm) ∧
    canonical.numberText (-1.5e-7) = "-1.5e-7".toList ∧
    (∃ text : Numeral, Numeral.read .decimal "-1.5e-7".toList = some text ∧
      text.toRat = -behindPoint ['1', '5'] (-6) ∧ text.toFloat = -1.5e-7) ∧
    ¬∃ word : Numeral, word.IsWord "-1.5e-7".toList := by
  obtain ⟨m, e, hm, h⟩ : ∃ m e hm,
      (-1.5e-7 : Float).toModel.unpack = .finite .negative m e hm := ⟨_, _, _, rfl⟩
  have hcanonical : canonical.numberText (-1.5e-7) = "-1.5e-7".toList := by decide +kernel
  have hdiagnostic : Numeral.read .decimal (diagnostic.numberText (-1.5e-7 : Float).abs) =
      some ⟨false, ['1'], ['5'], -7⟩ := by decide +kernel
  obtain ⟨shown, text, hshown, htext, -, -, hvalue, -, hword, hfloat, -⟩ := numberText_denotes h
  obtain rfl := Option.some.inj (hdiagnostic.symm.trans hshown)
  rw [hcanonical] at htext hword
  refine ⟨⟨m, e, hm, h⟩, hcanonical, ⟨text, htext, hvalue, hfloat⟩, ?_⟩
  rw [hword]
  decide

end Layout

end MiniLisp
