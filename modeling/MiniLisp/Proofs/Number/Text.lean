import Mathlib
import MiniLisp.Number.Layout
import MiniLisp.Number.Numeral
import MiniLisp.Proofs.Number.Rounding

/-!
# Numbers from their texts

The canonical text of a finite number holds the shortest digits that read back as the number. Where
it is written without an exponent it is a numeral of the source language, and the numeral is the
number again (`read_numberText`). Number words are a sign, digits and a fraction (`isWord_of_read`,
`read_of_isWord`), so that they have no letter, and a text with an exponent has one
(`numberText_of_exponent`). Where numerals may have exponents, every text is
read back (`read_unsigned`). No numeral is read as NaN (`isNaN_toFloat`).

A text and the numeral it is read as are compared by the rational number of their digits
(`Decimal.toRat`): in every layout it is that of the decimal (`read_decimalText`), and decimals of
one number have the same digits and the same double (`significant_of_toRat_eq`,
`toFloat_of_toRat_eq`).
-/

namespace MiniLisp

open Float.Model Float.Model.UnpackedFloat

/-- Characters of a kind are taken as a whole before something that cannot continue them. -/
theorem takeWhile_dropWhile_append {p : Char → Bool} {front rest : List Char}
    (hfront : ∀ c ∈ front, p c = true) (hrest : rest.takeWhile p = []) :
    (front ++ rest).takeWhile p = front ∧ (front ++ rest).dropWhile p = rest := by
  have htake : (front ++ rest).takeWhile p = front := by
    rw [List.takeWhile_append_of_pos hfront, hrest, List.append_nil]
  have hsplit := List.takeWhile_append_dropWhile (p := p) (l := front ++ rest)
  rw [htake] at hsplit
  exact ⟨htake, List.append_cancel_left hsplit⟩

/-! ## Doubles and their parts -/

theorem ofModel_pack_unpack (x : Float) : Float.ofModel (.pack x.toModel.unpack) = x :=
  Float.ofBits_toBits x

/-- The sign of a finite double is independent of its other parts. -/
theorem unpack_pack_of_unpack {b : BitVec Format.binary64.numBits} {s : Sign} {m : Nat} {e : Int}
    {hm : 0 < m} (h : UnpackedFloat.unpack .binary64 b = .finite s m e hm) (s' : Sign) :
    UnpackedFloat.unpack .binary64 (UnpackedFloat.pack .binary64 (.finite s' m e hm)) =
      .finite s' m e hm := by
  obtain ⟨b', hb'⟩ : ∃ b', b' = packComponents .binary64 s' (unpackExponent b) (unpackMantissa b) :=
    ⟨_, rfl⟩
  have hfinite : unpackExponent b ≠ -1#_ ∧
      UnpackedFloat.unpack .binary64 b' = .finite s' m e hm := by
    unfold UnpackedFloat.unpack at h ⊢
    dsimp only at h
    simp only [hb', unpackMantissa_packComponents, unpackExponent_packComponents,
      unpackSign_packComponents, Sign.ofBitVec_toBitVec]
    split at h
    · split at h <;> cases h
    rename_i hinf
    rw [if_neg hinf]
    refine ⟨hinf, ?_⟩
    split at h
    · rename_i hzero
      rw [if_pos hzero]
      split at h
      · cases h
      · rename_i hmantissa
        rw [dif_neg hmantissa]
        cases h
        rfl
    · rename_i hzero
      rw [if_neg hzero]
      cases h
      rfl
  have hnan : isNaNBits b' = false := by
    simp only [isNaNBits, hb', unpackExponent_packComponents, decide_eq_false_iff_not]
    exact fun h => hfinite.1 h.1
  have hpack := pack_unpack b'
  rw [hfinite.2, hnan, if_neg Bool.false_ne_true] at hpack
  rw [hpack, hfinite.2]

theorem abs_of_unpack {x : Float} {s : Sign} {m : Nat} {e : Int} {hm : 0 < m}
    (h : x.toModel.unpack = .finite s m e hm) :
    x.abs = .ofModel (.pack (.finite .positive m e hm)) := by
  change Float.ofModel (.pack x.toModel.unpack.abs) = _
  rw [h]
  rfl

theorem unpack_abs {x : Float} {s : Sign} {m : Nat} {e : Int} {hm : 0 < m}
    (h : x.toModel.unpack = .finite s m e hm) :
    x.abs.toModel.unpack = .finite .positive m e hm := by
  rw [abs_of_unpack h]
  exact unpack_pack_of_unpack h .positive

theorem abs_eq_self {x : Float} {m : Nat} {e : Int} {hm : 0 < m}
    (h : x.toModel.unpack = .finite .positive m e hm) : x.abs = x := by
  rw [abs_of_unpack h, ← h, ofModel_pack_unpack]

theorem neg_abs_eq_self {x : Float} {m : Nat} {e : Int} {hm : 0 < m}
    (h : x.toModel.unpack = .finite .negative m e hm) : -x.abs = x := by
  rw [abs_of_unpack h]
  change Float.ofModel (.pack (UnpackedFloat.unpack .binary64
    (UnpackedFloat.pack .binary64 (.finite .positive m e hm))).neg) = x
  rw [unpack_pack_of_unpack h]
  change Float.ofModel (.pack (.finite .negative m e hm)) = x
  rw [← h, ofModel_pack_unpack]

/-! ## NaN -/

/-- The parts of a double that is a number. -/
theorem isNaN_unpack {b : BitVec Format.binary64.numBits}
    (h : unpackExponent b ≠ -1#_ ∨ unpackMantissa b = 0#_) :
    (UnpackedFloat.unpack .binary64 b).isNaN = false := by
  unfold UnpackedFloat.unpack
  dsimp only
  split_ifs with hexponent hmantissa
  · rfl
  · exact absurd (h.neg_resolve_left hexponent) hmantissa
  all_goals rfl

theorem isNaN_unpack_pack {u : UnpackedFloat} (h : u.isNaN = false) :
    (UnpackedFloat.unpack .binary64 (UnpackedFloat.pack .binary64 u)).isNaN = false := by
  refine isNaN_unpack ?_
  cases u with
  | notANumber => cases h
  | infinity s => exact .inr unpackMantissa_packComponents
  | zero s => exact .inr unpackMantissa_packComponents
  | finite s m e hm =>
    unfold UnpackedFloat.pack
    dsimp only
    split_ifs with hlarge hnormal
    · exact .inr unpackMantissa_packComponents
    · left
      generalize (e + Format.binary64.exponentBias + ((52 : Nat) : Int)).toNat = k at hlarge ⊢
      have hlarge : ¬2048 ≤ k + 1 := hlarge
      rw [unpackExponent_packComponents, Ne, ← BitVec.toNat_inj, BitVec.toNat_ofNat]
      change ¬k % 2048 = 2047
      omega
    · left
      rw [unpackExponent_packComponents]
      decide

theorem isNaN_roundWithAccuracy (s : Sign) (m : Nat) (e : Int) (a : Accuracy) :
    (roundWithAccuracy .binary64 s m e a).isNaN = false := by
  unfold roundWithAccuracy
  dsimp only
  split <;> rfl

theorem isNaN_ofScientific (m : Nat) (e : Int) :
    (UnpackedFloat.ofScientific .binary64 m e).isNaN = false := by
  unfold UnpackedFloat.ofScientific
  split_ifs
  · rfl
  · rfl
  · rfl
  · exact isNaN_roundWithAccuracy _ _ _ _
  · exact isNaN_roundWithAccuracy _ _ _ _

/-- No numeral is read as NaN. -/
theorem Numeral.isNaN_toFloat (n : Numeral) : n.toFloat.isNaN = false := by
  have hdecimal : n.decimal.toFloat.isNaN = false := isNaN_unpack_pack (isNaN_ofScientific _ _)
  unfold Numeral.toFloat
  split
  · refine isNaN_unpack_pack ?_
    change n.decimal.toFloat.toModel.unpack.isNaN = false at hdecimal
    cases hunpack : n.decimal.toFloat.toModel.unpack with
    | notANumber =>
      rw [hunpack] at hdecimal
      cases hdecimal
    | _ => rfl
  · exact hdecimal

/-! ## The shortest digits -/

namespace Decimal

/-- Whatever the search finds reads back, and so does the exact expansion behind it. -/
theorem toFloat_shortest {x : Float} {s : Sign} {m : Nat} {e : Int} {hm : 0 < m}
    (h : x.toModel.unpack = .finite s m e hm) : (shortest x.abs m e).toFloat = x.abs := by
  unfold shortest
  dsimp only
  cases hsearch : (List.range 17).findSome? _ with
  | none =>
    rw [Option.getD_none, toFloat_exact hm (lastPlace_of_unpack h), abs_of_unpack h]
  | some d =>
    obtain ⟨k, -, hk⟩ := List.exists_of_findSome?_eq_some hsearch
    simpa using List.find?_some hk

theorem coefficient_pos_of_toFloat {d : Decimal} {x : Float} {s : Sign} {m : Nat} {e : Int}
    {hm : 0 < m} (h : x.toModel.unpack = .finite s m e hm) (hd : d.toFloat = x.abs) :
    0 < d.coefficient := by
  refine Nat.pos_of_ne_zero fun h0 => ?_
  rw [abs_of_unpack h] at hd
  unfold toFloat Float.Model.ofScientific UnpackedFloat.ofScientific at hd
  rw [dif_pos h0] at hd
  have hmodel := congrArg (·.toModel.unpack) hd
  change UnpackedFloat.unpack .binary64 (UnpackedFloat.pack .binary64 (.zero .positive)) =
    UnpackedFloat.unpack .binary64 (UnpackedFloat.pack .binary64 (.finite .positive m e hm))
    at hmodel
  rw [unpack_pack_of_unpack h] at hmodel
  cases hmodel

theorem exists_digits_eq (d : Decimal) :
    ∃ k, d.digits = d.significant ++ List.replicate k '0' := by
  refine ⟨(d.digits.reverse.takeWhile (· == '0')).length, ?_⟩
  have hzeros : d.digits.reverse.takeWhile (· == '0') =
      List.replicate (d.digits.reverse.takeWhile (· == '0')).length '0' := by
    rw [List.eq_replicate_iff]
    refine ⟨rfl, fun c hc => ?_⟩
    simpa using List.mem_takeWhile_imp hc
  have hsplit := congrArg List.reverse
    (List.takeWhile_append_dropWhile (p := (· == '0')) (l := d.digits.reverse))
  rw [List.reverse_append, List.reverse_reverse, hzeros, List.reverse_replicate] at hsplit
  exact hsplit.symm

/-- The decimal of the significant digits alone. -/
def trimmed (d : Decimal) : Decimal :=
  ⟨Nat.ofDigitChars 10 d.significant 0, d.point - d.significant.length⟩

theorem coefficient_eq (d : Decimal) : ∃ k : Nat,
    d.coefficient = d.trimmed.coefficient * 10 ^ k ∧ d.trimmed.exponent = d.exponent + k := by
  obtain ⟨k, hk⟩ := d.exists_digits_eq
  have hlength : d.digits.length = d.significant.length + k := by
    rw [hk, List.length_append, List.length_replicate]
  refine ⟨k, ?_, ?_⟩
  · have hvalue : Nat.ofDigitChars 10 d.digits 0 = d.coefficient := Nat.ofDigitChars_ten_toDigits
    rw [← hvalue, hk, Nat.ofDigitChars_append, Nat.ofDigitChars_replicate_zero, Nat.mul_comm]
    rfl
  · simp only [trimmed, point, hlength]
    omega

theorem trimmed_pos {d : Decimal} (hc : 0 < d.coefficient) : 0 < d.trimmed.coefficient := by
  obtain ⟨k, hk, -⟩ := d.coefficient_eq
  refine Nat.pos_of_ne_zero fun h0 => ?_
  rw [h0, Nat.zero_mul] at hk
  omega

theorem significant_ne_nil {d : Decimal} (hc : 0 < d.coefficient) : d.significant ≠ [] := by
  intro hnil
  have := trimmed_pos hc
  rw [trimmed, hnil] at this
  exact Nat.lt_irrefl _ this

theorem toDigits_eq_cons {n : Nat} (hn : 0 < n) :
    ∃ c cs, Nat.toDigits 10 n = c :: cs ∧ c ≠ '0' := by
  induction n using Nat.strongRecOn with
  | ind n ih =>
    by_cases hlt : n < 10
    · refine ⟨_, [], Nat.toDigits_of_lt_base hlt, ?_⟩
      have hdigit : ∀ n < 10, 0 < n → n.digitChar ≠ '0' := by decide
      exact hdigit n hlt hn
    · obtain ⟨c, cs, hdigits, hc⟩ := ih (n / 10) (by omega) (by omega)
      rw [Nat.toDigits_of_base_le (by decide) (Nat.le_of_not_lt hlt), hdigits]
      exact ⟨c, _, rfl, hc⟩

/-- The digits do not begin with a zero. -/
theorem significant_eq_cons {d : Decimal} (hc : 0 < d.coefficient) :
    ∃ c cs, d.significant = c :: cs ∧ c ≠ '0' := by
  obtain ⟨c, cs, hsignificant⟩ := List.exists_cons_of_ne_nil (significant_ne_nil hc)
  obtain ⟨k, hk⟩ := d.exists_digits_eq
  obtain ⟨c', cs', hdigits, hne⟩ := toDigits_eq_cons hc
  rw [digits, hdigits, hsignificant] at hk
  obtain ⟨rfl, -⟩ := List.cons.inj hk
  exact ⟨c', cs, hsignificant, hne⟩

/-- A decimal whose power of ten is neither too large nor too small to be looked at. -/
def InRange (d : Decimal) : Prop :=
  d.exponent ≤ 2048 ∧ -(2048 + (d.coefficient.log2 : Int)) ≤ d.exponent

theorem toFloat_trimmed {d : Decimal} (hc : 0 < d.coefficient) (hrange : d.trimmed.InRange) :
    d.trimmed.toFloat = d.toFloat := by
  obtain ⟨k, hk, hexponent⟩ := d.coefficient_eq
  obtain ⟨hmax, hmin⟩ := hrange
  rw [hexponent] at hmax hmin
  have hmove := toFloat_mul_ten_pow (k := k) (e := d.exponent) (trimmed_pos hc) hmax hmin
  rw [← hk, ← hexponent] at hmove
  exact hmove.symm

/-! ### The number of a decimal -/

/-- The rational number that a decimal is. -/
def toRat (d : Decimal) : ℚ := d.coefficient * 10 ^ d.exponent

/-- The decimal `0.digits * 10 ^ point`. -/
def ofDigits (digits : List Char) (point : Int) : Decimal :=
  ⟨Nat.ofDigitChars 10 digits 0, point - digits.length⟩

theorem toRat_ofDigits (digits : List Char) (n : Int) : (ofDigits digits n).toRat =
    Nat.ofDigitChars 10 digits 0 / 10 ^ digits.length * 10 ^ n := by
  rw [toRat, ofDigits, zpow_sub₀ (by norm_num), zpow_natCast]
  ring

/-- Zeros move from the coefficient to the power of ten. -/
theorem toRat_of_mul_ten_pow {d d' : Decimal} {k : Nat}
    (hc : d.coefficient = d'.coefficient * 10 ^ k) (he : d'.exponent = d.exponent + k) :
    d.toRat = d'.toRat := by
  rw [toRat, toRat, hc, he, zpow_add₀ (by norm_num), zpow_natCast]
  push_cast
  ring

theorem toRat_trimmed (d : Decimal) : d.trimmed.toRat = d.toRat := by
  obtain ⟨k, hc, he⟩ := d.coefficient_eq
  exact (toRat_of_mul_ten_pow hc he).symm

theorem mul_ten_pow_of_toRat_eq {d d' : Decimal} (h : d.toRat = d'.toRat) {k : Nat}
    (he : d'.exponent = d.exponent + k) : d.coefficient = d'.coefficient * 10 ^ k := by
  have hpos : (10 : ℚ) ^ d.exponent ≠ 0 := zpow_ne_zero _ (by norm_num)
  rw [toRat, toRat, he, zpow_add₀ (by norm_num), zpow_natCast, mul_left_comm, mul_comm] at h
  exact_mod_cast mul_left_cancel₀ hpos h

theorem toDigits_mul_ten_pow {n : Nat} (hn : 0 < n) (k : Nat) :
    Nat.toDigits 10 (n * 10 ^ k) = Nat.toDigits 10 n ++ List.replicate k '0' := by
  induction k with
  | zero => simp
  | succ k ih =>
    have hsucc : n * 10 ^ (k + 1) = n * 10 ^ k * 10 := by rw [Nat.pow_succ, Nat.mul_assoc]
    have hpos : 0 < n * 10 ^ k := Nat.mul_pos hn (Nat.pow_pos (by decide))
    rw [hsucc, Nat.toDigits_of_base_le (by decide) (by omega), Nat.mul_div_cancel _ (by decide), ih,
      Nat.mul_mod_left, List.replicate_succ', List.append_assoc]
    rfl

theorem significant_of_mul_ten_pow {d d' : Decimal} {k : Nat} (hpos : 0 < d'.coefficient)
    (hc : d.coefficient = d'.coefficient * 10 ^ k) (he : d'.exponent = d.exponent + k) :
    d.significant = d'.significant ∧ d.point = d'.point := by
  have hdigits : d.digits = d'.digits ++ List.replicate k '0' := by
    rw [digits, hc, toDigits_mul_ten_pow hpos, digits]
  refine ⟨?_, ?_⟩
  · rw [significant, hdigits, List.reverse_append, List.reverse_replicate,
      List.dropWhile_append_of_pos (by simp), significant]
  · rw [point, hdigits, List.length_append, List.length_replicate, point, he]
    omega

/-- The digits and the place of the point depend on the number only. -/
theorem significant_of_toRat_eq {d d' : Decimal} (hpos : 0 < d.coefficient)
    (hpos' : 0 < d'.coefficient) (h : d.toRat = d'.toRat) :
    d.significant = d'.significant ∧ d.point = d'.point := by
  rcases Int.le_total d.exponent d'.exponent with hle | hle
  · obtain ⟨k, hk⟩ := Int.le.dest hle
    exact significant_of_mul_ten_pow hpos' (mul_ten_pow_of_toRat_eq h hk.symm) hk.symm
  · obtain ⟨k, hk⟩ := Int.le.dest hle
    have heq := significant_of_mul_ten_pow hpos (mul_ten_pow_of_toRat_eq h.symm hk.symm) hk.symm
    exact ⟨heq.1.symm, heq.2.symm⟩

theorem toRat_pos {d : Decimal} : 0 < d.toRat ↔ 0 < d.coefficient := by
  have hpos : (0 : ℚ) < 10 ^ d.exponent := zpow_pos (by norm_num) _
  rw [toRat, mul_pos_iff_of_pos_right hpos, Nat.cast_pos]

theorem toFloat_of_toRat_eq {d d' : Decimal} (hpos : 0 < d.coefficient)
    (hrange : d.trimmed.InRange) (h : d'.toRat = d.toRat) : d'.toFloat = d.toFloat := by
  have hpos' : 0 < d'.coefficient := toRat_pos.1 (h ▸ toRat_pos.2 hpos)
  obtain ⟨hsignificant, hpoint⟩ := significant_of_toRat_eq hpos' hpos h
  have htrimmed : d'.trimmed = d.trimmed := by rw [trimmed, hsignificant, hpoint, trimmed]
  rw [← toFloat_trimmed hpos' (htrimmed ▸ hrange), htrimmed, toFloat_trimmed hpos hrange]

/-! ### The range of the digits -/

/-- Bounds on the parts of a double, rough ones. -/
theorem bounds_of_unpack {b : BitVec Format.binary64.numBits} {s : Sign} {m : Nat} {e : Int}
    {hm : 0 < m} (h : UnpackedFloat.unpack .binary64 b = .finite s m e hm) :
    m < 2 ^ 53 ∧ -1074 ≤ e ∧ e ≤ 972 := by
  have hplace := lastPlace_of_unpack h
  rw [lastPlace_eq, leastPlace_eq] at hplace
  refine ⟨(Nat.log2_lt (Nat.ne_of_gt hm)).1 (by omega), by omega, ?_⟩
  have hlt : (unpackExponent b).toNat < 2 ^ 11 := BitVec.isLt _
  unfold UnpackedFloat.unpack at h
  dsimp only at h
  split at h
  · split at h <;> cases h
  split at h
  · rename_i hzero
    split at h
    · cases h
    · cases h
      rw [hzero]
      decide
  · cases h
    change ((unpackExponent b).toNat : Int) - 1075 ≤ 972
    omega

theorem ratio_bounds {m i j l : Nat} {e : Int} (hm : m < 2 ^ i) (hhigh : e ≤ j)
    (hlow : -(l : Int) ≤ e) : (ratio m e).1 < 2 ^ (i + j) ∧ (ratio m e).2 ≤ 2 ^ l := by
  refine ⟨?_, Nat.pow_le_pow_right (by decide) (by omega)⟩
  rw [Nat.pow_add]
  exact Nat.mul_lt_mul_of_lt_of_le hm (Nat.pow_le_pow_right (by decide) (by omega))
    (Nat.two_pow_pos _)

theorem length_toDigits_le {n k : Nat} (h : n < 2 ^ k) (hk : 0 < k) :
    (Nat.toDigits 10 n).length ≤ k :=
  (Nat.length_toDigits_le_iff (by decide) hk).2
    (Nat.lt_of_lt_of_le h (Nat.pow_le_pow_left (by decide) k))

theorem magnitude_bounds {num den i k : Nat} (hnum : num < 2 ^ i) (hden : den ≤ 2 ^ k) (hi : 0 < i)
    (hk : 0 < k) : -(k : Int) ≤ magnitude num den ∧ magnitude num den ≤ i := by
  unfold magnitude
  split
  · have := length_toDigits_le (Nat.lt_of_le_of_lt (Nat.div_le_self num den) hnum) hi
    omega
  · have hlow : (den - 1) / num < 2 ^ k :=
      Nat.lt_of_le_of_lt (Nat.div_le_self _ _) (by omega)
    have := length_toDigits_le hlow hk
    omega

/-- The neighbours of a number have few zeros at their ends. -/
theorem neighbours_bound {num den i k : Nat} {exponent : Int} {d : Decimal} (hden : 0 < den)
    (hnum : num < 2 ^ i) (hexponent : exponent ≤ i) (hd : d ∈ neighbours num den exponent)
    (hk : 10 ^ k ≤ d.coefficient) : d.exponent = exponent ∧ exponent + k ≤ i + 1 := by
  obtain ⟨a, ha⟩ : ∃ a, a = num * Nat.pow 10 (-exponent).toNat := ⟨_, rfl⟩
  obtain ⟨b, hb⟩ : ∃ b, b = den * Nat.pow 10 exponent.toNat := ⟨_, rfl⟩
  have hcases : d.exponent = exponent ∧ d.coefficient ≤ a / b + 1 := by
    unfold neighbours at hd
    dsimp only at hd
    rw [← ha, ← hb] at hd
    split at hd <;> rcases List.mem_pair.1 hd with rfl | rfl <;> simp
  refine ⟨hcases.1, ?_⟩
  rw [Nat.pow_eq] at ha hb
  rcases Nat.eq_zero_or_pos k with rfl | hpos
  · omega
  have htwo : 2 ≤ 10 ^ k := Nat.le_trans (by decide) (Nat.pow_le_pow_right (by decide) hpos)
  have hdiv : 10 ^ k ≤ 2 * (a / b) := by omega
  have hquotient : a / b * 10 ^ exponent.toNat ≤ 2 ^ i * 10 ^ (-exponent).toNat := by
    calc a / b * 10 ^ exponent.toNat ≤ a / b * b := by
          rw [hb]
          exact Nat.mul_le_mul_left _ (Nat.le_mul_of_pos_left _ hden)
      _ ≤ a := Nat.div_mul_le_self a b
      _ ≤ 2 ^ i * 10 ^ (-exponent).toNat := by
          rw [ha]
          exact Nat.mul_le_mul_right _ (Nat.le_of_lt hnum)
  have hpow : 10 ^ (k + exponent.toNat) ≤ 10 ^ (i + 1 + (-exponent).toNat) := by
    calc 10 ^ (k + exponent.toNat) = 10 ^ k * 10 ^ exponent.toNat := Nat.pow_add _ _ _
      _ ≤ 2 * (a / b) * 10 ^ exponent.toNat := Nat.mul_le_mul_right _ hdiv
      _ = 2 * (a / b * 10 ^ exponent.toNat) := Nat.mul_assoc _ _ _
      _ ≤ 2 * (2 ^ i * 10 ^ (-exponent).toNat) := Nat.mul_le_mul_left _ hquotient
      _ = 2 ^ (i + 1) * 10 ^ (-exponent).toNat := by rw [← Nat.mul_assoc, ← Nat.pow_succ']
      _ ≤ 10 ^ (i + 1) * 10 ^ (-exponent).toNat :=
          Nat.mul_le_mul_right _ (Nat.pow_le_pow_left (by decide) _)
      _ = 10 ^ (i + 1 + (-exponent).toNat) := (Nat.pow_add _ _ _).symm
  have := (Nat.pow_le_pow_iff_right (a := 10) (by decide)).1 hpow
  omega

/-- The exact expansion of a number has few zeros at its end. -/
theorem exact_bound {m i j l k : Nat} {e : Int} (hm : m < 2 ^ i) (hhigh : e ≤ j)
    (hlow : -(l : Int) ≤ e) (hk : 10 ^ k ≤ (exact m e).coefficient) : 3 * k ≤ i + j + 3 * l := by
  refine (Nat.pow_le_pow_iff_right (a := 2) (by decide)).1 ?_
  calc 2 ^ (3 * k) = 8 ^ k := Nat.pow_mul _ _ _
    _ ≤ 10 ^ k := Nat.pow_le_pow_left (by decide) k
    _ ≤ m * 2 ^ e.toNat * 5 ^ (-e).toNat := hk
    _ ≤ 2 ^ i * 2 ^ j * 8 ^ l :=
        Nat.mul_le_mul (Nat.mul_le_mul (Nat.le_of_lt hm)
            (Nat.pow_le_pow_right (by decide) (by omega)))
          (Nat.le_trans (Nat.pow_le_pow_left (by decide) _)
            (Nat.pow_le_pow_right (by decide) (by omega)))
    _ = 2 ^ (i + j + 3 * l) := by rw [Nat.pow_add, Nat.pow_add, Nat.pow_mul]

/-- The significant digits of a double are always looked at. -/
theorem inRange_shortest {x : Float} {s : Sign} {m : Nat} {e : Int} {hm : 0 < m}
    (h : x.toModel.unpack = .finite s m e hm) : (shortest x.abs m e).trimmed.InRange := by
  obtain ⟨hmax, hlow, hhigh⟩ := bounds_of_unpack h
  obtain ⟨d, hd⟩ : ∃ d, d = shortest x.abs m e := ⟨_, rfl⟩
  have hc : 0 < d.coefficient := by
    rw [hd]
    exact coefficient_pos_of_toFloat h (toFloat_shortest h)
  obtain ⟨k, hk, hexponent⟩ := d.coefficient_eq
  have hten : 10 ^ k ≤ d.coefficient := by
    rw [hk]
    exact Nat.le_mul_of_pos_left _ (trimmed_pos hc)
  suffices hbounds : -2048 ≤ d.exponent ∧ d.exponent + k ≤ 2048 by
    rw [← hd]
    exact ⟨by omega, by omega⟩
  obtain ⟨hnum, hden⟩ := ratio_bounds hmax (show e ≤ (972 : Nat) by omega)
    (show -((1074 : Nat) : Int) ≤ e by omega)
  obtain ⟨hbottom, htop⟩ := magnitude_bounds hnum hden (by decide) (by decide)
  unfold shortest at hd
  dsimp only at hd
  cases hsearch : (List.range 17).findSome? _ with
  | none =>
    rw [hsearch, Option.getD_none] at hd
    subst hd
    have hzeros : 3 * k ≤ 53 + 972 + 3 * 1074 := exact_bound hmax hhigh hlow hten
    change -2048 ≤ min e 0 ∧ min e 0 + (k : Int) ≤ 2048
    omega
  | some found =>
    rw [hsearch, Option.getD_some] at hd
    subst hd
    obtain ⟨i, hi, hfound⟩ := List.exists_of_findSome?_eq_some hsearch
    have hmem := List.mem_of_find?_eq_some hfound
    have hi := List.mem_range.1 hi
    obtain ⟨heq, hle⟩ := neighbours_bound (Nat.two_pow_pos _) hnum (by omega) hmem hten
    exact ⟨by omega, by omega⟩

end Decimal

/-! ## Numerals -/

namespace Numeral

/-- Whether a sign is a minus. -/
def negates : Sign → Bool
  | .negative => true
  | .positive => false

theorem splitSign_signText {c : Char} (hc : c.isDigit = true) (plus : Bool) (s : Sign)
    (cs : List Char) : splitSign plus (Layout.signText s ++ c :: cs) = (negates s, c :: cs) := by
  cases s with
  | negative => rfl
  | positive =>
    change splitSign plus (c :: cs) = (false, c :: cs)
    unfold splitSign
    split
    · rename_i heq
      obtain ⟨rfl, -⟩ := List.cons.inj heq
      cases hc
    · rename_i heq
      obtain ⟨rfl, -⟩ := List.cons.inj heq
      cases hc
    · rfl

/-- A sign, digits and what follows them. -/
theorem read_signed {whole rest : List Char} (hne : whole ≠ [])
    (hwhole : ∀ c ∈ whole, c.isDigit = true) (hrest : rest.takeWhile Char.isDigit = [])
    (s : Sign) (plus allowed : Bool) :
    read ⟨plus, true, allowed⟩ (Layout.signText s ++ (whole ++ rest)) =
      (splitFraction true rest).bind fun (fraction, cs) =>
        (readExponent allowed cs).map fun exponent => ⟨negates s, whole, fraction, exponent⟩ := by
  obtain ⟨htake, hdrop⟩ := takeWhile_dropWhile_append hwhole hrest
  have hsign : splitSign plus (Layout.signText s ++ (whole ++ rest)) =
      (negates s, whole ++ rest) := by
    cases whole with
    | nil => exact absurd rfl hne
    | cons c cs => exact splitSign_signText (hwhole c List.mem_cons_self) plus s (cs ++ rest)
  unfold read
  rw [hsign]
  dsimp only
  rw [htake, hdrop, if_neg (by simpa using hne)]
  change (splitFraction true rest).bind _ = _
  congr 1
  funext ⟨fraction, cs⟩
  change (readExponent allowed cs).bind _ = _
  cases readExponent allowed cs <;> rfl

theorem read_whole {whole : List Char} (hne : whole ≠ [])
    (hwhole : ∀ c ∈ whole, c.isDigit = true) (s : Sign) (plus allowed : Bool) :
    read ⟨plus, true, allowed⟩ (Layout.signText s ++ whole) =
      some ⟨negates s, whole, [], 0⟩ := by
  have hread := read_signed hne hwhole List.takeWhile_nil s plus allowed
  rw [List.append_nil] at hread
  exact hread

theorem splitFraction_digits {fraction rest : List Char} (hne : fraction ≠ [])
    (hfraction : ∀ c ∈ fraction, c.isDigit = true) (hrest : rest.takeWhile Char.isDigit = []) :
    splitFraction true ('.' :: (fraction ++ rest)) = some (fraction, rest) := by
  obtain ⟨htake, hdrop⟩ := takeWhile_dropWhile_append hfraction hrest
  simp [splitFraction, htake, hdrop, hne]

theorem read_fraction {whole fraction : List Char} (hne : whole ≠ [])
    (hwhole : ∀ c ∈ whole, c.isDigit = true) (hne' : fraction ≠ [])
    (hfraction : ∀ c ∈ fraction, c.isDigit = true) (s : Sign) (plus allowed : Bool) :
    read ⟨plus, true, allowed⟩ (Layout.signText s ++ (whole ++ '.' :: fraction)) =
      some ⟨negates s, whole, fraction, 0⟩ := by
  have hsplit := splitFraction_digits hne' hfraction List.takeWhile_nil
  rw [List.append_nil] at hsplit
  rw [read_signed hne hwhole rfl s, hsplit]
  rfl

theorem isDigit_of_mem_zeros {k : Nat} : ∀ c ∈ List.replicate k '0', c.isDigit = true := by
  intro c hc
  rw [List.eq_of_mem_replicate hc]
  rfl

/-- A whole number, with or without a zero behind the point. -/
theorem read_tail {whole : List Char} (hne : whole ≠ [])
    (hwhole : ∀ c ∈ whole, c.isDigit = true) (l : Layout) (s : Sign) (plus allowed : Bool) :
    ∃ numeral, read ⟨plus, true, allowed⟩ (Layout.signText s ++ (whole ++ l.tail)) =
        some numeral ∧
      numeral.negative = negates s ∧ numeral.decimal.toRat = Nat.ofDigitChars 10 whole 0 := by
  unfold Layout.tail
  cases l.fraction with
  | false =>
    rw [if_neg Bool.false_ne_true, List.append_nil]
    exact ⟨_, read_whole hne hwhole s plus allowed, rfl, by simp [decimal, Decimal.toRat]⟩
  | true =>
    refine ⟨_, read_fraction hne hwhole (List.cons_ne_nil '0' []) (by simp) s plus allowed, rfl, ?_⟩
    have hvalue : Nat.ofDigitChars 10 (whole ++ ['0']) 0 = 10 * Nat.ofDigitChars 10 whole 0 := by
      simp [Nat.ofDigitChars_append, Nat.ofDigitChars_cons]
    simp only [decimal, Decimal.toRat, hvalue]
    norm_num
    ring

/-- Digits with their point are read as the number that they are. -/
theorem read_place {digits : List Char} {n : Int} (hne : digits ≠ [])
    (hdigits : ∀ c ∈ digits, c.isDigit = true) (l : Layout) (s : Sign) (plus allowed : Bool) :
    ∃ numeral, read ⟨plus, true, allowed⟩ (Layout.signText s ++ l.place digits n) =
        some numeral ∧
      numeral.negative = negates s ∧
      numeral.decimal.toRat = (Decimal.ofDigits digits n).toRat := by
  unfold Layout.place
  split
  · rename_i hlength
    have hwhole : ∀ c ∈ digits ++ List.replicate (n.toNat - digits.length) '0',
        c.isDigit = true := by
      intro c hc
      exact (List.mem_append.1 hc).elim (hdigits c) (isDigit_of_mem_zeros c)
    obtain ⟨numeral, hread, hsign, hvalue⟩ := read_tail (by simp [hne]) hwhole l s plus allowed
    have hplace : n - digits.length = ((n.toNat - digits.length : Nat) : Int) := by omega
    refine ⟨numeral, hread, hsign, ?_⟩
    rw [hvalue, Nat.ofDigitChars_append, Nat.ofDigitChars_replicate_zero, Decimal.toRat,
      Decimal.ofDigits, hplace, zpow_natCast, Nat.mul_comm]
    push_cast
    rfl
  split
  · rename_i hlength hpos
    have hlt : n.toNat < digits.length := by omega
    rw [List.append_assoc, List.singleton_append]
    refine ⟨_, read_fraction ?_ (fun c hc => hdigits c (List.mem_of_mem_take hc)) ?_
      (fun c hc => hdigits c (List.mem_of_mem_drop hc)) s plus allowed, rfl,
      congrArg Decimal.toRat ?_⟩
    · simp [hne]
      omega
    · simpa using hlt
    · simp only [decimal, Decimal.ofDigits, List.take_append_drop, List.length_drop,
        Decimal.mk.injEq, true_and]
      omega
  · rename_i hlength hpos
    have hfraction : List.replicate (-n).toNat '0' ++ digits ≠ [] := by simp [hne]
    refine ⟨_, read_fraction (List.cons_ne_nil '0' []) (by simp) hfraction ?_ s plus allowed, rfl,
      congrArg Decimal.toRat ?_⟩
    · intro c hc
      exact (List.mem_append.1 hc).elim (isDigit_of_mem_zeros c) (hdigits c)
    · simp only [decimal, Decimal.ofDigits, List.cons_append, List.nil_append,
        Nat.ofDigitChars_cons, Nat.ofDigitChars_append, Nat.ofDigitChars_replicate_zero,
        List.length_append, List.length_replicate, Decimal.mk.injEq]
      refine ⟨by simp, by omega⟩

theorem exponentText_eq (e : Int) : Layout.canonical.exponentText e =
    (if 0 ≤ e then '+' else '-') :: Nat.toDigits 10 e.natAbs := by
  have hpos : 0 < (Nat.toDigits 10 e.natAbs).length := Nat.length_toDigits_pos
  have hwidth : Layout.canonical.exponentWidth - (Nat.toDigits 10 e.natAbs).length = 0 :=
    Nat.sub_eq_zero_of_le hpos
  unfold Layout.exponentText
  dsimp only
  rw [hwidth]
  rfl

theorem readExponent_exponentText (l : Layout) (e : Int) :
    readExponent true ('e' :: l.exponentText e) = some e := by
  obtain ⟨digits, htext, hne, hdigits, hvalue⟩ : ∃ digits,
      l.exponentText e = (if 0 ≤ e then '+' else '-') :: digits ∧ digits ≠ [] ∧
      digits.all Char.isDigit = true ∧ Nat.ofDigitChars 10 digits 0 = e.natAbs := by
    refine ⟨List.replicate (l.exponentWidth - (Nat.toDigits 10 e.natAbs).length) '0' ++
      Nat.toDigits 10 e.natAbs, rfl, ?_, List.all_eq_true.2 fun c hc => ?_, ?_⟩
    · exact List.append_ne_nil_of_right_ne_nil _
        (List.ne_nil_of_length_pos Nat.length_toDigits_pos)
    · exact (List.mem_append.1 hc).elim (isDigit_of_mem_zeros c)
        (Nat.isDigit_of_mem_toDigits (b := 10) (by decide) (by decide))
    · rw [Nat.ofDigitChars_append, Nat.ofDigitChars_replicate_zero, Nat.mul_zero]
      exact Nat.ofDigitChars_ten_toDigits
  rw [htext]
  by_cases he : 0 ≤ e
  · simp [readExponent, splitSign, he, hne, hdigits, hvalue]
  · have habs : |e| = -e := abs_of_neg (Int.not_le.1 he)
    simp [readExponent, splitSign, he, hne, hdigits, hvalue, habs]

/-- Digits with a point behind the first one and an exponent. -/
theorem read_mantissa {digits : List Char} (hne : digits ≠ [])
    (hdigits : ∀ c ∈ digits, c.isDigit = true) (l : Layout) (e : Int) (s : Sign) (plus : Bool) :
    ∃ n, read ⟨plus, true, true⟩
        (Layout.signText s ++ (Layout.mantissa digits ++ 'e' :: l.exponentText e)) = some n ∧
      n.negative = negates s ∧ n.decimal = .ofDigits digits (e + 1) := by
  have hexponent := readExponent_exponentText l e
  match digits with
  | [] => exact absurd rfl hne
  | [d] =>
    have hread : read ⟨plus, true, true⟩
        (Layout.signText s ++ ([d] ++ 'e' :: l.exponentText e)) = _ :=
      read_signed (List.cons_ne_nil d []) hdigits rfl s plus true
    rw [show splitFraction true ('e' :: l.exponentText e) =
      some ([], 'e' :: l.exponentText e) from rfl, Option.bind_some] at hread
    dsimp only at hread
    rw [hexponent] at hread
    exact ⟨_, hread, rfl, by simp [decimal, Decimal.ofDigits]⟩
  | d :: c :: rest =>
    have hread : read ⟨plus, true, true⟩ (Layout.signText s ++
        ([d] ++ '.' :: (c :: rest ++ 'e' :: l.exponentText e))) = _ :=
      read_signed (List.cons_ne_nil d []) (fun x hx => hdigits x (by simp_all)) rfl s plus true
    rw [splitFraction_digits (List.cons_ne_nil c rest)
      (fun x hx => hdigits x (List.mem_cons_of_mem _ hx)) rfl, Option.bind_some] at hread
    dsimp only at hread
    rw [hexponent] at hread
    refine ⟨_, hread, rfl, ?_⟩
    simp only [decimal, Decimal.ofDigits, List.cons_append, List.nil_append, List.length_cons,
      Decimal.mk.injEq, true_and]
    omega

/-- The characters of number words. -/
def isNumeralChar (c : Char) : Bool := c.isDigit || c == '.' || c == '-'

/-- A text writes a numeral as a number word: a minus sign or none, digits, and a point with digits
or none. -/
structure IsWord (n : Numeral) (cs : List Char) : Prop where
  text : cs = (if n.negative then ['-'] else []) ++
    (n.whole ++ if n.fraction = [] then [] else '.' :: n.fraction)
  whole_ne_nil : n.whole ≠ []
  whole : ∀ c ∈ n.whole, c.isDigit = true
  fraction : ∀ c ∈ n.fraction, c.isDigit = true
  exponent : n.exponent = 0

theorem splitSign_eq {cs rest : List Char} {negative : Bool}
    (h : splitSign false cs = (negative, rest)) :
    cs = (if negative then ['-'] else []) ++ rest := by
  unfold splitSign at h
  split at h
  · obtain ⟨rfl, rfl⟩ := Prod.mk.inj h
    rfl
  · obtain ⟨rfl, rfl⟩ := Prod.mk.inj h
    rfl
  · obtain ⟨rfl, rfl⟩ := Prod.mk.inj h
    rfl

theorem splitFraction_eq_some {cs fraction : List Char}
    (h : splitFraction true cs = some (fraction, [])) :
    cs = (if fraction = [] then [] else '.' :: fraction) ∧
      ∀ c ∈ fraction, c.isDigit = true := by
  unfold splitFraction at h
  split at h
  · rename_i cs
    dsimp only at h
    split at h
    · rename_i hne
      obtain ⟨rfl, hdrop⟩ := Prod.mk.inj (Option.some.inj h)
      have happend := List.takeWhile_append_dropWhile (p := Char.isDigit) (l := cs)
      rw [hdrop, List.append_nil] at happend
      rw [if_neg (by simpa using hne), happend]
      exact ⟨rfl, fun c hc => List.mem_takeWhile_imp (happend.symm ▸ hc)⟩
    · cases h
  · obtain ⟨rfl, rfl⟩ := Prod.mk.inj (Option.some.inj h)
    exact ⟨rfl, by simp⟩

theorem eq_nil_of_readExponent {cs : List Char} {n : Int} (h : readExponent false cs = some n) :
    cs = [] := by
  cases cs with
  | nil => rfl
  | cons c cs => simp [readExponent] at h

/-- What is read as a number word is one. -/
theorem isWord_of_read {cs : List Char} {n : Numeral} (h : read .word cs = some n) :
    n.IsWord cs := by
  unfold read at h
  cases hsign : splitSign Form.word.plus cs with
  | mk negative unsigned =>
    rw [hsign] at h
    dsimp only at h
    split at h
    · cases h
    rename_i hne
    obtain ⟨⟨fraction, rest⟩, hfraction, h⟩ := Option.bind_eq_some_iff.1 h
    obtain ⟨exponent, hexponent, h⟩ := Option.bind_eq_some_iff.1 h
    obtain rfl := eq_nil_of_readExponent hexponent
    obtain ⟨hrest, hdigits⟩ := splitFraction_eq_some hfraction
    cases hexponent
    cases h
    refine ⟨?_, by simpa using hne, fun c hc => List.mem_takeWhile_imp hc, hdigits, rfl⟩
    rw [splitSign_eq hsign, ← hrest, List.takeWhile_append_dropWhile]

/-- Every number word is read. -/
theorem read_of_isWord {cs : List Char} {n : Numeral} (h : n.IsWord cs) :
    read .word cs = some n := by
  obtain ⟨negative, whole, fraction, exponent⟩ := n
  obtain ⟨rfl, hne, hwhole, hfraction, rfl⟩ := h
  obtain ⟨s, hs, hsign⟩ : ∃ s, negates s = negative ∧
      (if negative then ['-'] else []) = Layout.signText s := by
    cases negative with
    | true => exact ⟨.negative, rfl, rfl⟩
    | false => exact ⟨.positive, rfl, rfl⟩
  subst hs
  by_cases hempty : fraction = []
  · subst hempty
    rw [hsign, if_pos rfl, List.append_nil]
    exact read_whole hne hwhole s false false
  · rw [hsign, if_neg hempty]
    exact read_fraction hne hwhole hempty hfraction s false false

/-- A number word has digits, points and minus signs only. -/
theorem isNumeralChar_of_read {cs : List Char} {n : Numeral} (h : read .word cs = some n) :
    ∀ c ∈ cs, isNumeralChar c = true := by
  have hword := isWord_of_read h
  intro c hc
  rw [hword.text, List.mem_append, List.mem_append] at hc
  rcases hc with hc | hc | hc
  · split at hc
    · simp [isNumeralChar, List.mem_singleton.1 hc]
    · cases hc
  · simp [isNumeralChar, hword.whole c hc]
  · split at hc
    · cases hc
    · rcases List.mem_cons.1 hc with rfl | hc
      · rfl
      · simp [isNumeralChar, hword.fraction c hc]

end Numeral

/-! ## The texts of numbers -/

namespace Layout

theorem isDigit_of_mem_significant {d : Decimal} {c : Char} (hc : c ∈ d.significant) :
    c.isDigit = true := by
  obtain ⟨k, hk⟩ := d.exists_digits_eq
  refine Nat.isDigit_of_mem_toDigits (b := 10) (n := d.coefficient) (by decide) (by decide) ?_
  change c ∈ d.digits
  rw [hk]
  exact List.mem_append_left _ hc

/-- A decimal that is written without an exponent is read as itself. -/
theorem read_positional {d : Decimal} (hc : 0 < d.coefficient) {l : Layout}
    (hpoint : l.positional d.point = true) (s : Sign) (plus allowed : Bool) :
    ∃ n, Numeral.read ⟨plus, true, allowed⟩ (signText s ++ l.decimalText d) = some n ∧
      n.negative = Numeral.negates s ∧ n.decimal.toRat = d.toRat := by
  rw [decimalText, digitText, if_pos hpoint, ← d.toRat_trimmed]
  exact Numeral.read_place (Decimal.significant_ne_nil hc) (fun c => isDigit_of_mem_significant)
    l s plus allowed

/-- Any decimal is read as itself where exponents are allowed. -/
theorem read_decimalText {d : Decimal} (hc : 0 < d.coefficient) (l : Layout) (s : Sign)
    (plus : Bool) :
    ∃ n, Numeral.read ⟨plus, true, true⟩ (signText s ++ l.decimalText d) = some n ∧
      n.negative = Numeral.negates s ∧ n.decimal.toRat = d.toRat := by
  cases hpoint : l.positional d.point with
  | true => exact read_positional hc hpoint s plus true
  | false =>
    obtain ⟨n, hread, hsign, hdecimal⟩ := Numeral.read_mantissa (Decimal.significant_ne_nil hc)
      (fun c => isDigit_of_mem_significant) l (d.point - 1) s plus
    rw [Int.sub_add_cancel] at hdecimal
    rw [decimalText, digitText, if_neg (by simp [hpoint]), List.append_assoc]
    refine ⟨n, hread, hsign, ?_⟩
    rw [hdecimal, ← d.toRat_trimmed]
    rfl

/-- The numeral of the shortest digits of a number, with its sign, is the number. -/
theorem toFloat_of_shortest {x : Float} {s : Sign} {m : Nat} {e : Int} {hm : 0 < m}
    (h : x.toModel.unpack = .finite s m e hm) {n : Numeral} (hsign : n.negative = Numeral.negates s)
    (hvalue : n.decimal.toRat = (Decimal.shortest x.abs m e).toRat) : n.toFloat = x := by
  have hfloat := Decimal.toFloat_shortest h
  have hc := Decimal.coefficient_pos_of_toFloat h hfloat
  unfold Numeral.toFloat
  rw [hsign, Decimal.toFloat_of_toRat_eq hc (Decimal.inRange_shortest h) hvalue, hfloat]
  cases s with
  | negative => exact neg_abs_eq_self h
  | positive => exact abs_eq_self h

/-- A number that is written without an exponent is read back. -/
theorem read_numberText {x : Float} {s : Sign} {m : Nat} {e : Int} {hm : 0 < m}
    (h : x.toModel.unpack = .finite s m e hm)
    (hpoint : canonical.positional (Decimal.shortest x.abs m e).point = true) :
    ∃ n, Numeral.read .word (canonical.numberText x) = some n ∧ n.toFloat = x := by
  have hc := Decimal.coefficient_pos_of_toFloat h (Decimal.toFloat_shortest h)
  obtain ⟨n, hread, hsign, hvalue⟩ := read_positional hc hpoint s false false
  exact ⟨n, by rw [numberText, h]; exact hread, toFloat_of_shortest h hsign hvalue⟩

/-- Any decimal is read back as its double where exponents are allowed. -/
theorem read_unsigned {d : Decimal} (hc : 0 < d.coefficient) (hrange : d.trimmed.InRange) :
    ∃ n, Numeral.read ⟨false, true, true⟩ (canonical.decimalText d) = some n ∧
      n.toFloat = d.toFloat := by
  obtain ⟨n, hread, hsign, hvalue⟩ := read_decimalText hc canonical .positive false
  refine ⟨n, hread, ?_⟩
  rw [Numeral.toFloat, hsign, Decimal.toFloat_of_toRat_eq hc hrange hvalue]
  rfl

theorem mantissa_chars {digits : List Char} (hne : digits ≠ [])
    (hdigits : ∀ c ∈ digits, c.isDigit = true) :
    mantissa digits ≠ [] ∧ ∀ c ∈ mantissa digits, Numeral.isNumeralChar c = true := by
  have hnumeral : ∀ c ∈ digits, Numeral.isNumeralChar c = true := fun c hc => by
    simp [Numeral.isNumeralChar, hdigits c hc]
  unfold mantissa
  split
  · exact absurd rfl hne
  · exact ⟨by simp, hnumeral⟩
  · rename_i d rest _
    refine ⟨by simp, fun c hc => ?_⟩
    simp only [List.cons_append, List.nil_append, List.mem_cons] at hc
    rcases hc with rfl | rfl | hc
    · exact hnumeral c List.mem_cons_self
    · rfl
    · exact hnumeral c (List.mem_cons_of_mem _ hc)

/-- A number with an exponent begins like a number word and goes on with a letter. -/
theorem numberText_of_exponent {x : Float} {s : Sign} {m : Nat} {e : Int} {hm : 0 < m}
    (h : x.toModel.unpack = .finite s m e hm)
    (hpoint : canonical.positional (Decimal.shortest x.abs m e).point = false) :
    ∃ front rest, canonical.numberText x = front ++ 'e' :: rest ∧ front ≠ [] ∧
      ∀ c ∈ front, Numeral.isNumeralChar c = true := by
  have hc := Decimal.coefficient_pos_of_toFloat h (Decimal.toFloat_shortest h)
  obtain ⟨hne, hchars⟩ := mantissa_chars (Decimal.significant_ne_nil hc)
    (fun c => isDigit_of_mem_significant)
  refine ⟨signText s ++ mantissa (Decimal.shortest x.abs m e).significant,
    canonical.exponentText ((Decimal.shortest x.abs m e).point - 1), ?_, ?_, fun c hmem => ?_⟩
  · rw [numberText, h]
    dsimp only
    rw [decimalText, digitText, if_neg (by simp [hpoint]), List.append_assoc, List.append_assoc]
    rfl
  · exact List.append_ne_nil_of_right_ne_nil _ hne
  · rcases List.mem_append.1 hmem with hmem | hmem
    · cases s with
      | negative => rw [List.mem_singleton.1 hmem]; rfl
      | positive => cases hmem
    · exact hchars c hmem

end Layout

end MiniLisp
