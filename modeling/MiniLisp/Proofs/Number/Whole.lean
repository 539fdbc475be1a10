import MiniLisp.Proofs.Number.Text

/-!
# Whole numbers

The texts that are whole numbers are an optional sign and digits (`Numeral.isWhole_of_read`,
`Numeral.read_of_isWhole`). The largest double is `(2 ^ 53 - 1) * 2 ^ 971`; a whole number is
rounded to infinity if and only if it reaches the middle between that and `2 ^ 1024`, where the tie
goes up (`Decimal.isInf_toFloat_iff`).
-/

namespace MiniLisp

open Float.Model Float.Model.UnpackedFloat

/-! ## Infinity -/

theorem isInf_unpack_iff {b : BitVec Format.binary64.numBits} :
    (UnpackedFloat.unpack .binary64 b).isInf = true ↔
      unpackExponent b = -1#_ ∧ unpackMantissa b = 0#_ := by
  unfold UnpackedFloat.unpack
  dsimp only
  split_ifs with hexponent hmantissa
  · exact ⟨fun _ => ⟨hexponent, hmantissa⟩, fun _ => rfl⟩
  · exact ⟨nofun, fun h => absurd h.2 hmantissa⟩
  all_goals exact ⟨nofun, fun h => absurd h.1 hexponent⟩

/-- A double with a mantissa of its own is finite as long as its exponent fits. -/
theorem isInf_unpack_pack_finite (s : Sign) {m : Nat} (e : Int) (hm : 0 < m) :
    (UnpackedFloat.unpack .binary64 (UnpackedFloat.pack .binary64 (.finite s m e hm))).isInf =
      true ↔ 972 ≤ e := by
  rw [isInf_unpack_iff]
  unfold UnpackedFloat.pack
  dsimp only
  obtain ⟨k, hk⟩ : ∃ k, k = (e + Format.binary64.exponentBias + ((52 : Nat) : Int)).toNat :=
    ⟨_, rfl⟩
  have hbias : (Format.binary64.exponentBias : Int) = 1023 := by decide
  rw [← hk]
  rw [hbias] at hk
  have hwidth : 2 ^ Format.binary64.exponentBits = 2048 := by decide
  rw [hwidth]
  split_ifs with hlarge hnormal
  · refine ⟨fun _ => by omega, fun _ => ?_⟩
    exact ⟨unpackExponent_packComponents, unpackMantissa_packComponents⟩
  · refine ⟨fun h => ?_, fun h => by omega⟩
    have hones := h.1
    rw [unpackExponent_packComponents, ← BitVec.toNat_inj, BitVec.toNat_ofNat] at hones
    change k % 2048 = 2047 at hones
    omega
  · refine ⟨fun h => ?_, fun h => by omega⟩
    have hones := h.1
    rw [unpackExponent_packComponents] at hones
    exact absurd hones (by decide)

/-- A sign changes nothing about the size. -/
theorem isInf_neg (x : Float) : (-x).isInf = x.isInf := by
  change (UnpackedFloat.unpack .binary64
    (UnpackedFloat.pack .binary64 x.toModel.unpack.neg)).isInf = x.toModel.unpack.isInf
  cases h : x.toModel.unpack with
  | notANumber => rfl
  | infinity s =>
    exact isInf_unpack_iff.2 ⟨unpackExponent_packComponents, unpackMantissa_packComponents⟩
  | zero s => cases s <;> rfl
  | finite s m e hm =>
    change (UnpackedFloat.unpack .binary64
      (UnpackedFloat.pack .binary64 (.finite (-s) m e hm))).isInf = false
    rw [unpack_pack_of_unpack h]
    rfl

/-! ## Rounding a whole number -/

theorem roundedMantissa_mk (m : Nat) (half rest : Bool) :
    ExtendedMantissa.roundedMantissa ⟨m, half, rest⟩ =
      if half then if rest then m + 1 else m + m % 2 else m := by
  cases half <;> cases rest <;> rfl

theorem roundedMantissa_bounds {a b : Nat} (hb : 0 < b) :
    a / b ≤ (fractionMantissa a b).roundedMantissa ∧
      (fractionMantissa a b).roundedMantissa ≤ a / b + 1 := by
  rw [fractionMantissa_eq hb, roundedMantissa_mk]
  split_ifs <;> omega

/-- An odd quotient is rounded up from the middle on. -/
theorem roundedMantissa_of_odd {a b : Nat} (hb : 0 < b) (hodd : a / b % 2 = 1) :
    (fractionMantissa a b).roundedMantissa = if b ≤ 2 * (a % b) then a / b + 1 else a / b := by
  rw [fractionMantissa_eq hb, roundedMantissa_mk, hodd]
  simp

theorem shiftToTargetExponent_of_lt {m : Nat} {e : Int} (hm : m < 2 ^ 53) (he : -leastPlace ≤ e) :
    shiftToTargetExponent .binary64 m e .exact = (⟨m, false, false⟩, e) := by
  have hlog : m.log2 ≤ 52 := by
    by_cases h0 : m = 0
    · simp [h0]
    · exact Nat.lt_succ_iff.1 ((Nat.log2_lt h0).2 hm)
  have hplace : (lastPlace m e - e).toNat = 0 := by
    rw [lastPlace_eq]
    omega
  unfold shiftToTargetExponent shiftToExponent
  change ((_ : ExtendedMantissa) >>> (lastPlace m e - e).toNat,
    e + ((lastPlace m e - e).toNat : Int)) = _
  rw [hplace]
  simp [HShiftRight.hShiftRight, Nat.repeat, ExtendedMantissa.ofMantissaAndAccuracy]

/-- A mantissa that rounding has filled up moves the exponent. -/
theorem shiftToTargetExponent_two_pow {e : Int} (he : -leastPlace ≤ e) :
    shiftToTargetExponent .binary64 (2 ^ 53) e .exact = (⟨2 ^ 52, false, false⟩, e + 1) := by
  have hplace : (lastPlace (2 ^ 53) e - e).toNat = 1 := by
    rw [lastPlace_eq, Nat.log2_two_pow]
    omega
  unfold shiftToTargetExponent shiftToExponent
  change ((_ : ExtendedMantissa) >>> (lastPlace (2 ^ 53) e - e).toNat,
    e + ((lastPlace (2 ^ 53) e - e).toNat : Int)) = _
  rw [hplace]
  rfl

/-- A mantissa that is rounded to 53 bits keeps its exponent, unless rounding takes another bit. -/
theorem roundWithAccuracy_of_shift {s : Sign} {m : Nat} {e e₁ : Int} {a : Accuracy}
    {em : ExtendedMantissa} (h : shiftToTargetExponent .binary64 m e a = (em, e₁))
    (he : -leastPlace ≤ e₁) (hlow : 0 < em.roundedMantissa) (hhigh : em.roundedMantissa ≤ 2 ^ 53) :
    ∃ (m₁ : Nat) (hm₁ : 0 < m₁), roundWithAccuracy .binary64 s m e a =
      .finite s m₁ (if em.roundedMantissa < 2 ^ 53 then e₁ else e₁ + 1) hm₁ := by
  obtain ⟨m₁, hm₁, hsecond⟩ : ∃ m₁, 0 < m₁ ∧
      shiftToTargetExponent .binary64 em.roundedMantissa e₁ .exact =
        (⟨m₁, false, false⟩, if em.roundedMantissa < 2 ^ 53 then e₁ else e₁ + 1) := by
    by_cases hfits : em.roundedMantissa < 2 ^ 53
    · exact ⟨_, hlow, by rw [if_pos hfits, shiftToTargetExponent_of_lt hfits he]⟩
    · have hfull : em.roundedMantissa = 2 ^ 53 := Nat.le_antisymm hhigh (Nat.not_lt.1 hfits)
      exact ⟨2 ^ 52, by decide, by rw [if_neg hfits, hfull, shiftToTargetExponent_two_pow he]⟩
  refine ⟨m₁, hm₁, ?_⟩
  unfold roundWithAccuracy
  simp only [h, hsecond, Nat.ne_of_gt hm₁, dite_false]

/-- A number shifted to its first 53 bits. -/
theorem leading_bits {c : Nat} (hc : 0 < c) :
    2 ^ 52 ≤ c * 2 ^ 52 / 2 ^ c.log2 ∧ c * 2 ^ 52 / 2 ^ c.log2 < 2 ^ 53 := by
  rw [Nat.le_div_iff_mul_le (Nat.two_pow_pos _), Nat.div_lt_iff_lt_mul (Nat.two_pow_pos _)]
  constructor
  · rw [Nat.mul_comm]
    exact Nat.mul_le_mul_right _ (Nat.log2_self_le (Nat.ne_of_gt hc))
  · have hpow : 2 ^ 53 * 2 ^ c.log2 = 2 ^ (c.log2 + 1) * 2 ^ 52 := by
      rw [← Nat.pow_add, ← Nat.pow_add]
      congr 1
      omega
    rw [hpow]
    exact Nat.mul_lt_mul_of_pos_right Nat.lt_log2_self (Nat.two_pow_pos _)

/-- The exponent of a whole number comes from its first bit. -/
theorem roundFraction_whole {c : Nat} (hc : 0 < c) :
    ∃ (m : Nat) (hm : 0 < m), roundFraction (c * 2 ^ leastPlace) 1 (-leastPlace) =
      .finite .positive m (if (fractionMantissa (c * 2 ^ 52) (2 ^ c.log2)).roundedMantissa < 2 ^ 53
        then (c.log2 : Int) - 52 else (c.log2 : Int) - 52 + 1) hm := by
  obtain ⟨i, hi⟩ : ∃ i, leastPlace = i + 52 := ⟨1022, leastPlace_eq⟩
  have hplace : lastPlace (c * 2 ^ leastPlace / 1) (-leastPlace) = (c.log2 : Int) - 52 := by
    rw [lastPlace_eq, log2_mul_two_pow_div Nat.one_pos hc, Nat.div_one]
    omega
  have hshift : ((c.log2 : Int) - 52 - -leastPlace).toNat = c.log2 + i := by omega
  have hmantissa : fractionMantissa (c * 2 ^ leastPlace) (1 * 2 ^ (c.log2 + i)) =
      fractionMantissa (c * 2 ^ 52) (2 ^ c.log2) := by
    rw [hi, Nat.one_mul, Nat.add_comm i, Nat.pow_add, Nat.pow_add, ← Nat.mul_assoc,
      fractionMantissa_mul (Nat.two_pow_pos i)]
  have hfirst := shiftToTargetExponent_fraction (a := c * 2 ^ leastPlace) Nat.one_pos
    (show -leastPlace ≤ lastPlace (c * 2 ^ leastPlace / 1) (-leastPlace) by rw [hplace]; omega)
  rw [hplace, hshift, hmantissa] at hfirst
  obtain ⟨hlow, hhigh⟩ := leading_bits hc
  have hbounds := roundedMantissa_bounds (a := c * 2 ^ 52) (Nat.two_pow_pos c.log2)
  exact roundWithAccuracy_of_shift hfirst (by omega) (by omega) (by omega)

namespace Decimal

/-- The whole numbers between two powers of two that rounding lifts to the larger one. -/
theorem two_pow_le_roundedMantissa_iff {c u : Nat} (hu : 0 < u) (hc : c < 2 ^ 54 * u) :
    2 ^ 53 ≤ (fractionMantissa c (2 * u)).roundedMantissa ↔ (2 ^ 54 - 1) * u ≤ c := by
  have hb : 0 < 2 * u := by omega
  have hquot : 2 * u * (c / (2 * u)) + c % (2 * u) = c := Nat.div_add_mod c (2 * u)
  have hrest : c % (2 * u) < 2 * u := Nat.mod_lt _ hb
  have hlt : c / (2 * u) < 2 ^ 53 := (Nat.div_lt_iff_lt_mul hb).2 (by omega)
  obtain ⟨q, hq⟩ : ∃ q, q = c / (2 * u) := ⟨_, rfl⟩
  by_cases hlast : q = 2 ^ 53 - 1
  · have hodd : c / (2 * u) % 2 = 1 := by rw [← hq, hlast]; decide
    rw [roundedMantissa_of_odd hb hodd, ← hq, hlast]
    rw [← hq, hlast] at hquot
    split <;> omega
  · have hround := (roundedMantissa_bounds (a := c) hb).2
    have hstep : 2 * u * (q + 1) ≤ 2 * u * (2 ^ 53 - 1) := Nat.mul_le_mul_left _ (by omega)
    rw [← hq] at hquot hround hlt
    constructor
    · omega
    · intro h
      rw [Nat.mul_add] at hstep
      omega

theorem isInf_toFloat_iff (c : Nat) :
    (toFloat ⟨c, 0⟩).isInf = true ↔ (2 ^ 54 - 1) * 2 ^ 970 ≤ c := by
  -- the power stands under a name, so that no step works it out
  obtain ⟨n, hn⟩ : ∃ n, n = 970 := ⟨_, rfl⟩
  obtain ⟨u, hu⟩ : ∃ u, u = 2 ^ n := ⟨_, rfl⟩
  have hpos : 0 < u := hu ▸ Nat.two_pow_pos n
  have htop (k : Nat) : 2 ^ (k + n) = 2 ^ k * u := by rw [hu, Nat.pow_add]
  rw [← hn, ← hu]
  rcases Nat.eq_zero_or_pos c with rfl | hc
  · have hzero : (toFloat ⟨0, 0⟩).isInf = false := by decide
    rw [hzero]
    exact ⟨nofun, fun h => by omega⟩
  · obtain ⟨m, hm, hround⟩ := roundFraction_whole hc
    have hfloat : toFloat ⟨c, 0⟩ = .ofModel (.pack (roundFraction (c * 2 ^ leastPlace) 1
        (-leastPlace))) := by
      rw [toFloat_eq (d := ⟨c, 0⟩) hc (show (0 : Int) ≤ 2048 by decide) (by dsimp only; omega)]
      simp
    rw [hfloat, hround]
    change (UnpackedFloat.unpack .binary64 (UnpackedFloat.pack .binary64 _)).isInf = true ↔ _
    rw [isInf_unpack_pack_finite]
    have hlow : 2 ^ c.log2 ≤ c := Nat.log2_self_le (Nat.ne_of_gt hc)
    have hhigh : c < 2 ^ (c.log2 + 1) := Nat.lt_log2_self
    rcases Nat.lt_trichotomy c.log2 (53 + n) with hlog | hlog | hlog
    · have hsmall : c < 2 ^ (53 + n) :=
        Nat.lt_of_lt_of_le hhigh (Nat.pow_le_pow_right (by decide) (by omega))
      rw [htop] at hsmall
      constructor
      · intro h
        split at h <;> omega
      · omega
    · -- the numbers of as many bits as the largest double
      have hmantissa : fractionMantissa (c * 2 ^ 52) (2 ^ c.log2) = fractionMantissa c (2 * u) := by
        have hdenominator : 2 ^ c.log2 = 2 * u * 2 ^ 52 := by
          rw [hlog, htop]
          omega
        rw [hdenominator, fractionMantissa_mul (Nat.two_pow_pos 52)]
      rw [show c.log2 + 1 = 54 + n by omega, htop] at hhigh
      rw [hmantissa, ← two_pow_le_roundedMantissa_iff hpos hhigh]
      split <;> omega
    · have hlarge : 2 ^ (54 + n) ≤ c :=
        Nat.le_trans (Nat.pow_le_pow_right (by decide) (by omega)) hlow
      rw [htop] at hlarge
      constructor
      · omega
      · intro _
        split <;> omega

end Decimal

/-! ## Texts -/

namespace Numeral

/-- A text is a run of digits, with a sign before it or none. -/
structure IsWhole (cs digits : List Char) : Prop where
  signed : ∃ sign ∈ [[], ['+'], ['-']], cs = sign ++ digits
  ne_nil : digits ≠ []
  isDigit : ∀ c ∈ digits, c.isDigit = true

theorem exists_sign_of_splitSign {cs rest : List Char} {negative : Bool}
    (h : splitSign true cs = (negative, rest)) :
    ∃ sign ∈ [[], ['+'], ['-']], cs = sign ++ rest := by
  unfold splitSign at h
  split at h
  · obtain ⟨-, rfl⟩ := Prod.mk.inj h
    exact ⟨['-'], by simp, rfl⟩
  · obtain ⟨-, rfl⟩ := Prod.mk.inj h
    exact ⟨['+'], by simp, rfl⟩
  · obtain ⟨-, rfl⟩ := Prod.mk.inj h
    exact ⟨[], by simp, rfl⟩

theorem splitFraction_false_eq_some {cs rest fraction : List Char}
    (h : splitFraction false cs = some (fraction, rest)) : fraction = [] ∧ rest = cs := by
  unfold splitFraction at h
  split at h
  · simp at h
  · obtain ⟨rfl, rfl⟩ := Prod.mk.inj (Option.some.inj h)
    exact ⟨rfl, rfl⟩

/-- What is read as a whole number is one, with all its digits. -/
theorem isWhole_of_read {cs : List Char} {n : Numeral} (h : read .whole cs = some n) :
    IsWhole cs n.whole ∧ n.fraction = [] ∧ n.exponent = 0 := by
  unfold read at h
  cases hsign : splitSign Form.whole.plus cs with
  | mk negative unsigned =>
    rw [hsign] at h
    dsimp only at h
    split at h
    · cases h
    · rename_i hne
      obtain ⟨⟨fraction, rest⟩, hfraction, h⟩ := Option.bind_eq_some_iff.1 h
      obtain ⟨exponent, hexponent, h⟩ := Option.bind_eq_some_iff.1 h
      obtain ⟨rfl, rfl⟩ := splitFraction_false_eq_some hfraction
      have hrest : unsigned.dropWhile Char.isDigit = [] := eq_nil_of_readExponent hexponent
      simp only [hrest] at hexponent
      cases hexponent
      cases h
      have hall : unsigned.takeWhile Char.isDigit = unsigned := by
        have happend := List.takeWhile_append_dropWhile (p := Char.isDigit) (l := unsigned)
        rwa [hrest, List.append_nil] at happend
      refine ⟨⟨?_, by simpa using hne, fun c hc => List.mem_takeWhile_imp hc⟩, rfl, rfl⟩
      rw [hall]
      exact exists_sign_of_splitSign hsign

theorem splitSign_of_isWhole {cs digits : List Char} (h : IsWhole cs digits) :
    ∃ negative, splitSign true cs = (negative, digits) := by
  obtain ⟨⟨sign, hsign, rfl⟩, hne, hdigit⟩ := h
  simp only [List.mem_cons, List.not_mem_nil, or_false] at hsign
  rcases hsign with rfl | rfl | rfl
  · obtain ⟨c, rest, rfl⟩ := List.exists_cons_of_ne_nil hne
    have hc := hdigit c List.mem_cons_self
    refine ⟨false, ?_⟩
    unfold splitSign
    split
    · rename_i heq
      obtain ⟨rfl, -⟩ := List.cons.inj heq
      cases hc
    · rename_i heq
      obtain ⟨rfl, -⟩ := List.cons.inj heq
      cases hc
    · rfl
  · exact ⟨false, rfl⟩
  · exact ⟨true, rfl⟩

/-- Every whole number is read. -/
theorem read_of_isWhole {cs digits : List Char} (h : IsWhole cs digits) :
    ∃ negative, read .whole cs = some ⟨negative, digits, [], 0⟩ := by
  obtain ⟨negative, hsign⟩ := splitSign_of_isWhole h
  obtain ⟨htake, hdrop⟩ := takeWhile_dropWhile_append h.isDigit List.takeWhile_nil
  rw [List.append_nil] at htake hdrop
  refine ⟨negative, ?_⟩
  unfold read
  rw [show Form.whole.plus = true from rfl, hsign]
  dsimp only
  rw [htake, hdrop, if_neg (by simpa using h.ne_nil)]
  rfl

theorem isInf_toFloat_iff {n : Numeral} (hfraction : n.fraction = []) (hexponent : n.exponent = 0) :
    n.toFloat.isInf = true ↔ (2 ^ 54 - 1) * 2 ^ 970 ≤ Nat.ofDigitChars 10 n.whole 0 := by
  have hdecimal : n.decimal = ⟨Nat.ofDigitChars 10 n.whole 0, 0⟩ := by
    simp [decimal, hfraction, hexponent]
  have hsign : n.toFloat.isInf = n.decimal.toFloat.isInf := by
    unfold toFloat
    split
    · exact isInf_neg _
    · rfl
  rw [hsign, hdecimal]
  exact Decimal.isInf_toFloat_iff _

end Numeral

end MiniLisp
