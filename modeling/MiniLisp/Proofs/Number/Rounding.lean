import Mathlib
import MiniLisp.Number.Shortest

/-!
# Rounding to the nearest double

A decimal becomes a double through a quotient of natural numbers that is cut off, with a round bit
and a sticky bit for what was cut, and then rounded. `roundFraction` is that path for any quotient
`a / b` in units of `2 ^ e`. It does not depend on how the quotient is written: common factors
(`roundFraction_congr`) and powers of two moved into the unit (`roundFraction_shift`) leave it
alone. So decimals of one value have one nearest double (`Decimal.toFloat_congr`), and the exact
expansion of a double is read back as that double (`Decimal.toFloat_exact`).
-/

namespace MiniLisp

open Float.Model Float.Model.UnpackedFloat

/-! ## Fractions of an ulp -/

/-- The quotient `a / b` as a mantissa with its round bit and its sticky bit. -/
def fractionMantissa (a b : Nat) : ExtendedMantissa :=
  .ofMantissaAndAccuracy (a / b) (accuracyOfFraction (a % b) b)

theorem fractionMantissa_eq {a b : Nat} (hb : 0 < b) :
    fractionMantissa a b = ⟨a / b, decide (b ≤ 2 * (a % b)), decide (2 * (a % b) % b ≠ 0)⟩ := by
  have hr : a % b < b := Nat.mod_lt _ hb
  unfold fractionMantissa accuracyOfFraction
  by_cases h0 : a % b = 0
  · simp [h0, ExtendedMantissa.ofMantissaAndAccuracy, Nat.ne_of_gt hb]
  have h2 : 2 * (a % b) ≠ 0 := by omega
  rw [if_neg h0]
  rcases Nat.lt_trichotomy (2 * (a % b)) b with h | h | h
  · rw [Nat.compare_eq_lt.2 h]
    simp [ExtendedMantissa.ofMantissaAndAccuracy, Nat.mod_eq_of_lt h, h, h2]
  · rw [Nat.compare_eq_eq.2 h]
    simp [ExtendedMantissa.ofMantissaAndAccuracy, h]
  · rw [Nat.compare_eq_gt.2 h]
    have hmod : 2 * (a % b) % b = 2 * (a % b) - b := by
      rw [Nat.mod_eq_sub_mod (Nat.le_of_lt h), Nat.mod_eq_of_lt (by omega)]
    simp [ExtendedMantissa.ofMantissaAndAccuracy, hmod, Nat.le_of_lt h]
    omega

theorem accuracyOfFraction_mul {r b k : Nat} (hk : 0 < k) :
    accuracyOfFraction (r * k) (b * k) = accuracyOfFraction r b := by
  have hcompare : compare (2 * (r * k)) (b * k) = compare (2 * r) b := by
    rw [← Nat.mul_assoc]
    simp only [Nat.compare_eq_ite_lt, Nat.mul_lt_mul_right hk]
  simp only [accuracyOfFraction, hcompare, Nat.mul_eq_zero, Nat.ne_of_gt hk, or_false]

theorem fractionMantissa_mul {a b k : Nat} (hk : 0 < k) :
    fractionMantissa (a * k) (b * k) = fractionMantissa a b := by
  unfold fractionMantissa
  rw [Nat.mul_div_mul_right _ _ hk, Nat.mul_mod_mul_right, accuracyOfFraction_mul hk]

/-- Dropping a bit of the quotient doubles the denominator. -/
theorem shiftRightOne_fractionMantissa {a b : Nat} (hb : 0 < b) :
    (fractionMantissa a b).shiftRightOne = fractionMantissa a (b * 2) := by
  have hr : a % b < b := Nat.mod_lt _ hb
  have hmod : a % (b * 2) = a % b + b * (a / b % 2) := Nat.mod_mul
  rw [fractionMantissa_eq hb, fractionMantissa_eq (Nat.mul_pos hb (by decide))]
  have hsticky : 2 * (a % (b * 2)) % (b * 2) = 2 * (a % b) := by
    rw [Nat.mul_comm b 2, Nat.mul_mod_mul_left, Nat.mul_comm 2 b, hmod,
      Nat.add_mul_mod_self_left, Nat.mod_eq_of_lt hr]
  rw [hsticky, hmod]
  simp only [ExtendedMantissa.shiftRightOne, ExtendedMantissa.mk.injEq]
  refine ⟨Nat.div_div_eq_div_mul a b 2, ?_, ?_⟩
  · rcases Nat.mod_two_eq_zero_or_one (a / b) with h | h <;> simp [h] <;> omega
  · by_cases h0 : a % b = 0
    · simp [h0, Nat.ne_of_gt hb]
    · have h2 : 2 * (a % b) ≠ 0 := by omega
      by_cases hle : b ≤ 2 * (a % b)
      · simp [hle, h2]
      · simp [Nat.mod_eq_of_lt (Nat.not_le.1 hle), h2]

theorem shiftRight_fractionMantissa {a b : Nat} (hb : 0 < b) (n : Nat) :
    fractionMantissa a b >>> n = fractionMantissa a (b * 2 ^ n) := by
  induction n with
  | zero => simp [HShiftRight.hShiftRight, Nat.repeat]
  | succ n ih =>
    change (fractionMantissa a b >>> n).shiftRightOne = _
    rw [ih, shiftRightOne_fractionMantissa (Nat.mul_pos hb (Nat.two_pow_pos n)), Nat.mul_assoc,
      ← Nat.pow_succ]

/-! ## Rounding a quotient -/

/-- The double nearest to `a / b` units of `2 ^ e`, where at least one unit is there. -/
def roundFraction (a b : Nat) (e : Int) : UnpackedFloat :=
  roundWithAccuracy .binary64 .positive (a / b) e (accuracyOfFraction (a % b) b)

theorem roundFraction_mul {a b k : Nat} (e : Int) (hk : 0 < k) :
    roundFraction (a * k) (b * k) e = roundFraction a b e := by
  unfold roundFraction
  rw [Nat.mul_div_mul_right _ _ hk, Nat.mul_mod_mul_right, accuracyOfFraction_mul hk]

/-- Quotients of one value are rounded alike. -/
theorem roundFraction_congr {a b a' b' : Nat} (e : Int) (hb : 0 < b) (hb' : 0 < b')
    (h : a * b' = a' * b) : roundFraction a b e = roundFraction a' b' e := by
  rw [← roundFraction_mul e hb', ← roundFraction_mul (a := a') e hb, h, Nat.mul_comm b b']

/-- Where a number of the given size has its last place. -/
abbrev lastPlace (m : Nat) (e : Int) : Int := Format.binary64.targetExponent (totalExponent m e)

/-- How many places behind the point the least double has. -/
@[irreducible] def leastPlace : Nat := 1074

theorem leastPlace_eq : leastPlace = 1074 := by
  unfold leastPlace
  rfl

theorem lastPlace_eq (m : Nat) (e : Int) :
    lastPlace m e = max (m.log2 + 1 + e - 53) (-leastPlace) := by
  rw [leastPlace_eq]
  rfl

theorem shiftToTargetExponent_fraction {a b : Nat} {e : Int} (hb : 0 < b)
    (he : e ≤ lastPlace (a / b) e) :
    shiftToTargetExponent .binary64 (a / b) e (accuracyOfFraction (a % b) b) =
      (fractionMantissa a (b * 2 ^ (lastPlace (a / b) e - e).toNat), lastPlace (a / b) e) := by
  unfold shiftToTargetExponent shiftToExponent
  refine Prod.ext (shiftRight_fractionMantissa hb _) ?_
  change e + ((lastPlace (a / b) e - e).toNat : Int) = lastPlace (a / b) e
  omega

theorem log2_mul_two_pow_div {a b : Nat} (hb : 0 < b) (hab : b ≤ a) (i : Nat) :
    (a * 2 ^ i / b).log2 = (a / b).log2 + i := by
  have hq : a / b ≠ 0 := Nat.ne_of_gt (Nat.div_pos hab hb)
  have hle : b ≤ a * 2 ^ i := Nat.le_trans hab (Nat.le_mul_of_pos_right a (Nat.two_pow_pos i))
  have hlow : 2 ^ (a / b).log2 * b ≤ a := (Nat.le_div_iff_mul_le hb).1 (Nat.log2_self_le hq)
  have hhigh : a < 2 ^ ((a / b).log2 + 1) * b := (Nat.div_lt_iff_lt_mul hb).1 Nat.lt_log2_self
  rw [Nat.log2_eq_iff (Nat.ne_of_gt (Nat.div_pos hle hb)), Nat.le_div_iff_mul_le hb,
    Nat.div_lt_iff_lt_mul hb]
  constructor
  · rw [Nat.pow_add, Nat.mul_right_comm]
    exact Nat.mul_le_mul_right _ hlow
  · rw [Nat.add_right_comm, Nat.pow_add _ _ i, Nat.mul_right_comm]
    exact Nat.mul_lt_mul_of_pos_right hhigh (Nat.two_pow_pos i)

/-- A power of two in the quotient is the same as in the unit, as long as the unit stays below the
last place. -/
theorem roundFraction_shift {a b i : Nat} {e : Int} (hb : 0 < b) (hab : b ≤ a)
    (he : e + i ≤ lastPlace (a / b) (e + i)) :
    roundFraction (a * 2 ^ i) b e = roundFraction a b (e + i) := by
  have hplace : lastPlace (a * 2 ^ i / b) e = lastPlace (a / b) (e + i) := by
    simp only [lastPlace_eq, log2_mul_two_pow_div hb hab]
    congr 1
    omega
  have hmantissa : fractionMantissa (a * 2 ^ i) (b * 2 ^ (lastPlace (a / b) (e + i) - e).toNat) =
      fractionMantissa a (b * 2 ^ (lastPlace (a / b) (e + i) - (e + i)).toNat) := by
    have hsum : (lastPlace (a / b) (e + i) - e).toNat =
        (lastPlace (a / b) (e + i) - (e + i)).toNat + i := by omega
    rw [hsum, Nat.pow_add, ← Nat.mul_assoc, fractionMantissa_mul (Nat.two_pow_pos i)]
  unfold roundFraction roundWithAccuracy
  rw [shiftToTargetExponent_fraction hb he, shiftToTargetExponent_fraction hb (by omega), hplace,
    hmantissa]

/-- A number whose last place is its own is rounded to itself. -/
theorem roundFraction_one {m : Nat} {e : Int} (hm : 0 < m) (he : lastPlace m e = e) :
    roundFraction m 1 e = .finite .positive m e hm := by
  have hshift : shiftToTargetExponent .binary64 m e .exact = (⟨m, false, false⟩, e) := by
    unfold shiftToTargetExponent shiftToExponent
    change ((_ : ExtendedMantissa) >>> (lastPlace m e - e).toNat,
      e + ((lastPlace m e - e).toNat : Int)) = _
    rw [he, Int.sub_self]
    simp [HShiftRight.hShiftRight, Nat.repeat, ExtendedMantissa.ofMantissaAndAccuracy]
  unfold roundFraction
  rw [Nat.div_one, Nat.mod_one]
  change roundWithAccuracy .binary64 .positive m e .exact = _
  unfold roundWithAccuracy
  simp only [hshift, ExtendedMantissa.roundedMantissa, ExtendedMantissa.accuracy,
    Accuracy.roundToNearestEven, Nat.ne_of_gt hm, dite_false]

/-! ## Decimals -/

theorem mul_eq_roundFraction {c k : Nat} (hc : 0 < c) (hc' : 0 < c <<< 53) (hk : 0 < 10 ^ k) :
    UnpackedFloat.mul .binary64 (.finite .positive (c <<< 53) (-53) hc')
      (.finite .positive (10 ^ k) 0 hk) =
        roundFraction (c * 10 ^ k * 2 ^ leastPlace) 1 (-leastPlace) := by
  have hle : 2 ^ 53 ≤ c * 10 ^ k * 2 ^ 53 := Nat.le_mul_of_pos_left _ (Nat.mul_pos hc hk)
  have hpos : 0 < c * 10 ^ k * 2 ^ 53 := Nat.lt_of_lt_of_le (Nat.two_pow_pos 53) hle
  have hproduct : c <<< 53 * 10 ^ k = c * 10 ^ k * 2 ^ 53 := by
    rw [Nat.shiftLeft_eq, Nat.mul_right_comm]
  have hexact : UnpackedFloat.mul .binary64 (.finite .positive (c <<< 53) (-53) hc')
      (.finite .positive (10 ^ k) 0 hk) = roundFraction (c * 10 ^ k * 2 ^ 53) 1 (-53) := by
    unfold UnpackedFloat.mul roundFraction
    dsimp only
    rw [hproduct, Nat.div_one, Nat.mod_one]
    rfl
  obtain ⟨i, hi⟩ : ∃ i, leastPlace = 53 + i := ⟨1021, leastPlace_eq⟩
  have hunit : (-53 : Int) = -leastPlace + i := by omega
  have hplace : -leastPlace + i ≤ lastPlace (c * 10 ^ k * 2 ^ 53 / 1) (-leastPlace + i) := by
    have hlog : 53 ≤ (c * 10 ^ k * 2 ^ 53).log2 := (Nat.le_log2 (Nat.ne_of_gt hpos)).2 hle
    rw [lastPlace_eq, Nat.div_one]
    omega
  rw [hexact, hunit, ← roundFraction_shift Nat.one_pos hpos hplace, Nat.mul_assoc _ (2 ^ 53),
    ← Nat.pow_add, ← hi]

theorem div_eq_roundFraction {c b : Nat} (hc : 0 < c) (hb : 0 < b) :
    UnpackedFloat.div .binary64 (.finite .positive c 0 hc) (.finite .positive b 0 hb) =
      roundFraction (c * 2 ^ leastPlace) b (-leastPlace) := by
  -- the unit of the quotient: far enough down for 53 bits, and not below the least double
  obtain ⟨e, he⟩ : ∃ e : Int, e = min 0 (max ((c.log2 : Int) - b.log2 - 53) (-leastPlace)) :=
    ⟨_, rfl⟩
  have hdiv : UnpackedFloat.div .binary64 (.finite .positive c 0 hc) (.finite .positive b 0 hb) =
      roundFraction (c * 2 ^ (-e).toNat) b e := by
    have hunit : min 0 (Format.binary64.targetExponent
        (totalExponent c 0 - totalExponent b 0)) = e := by
      rw [he, leastPlace_eq]
      change min 0 (max (((c.log2 : Int) + 1 + 0) - ((b.log2 : Int) + 1 + 0) - 53) (-1074)) = _
      congr 2
      omega
    unfold UnpackedFloat.div divCore roundFraction
    simp only [Int.sub_zero, Int.zero_sub, hunit, Nat.shiftLeft_eq]
    rfl
  rcases Int.lt_or_le (-leastPlace) e with hlt | hle
  · have hbits : 2 ^ 52 * b ≤ c * 2 ^ (-e).toNat :=
      calc 2 ^ 52 * b ≤ 2 ^ 52 * 2 ^ (b.log2 + 1) :=
            Nat.mul_le_mul_left _ (Nat.le_of_lt Nat.lt_log2_self)
        _ = 2 ^ (52 + (b.log2 + 1)) := (Nat.pow_add _ _ _).symm
        _ ≤ 2 ^ (c.log2 + (-e).toNat) := Nat.pow_le_pow_right (by decide) (by omega)
        _ = 2 ^ c.log2 * 2 ^ (-e).toNat := Nat.pow_add _ _ _
        _ ≤ c * 2 ^ (-e).toNat := Nat.mul_le_mul_right _ (Nat.log2_self_le (Nat.ne_of_gt hc))
    have hone : b ≤ c * 2 ^ (-e).toNat :=
      Nat.le_trans (Nat.le_mul_of_pos_left _ (Nat.two_pow_pos 52)) hbits
    have hplace : e ≤ lastPlace (c * 2 ^ (-e).toNat / b) e := by
      have hq : c * 2 ^ (-e).toNat / b ≠ 0 := Nat.ne_of_gt (Nat.div_pos hone hb)
      have hlog := (Nat.le_log2 hq).2 ((Nat.le_div_iff_mul_le hb).2 hbits)
      rw [lastPlace_eq]
      omega
    obtain ⟨i, hi⟩ : ∃ i : Nat, e = -leastPlace + i := ⟨(e + leastPlace).toNat, by omega⟩
    have hexponent : (-e).toNat + i = leastPlace := by omega
    rw [hi] at hplace
    rw [hdiv, hi, ← roundFraction_shift hb (hi ▸ hone) hplace, ← hi, Nat.mul_assoc, ← Nat.pow_add,
      hexponent]
  · obtain rfl : e = -leastPlace := by omega
    rw [hdiv, Int.neg_neg, Int.toNat_natCast]

/-- A decimal is rounded as a quotient in units of the least double, unless its power of ten is so
large or so small that it is not looked at. -/
theorem ofScientific_eq {c : Nat} {e : Int} (hc : 0 < c) (he : e ≤ 2048)
    (hguard : -(2048 + (c.log2 : Int)) ≤ e) :
    UnpackedFloat.ofScientific .binary64 c e =
      roundFraction (c * 10 ^ e.toNat * 2 ^ leastPlace) (10 ^ (-e).toNat) (-leastPlace) := by
  unfold UnpackedFloat.ofScientific
  rw [dif_neg (Nat.ne_of_gt hc), if_neg (by simpa using he), if_neg (by simpa using hguard)]
  by_cases h0 : 0 ≤ e
  · have hneg : (-e).toNat = 0 := by omega
    rw [if_pos h0, hneg]
    exact mul_eq_roundFraction hc _ _
  · have hpos : e.toNat = 0 := by omega
    rw [if_neg h0, hpos, Nat.pow_zero, Nat.mul_one]
    exact div_eq_roundFraction hc _

/-- The last place of a double that is finite is its own. -/
theorem lastPlace_of_unpack {b : BitVec Format.binary64.numBits} {s : Sign} {m : Nat} {e : Int}
    {hm : 0 < m} (h : UnpackedFloat.unpack .binary64 b = .finite s m e hm) :
    lastPlace m e = e := by
  rw [lastPlace_eq, leastPlace_eq]
  unfold UnpackedFloat.unpack at h
  dsimp only at h
  split at h
  · split at h <;> cases h
  split at h
  · rename_i hzero
    split at h
    · cases h
    · -- a subnormal number: the least unit, and fewer bits than a mantissa has
      cases h
      have hlt : (unpackMantissa b).toNat < 2 ^ 52 := BitVec.isLt _
      have hlog := (Nat.log2_lt (Nat.ne_of_gt hm)).2 hlt
      rw [hzero]
      change max (((unpackMantissa b).toNat.log2 : Int) + 1 + (0 - 1075 + 1) - 53) (-1074) = -1074
      omega
  · rename_i hzero
    cases h
    have hpos : (unpackExponent b).toNat ≠ 0 := fun h0 => hzero (BitVec.eq_of_toNat_eq h0)
    have hlog : (1#1 ++ unpackMantissa b).toNat.log2 = 52 := by
      have hlt : (unpackMantissa b).toNat < 2 ^ 52 := BitVec.isLt _
      have happend : (1#1 ++ unpackMantissa b).toNat = 2 ^ 52 + (unpackMantissa b).toNat := by
        rw [BitVec.toNat_append]
        exact (Nat.two_pow_add_eq_or_of_lt hlt 1).symm
      rw [Nat.log2_eq_iff (Nat.ne_of_gt hm), happend]
      omega
    change max (((1#1 ++ unpackMantissa b).toNat.log2 : Int) + 1 +
      ((unpackExponent b).toNat - 1075) - 53) (-1074) = (unpackExponent b).toNat - 1075
    omega

namespace Decimal

theorem toFloat_eq {d : Decimal} (hc : 0 < d.coefficient) (he : d.exponent ≤ 2048)
    (hguard : -(2048 + (d.coefficient.log2 : Int)) ≤ d.exponent) :
    d.toFloat = .ofModel (.pack (roundFraction (d.coefficient * 10 ^ d.exponent.toNat *
      2 ^ leastPlace) (10 ^ (-d.exponent).toNat) (-leastPlace))) := by
  unfold toFloat Float.Model.ofScientific
  rw [ofScientific_eq hc he hguard]

/-- Each zero behind a number adds more than three bits. -/
theorem le_log2_mul_ten_pow {c : Nat} (hc : 0 < c) (k : Nat) :
    c.log2 + 3 * k ≤ (c * 10 ^ k).log2 := by
  refine (Nat.le_log2 (Nat.mul_ne_zero (Nat.ne_of_gt hc) (by simp))).2 ?_
  calc 2 ^ (c.log2 + 3 * k) = 2 ^ c.log2 * 8 ^ k := by rw [Nat.pow_add, Nat.pow_mul]
    _ ≤ c * 10 ^ k := Nat.mul_le_mul (Nat.log2_self_le (Nat.ne_of_gt hc))
        (Nat.pow_le_pow_left (by decide) k)

/-- Zeros may move between the coefficient and the power of ten. -/
theorem toFloat_mul_ten_pow {c k : Nat} {e : Int} (hc : 0 < c) (he : e + k ≤ 2048)
    (hguard : -(2048 + (c.log2 : Int)) ≤ e + k) :
    toFloat ⟨c * 10 ^ k, e⟩ = toFloat ⟨c, e + k⟩ := by
  have hten : ∀ n : Nat, 0 < 10 ^ n := fun n => Nat.pow_pos (by decide)
  have hsame : c * 10 ^ k * 10 ^ e.toNat * 2 ^ leastPlace * 10 ^ (-(e + k)).toNat =
      c * 10 ^ (e + k).toNat * 2 ^ leastPlace * 10 ^ (-e).toNat := by
    have hexponent : k + e.toNat + (-(e + k)).toNat = (e + k).toNat + (-e).toNat := by omega
    calc _ = c * 2 ^ leastPlace * 10 ^ (k + e.toNat + (-(e + k)).toNat) := by
          simp only [pow_add]; ring
      _ = c * 2 ^ leastPlace * 10 ^ ((e + k).toNat + (-e).toNat) := by rw [hexponent]
      _ = _ := by rw [pow_add]; ring
  have hlog := le_log2_mul_ten_pow hc k
  rw [toFloat_eq (d := ⟨c * 10 ^ k, e⟩) (Nat.mul_pos hc (hten k)) (by dsimp only; omega)
      (by dsimp only; omega),
    toFloat_eq (d := ⟨c, e + k⟩) hc he hguard]
  dsimp only
  rw [roundFraction_congr _ (hten _) (hten _) hsame]

/-- The expansion of a double with all its digits is read back as the double. -/
theorem toFloat_exact {m : Nat} {e : Int} (hm : 0 < m) (he : lastPlace m e = e) :
    (exact m e).toFloat = .ofModel (.pack (.finite .positive m e hm)) := by
  have hleast : -leastPlace ≤ e := by
    rw [← he, lastPlace_eq]
    omega
  obtain ⟨i, hi⟩ : ∃ i : Nat, e = -leastPlace + i := ⟨(e + leastPlace).toNat, by omega⟩
  have hexponent : (min e 0).toNat = 0 ∧ (-min e 0).toNat = (-e).toNat := by omega
  have hsame : m * 2 ^ e.toNat * 5 ^ (-e).toNat * 10 ^ (min e 0).toNat * 2 ^ leastPlace * 1 =
      m * 2 ^ i * 10 ^ (-min e 0).toNat := by
    have hten : 10 ^ (-e).toNat = 2 ^ (-e).toNat * 5 ^ (-e).toNat := Nat.mul_pow 2 5 _
    have htwo : e.toNat + leastPlace = i + (-e).toNat := by omega
    rw [hexponent.1, hexponent.2, hten, Nat.pow_zero]
    calc _ = m * 2 ^ (e.toNat + leastPlace) * 5 ^ (-e).toNat := by rw [pow_add]; ring
      _ = m * 2 ^ (i + (-e).toNat) * 5 ^ (-e).toNat := by rw [htwo]
      _ = _ := by rw [pow_add]; ring
  have hguard : -2048 ≤ min e 0 := by
    have := leastPlace_eq
    omega
  have hc : 0 < m * 2 ^ e.toNat * 5 ^ (-e).toNat :=
    Nat.mul_pos (Nat.mul_pos hm (Nat.two_pow_pos _)) (Nat.pow_pos (by decide))
  rw [toFloat_eq (d := exact m e) hc (by change min e 0 ≤ 2048; omega)
    (by change _ ≤ min e 0; omega)]
  simp only [exact, Nat.pow_eq]
  rw [roundFraction_congr _ (Nat.pow_pos (by decide)) Nat.one_pos hsame,
    roundFraction_shift Nat.one_pos hm (Int.le_of_eq (by rw [Nat.div_one, ← hi, he])), ← hi,
    roundFraction_one hm he]

end Decimal

end MiniLisp
