import MiniLisp.Number.Arithmetic
import MiniLisp.Proofs.Number.Text

/-!
# The double of a count

A count is converted to the double that its digits would be read as, so the way through a whole
number and the way through decimal text end alike (`Decimal.toFloat_whole`). Counts up to `2 ^ 53`
are doubles themselves (`toInt?_ofNat`).
-/

namespace MiniLisp

open Float.Model Float.Model.UnpackedFloat

/-- A count is shifted until it has 53 bits, or more, and rounded then. -/
theorem ofNat_eq_roundFraction {c : Nat} (hc : 0 < c) :
    UnpackedFloat.ofNat .binary64 c =
      roundFraction (c * 2 ^ (52 - c.log2)) 1 (-(52 - c.log2 : Nat)) := by
  obtain ⟨i, hi⟩ : ∃ i, i = 52 - c.log2 := ⟨_, rfl⟩
  have hshift : (0 - lastPlace c 0).toNat = i := by
    rw [lastPlace_eq, leastPlace_eq]
    omega
  have hpositive : compare (c : Int) 0 = .gt := by
    rw [compare_gt_iff_gt]
    omega
  rw [← hi]
  unfold UnpackedFloat.ofNat UnpackedFloat.ofInt UnpackedFloat.normalize
  rw [hpositive]
  show UnpackedFloat.round .binary64 .positive c 0 = _
  unfold UnpackedFloat.round decreaseExponent roundFraction
  show roundWithAccuracy .binary64 .positive (c <<< (0 - lastPlace c 0).toNat)
    (0 - ((0 - lastPlace c 0).toNat : Int)) .exact = _
  rw [hshift, Nat.div_one, Nat.mod_one, Nat.shiftLeft_eq, Int.zero_sub]
  rfl

/-- The double of a count is the one that its digits are read as. -/
theorem Decimal.toFloat_whole (c : Nat) : toFloat ⟨c, 0⟩ = Number.ofNat c := by
  rcases Nat.eq_zero_or_pos c with rfl | hc
  · rfl
  obtain ⟨i, hi⟩ : ∃ i, i = 52 - c.log2 := ⟨_, rfl⟩
  obtain ⟨j, hj⟩ : ∃ j, leastPlace = i + j := ⟨leastPlace - i, by have := leastPlace_eq; omega⟩
  have hexponent : -(leastPlace : Int) + j = -i := by omega
  have hlog : (c * 2 ^ i / 1).log2 = c.log2 + i := by
    rw [log2_mul_two_pow_div Nat.one_pos hc, Nat.div_one]
  have hround : roundFraction (c * 2 ^ leastPlace) 1 (-leastPlace) =
      roundFraction (c * 2 ^ i) 1 (-i) := by
    have hplace : -(leastPlace : Int) + j ≤ lastPlace (c * 2 ^ i / 1) (-leastPlace + j) := by
      rw [hexponent, lastPlace_eq, hlog]
      omega
    have hmul : c * 2 ^ leastPlace = c * 2 ^ i * 2 ^ j := by rw [hj, Nat.pow_add, Nat.mul_assoc]
    rw [hmul, roundFraction_shift Nat.one_pos (Nat.mul_pos hc (Nat.two_pow_pos i)) hplace,
      hexponent]
  rw [toFloat_eq (d := ⟨c, 0⟩) hc (show (0 : Int) ≤ 2048 by decide) (by dsimp only; omega),
    Number.ofNat, Float.Model.ofNat, ofNat_eq_roundFraction hc, ← hi]
  simp [hround]

/-- A mantissa of 53 bits is kept, with an exponent in range. -/
theorem unpack_pack_of_bounds (s : Sign) {m : Nat} {e : Int} (hm : 0 < m) (hlog : m.log2 = 52)
    (hleast : -1074 ≤ e) (hmost : e ≤ 971) :
    UnpackedFloat.unpack .binary64 (UnpackedFloat.pack .binary64 (.finite s m e hm)) =
      .finite s m e hm := by
  obtain ⟨hlow, hhigh⟩ := (Nat.log2_eq_iff (Nat.ne_of_gt hm)).1 hlog
  obtain ⟨k, hk⟩ : ∃ k, k = (e + Format.binary64.exponentBias + ((52 : Nat) : Int)).toNat :=
    ⟨_, rfl⟩
  have hbias : (Format.binary64.exponentBias : Int) = 1023 := by decide
  have hpack : UnpackedFloat.pack .binary64 (.finite s m e hm) =
      packComponents .binary64 s (BitVec.ofNat _ k) (BitVec.ofNat _ m) := by
    unfold UnpackedFloat.pack
    dsimp only
    rw [if_neg, if_pos, hk]
    · rw [hlog]
      rfl
    · rw [← hk]
      show ¬2048 ≤ k + 1
      omega
  have hexponent : (BitVec.ofNat Format.binary64.exponentBits k).toNat = k :=
    Nat.mod_eq_of_lt (show k < 2048 by omega)
  have hones : BitVec.ofNat Format.binary64.exponentBits k ≠ -1#_ := by
    intro h
    have hmax : k = 2047 := by rw [← hexponent, h]; rfl
    omega
  have hzero : BitVec.ofNat Format.binary64.exponentBits k ≠ 0#_ := by
    intro h
    have hnone : k = 0 := by rw [← hexponent, h]; rfl
    omega
  have hmantissa :
      (1#1 ++ BitVec.ofNat Format.binary64.mantissaBitsWithoutImplicit m).toNat = m := by
    have hlt : m % 2 ^ 52 < 2 ^ 52 := Nat.mod_lt _ (by decide)
    have happend : (1#1 ++ BitVec.ofNat 52 m).toNat = 2 ^ 52 * 1 + m % 2 ^ 52 := by
      rw [BitVec.toNat_append, BitVec.toNat_ofNat]
      exact (Nat.two_pow_add_eq_or_of_lt hlt 1).symm
    show (1#1 ++ BitVec.ofNat 52 m).toNat = m
    rw [happend]
    omega
  rw [hpack]
  unfold UnpackedFloat.unpack
  simp only [unpackMantissa_packComponents, unpackExponent_packComponents,
    unpackSign_packComponents, Sign.ofBitVec_toBitVec, if_neg hones, if_neg hzero, hmantissa,
    hexponent]
  congr 1
  show (k : Int) - ((Format.binary64.exponentBias : Int) + (52 : Nat)) = e
  omega

theorem toInt?_of_unpack {x : Float} {n i : Nat} (hm : 0 < n * 2 ^ i)
    (h : x.toModel.unpack = .finite .positive (n * 2 ^ i) (-i) hm) :
    Number.toInt? x = some (n : Int) := by
  unfold Number.toInt?
  rw [h]
  dsimp only
  split
  · rename_i hi
    obtain rfl : i = 0 := by omega
    simp [Sign.apply]
  · have hneg : (-(-(i : Int))).toNat = i := by omega
    rw [hneg, Nat.one_shiftLeft, Nat.shiftRight_eq_div_pow, if_pos (Nat.mul_mod_left _ _),
      Nat.mul_div_cancel _ (Nat.two_pow_pos i)]
    rfl

/-- Counts up to `2 ^ 53` are doubles. -/
theorem toInt?_ofNat {n : Nat} (hn : n ≤ 2 ^ 53) :
    Number.toInt? (Number.ofNat n) = some (n : Int) := by
  rcases Nat.eq_zero_or_pos n with rfl | hpos
  · rfl
  rcases Nat.lt_or_eq_of_le hn with hlt | rfl
  · obtain ⟨i, hi⟩ : ∃ i, i = 52 - n.log2 := ⟨_, rfl⟩
    have hbits : n.log2 < 53 := (Nat.log2_lt (Nat.ne_of_gt hpos)).2 hlt
    have hm : 0 < n * 2 ^ i := Nat.mul_pos hpos (Nat.two_pow_pos i)
    have hlog : (n * 2 ^ i).log2 = 52 := by
      have hshift := log2_mul_two_pow_div Nat.one_pos hpos i
      rw [Nat.div_one, Nat.div_one] at hshift
      omega
    have hplace : lastPlace (n * 2 ^ i) (-i) = -i := by
      rw [lastPlace_eq, hlog, leastPlace_eq]
      omega
    refine toInt?_of_unpack hm ?_
    rw [Number.ofNat, Float.Model.ofNat, ofNat_eq_roundFraction hpos, ← hi,
      roundFraction_one hm hplace]
    exact unpack_pack_of_bounds .positive hm hlog (by omega) (by omega)
  · decide +kernel

end MiniLisp
