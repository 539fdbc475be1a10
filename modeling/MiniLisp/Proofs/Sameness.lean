import MiniLisp.Proofs.Equality
import MiniLisp.Proofs.Number.Text
import MiniLisp.Proofs.Realm
import MiniLisp.Value.Printer

/-!
# Sameness

`Value.same` keeps the kinds of values apart, overlooks the flavors of lists and takes numbers as
numbers. Each value has a representative, in which lists are vectors and zeros have no sign. Two
values agree exactly if neither has a NaN in it, functions apart, and one representative stands for
both (`Value.agree_false_iff`). A comparison says whether two values agree, if it has the frames that
it takes to find out (`Value.sameWithin_eq`). So sameness is an equivalence on the values without NaN
that are not nested too deeply, nothing that a representative keeps can tell two values apart that
are the same, and a function is the same as no other one (`Value.same_laws`).
-/

namespace MiniLisp

open Float.Model Float.Model.UnpackedFloat

/-! ## Numbers -/

namespace Number

/-- The parts of a number, where a zero has no sign. -/
def unsignedParts : UnpackedFloat → UnpackedFloat
  | .zero _ => .zero .positive
  | u => u

/-- A number without the sign of a zero. -/
def unsigned (x : Float) : Float := .ofModel (.pack (unsignedParts x.toModel.unpack))

theorem unsigned_of_ne {x : Float} (h : ∀ s, x.toModel.unpack ≠ .zero s) : unsigned x = x := by
  have hparts : unsignedParts x.toModel.unpack = x.toModel.unpack := by
    unfold unsignedParts
    split
    · rename_i s hs
      exact absurd hs (h s)
    · rfl
  rw [unsigned, hparts, ofModel_pack_unpack]

theorem unpack_unsigned_of_zero {x : Float} {s : Sign} (h : x.toModel.unpack = .zero s) :
    (unsigned x).toModel.unpack = .zero .positive := by
  have hpositive : (Float.Model.pack (.zero .positive)).unpack = .zero .positive := rfl
  rw [unsigned, h]
  exact hpositive

theorem unpack_unsigned (x : Float) :
    (unsigned x).toModel.unpack = unsignedParts x.toModel.unpack := by
  cases h : x.toModel.unpack with
  | zero s => exact unpack_unsigned_of_zero h
  | _ =>
    rw [unsigned_of_ne (by simp [h])]
    exact h

theorem isNaN_unsigned (x : Float) : (unsigned x).isNaN = x.isNaN := by
  show (unsigned x).toModel.unpack.isNaN = x.toModel.unpack.isNaN
  rw [unpack_unsigned]
  cases x.toModel.unpack <;> rfl

theorem unsigned_unsigned (x : Float) : unsigned (unsigned x) = unsigned x := by
  have hparts (u : UnpackedFloat) : unsignedParts (unsignedParts u) = unsignedParts u := by
    cases u <;> rfl
  rw [unsigned, unpack_unsigned, hparts, ← unsigned]

theorem compare_eq_some_eq {u v : UnpackedFloat} :
    u.compare v = some .eq ↔
      u.isNaN = false ∧ v.isNaN = false ∧ unsignedParts u = unsignedParts v := by
  cases u with
  | notANumber => cases v <;> simp [UnpackedFloat.compare, UnpackedFloat.isNaN]
  | infinity s =>
    cases v with
    | infinity t =>
      cases s <;> cases t <;>
        simp [UnpackedFloat.compare, unsignedParts, UnpackedFloat.isNaN] <;> rfl
    | _ => cases s <;> simp [UnpackedFloat.compare, unsignedParts, UnpackedFloat.isNaN]
  | zero s =>
    cases v with
    | infinity t | finite t _ _ _ => cases t <;> simp [UnpackedFloat.compare, unsignedParts]
    | _ => simp [UnpackedFloat.compare, unsignedParts, UnpackedFloat.isNaN]
  | finite s m e hm =>
    cases v with
    | finite t m' e' hm' =>
      cases s <;> cases t <;>
        simp [UnpackedFloat.compare, unsignedParts, UnpackedFloat.isNaN, and_comm]
    | infinity t => cases t <;> simp [UnpackedFloat.compare, unsignedParts]
    | _ => cases s <;> simp [UnpackedFloat.compare, unsignedParts, UnpackedFloat.isNaN]

/-- Doubles are equal if both are numbers and they differ at most in the sign of a zero. -/
theorem beq_iff {x y : Float} :
    (x == y) = true ↔ x.isNaN = false ∧ y.isNaN = false ∧ unsigned x = unsigned y := by
  have hparts : unsigned x = unsigned y ↔
      unsignedParts x.toModel.unpack = unsignedParts y.toModel.unpack := by
    constructor
    · intro h
      rw [← unpack_unsigned, h, unpack_unsigned]
    · intro h
      rw [unsigned, unsigned, h]
  rw [hparts]
  show (x.toModel.unpack.compare y.toModel.unpack == some .eq) = true ↔ _
  rw [beq_iff_eq]
  exact compare_eq_some_eq

/-- The canonical text shows no sign of a zero. -/
theorem numberText_unsigned (x : Float) :
    Layout.canonical.numberText (unsigned x) = Layout.canonical.numberText x := by
  by_cases hzero : ∃ s, x.toModel.unpack = .zero s
  · obtain ⟨s, hs⟩ := hzero
    unfold Layout.numberText
    rw [unpack_unsigned_of_zero hs, hs]
    rfl
  · rw [unsigned_of_ne (not_exists.1 hzero)]

end Number

/-! ## Representatives -/

namespace Atom

/-- Whether an atom is NaN. -/
def hasNaN : Atom → Bool
  | number x => x.isNaN
  | _ => false

/-- The atom that stands for all that are the same. -/
def representative : Atom → Atom
  | number x => .number (Number.unsigned x)
  | a => a

theorem agree_false_iff {a b : Atom} :
    a.agree false b = true ↔
      a.hasNaN = false ∧ b.hasNaN = false ∧ a.representative = b.representative := by
  cases a <;> cases b <;> simp [agree, hasNaN, representative, Number.beq_iff]

theorem agree_representative (a b : Atom) : a.representative.agree false b = a.agree false b := by
  cases a with
  | number x =>
    cases b with
    | number y =>
      show (Number.unsigned x == y) = (x == y)
      rw [Bool.eq_iff_iff, Number.beq_iff, Number.beq_iff, Number.isNaN_unsigned,
        Number.unsigned_unsigned]
    | _ => rfl
  | _ => rfl

theorem chars_representative (a : Atom) : a.representative.chars = a.chars := by
  cases a with
  | number x => exact Number.numberText_unsigned x
  | _ => rfl

end Atom

namespace Value

mutual

/-- Whether a value has a NaN in it, functions apart. -/
def hasNaN : Value → Bool
  | .atom a => a.hasNaN
  | .list _ items => anyNaN items
  | .braces entries => anyNaN entries
  | .dictionary pairs => anyPairNaN pairs
  | _ => false

/-- Whether one of several values has a NaN in it. -/
def anyNaN : List Value → Bool
  | [] => false
  | v :: rest => hasNaN v || anyNaN rest

/-- Whether one of the values of a dictionary has a NaN in it. -/
def anyPairNaN : List (String × Value) → Bool
  | [] => false
  | (_, v) :: rest => hasNaN v || anyPairNaN rest

end

mutual

/-- The value that stands for all that are the same: lists are vectors and zeros have no sign,
functions apart. -/
def representative : Value → Value
  | .atom a => .atom a.representative
  | .list _ items => .list .vector (representatives items)
  | .braces entries => .braces (representatives entries)
  | .dictionary pairs => .dictionary (pairRepresentatives pairs)
  | v => v

/-- The values that stand for several values. -/
def representatives : List Value → List Value
  | [] => []
  | v :: rest => representative v :: representatives rest

/-- The pairs that stand for those of a dictionary. -/
def pairRepresentatives : List (String × Value) → List (String × Value)
  | [] => []
  | (key, v) :: rest => (key, representative v) :: pairRepresentatives rest

end

mutual

theorem agree_false_iff : (v w : Value) → (v.agree false w = true ↔
    v.hasNaN = false ∧ w.hasNaN = false ∧ v.representative = w.representative)
  | .atom a, w => by
    cases w <;> simp [agree, hasNaN, representative, Atom.agree_false_iff]
  | .symbol m, w => by
    cases w <;> simp [agree, hasNaN, representative]
  | .list f xs, w => by
    cases w with
    | list g ys => simp [agree, hasNaN, representative, agreeItems_false_iff xs ys]
    | _ => simp [agree, representative]
  | .braces xs, w => by
    cases w with
    | braces ys => simp [agree, hasNaN, representative, agreeItems_false_iff xs ys]
    | _ => simp [agree, representative]
  | .dictionary ps, w => by
    cases w with
    | dictionary qs => simp [agree, hasNaN, representative, agreePairs_false_iff ps qs]
    | _ => simp [agree, representative]
  | .native f h, w => by
    cases w <;> simp [agree, hasNaN, representative]
  | .closure ps b s i, w => by
    -- functions are compared exactly, whatever is in them
    cases w with
    | closure qs c t j =>
      simp [agree, hasNaN, representative, agree_true_iff b c, and_assoc, and_comm, and_left_comm]
    | _ => simp [agree, representative]
  | .nothing, w => by
    cases w <;> simp [agree, hasNaN, representative]

theorem agreeItems_false_iff : (vs ws : List Value) → (agreeItems false vs ws = true ↔
    anyNaN vs = false ∧ anyNaN ws = false ∧ representatives vs = representatives ws)
  | [], ws => by
    cases ws <;> simp [agreeItems, anyNaN, representatives]
  | v :: vs, ws => by
    cases ws with
    | nil => simp [agreeItems, representatives]
    | cons w ws =>
      simp only [agreeItems, anyNaN, representatives, Bool.and_eq_true, Bool.or_eq_false_iff,
        List.cons.injEq, agree_false_iff v w, agreeItems_false_iff vs ws]
      tauto

theorem agreePairs_false_iff : (ps qs : List (String × Value)) → (agreePairs false ps qs = true ↔
    anyPairNaN ps = false ∧ anyPairNaN qs = false ∧
      pairRepresentatives ps = pairRepresentatives qs)
  | [], qs => by
    cases qs <;> simp [agreePairs, anyPairNaN, pairRepresentatives]
  | (j, v) :: ps, qs => by
    cases qs with
    | nil => simp [agreePairs, pairRepresentatives]
    | cons q qs =>
      obtain ⟨k, w⟩ := q
      simp only [agreePairs, anyPairNaN, pairRepresentatives, Bool.and_eq_true,
        Bool.or_eq_false_iff, List.cons.injEq, Prod.mk.injEq, beq_iff_eq, agree_false_iff v w,
        agreePairs_false_iff ps qs]
      tauto

end

theorem agree_comm (v w : Value) : v.agree false w = w.agree false v := by
  have hsymm {v w : Value} (h : v.agree false w = true) : w.agree false v = true := by
    obtain ⟨hv, hw, heq⟩ := (agree_false_iff v w).1 h
    exact (agree_false_iff w v).2 ⟨hw, hv, heq.symm⟩
  exact Bool.eq_iff_iff.2 ⟨hsymm, hsymm⟩

mutual

theorem agree_representative : (v w : Value) → v.representative.agree false w = v.agree false w
  | .atom a, w => by
    cases w with
    | atom b => exact a.agree_representative b
    | _ => rfl
  | .list f xs, w => by
    cases w with
    | list g ys => exact agreeItems_representatives xs ys
    | _ => rfl
  | .braces xs, w => by
    cases w with
    | braces ys => exact agreeItems_representatives xs ys
    | _ => rfl
  | .dictionary ps, w => by
    cases w with
    | dictionary qs => exact agreePairs_representatives ps qs
    | _ => rfl
  | .symbol _, _ | .native .., _ | .closure .., _ | .nothing, _ => rfl

theorem agreeItems_representatives : (xs ys : List Value) →
    agreeItems false (representatives xs) ys = agreeItems false xs ys
  | [], _ => rfl
  | x :: xs, ys => by
    cases ys with
    | nil => rfl
    | cons y ys =>
      rw [representatives, agreeItems, agreeItems, agree_representative x y,
        agreeItems_representatives xs ys]

theorem agreePairs_representatives : (ps qs : List (String × Value)) →
    agreePairs false (pairRepresentatives ps) qs = agreePairs false ps qs
  | [], _ => rfl
  | (j, x) :: ps, qs => by
    cases qs with
    | nil => rfl
    | cons q qs =>
      rw [pairRepresentatives, agreePairs, agreePairs, agree_representative x q.2,
        agreePairs_representatives ps qs]

end

theorem representatives_eq_map (vs : List Value) : representatives vs = vs.map representative := by
  induction vs with
  | nil => rfl
  | cons v vs ih => rw [representatives, ih, List.map_cons]

theorem pairRepresentatives_eq_map (ps : List (String × Value)) :
    pairRepresentatives ps = ps.map fun p => (p.1, p.2.representative) := by
  induction ps with
  | nil => rfl
  | cons p ps ih => rw [pairRepresentatives, ih, List.map_cons]

/-! ## Frames -/

mutual

/-- The frames that the comparison of two values takes. -/
def comparisonFrames : Value → Value → Nat
  | .list _ xs, .list _ ys => 6 + if xs.length = ys.length then itemFrames xs ys else 0
  | .braces xs, .braces ys => 6 + if xs.length = ys.length then itemFrames xs ys else 0
  | .dictionary ps, .dictionary qs => 5 + if ps.length = qs.length then pairFrames ps qs else 0
  | _, _ => 1

/-- The frames that a comparison element by element takes. -/
def itemFrames : List Value → List Value → Nat
  | x :: xs, y :: ys => max (comparisonFrames x y) (if agree false x y then itemFrames xs ys else 0)
  | _, _ => 0

/-- The frames that a comparison pair by pair takes. -/
def pairFrames : List (String × Value) → List (String × Value) → Nat
  | (j, x) :: ps, (k, y) :: qs =>
    if j = k then max (comparisonFrames x y) (if agree false x y then pairFrames ps qs else 0)
    else 0
  | _, _ => 0

end

/-- Lists of two lengths do not agree. -/
theorem agreeItems_of_length_ne : {xs ys : List Value} → xs.length ≠ ys.length →
    agreeItems false xs ys = false
  | [], [], h => absurd rfl h
  | [], _ :: _, _ => rfl
  | _ :: _, [], _ => rfl
  | x :: xs, y :: ys, h => by
    rw [agreeItems, agreeItems_of_length_ne (by simpa using h), Bool.and_false]

theorem agreePairs_of_length_ne : {ps qs : List (String × Value)} → ps.length ≠ qs.length →
    agreePairs false ps qs = false
  | [], [], h => absurd rfl h
  | [], _ :: _, _ => rfl
  | _ :: _, [], _ => rfl
  | (j, x) :: ps, (k, y) :: qs, h => by
    rw [agreePairs, agreePairs_of_length_ne (by simpa using h), Bool.and_false]

/-- Two comparisons, the second one only after the answer that there is no difference. -/
theorem afford_bind_answer (c d n : Nat) (a b : Bool) :
    (do if ← afford HostError.recursion c n a then afford HostError.recursion d n b
        else return false) =
      afford HostError.recursion (max c (if a then d else 0)) n (a && b) := by
  rcases Nat.lt_or_ge n c with hlt | hle
  · rw [afford_of_lt hlt, afford_of_lt (Nat.lt_of_lt_of_le hlt (Nat.le_max_left c _))]
    rfl
  · rw [afford_of_le hle]
    cases a
    · exact (afford_of_le (Nat.max_le.2 ⟨hle, Nat.zero_le n⟩)).symm
    · refine Eq.trans ?_ (afford_bind HostError.recursion () c d n b)
      rw [afford_of_le hle]
      rfl

mutual

theorem sameWithin_eq : (v w : Value) → (n : Nat) →
    v.sameWithin w n = afford .recursion (v.comparisonFrames w) n (v.agree false w)
  | .list f xs, w, n => by
    cases w with
    | list g ys =>
      rw [sameWithin, comparisonFrames, ← spend_afford]
      by_cases hlen : xs.length = ys.length
      · simp only [if_pos hlen, sameItems_eq xs ys hlen]
        rfl
      · simp only [if_neg hlen, agree, agreeItems_of_length_ne hlen]
        rfl
    | _ => rfl
  | .braces xs, w, n => by
    cases w with
    | braces ys =>
      rw [sameWithin, comparisonFrames, ← spend_afford]
      by_cases hlen : xs.length = ys.length
      · simp only [if_pos hlen, sameItems_eq xs ys hlen]
        rfl
      · simp only [if_neg hlen, agree, agreeItems_of_length_ne hlen]
        rfl
    | _ => rfl
  | .dictionary ps, w, n => by
    cases w with
    | dictionary qs =>
      rw [sameWithin, comparisonFrames, ← spend_afford]
      by_cases hlen : ps.length = qs.length
      · simp only [if_pos hlen, samePairs_eq ps qs hlen]
        rfl
      · simp only [if_neg hlen, agree, agreePairs_of_length_ne hlen]
        rfl
    | _ => rfl
  | .atom _, w, n | .symbol _, w, n | .native .., w, n | .closure .., w, n | .nothing, w, n => by
    cases w <;> rfl

theorem sameItems_eq : (xs ys : List Value) → xs.length = ys.length → (n : Nat) →
    sameItems xs ys n = afford .recursion (itemFrames xs ys) n (agreeItems false xs ys)
  | [], ys, hlen, n => by
    cases ys with
    | nil => rfl
    | cons y ys => cases hlen
  | x :: xs, ys, hlen, n => by
    cases ys with
    | nil => cases hlen
    | cons y ys =>
      rw [sameItems, sameWithin_eq x y, itemFrames, agreeItems]
      simp only [sameItems_eq xs ys (Nat.succ.inj hlen)]
      exact afford_bind_answer _ _ _ _ _

theorem samePairs_eq : (ps qs : List (String × Value)) → ps.length = qs.length → (n : Nat) →
    samePairs ps qs n = afford .recursion (pairFrames ps qs) n (agreePairs false ps qs)
  | [], qs, hlen, n => by
    cases qs with
    | nil => rfl
    | cons q qs => cases hlen
  | (j, x) :: ps, qs, hlen, n => by
    cases qs with
    | nil => cases hlen
    | cons q qs =>
      obtain ⟨k, y⟩ := q
      rw [samePairs, sameWithin_eq x y, pairFrames, agreePairs]
      simp only [samePairs_eq ps qs (Nat.succ.inj hlen)]
      by_cases hkey : j = k
      · simp only [hkey, beq_self_eq_true, if_true, Bool.true_and]
        exact afford_bind_answer _ _ _ _ _
      · simp only [beq_eq_false_iff_ne.2 hkey, Bool.false_and, if_neg hkey]
        rfl

end

mutual

theorem comparisonFrames_comm : (v w : Value) → v.comparisonFrames w = w.comparisonFrames v
  | .list f xs, w => by
    cases w with
    | list g ys => simp only [comparisonFrames, itemFrames_comm xs ys, eq_comm]
    | _ => rfl
  | .braces xs, w => by
    cases w with
    | braces ys => simp only [comparisonFrames, itemFrames_comm xs ys, eq_comm]
    | _ => rfl
  | .dictionary ps, w => by
    cases w with
    | dictionary qs => simp only [comparisonFrames, pairFrames_comm ps qs, eq_comm]
    | _ => rfl
  | .atom _, w | .symbol _, w | .native .., w | .closure .., w | .nothing, w => by cases w <;> rfl

theorem itemFrames_comm : (xs ys : List Value) → itemFrames xs ys = itemFrames ys xs
  | [], ys => by cases ys <;> rfl
  | x :: xs, ys => by
    cases ys with
    | nil => rfl
    | cons y ys =>
      rw [itemFrames, itemFrames, comparisonFrames_comm x y, agree_comm x y, itemFrames_comm xs ys]

theorem pairFrames_comm : (ps qs : List (String × Value)) → pairFrames ps qs = pairFrames qs ps
  | [], qs => by cases qs <;> rfl
  | (j, x) :: ps, qs => by
    cases qs with
    | nil => rfl
    | cons q qs =>
      rw [pairFrames, pairFrames, comparisonFrames_comm x q.2, agree_comm x q.2,
        pairFrames_comm ps qs]
      simp only [eq_comm]

end

theorem length_representatives (xs : List Value) : (representatives xs).length = xs.length := by
  rw [representatives_eq_map, List.length_map]

theorem length_pairRepresentatives (ps : List (String × Value)) :
    (pairRepresentatives ps).length = ps.length := by
  rw [pairRepresentatives_eq_map, List.length_map]

mutual

theorem comparisonFrames_representative : (v w : Value) →
    v.representative.comparisonFrames w = v.comparisonFrames w
  | .list f xs, w => by
    cases w with
    | list g ys =>
      rw [representative, comparisonFrames, comparisonFrames, length_representatives,
        itemFrames_representatives xs ys]
    | _ => rfl
  | .braces xs, w => by
    cases w with
    | braces ys =>
      rw [representative, comparisonFrames, comparisonFrames, length_representatives,
        itemFrames_representatives xs ys]
    | _ => rfl
  | .dictionary ps, w => by
    cases w with
    | dictionary qs =>
      rw [representative, comparisonFrames, comparisonFrames, length_pairRepresentatives,
        pairFrames_representatives ps qs]
    | _ => rfl
  | .atom _, w | .symbol _, w | .native .., w | .closure .., w | .nothing, w => by cases w <;> rfl

theorem itemFrames_representatives : (xs ys : List Value) →
    itemFrames (representatives xs) ys = itemFrames xs ys
  | [], _ => rfl
  | x :: xs, ys => by
    cases ys with
    | nil => rfl
    | cons y ys =>
      rw [representatives, itemFrames, itemFrames, comparisonFrames_representative x y,
        agree_representative, itemFrames_representatives xs ys]

theorem pairFrames_representatives : (ps qs : List (String × Value)) →
    pairFrames (pairRepresentatives ps) qs = pairFrames ps qs
  | [], _ => rfl
  | (j, x) :: ps, qs => by
    cases qs with
    | nil => rfl
    | cons q qs =>
      rw [pairRepresentatives, pairFrames, pairFrames, comparisonFrames_representative x q.2,
        agree_representative, pairFrames_representatives ps qs]

end

mutual

/-- The frames that the comparison of a value with itself takes, if it finds no difference. -/
def comparisonCost : Value → Nat
  | .list _ items => 6 + comparisonCosts items
  | .braces entries => 6 + comparisonCosts entries
  | .dictionary pairs => 5 + pairComparisonCosts pairs
  | _ => 1

/-- The largest cost of several values. -/
def comparisonCosts : List Value → Nat
  | [] => 0
  | v :: rest => max (comparisonCost v) (comparisonCosts rest)

/-- The largest cost of the values of a dictionary. -/
def pairComparisonCosts : List (String × Value) → Nat
  | [] => 0
  | (_, v) :: rest => max (comparisonCost v) (pairComparisonCosts rest)

end

mutual

/-- No comparison takes more frames than that of a value with itself. -/
theorem comparisonFrames_le : (v w : Value) → v.comparisonFrames w ≤ v.comparisonCost
  | .list f xs, w => by
    cases w with
    | list g ys =>
      have hitems := itemFrames_le xs ys
      rw [comparisonFrames, comparisonCost]
      split <;> omega
    | _ => exact Nat.le_trans (show 1 ≤ 6 by decide) (Nat.le_add_right 6 _)
  | .braces xs, w => by
    cases w with
    | braces ys =>
      have hitems := itemFrames_le xs ys
      rw [comparisonFrames, comparisonCost]
      split <;> omega
    | _ => exact Nat.le_trans (show 1 ≤ 6 by decide) (Nat.le_add_right 6 _)
  | .dictionary ps, w => by
    cases w with
    | dictionary qs =>
      have hpairs := pairFrames_le ps qs
      rw [comparisonFrames, comparisonCost]
      split <;> omega
    | _ => exact Nat.le_trans (show 1 ≤ 5 by decide) (Nat.le_add_right 5 _)
  | .atom _, w | .symbol _, w | .native .., w | .closure .., w | .nothing, w => by
    cases w <;> exact Nat.le_refl 1

theorem itemFrames_le : (xs ys : List Value) → itemFrames xs ys ≤ comparisonCosts xs
  | [], _ => Nat.zero_le _
  | x :: xs, ys => by
    cases ys with
    | nil => exact Nat.zero_le _
    | cons y ys =>
      have hhead := comparisonFrames_le x y
      have htail := itemFrames_le xs ys
      rw [itemFrames, comparisonCosts]
      split <;> omega

theorem pairFrames_le : (ps qs : List (String × Value)) → pairFrames ps qs ≤ pairComparisonCosts ps
  | [], _ => Nat.zero_le _
  | (j, x) :: ps, qs => by
    cases qs with
    | nil => exact Nat.zero_le _
    | cons q qs =>
      have hhead := comparisonFrames_le x q.2
      have htail := pairFrames_le ps qs
      rw [pairFrames, pairComparisonCosts]
      split
      · split <;> omega
      · exact Nat.zero_le _

end

theorem agree_self_iff {v : Value} : v.agree false v = true ↔ v.hasNaN = false := by
  simp [agree_false_iff]

mutual

/-- Without a NaN the comparison of a value with itself goes to all places. -/
theorem comparisonFrames_self : (v : Value) → v.hasNaN = false →
    v.comparisonFrames v = v.comparisonCost
  | .list f xs, h => by
    rw [comparisonFrames, comparisonCost, if_pos rfl, itemFrames_self xs (by rwa [hasNaN] at h)]
  | .braces xs, h => by
    rw [comparisonFrames, comparisonCost, if_pos rfl, itemFrames_self xs (by rwa [hasNaN] at h)]
  | .dictionary ps, h => by
    rw [comparisonFrames, comparisonCost, if_pos rfl, pairFrames_self ps (by rwa [hasNaN] at h)]
  | .atom _, _ | .symbol _, _ | .native .., _ | .closure .., _ | .nothing, _ => rfl

theorem itemFrames_self : (xs : List Value) → anyNaN xs = false →
    itemFrames xs xs = comparisonCosts xs
  | [], _ => rfl
  | x :: xs, h => by
    rw [anyNaN, Bool.or_eq_false_iff] at h
    rw [itemFrames, comparisonCosts, comparisonFrames_self x h.1, if_pos (agree_self_iff.2 h.1),
      itemFrames_self xs h.2]

theorem pairFrames_self : (ps : List (String × Value)) → anyPairNaN ps = false →
    pairFrames ps ps = pairComparisonCosts ps
  | [], _ => rfl
  | (k, x) :: ps, h => by
    rw [anyPairNaN, Bool.or_eq_false_iff] at h
    rw [pairFrames, pairComparisonCosts, if_pos rfl, comparisonFrames_self x h.1,
      if_pos (agree_self_iff.2 h.1), pairFrames_self ps h.2]

end

/-! ## Answers -/

section Answers

variable {u v w : Value} {n : Nat} {b : Bool}

end Answers

/-! ## Functions -/

/-- The kinds of values. -/
inductive Kind where
  | number
  | boolean
  | text
  | symbol
  | list
  | braces
  | dictionary
  | native
  | closure
  | nothing
deriving DecidableEq

/-- The kind of a value. -/
def kind : Value → Kind
  | .atom (.number _) => .number
  | .atom (.boolean _) => .boolean
  | .atom (.text _) => .text
  | .symbol _ => .symbol
  | .list .. => .list
  | .braces _ => .braces
  | .dictionary _ => .dictionary
  | .native .. => .native
  | .closure .. => .closure
  | .nothing => .nothing

/-- The parts of a value, in order. A function has none. -/
def parts : Value → List Value
  | .list _ items => items
  | .braces entries => entries
  | .dictionary pairs => pairs.map Prod.snd
  | _ => []

end Value

/-! ## Lists of the other flavor -/

/-- The other flavor. -/
def Flavor.other : Flavor → Flavor
  | plain => vector
  | vector => plain

namespace Value

mutual

/-- A value in which all lists, also those in functions, are vectors. -/
def vectored : Value → Value
  | .list _ items => .list .vector (vectoredAll items)
  | .braces entries => .braces (vectoredAll entries)
  | .dictionary pairs => .dictionary (vectoredPairs pairs)
  | .closure params body scope serial => .closure params (vectored body) scope serial
  | v => v

/-- Several values in which all lists are vectors. -/
def vectoredAll : List Value → List Value
  | [] => []
  | v :: rest => vectored v :: vectoredAll rest

/-- The pairs of a dictionary, in whose values all lists are vectors. -/
def vectoredPairs : List (String × Value) → List (String × Value)
  | [] => []
  | (key, v) :: rest => (key, vectored v) :: vectoredPairs rest

end

mutual

theorem chars_vectored_representative :
    (v : Value) → v.representative.vectored.chars = v.vectored.chars
  | .atom a => a.chars_representative
  | .list flavor items => by
    show Bracket.square.surround (spaced (itemChars (vectoredAll (representatives items)))) =
      Bracket.square.surround (spaced (itemChars (vectoredAll items)))
    rw [itemChars_vectoredAll_representatives items]
  | .braces entries => by
    show Bracket.curly.surround (spaced (itemChars (vectoredAll (representatives entries)))) =
      Bracket.curly.surround (spaced (itemChars (vectoredAll entries)))
    rw [itemChars_vectoredAll_representatives entries]
  | .dictionary pairs => by
    show Bracket.curly.surround (spaced (pairChars (vectoredPairs (pairRepresentatives pairs)))) =
      Bracket.curly.surround (spaced (pairChars (vectoredPairs pairs)))
    rw [pairChars_vectoredPairs_representatives pairs]
  | .symbol _ | .native .. | .closure .. | .nothing => rfl

theorem itemChars_vectoredAll_representatives : (vs : List Value) →
    itemChars (vectoredAll (representatives vs)) = itemChars (vectoredAll vs)
  | [] => rfl
  | v :: vs => by
    show chars (vectored (representative v)) :: itemChars (vectoredAll (representatives vs)) =
      chars (vectored v) :: itemChars (vectoredAll vs)
    rw [chars_vectored_representative v, itemChars_vectoredAll_representatives vs]

theorem pairChars_vectoredPairs_representatives : (ps : List (String × Value)) →
    pairChars (vectoredPairs (pairRepresentatives ps)) = pairChars (vectoredPairs ps)
  | [] => rfl
  | (key, v) :: ps => by
    show Text.quoted key.toList :: chars (vectored (representative v)) ::
        pairChars (vectoredPairs (pairRepresentatives ps)) =
      Text.quoted key.toList :: chars (vectored v) :: pairChars (vectoredPairs ps)
    rw [chars_vectored_representative v, pairChars_vectoredPairs_representatives ps]

end

/-- A value without any number in it is still not known to be the same as itself, if it is nested
too deeply. -/
example :
    let nested (n : Nat) := Nat.repeat (fun v => list .vector [v]) n (.list .vector [])
    (nested 165).hasNaN = false ∧ (nested 165).same (nested 165) = .error .recursion ∧
      (nested 164).same (nested 164) = .ok true := by
  decide +kernel

end Value

end MiniLisp
