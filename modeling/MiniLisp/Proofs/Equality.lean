import MiniLisp.Value.Equality

/-!
# Exact equality

`Value.agree true` compares numbers by their bits and lists with their flavors. It is the equality
of values (`Value.agree_true_iff`), which is therefore decidable.
-/

namespace MiniLisp

theorem Atom.agree_true_iff {a b : Atom} : a.agree true b = true ↔ a = b := by
  cases a <;> cases b <;> simp [Atom.agree]

namespace Value

mutual

/-- Values that agree exactly are equal. -/
theorem agree_true_iff : (v w : Value) → (v.agree true w = true ↔ v = w)
  | .atom a, w => by
    cases w <;> simp [agree, Atom.agree_true_iff]
  | .symbol m, w => by
    cases w <;> simp [agree]
  | .list f xs, w => by
    cases w with
    | list g ys => simp [agree, agreeItems_true_iff xs ys]
    | _ => simp [agree]
  | .braces xs, w => by
    cases w with
    | braces ys => simp [agree, agreeItems_true_iff xs ys]
    | _ => simp [agree]
  | .dictionary ps, w => by
    cases w with
    | dictionary qs => simp [agree, agreePairs_true_iff ps qs]
    | _ => simp [agree]
  | .native f h, w => by
    cases w <;> simp [agree]
  | .closure ps b s i, w => by
    cases w with
    | closure qs c t j => simp [agree, agree_true_iff b c, and_assoc, and_comm, and_left_comm]
    | _ => simp [agree]
  | .nothing, w => by
    cases w <;> simp [agree]

theorem agreeItems_true_iff : (vs ws : List Value) → (agreeItems true vs ws = true ↔ vs = ws)
  | [], ws => by
    cases ws <;> simp [agreeItems]
  | v :: vs, ws => by
    cases ws with
    | nil => simp [agreeItems]
    | cons w ws => simp [agreeItems, agree_true_iff v w, agreeItems_true_iff vs ws]

theorem agreePairs_true_iff :
    (ps qs : List (String × Value)) → (agreePairs true ps qs = true ↔ ps = qs)
  | [], qs => by
    cases qs <;> simp [agreePairs]
  | (j, v) :: ps, qs => by
    cases qs with
    | nil => simp [agreePairs]
    | cons q qs =>
      obtain ⟨k, w⟩ := q
      simp [agreePairs, agree_true_iff v w, agreePairs_true_iff ps qs]

end

instance : DecidableEq Value := fun v w => decidable_of_iff _ (agree_true_iff v w)

end Value

end MiniLisp
