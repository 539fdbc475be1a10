import MiniLisp.Value.Basic

/-!
# How deep values nest

What goes through a value and all its parts takes one frame for each level of parts within parts.
`Value.fits` tells whether the frames suffice. More frames never hurt (`Value.fits_mono`).
-/

namespace MiniLisp.Value

mutual

/-- Whether a value has at most as many levels as there are frames. A value without parts is one
level. The test stops at the first part that is too deep. -/
def fits : Value → (frames : Nat) → Bool
  | _, 0 => false
  | .list _ items, frames + 1 => itemsFit items frames
  | .braces entries, frames + 1 => itemsFit entries frames
  | .dictionary pairs, frames + 1 => pairsFit pairs frames
  | .closure _ body _ _, frames + 1 => fits body frames
  | _, _ + 1 => true

/-- Whether each of several values has at most as many levels as there are frames. -/
def itemsFit : List Value → (frames : Nat) → Bool
  | [], _ => true
  | v :: rest, frames => fits v frames && itemsFit rest frames

/-- Whether each value of a dictionary has at most as many levels as there are frames. -/
def pairsFit : List (String × Value) → (frames : Nat) → Bool
  | [], _ => true
  | (_, v) :: rest, frames => fits v frames && pairsFit rest frames

end

mutual

theorem fits_succ : (v : Value) → (n : Nat) → v.fits n = true → v.fits (n + 1) = true
  | v, 0, h => by simp [fits] at h
  | .list _ items, n + 1, h => by
    rw [fits] at h ⊢
    exact itemsFit_succ items n h
  | .braces entries, n + 1, h => by
    rw [fits] at h ⊢
    exact itemsFit_succ entries n h
  | .dictionary pairs, n + 1, h => by
    rw [fits] at h ⊢
    exact pairsFit_succ pairs n h
  | .closure _ body _ _, n + 1, h => by
    rw [fits] at h ⊢
    exact fits_succ body n h
  | .atom _, _ + 1, _ | .symbol _, _ + 1, _ | .native .., _ + 1, _ | .nothing, _ + 1, _ => by
    simp [fits]

theorem itemsFit_succ :
    (vs : List Value) → (n : Nat) → itemsFit vs n = true → itemsFit vs (n + 1) = true
  | [], _, _ => by simp [itemsFit]
  | v :: rest, n, h => by
    rw [itemsFit, Bool.and_eq_true] at h ⊢
    exact ⟨fits_succ v n h.1, itemsFit_succ rest n h.2⟩

theorem pairsFit_succ :
    (ps : List (String × Value)) → (n : Nat) → pairsFit ps n = true → pairsFit ps (n + 1) = true
  | [], _, _ => by simp [pairsFit]
  | (_, v) :: rest, n, h => by
    rw [pairsFit, Bool.and_eq_true] at h ⊢
    exact ⟨fits_succ v n h.1, pairsFit_succ rest n h.2⟩

end

/-- A value that fits in some frames fits in more. -/
theorem fits_mono {v : Value} {m n : Nat} (hmn : m ≤ n) (h : v.fits m = true) :
    v.fits n = true := by
  induction hmn with
  | refl => exact h
  | step _ ih => exact fits_succ v _ ih

end MiniLisp.Value
