import MiniLisp.Native.Call
import MiniLisp.Proofs.Number.Text

/-!
# What natives stand guard against

The host refuses to divide by zero, has no remainder and no power for some numbers, makes no whole
number of an infinity, and does not look beyond the ends of a sequence. Each native makes sure first
that the host will not refuse, or takes the refusal for a value. So an operator always gives an atom
(`Operator.apply_eq_atom`), an index is the whole number that a double denotes
(`Native.index_number`), and an element is there if the index is between the ends
(`Native.element_of_nth?`).
-/

namespace MiniLisp

open Float.Model Float.Model.UnpackedFloat

/-! ## Numbers -/

namespace Number

theorem exists_quotient (x y : Float) : ∃ z, quotient x y = .ok z := by
  unfold quotient
  by_cases hy : (y == 0) = true
  · rw [if_pos hy]
    split <;> exact ⟨_, rfl⟩
  · rw [if_neg hy]
    exact ⟨x / y, if_neg hy⟩

theorem isNaN_normalize (m : Int) (e : Int) (s : Sign) :
    (UnpackedFloat.normalize .binary64 m e s).isNaN = false := by
  unfold UnpackedFloat.normalize
  split
  · exact isNaN_roundWithAccuracy _ _ _ _
  · rfl
  · exact isNaN_roundWithAccuracy _ _ _ _

/-- A remainder is a number if the dividend is finite and the divisor is a number other than zero. -/
theorem isNaN_remainder {x y : Float} (hx : x.isNaN = false) (hinf : x.isInf = false)
    (hy : y.isNaN = false) (hzero : ∀ s, y.toModel.unpack ≠ .zero s) :
    (remainder x y).isNaN = false := by
  have hxNaN : x.toModel.unpack.isNaN = false := hx
  have hxInf : x.toModel.unpack.isInf = false := hinf
  have hyNaN : y.toModel.unpack.isNaN = false := hy
  unfold remainder
  split
  · simp_all [UnpackedFloat.isNaN]
  · simp_all [UnpackedFloat.isInf]
  · simp_all [UnpackedFloat.isNaN]
  · exact absurd ‹_› (hzero _)
  · exact hx
  · exact hx
  · exact isNaN_unpack_pack (isNaN_normalize _ _ _)

theorem beq_zero_of_unpack {y : Float} {s : Sign} (h : y.toModel.unpack = .zero s) :
    (y == 0) = true := by
  have hzero : (0 : Float).toModel.unpack = .zero .positive := rfl
  show (y.toModel.unpack.compare (0 : Float).toModel.unpack == some .eq) = true
  rw [h, hzero]
  rfl

theorem exists_modulo (x y : Float) : ∃ z, modulo x y = .ok z := by
  unfold modulo
  by_cases hguard : (y == 0 || x.isInf || y.isNaN) = true
  · exact ⟨nan, if_pos hguard⟩
  rw [if_neg hguard]
  simp only [Bool.or_eq_true, not_or, Bool.not_eq_true] at hguard
  obtain ⟨⟨hy, hinf⟩, hyNaN⟩ := hguard
  refine ⟨remainder x y, if_neg fun hrefused => ?_⟩
  simp only [Bool.and_eq_true, Bool.not_eq_true'] at hrefused
  have hzero (s : Sign) (h : y.toModel.unpack = .zero s) : False := by
    rw [beq_zero_of_unpack h] at hy
    cases hy
  rw [isNaN_remainder hrefused.1.2 hinf hyNaN hzero] at hrefused
  cases hrefused.1.1

/-- What the power of the host refuses it refuses as one of two kinds. -/
theorem kind_of_pow {x y : Float} {e : HostError} (h : pow x y = .error e) :
    e.kind = .value ∨ e.kind = .overflow := by
  unfold pow at h
  dsimp only at h
  split at h
  · split at h
    · cases h
      exact .inl rfl
    · split at h
      · cases h
        split
        · exact .inl rfl
        · exact .inr rfl
      · cases h
  · cases h

theorem exists_power (x y : Float) : ∃ z, power x y = .ok z := by
  unfold power
  split
  · exact ⟨_, rfl⟩
  split
  · exact ⟨_, rfl⟩
  cases h : pow x y with
  | ok r => exact ⟨r, rfl⟩
  | error e =>
    rcases kind_of_pow h with hkind | hkind
    · simp only [hkind]
      exact ⟨_, rfl⟩
    · simp only [hkind]
      exact ⟨_, rfl⟩

/-- What denotes a whole number is converted to it. -/
theorem toInt_of_toInt? {x : Float} {i : Int} (h : toInt? x = some i) : toInt x = .ok i := by
  unfold toInt? at h
  unfold toInt
  cases hx : x.toModel.unpack with
  | notANumber =>
    rw [hx] at h
    cases h
  | infinity s =>
    rw [hx] at h
    cases h
  | zero s =>
    rw [hx] at h
    cases h
    rfl
  | finite s m e hm =>
    rw [hx] at h
    dsimp only at h ⊢
    by_cases he : 0 ≤ e
    · rw [if_pos he] at h ⊢
      cases h
      rfl
    · rw [if_neg he] at h ⊢
      split at h
      · cases h
        rfl
      · cases h

end Number

/-! ## Operators -/

namespace Operator

/-- On two numbers, an operator gives an atom. -/
theorem apply_eq_atom (op : Operator) (x y : Float) : ∃ a, op.apply x y = .ok (.atom a) := by
  cases op with
  | div =>
    obtain ⟨z, hz⟩ := Number.exists_quotient x y
    exact ⟨.number z, by rw [apply, hz]; rfl⟩
  | mod =>
    obtain ⟨z, hz⟩ := Number.exists_modulo x y
    exact ⟨.number z, by rw [apply, hz]; rfl⟩
  | pow =>
    obtain ⟨z, hz⟩ := Number.exists_power x y
    exact ⟨.number z, by rw [apply, hz]; rfl⟩
  | _ => exact ⟨_, rfl⟩

/-- An operator takes two numbers and nothing else. -/
theorem call_eq_ok {op : Operator} {x y v : Value} (h : op.call x y = .ok v) :
    ∃ a b, x = .number a ∧ y = .number b ∧ op.apply a b = .ok v := by
  unfold call at h
  split at h
  · rename_i a b
    refine ⟨a, b, rfl, rfl, ?_⟩
    cases hr : op.apply a b with
    | error e =>
      rw [hr] at h
      cases h
    | ok w =>
      rw [hr] at h
      cases h
      rfl
  · cases h

end Operator

/-! ## Sequences -/

namespace Native

theorem index_number (fn : Native) {x : Float} {i : Int} (h : Number.toInt? x = some i) :
    index fn (.number x) = .ok i := by
  have hwhole : Number.isInteger x = true := by rw [Number.isInteger, h]; rfl
  rw [index, if_pos hwhole, Number.toInt_of_toInt? h]
  rfl

/-- What is no whole number is no index. -/
theorem index_eq_error {fn : Native} {v : Value} {e : Fault} (h : index fn v = .error e) :
    e = .badIndex fn v := by
  unfold index at h
  split at h
  · rename_i x
    split at h
    · rename_i hwhole
      obtain ⟨i, hi⟩ := Option.isSome_iff_exists.1 hwhole
      rw [Number.toInt_of_toInt? hi] at h
      cases h
    · cases h
      rfl
  · cases h
    rfl

variable {α : Type} {kind : String} {xs : List α} {give : α → Value} {i : Int}

/-- Between the ends there is an element, and the host finds it. -/
theorem element_of_nth? {x : α} (h : Sequence.nth? xs i = some x) :
    element kind xs give i = .ok (give x) := by
  have hx := h
  unfold Sequence.nth? at h
  split at h
  · cases h
  · rename_i hpos
    have hlt := (List.getElem?_eq_some_iff.1 h).1
    rw [element, if_pos ⟨Int.not_lt.1 hpos, by omega⟩, Sequence.pick, if_neg hpos, hx]
    rfl

theorem element_of_none (h : Sequence.nth? xs i = none) :
    element kind xs give i = .error (.outOfRange i xs.length) := by
  refine if_neg fun hinside => ?_
  have hpos : ¬i < 0 := Int.not_lt.2 hinside.1
  rw [Sequence.nth?, if_neg hpos, List.getElem?_eq_none_iff] at h
  have := hinside.2
  omega

theorem element_eq_ok {v : Value} (h : element kind xs give i = .ok v) :
    ∃ x, Sequence.nth? xs i = some x ∧ v = give x := by
  cases hx : Sequence.nth? xs i with
  | none =>
    rw [element_of_none hx] at h
    cases h
  | some x =>
    rw [element_of_nth? hx] at h
    cases h
    exact ⟨x, rfl, rfl⟩

theorem element_eq_error {e : Fault} (h : element kind xs give i = .error e) :
    Sequence.nth? xs i = none ∧ e = .outOfRange i xs.length := by
  cases hx : Sequence.nth? xs i with
  | none =>
    rw [element_of_none hx] at h
    cases h
    exact ⟨rfl, rfl⟩
  | some x =>
    rw [element_of_nth? hx] at h
    cases h

/-! ## Calls -/

theorem run_of_call_eq_ok {fn : Native} {args : List Value} {v : Value}
    (h : fn.call args = .ok v) : fn.run args = .ok v := by
  unfold call at h
  split at h
  · exact h
  · cases h

theorem call_operator_eq_ok {op : Operator} {args : List Value} {v : Value}
    (h : (operator op).call args = .ok v) :
    ∃ a b, args = [.number a, .number b] ∧ op.apply a b = .ok v := by
  replace h := run_of_call_eq_ok h
  rcases args with _ | ⟨x, _ | ⟨y, _ | ⟨z, rest⟩⟩⟩
  · cases h
  · cases h
  · obtain ⟨a, b, rfl, rfl, happly⟩ := Operator.call_eq_ok h
    exact ⟨a, b, rfl, happly⟩
  · cases h

end Native

end MiniLisp
