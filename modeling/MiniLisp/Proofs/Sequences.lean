import MiniLisp.Proofs.Guards
import MiniLisp.Proofs.Number.Count

/-!
# The algebra of sequences

Lists and texts are sequences. What a sequence is can be told from its elements, which are values in
a list and texts of one character in a text, from its carrier, and from its flavor if it is a list
(`Value.eq_of_elements`). One law for each native says what it does to the elements
(`Native.call_length`, `Native.call_nth`, `Native.call_slice`, `Native.call_concat`). All that the
natives have to do with one another follows from laws of lists (`Native.sequence_laws`).
-/

namespace MiniLisp

/-! ## Positions -/

namespace Sequence

variable {α β : Type}

/-- Where a bound falls in a sequence of length `n`: a negative one has the length added first, and
then it is moved between the ends. -/
def bound (n : Nat) (i : Int) : Int := max 0 (min n (if i < 0 then i + n else i))

theorem cut_eq_bound (n : Nat) (i : Int) : (cut n i : Int) = bound n i := by
  unfold cut bound
  split <;> omega

theorem cut_of_le {n : Nat} {i : Int} (h : n ≤ i) : cut n i = n := by
  unfold cut
  rw [if_neg (by omega)]
  omega

theorem getElem?_slice (xs : List α) (low high : Int) (k : Nat) :
    (slice xs low high)[k]? =
      if bound xs.length low + k < bound xs.length high
      then xs[(bound xs.length low).toNat + k]? else none := by
  rw [slice, List.getElem?_drop, List.getElem?_take, ← cut_eq_bound, ← cut_eq_bound,
    Int.toNat_natCast]
  simp only [← Int.natCast_add, Int.ofNat_lt]

theorem slice_map (f : α → β) (xs : List α) (low high : Int) :
    slice (xs.map f) low high = (slice xs low high).map f := by
  simp only [slice, List.length_map, List.map_take, List.map_drop]

/-- A cut at any place, inside or outside, divides a sequence into two parts. -/
theorem slice_append_slice (xs : List α) (i : Int) {j : Int} (hj : xs.length ≤ j) :
    slice xs 0 i ++ slice xs i j = xs := by
  have hnone : cut xs.length 0 = 0 := by simp [cut]
  rw [slice, slice, cut_of_le hj, hnone, List.drop_zero, List.take_length, List.take_append_drop]

theorem nth?_map (f : α → β) (xs : List α) (i : Int) :
    nth? (xs.map f) i = (nth? xs i).map f := by
  unfold nth?
  split
  · rfl
  · rw [List.getElem?_map]

theorem isSome_nth? {xs : List α} {i : Int} :
    (nth? xs i).isSome = true ↔ 0 ≤ i ∧ i < xs.length := by
  unfold nth?
  split
  · simp
    omega
  · simp
    omega

theorem nth?_append (xs ys : List α) (i : Int) :
    nth? (xs ++ ys) i = if i < xs.length then nth? xs i else nth? ys (i - xs.length) := by
  unfold nth?
  by_cases hneg : i < 0
  · rw [if_pos hneg, if_pos (by omega), if_pos hneg]
  · rw [if_neg hneg, if_neg hneg]
    by_cases hfirst : i < xs.length
    · rw [if_pos hfirst, List.getElem?_append_left (by omega)]
    · have hrest : (i - xs.length).toNat = i.toNat - xs.length := by omega
      rw [if_neg hfirst, if_neg (by omega), List.getElem?_append_right (by omega), hrest]

end Sequence

/-! ## Sequences as values -/

/-- What holds the elements of a sequence. -/
inductive Carrier where
  | list
  | text
deriving DecidableEq

namespace Value

/-- Whether a value is a list or a text, if it is one of them. -/
def carrier? : Value → Option Carrier
  | .list .. => some .list
  | .atom (.text _) => some .text
  | _ => none

/-- The flavor of a list. -/
def flavor? : Value → Option Flavor
  | .list flavor _ => some flavor
  | _ => none

/-- The elements of a sequence; those of a text are its characters. -/
def elements : Value → List Value
  | .list _ items => items
  | .atom (.text s) => s.toList.map Native.charText
  | _ => []

/-- The ways to be a sequence. -/
theorem cases_of_carrier? {v : Value} {c : Carrier} (h : v.carrier? = some c) :
    (c = .list ∧ ∃ flavor items, v = .list flavor items) ∨ c = .text ∧ ∃ s, v = .text s := by
  cases v with
  | list flavor items =>
    cases h
    exact .inl ⟨rfl, flavor, items, rfl⟩
  | atom a =>
    cases a with
    | text s =>
      cases h
      exact .inr ⟨rfl, s, rfl⟩
    | _ => cases h
  | _ => cases h

theorem charText_injective : Function.Injective Native.charText := by
  intro c d h
  have hlist : String.ofList [c] = String.ofList [d] := by
    simpa [Native.charText] using h
  simpa using congrArg String.toList hlist

/-- A sequence is its carrier, its flavor and its elements. -/
theorem eq_of_elements {v w : Value} {c : Carrier} (hv : v.carrier? = some c)
    (hw : w.carrier? = some c) (hflavor : v.flavor? = w.flavor?)
    (helements : v.elements = w.elements) : v = w := by
  rcases cases_of_carrier? hv with ⟨rfl, f, xs, rfl⟩ | ⟨rfl, s, rfl⟩
  · rcases cases_of_carrier? hw with ⟨-, g, ys, rfl⟩ | ⟨hc, -⟩
    · cases hflavor
      cases helements
      rfl
    · cases hc
  · rcases cases_of_carrier? hw with ⟨hc, -⟩ | ⟨-, t, rfl⟩
    · cases hc
    · have hchars : s.toList = t.toList :=
        List.map_injective_iff.2 charText_injective helements
      rw [String.toList_injective hchars]

end Value

/-! ## What natives do to the elements -/

namespace Native

open Value

variable {c : Carrier} {v r : Value} {rest : List Value} {x y : Float} {i j : Int}

theorem call_length (hv : v.carrier? = some c) :
    length.call [v] = .ok (.number (Number.ofNat v.elements.length)) := by
  rcases cases_of_carrier? hv with ⟨-, flavor, items, rfl⟩ | ⟨-, s, rfl⟩
  · rfl
  · show Except.ok (Value.number (Number.ofNat s.length)) = _
    rw [elements, List.length_map, String.length_toList]

theorem call_nth (hv : v.carrier? = some c) (hx : Number.toInt? x = some i) :
    nth.call [v, .number x] =
      (Sequence.nth? v.elements i).elim (.error (.outOfRange i v.elements.length)) .ok := by
  have helement {α : Type} (kind : String) (xs : List α) (give : α → Value) :
      element kind xs give i =
        (Sequence.nth? (xs.map give) i).elim (.error (.outOfRange i xs.length)) .ok := by
    rw [Sequence.nth?_map]
    cases h : Sequence.nth? xs i with
    | none => exact element_of_none h
    | some x => exact element_of_nth? h
  rcases cases_of_carrier? hv with ⟨-, flavor, items, rfl⟩ | ⟨-, s, rfl⟩
  · show (index .nth (.number x) >>= element "tuple" items id) = _
    rw [index_number _ hx]
    show element "tuple" items id i = _
    rw [helement, List.map_id]
    rfl
  · show (index .nth (.number x) >>= element "string" s.toList charText) = _
    rw [index_number _ hx]
    show element "string" s.toList charText i = _
    rw [helement, elements, List.length_map]

theorem call_nth_eq_ok_iff (hv : v.carrier? = some c) (hx : Number.toInt? x = some i) :
    nth.call [v, .number x] = .ok r ↔ Sequence.nth? v.elements i = some r := by
  rw [call_nth hv hx]
  cases Sequence.nth? v.elements i <;> simp

theorem call_nth_eq_error_iff (hv : v.carrier? = some c) (hx : Number.toInt? x = some i) :
    nth.call [v, .number x] = .error (.outOfRange i v.elements.length) ↔
      ¬(0 ≤ i ∧ i < v.elements.length) := by
  rw [call_nth hv hx, ← Sequence.isSome_nth?]
  cases Sequence.nth? v.elements i <;> simp

theorem call_slice (hv : v.carrier? = some c) (hx : Number.toInt? x = some i)
    (hy : Number.toInt? y = some j) :
    ∃ s, slice.call [v, .number x, .number y] = .ok s ∧ s.carrier? = some c ∧
      s.flavor? = v.flavor? ∧ s.elements = Sequence.slice v.elements i j := by
  rcases cases_of_carrier? hv with ⟨rfl, flavor, items, rfl⟩ | ⟨rfl, s, rfl⟩
  · refine ⟨.list flavor (Sequence.slice items i j), ?_, rfl, rfl, rfl⟩
    show sliceOf (.list flavor items) (.number x) (.number y) = _
    unfold sliceOf
    rw [index_number _ hx, index_number _ hy]
    rfl
  · refine ⟨.text (String.ofList (Sequence.slice s.toList i j)), ?_, rfl, rfl, ?_⟩
    · show sliceOf (.text s) (.number x) (.number y) = _
      unfold sliceOf
      rw [index_number _ hx, index_number _ hy]
      rfl
    · rw [elements, elements, String.toList_ofList, Sequence.slice_map]

theorem joinItems_eq {vs : List Value} (h : ∀ v ∈ vs, v.carrier? = some .list) :
    joinItems vs = .ok (vs.flatMap elements) := by
  induction vs with
  | nil => rfl
  | cons v vs ih =>
    obtain ⟨hv, hvs⟩ := List.forall_mem_cons.1 h
    rcases cases_of_carrier? hv with ⟨-, flavor, items, rfl⟩ | ⟨hc, -⟩
    · rw [joinItems, ih hvs, List.flatMap_cons]
      rfl
    · cases hc

theorem joinChars_eq {vs : List Value} (h : ∀ v ∈ vs, v.carrier? = some .text) :
    ∃ cs, joinChars vs = .ok cs ∧ cs.map charText = vs.flatMap elements := by
  induction vs with
  | nil => exact ⟨[], rfl, rfl⟩
  | cons v vs ih =>
    obtain ⟨hv, hvs⟩ := List.forall_mem_cons.1 h
    rcases cases_of_carrier? hv with ⟨hc, -⟩ | ⟨-, s, rfl⟩
    · cases hc
    · obtain ⟨cs, hcs, hmap⟩ := ih hvs
      refine ⟨s.toList ++ cs, ?_, ?_⟩
      · rw [joinChars, hcs]
        rfl
      · rw [List.map_append, hmap, List.flatMap_cons, elements]

theorem call_concat (hv : v.carrier? = some c) (hrest : ∀ w ∈ rest, w.carrier? = some c) :
    ∃ r, concat.call (v :: rest) = .ok r ∧ r.carrier? = some c ∧ r.flavor? = v.flavor? ∧
      r.elements = (v :: rest).flatMap elements := by
  have hall : ∀ w ∈ v :: rest, w.carrier? = some c := List.forall_mem_cons.2 ⟨hv, hrest⟩
  rcases cases_of_carrier? hv with ⟨rfl, flavor, items, rfl⟩ | ⟨rfl, s, rfl⟩
  · refine ⟨.list flavor ((Value.list flavor items :: rest).flatMap elements), ?_, rfl, rfl, rfl⟩
    show (joinItems (.list flavor items :: rest)).map (Value.list flavor) = _
    rw [joinItems_eq hall]
    rfl
  · obtain ⟨cs, hcs, hmap⟩ := joinChars_eq hall
    refine ⟨.text (String.ofList cs), ?_, rfl, rfl, ?_⟩
    · show (joinChars (.text s :: rest)).map _ = _
      rw [hcs]
      rfl
    · rw [elements, String.toList_ofList, hmap]

/-- What is like the first argument and has all the elements is what they are joined to. -/
theorem call_concat_eq (hv : v.carrier? = some c) (hrest : ∀ w ∈ rest, w.carrier? = some c)
    (hr : r.carrier? = some c) (hflavor : r.flavor? = v.flavor?)
    (helements : r.elements = (v :: rest).flatMap elements) :
    concat.call (v :: rest) = .ok r := by
  obtain ⟨r', hcall, hr', hflavor', helements'⟩ := call_concat hv hrest
  rw [hcall, eq_of_elements hr' hr (hflavor'.trans hflavor.symm) (helements'.trans helements.symm)]

/-- Joining several sequences is joining them one by one. -/
theorem foldlM_concat (hv : v.carrier? = some c) (hrest : ∀ w ∈ rest, w.carrier? = some c) :
    rest.foldlM (fun v w => concat.call [v, w]) v = concat.call (v :: rest) := by
  induction rest generalizing v with
  | nil =>
    rw [call_concat_eq hv hrest hv rfl (by simp)]
    rfl
  | cons w rest ih =>
    obtain ⟨hw, hrest'⟩ := List.forall_mem_cons.1 hrest
    obtain ⟨vw, hcall, hvw, hflavor, helements⟩ :=
      call_concat hv (List.forall_mem_singleton.2 hw)
    obtain ⟨r, hr, hcarrier, hrflavor, hrelements⟩ := call_concat hvw hrest'
    rw [List.foldlM_cons, hcall]
    show rest.foldlM _ vw = _
    rw [ih hvw hrest', hr, call_concat_eq hv hrest hcarrier (hrflavor.trans hflavor)]
    rw [hrelements, List.flatMap_cons, helements]
    simp

/-- Three sequences can be joined in any order. -/
theorem call_concat_assoc {a b d : Value} (ha : a.carrier? = some c) (hb : b.carrier? = some c)
    (hd : d.carrier? = some c) :
    ∃ ab bd abd, concat.call [a, b] = .ok ab ∧ concat.call [b, d] = .ok bd ∧
      concat.call [a, b, d] = .ok abd ∧ concat.call [ab, d] = .ok abd ∧
      concat.call [a, bd] = .ok abd := by
  obtain ⟨ab, hcall, hab, hflavor, helements⟩ := call_concat ha (List.forall_mem_singleton.2 hb)
  obtain ⟨bd, hcall', hbd, -, helements'⟩ := call_concat hb (List.forall_mem_singleton.2 hd)
  have hrest : ∀ w ∈ [b, d], w.carrier? = some c := by simp [hb, hd]
  obtain ⟨abd, hcall'', habd, hflavor'', helements''⟩ := call_concat ha hrest
  refine ⟨ab, bd, abd, hcall, hcall', hcall'', ?_, ?_⟩
  · refine call_concat_eq hab (List.forall_mem_singleton.2 hd) habd
      (hflavor''.trans hflavor.symm) ?_
    simp [helements, helements'']
  · refine call_concat_eq ha (List.forall_mem_singleton.2 hbd) habd hflavor'' ?_
    simp [helements', helements'']

/-- A place in two joined sequences is one of the first, or else one of the second. -/
theorem call_nth_concat {a b ab : Value} (ha : a.carrier? = some c) (hb : b.carrier? = some c)
    (hab : ab.carrier? = some c) (helements : ab.elements = a.elements ++ b.elements)
    (hx : Number.toInt? x = some i) :
    (0 ≤ i → i < a.elements.length → nth.call [ab, .number x] = nth.call [a, .number x]) ∧
      (a.elements.length ≤ i → i < a.elements.length + b.elements.length →
        ∀ y, Number.toInt? y = some (i - a.elements.length) →
          nth.call [ab, .number x] = nth.call [b, .number y]) := by
  refine ⟨fun hlow hhigh => ?_, fun hlow hhigh y hy => ?_⟩
  · -- inside, so that no error is compared: it would tell the length of the one and of the other
    obtain ⟨e, he⟩ := Option.isSome_iff_exists.1 (Sequence.isSome_nth?.2 ⟨hlow, hhigh⟩)
    rw [(call_nth_eq_ok_iff ha hx).2 he, call_nth_eq_ok_iff hab hx, helements,
      Sequence.nth?_append, if_pos hhigh, he]
  · have hinside : 0 ≤ i - a.elements.length ∧ i - a.elements.length < b.elements.length := by omega
    obtain ⟨e, he⟩ := Option.isSome_iff_exists.1 (Sequence.isSome_nth?.2 hinside)
    rw [(call_nth_eq_ok_iff hb hy).2 he, call_nth_eq_ok_iff hab hx, helements,
      Sequence.nth?_append, if_neg (by omega), he]

/-- A sequence is what is before a place and what is from it on, wherever the place is. -/
theorem call_concat_slices {z : Float} (hv : v.carrier? = some c) (hz : Number.toInt? z = some 0)
    (hx : Number.toInt? x = some i) (hy : Number.toInt? y = some j)
    (hj : v.elements.length ≤ j) :
    ∃ before after, slice.call [v, .number z, .number x] = .ok before ∧
      slice.call [v, .number x, .number y] = .ok after ∧ concat.call [before, after] = .ok v := by
  obtain ⟨before, hcall, hbefore, hflavor, helements⟩ := call_slice hv hz hx
  obtain ⟨after, hcall', hafter, -, helements'⟩ := call_slice hv hx hy
  refine ⟨before, after, hcall, hcall', ?_⟩
  refine call_concat_eq hbefore (List.forall_mem_singleton.2 hafter) hv hflavor.symm ?_
  simp [helements, helements', Sequence.slice_append_slice _ _ hj]

/-- How joining, counting, picking and slicing go together, in lists and in texts. A number stands
for the integer that it is, of whatever size and sign; a count up to `2 ^ 53` is given exactly. -/
theorem sequence_laws {a b d : Value} (ha : a.carrier? = some c) (hb : b.carrier? = some c)
    (hd : d.carrier? = some c) (hrest : ∀ w ∈ rest, w.carrier? = some c) :
    (∃ ab bd abd, concat.call [a, b] = .ok ab ∧ concat.call [b, d] = .ok bd ∧
      concat.call [a, b, d] = .ok abd ∧ concat.call [ab, d] = .ok abd ∧
      concat.call [a, bd] = .ok abd) ∧
    (∃ r, concat.call (a :: rest) = .ok r ∧
      rest.foldlM (fun v w => concat.call [v, w]) a = .ok r ∧
      r.carrier? = some c ∧ r.flavor? = a.flavor? ∧
      length.call [r] =
        .ok (.number (Number.ofNat ((a :: rest).map (·.elements.length)).sum))) ∧
    length.call [a] = .ok (.number (Number.ofNat a.elements.length)) ∧
    (∀ n ≤ 2 ^ 53, Number.toInt? (Number.ofNat n) = some n) ∧
    (∃ ab, concat.call [a, b] = .ok ab ∧ ∀ x i, Number.toInt? x = some i →
      (∀ e, nth.call [a, .number x] = .ok e ↔ 0 ≤ i ∧ a.elements[i.toNat]? = some e) ∧
      (0 ≤ i → i < a.elements.length →
        nth.call [ab, .number x] = nth.call [a, .number x]) ∧
      (a.elements.length ≤ i → i < a.elements.length + b.elements.length →
        ∀ y, Number.toInt? y = some (i - a.elements.length) →
          nth.call [ab, .number x] = nth.call [b, .number y]) ∧
      ((∃ e, nth.call [ab, .number x] = .ok e) ↔
        0 ≤ i ∧ i < a.elements.length + b.elements.length) ∧
      (nth.call [ab, .number x] =
          .error (.outOfRange i (a.elements.length + b.elements.length)) ↔
        ¬(0 ≤ i ∧ i < a.elements.length + b.elements.length))) ∧
    (∀ x y low high, Number.toInt? x = some low → Number.toInt? y = some high →
      ∃ s, slice.call [a, .number x, .number y] = .ok s ∧ s.carrier? = some c ∧
        s.flavor? = a.flavor? ∧
        ∀ k : Nat, s.elements[k]? =
          if Sequence.bound a.elements.length low + k < Sequence.bound a.elements.length high
          then a.elements[(Sequence.bound a.elements.length low).toNat + k]? else none) ∧
    ∀ z x y k n, Number.toInt? z = some 0 → Number.toInt? x = some k → Number.toInt? y = some n →
      a.elements.length ≤ n →
      ∃ before after, slice.call [a, .number z, .number x] = .ok before ∧
        slice.call [a, .number x, .number y] = .ok after ∧
        concat.call [before, after] = .ok a := by
  refine ⟨call_concat_assoc ha hb hd, ?_, call_length ha, fun n hn => toInt?_ofNat hn, ?_,
    ?_, fun z x y k n hz hx hy hn => call_concat_slices ha hz hx hy hn⟩
  · obtain ⟨r, hcall, hr, hflavor, helements⟩ := call_concat ha hrest
    refine ⟨r, hcall, (foldlM_concat ha hrest).trans hcall, hr, hflavor, ?_⟩
    rw [call_length hr, helements, List.length_flatMap]
  · obtain ⟨ab, hcall, hab, -, helements⟩ := call_concat ha (List.forall_mem_singleton.2 hb)
    replace helements : ab.elements = a.elements ++ b.elements := by simpa using helements
    have hlength : ab.elements.length = a.elements.length + b.elements.length := by
      rw [helements, List.length_append]
    refine ⟨ab, hcall, fun x i hx => ?_⟩
    obtain ⟨hfirst, hsecond⟩ := call_nth_concat ha hb hab helements hx
    refine ⟨fun e => ?_, hfirst, hsecond, ?_, ?_⟩
    · rw [call_nth_eq_ok_iff ha hx, Sequence.nth?]
      by_cases hneg : i < 0
      · simp [hneg]
      · simp [hneg, Int.not_lt.1 hneg]
    · rw [← Int.natCast_add, ← hlength, ← Sequence.isSome_nth?, Option.isSome_iff_exists]
      simp only [call_nth_eq_ok_iff hab hx]
    · rw [← Int.natCast_add, ← hlength, call_nth_eq_error_iff hab hx]
  · intro x y low high hx hy
    obtain ⟨s, hcall, hs, hflavor, helements⟩ := call_slice ha hx hy
    refine ⟨s, hcall, hs, hflavor, fun k => ?_⟩
    rw [helements, Sequence.getElem?_slice]

/-- A vector of two is joined to a list and to itself, and is cut one before its end with a bound
that is far beyond it. -/
theorem sequence_laws_vector :
    let a := Value.list .vector [.number 1, .text "two"]
    let b := Value.list .plain [.symbol "c"]
    (a.carrier? = some .list ∧ b.carrier? = some .list ∧
      (∀ w ∈ [b, a], w.carrier? = some .list) ∧
      Number.toInt? 0 = some 0 ∧ Number.toInt? (-1) = some (-1) ∧
      (Number.toInt? 1e300).any (10 ^ 299 < ·)) ∧
    (∃ ab ba aba, concat.call [a, b] = .ok ab ∧ concat.call [b, a] = .ok ba ∧
      concat.call [a, b, a] = .ok aba ∧ concat.call [ab, a] = .ok aba ∧
      concat.call [a, ba] = .ok aba) ∧
    (∃ r, concat.call [a, b, a] = .ok r ∧ r.flavor? = some .vector ∧
      length.call [r] = .ok (.number (Number.ofNat 5))) ∧
    ∃ before after, slice.call [a, .number 0, .number (-1)] = .ok before ∧
      slice.call [a, .number (-1), .number 1e300] = .ok after ∧
      concat.call [before, after] = .ok a := by
  intro a b
  have hrest : ∀ w ∈ [b, a], w.carrier? = some .list := by decide
  obtain ⟨hassoc, ⟨r, hcall, -, -, hflavor, hlength⟩, -, -, -, -, hslices⟩ :=
    sequence_laws (c := .list) (a := a) (b := b) (d := a) rfl rfl rfl hrest
  have hfar : Number.toInt? 1e300 = some (Number.toInt? 1e300).get! := by decide +kernel
  have hzero : Number.toInt? 0 = some 0 := by decide +kernel
  have hback : Number.toInt? (-1) = some (-1) := by decide +kernel
  refine ⟨⟨rfl, rfl, hrest, hzero, hback, by decide +kernel⟩, hassoc, ⟨r, hcall, hflavor, hlength⟩,
    hslices 0 (-1) 1e300 _ _ hzero hback hfar ?_⟩
  decide +kernel

end Native

end MiniLisp
