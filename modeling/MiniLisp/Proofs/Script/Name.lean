import MiniLisp.Proofs.Script.Reader
import MiniLisp.Proofs.Syntax

/-!
# Symbols and their identifiers

No symbol word has an underscore or a dollar sign, so neither the change of hyphens nor the mark of
reserved words makes two symbols equal (`Script.mangle_inj`). The change of hyphens keeps the form
of a word, and the mark takes it out of the reserved words, none of which begins with a dollar sign:
what comes out is an identifier that a script may bind (`Script.mangle_separates`).
-/

namespace MiniLisp.Script

/-! ## Different symbols have different identifiers -/

/-- A name in which the marks of `mangle` do not occur. -/
def Plain (name : String) : Prop := '_' ∉ name.toList ∧ '$' ∉ name.toList

theorem plain_of_isSymbol {name : String} (h : Lexer.isSymbol name.toList = true) :
    Plain name := by
  have hchars : ∀ c ∈ name.toList, c.isAlphanum = true ∨ c = '-' := by
    cases hn : name.toList with
    | nil => intro c hc; cases hc
    | cons c cs =>
      rw [hn, Lexer.isSymbol] at h
      simp only [Bool.and_eq_true, List.all_eq_true, Bool.or_eq_true, beq_iff_eq] at h
      intro d hd
      rcases List.mem_cons.1 hd with rfl | hd
      · exact .inl (by simp [Char.isAlphanum, h.1.1])
      · exact h.1.2 d hd
  constructor <;> intro hc <;> rcases hchars _ hc with h | h <;> revert h <;> decide

theorem plain_of_isSymbolName {name : String} (h : Value.isSymbolName name = true) :
    Plain name := by
  simp only [Value.isSymbolName, Bool.and_eq_true] at h
  exact plain_of_isSymbol h.1.1

theorem map_inj_of_not_mem {cs ds : List Char} (hc : '_' ∉ cs) (hd : '_' ∉ ds)
    (h : cs.map (fun c => if c = '-' then '_' else c) =
      ds.map fun c => if c = '-' then '_' else c) : cs = ds := by
  induction cs generalizing ds with
  | nil => simpa using h.symm
  | cons c cs ih =>
    cases ds with
    | nil => simp at h
    | cons d ds =>
      simp only [List.map_cons, List.cons.injEq] at h
      simp only [List.mem_cons, not_or] at hc hd
      rw [ih hc.2 hd.2 h.2]
      have hhead : c = d := by
        have h1 := h.1
        split at h1 <;> split at h1 <;> simp_all
      rw [hhead]

theorem underscored_inj {m n : String} (hm : Plain m) (hn : Plain n)
    (h : underscored m = underscored n) : m = n := by
  unfold underscored at h
  exact String.toList_injective (map_inj_of_not_mem hm.1 hn.1 (String.ofList_injective h))

theorem dollar_not_mem_underscored {name : String} (h : Plain name) :
    '$' ∉ (underscored name).toList := by
  simp only [underscored, String.toList_ofList, List.mem_map, not_exists, not_and]
  intro c hc
  split
  · decide
  · rintro rfl
    exact h.2 hc

/-- `mangle` keeps symbols apart. -/
theorem mangle_inj {m n : String} (hm : Plain m) (hn : Plain n) (h : mangle m = mangle n) :
    m = n := by
  unfold mangle at h
  dsimp only at h
  split at h <;> split at h
  · exact underscored_inj hm hn (by simpa using h)
  · exact absurd (by rw [← h]; simp) (dollar_not_mem_underscored hn)
  · exact absurd (by rw [h]; simp) (dollar_not_mem_underscored hm)
  · exact underscored_inj hm hn h

/-! ## Identifiers have their form -/

theorem mangle_not_mem_reservedWords (name : String) : mangle name ∉ reservedWords := by
  unfold mangle
  dsimp only
  split
  · have hmark : ∀ w ∈ reservedWords, w.toList.head? ≠ some '$' := by decide
    exact fun hmem => hmark _ hmem (by rw [String.toList_append]; rfl)
  · rename_i hreserved
    exact fun hmem => hreserved (List.contains_iff_mem.2 hmem)

/-- A symbol with its hyphens changed is a letter, then letters, digits and underscores. -/
theorem toList_underscored {name : String} (h : Lexer.isSymbol name.toList = true) :
    ∃ c cs, (underscored name).toList = c :: cs ∧ c.isAlpha = true ∧
      ∀ d ∈ cs, isWordChar d = true := by
  cases hname : name.toList with
  | nil =>
    rw [hname] at h
    cases h
  | cons c cs =>
    simp only [hname, Lexer.isSymbol, Bool.and_eq_true] at h
    obtain ⟨⟨hc, hcs⟩, -⟩ := h
    refine ⟨c, cs.map fun d => if d = '-' then '_' else d, ?_, hc, fun d hd => ?_⟩
    · rw [underscored, String.toList_ofList, hname, List.map_cons,
        if_neg (by rintro rfl; exact absurd hc (by decide))]
    · obtain ⟨a, ha, rfl⟩ := List.mem_map.1 hd
      split
      · rfl
      · rename_i hne
        have halnum := List.all_eq_true.1 hcs a ha
        simp_all [isWordChar]

theorem isIdentifier_of_toList {name : String} {c : Char} {cs : List Char}
    (hname : name.toList = c :: cs) (hc : c.isAlpha = true ∨ c = '$')
    (hcs : ∀ d ∈ cs, isWordChar d = true) (h : name ∉ literalWords) :
    isIdentifier name = true := by
  have hstart : (c.isAlpha || c == '$') = true := by simpa using hc
  have hrest : cs.all isWordChar = true := List.all_eq_true.2 hcs
  simp [isIdentifier, hname, hstart, hrest, h]

theorem isIdentifier_mangle_of_isSymbol {name : String}
    (h : Lexer.isSymbol name.toList = true) : isIdentifier (mangle name) = true := by
  obtain ⟨c, cs, hident, hc, hcs⟩ := toList_underscored h
  have hliteral : mangle name ∉ literalWords := by
    have hsubset : ∀ w ∈ literalWords, w ∈ reservedWords := by decide
    exact fun hmem => mangle_not_mem_reservedWords name (hsubset _ hmem)
  revert hliteral
  unfold mangle
  dsimp only
  split
  · refine isIdentifier_of_toList (String.toList_append ..) (.inr rfl) ?_
    change ∀ d ∈ (underscored name).toList, isWordChar d = true
    rw [hident]
    exact List.forall_mem_cons.2 ⟨by simp [isWordChar, Char.isAlphanum, hc], hcs⟩
  · exact isIdentifier_of_toList hident (.inl hc) hcs

/-- Every symbol word has an identifier of its own, which has the form of one and is no reserved
word. -/
theorem mangle_separates {a b : String} (ha : Lexer.isSymbol a.toList = true)
    (hb : Lexer.isSymbol b.toList = true) :
    (mangle a = mangle b → a = b) ∧ isIdentifier (mangle a) = true ∧
      mangle a ∉ reservedWords :=
  ⟨mangle_inj (plain_of_isSymbol ha) (plain_of_isSymbol hb), isIdentifier_mangle_of_isSymbol ha,
    mangle_not_mem_reservedWords a⟩

/-- A reserved word, and a symbol that is one but for a hyphen. -/
theorem mangle_separates_typeof :
    Lexer.isSymbol "typeof".toList = true ∧ Lexer.isSymbol "type-of".toList = true ∧
      (mangle "typeof" = mangle "type-of" → "typeof" = "type-of") ∧
      isIdentifier (mangle "typeof") = true ∧ mangle "typeof" ∉ reservedWords :=
  have h : Lexer.isSymbol "typeof".toList = true := by decide
  have h' : Lexer.isSymbol "type-of".toList = true := by decide
  ⟨h, h', mangle_separates h h'⟩

end MiniLisp.Script
