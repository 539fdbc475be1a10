import MiniLisp.Session

/-!
# The trees that the reader gives

`Value.wellRead` tells the trees that source texts write from other values: their symbols are
symbol words other than `true` and `false`, and no plain list is empty. Whatever the lexer and the
reader give is such a tree (`wellRead_of_readSource`).
-/

namespace MiniLisp

namespace Value

/-- A word that the reader takes for a symbol. -/
def isSymbolName (name : String) : Bool :=
  Lexer.isSymbol name.toList && name != "true" && name != "false"

mutual

/-- Whether a value is a tree that some source text writes, as far as symbols and brackets go. -/
def wellRead : Value → Bool
  | .atom _ => true
  | .symbol name => isSymbolName name
  | .list .plain [] => false
  | .list _ items => wellReadAll items
  | .braces entries => wellReadAll entries
  | _ => false

/-- Whether several values are such trees. -/
def wellReadAll : List Value → Bool
  | [] => true
  | v :: rest => wellRead v && wellReadAll rest

end

theorem wellReadAll_iff {vs : List Value} :
    wellReadAll vs = true ↔ ∀ v ∈ vs, wellRead v = true := by
  induction vs with
  | nil => simp [wellReadAll]
  | cons v rest ih => simp [wellReadAll, ih]

theorem wellRead_plain {items : List Value} (h : wellRead (.list .plain items) = true) :
    items ≠ [] ∧ ∀ v ∈ items, wellRead v = true := by
  cases items with
  | nil => simp [wellRead] at h
  | cons v rest => exact ⟨by simp, wellReadAll_iff.1 (by simpa only [wellRead] using h)⟩

theorem wellRead_vector {items : List Value} (h : wellRead (.list .vector items) = true) :
    ∀ v ∈ items, wellRead v = true :=
  wellReadAll_iff.1 (by simpa only [wellRead] using h)

end Value

/-! ## Tokens -/

/-- A token carries a value of its kind. -/
def Token.WellMade (t : Token) : Prop :=
  match t.kind with
  | .number => ∃ n : Numeral, t.value = .number n.toFloat
  | .text => ∃ s, t.value = .text s
  | .symbol => Lexer.isSymbol t.text.toList = true
  | _ => True

namespace Lexer

theorem wellMade_judgeWord {word : List Char} {kind : Token.Kind} {value : Value}
    (h : judgeWord word = .token kind value) (position : Nat) :
    Token.WellMade { kind, text := String.ofList word, position, value } := by
  unfold judgeWord at h
  split at h
  · cases h
    exact ⟨_, rfl⟩
  · split at h
    · rename_i hs
      cases h
      simpa [Token.WellMade] using hs
    · cases h

theorem wellMade_judgeText {body : List Char} {kind : Token.Kind} {value : Value}
    (h : judgeText body = .token kind value) (text : String) (position : Nat) :
    Token.WellMade { kind, text, position, value } := by
  unfold judgeText at h
  split at h
  · cases h
    exact ⟨_, rfl⟩
  · cases h

theorem mark?_cases {c : Char} {kind : Token.Kind} (h : mark? c = some kind) :
    kind = .quote ∨ (∃ b, kind = .opener b) ∨ ∃ b, kind = .closer b := by
  unfold mark? at h
  split at h
  · cases h; exact .inl rfl
  repeat' split at h
  all_goals first
    | (cases h; exact .inr (.inl ⟨_, rfl⟩))
    | (cases h; exact .inr (.inr ⟨_, rfl⟩))
    | cases h

theorem wellMade_cut {c : Char} {cs : List Char} {kind : Token.Kind} {value : Value}
    (h : (cut c cs).lexeme = .token kind value) (position : Nat) :
    Token.WellMade { kind, text := String.ofList (cut c cs).text, position, value } := by
  unfold cut at h ⊢
  by_cases h1 : Text.isBlank c = true
  · rw [if_pos h1] at h
    cases h
  rw [if_neg h1] at h ⊢
  by_cases h2 : c = ';'
  · rw [if_pos h2] at h
    cases h
  rw [if_neg h2] at h ⊢
  by_cases h3 : c = '"'
  · rw [if_pos h3] at h ⊢
    unfold cutText at h ⊢
    cases hb : textBody cs with
    | none =>
      rw [hb] at h
      cases h
    | some cut =>
      rw [hb] at h
      exact wellMade_judgeText h _ _
  rw [if_neg h3] at h ⊢
  by_cases h4 : isWordChar c = true
  · rw [if_pos h4] at h ⊢
    exact wellMade_judgeWord h _
  rw [if_neg h4] at h ⊢
  cases hm : mark? c with
  | none =>
    rw [hm] at h
    cases h
  | some k =>
    rw [hm] at h
    cases h
    rcases mark?_cases hm with rfl | ⟨b, rfl⟩ | ⟨b, rfl⟩ <;> trivial

theorem wellMade_scan {position : Nat} {cs : List Char} {tokens : List Token}
    (h : scan position cs = .ok tokens) : ∀ t ∈ tokens, t.WellMade := by
  fun_induction scan position cs generalizing tokens with
  | case1 position =>
    cases h
    simp [Token.WellMade, Token.ending]
  | case2 position c cs head next _ =>
    rename_i ih
    exact ih h
  | case3 position c cs head next kind value hk =>
    rename_i ih
    cases hr : scan next head.rest with
    | error e => simp [hr, Except.map] at h
    | ok rest =>
      simp only [hr, Except.map, Except.ok.injEq] at h
      subst h
      intro t ht
      rcases List.mem_cons.1 ht with rfl | ht
      · exact wellMade_cut hk _
      · exact ih hr t ht
  | case4 => cases h

end Lexer

/-! ## Reading -/

namespace Reader

open Value

/-- The items of every open bracket are well read. -/
def WellReadLevels (stack : List Level) : Prop :=
  ∀ level ∈ stack, match level with
    | .quote => True
    | .bracket _ _ items => ∀ v ∈ items, v.wellRead = true

theorem wellRead_quoted {v : Value} (h : v.wellRead = true) : (quoted v).wellRead = true := by
  have hq : isSymbolName "quote" = true := by decide
  simp [quoted, wellRead, wellReadAll, hq, h]

theorem wellRead_symbolValue {name : String} (h : Lexer.isSymbol name.toList = true) :
    (symbolValue name).wellRead = true := by
  unfold symbolValue
  split
  · rfl
  split
  · rfl
  · simp_all [wellRead, isSymbolName]

theorem wellRead_close {b : Bracket} {items : List Value} (hb : ¬(b = .round ∧ items = []))
    (h : ∀ v ∈ items, v.wellRead = true) : (close b items.reverse).wellRead = true := by
  have hall : wellReadAll items.reverse = true := by simpa [wellReadAll_iff] using h
  cases b with
  | round =>
    cases hr : items.reverse with
    | nil => exact absurd ⟨rfl, List.reverse_eq_nil_iff.1 hr⟩ hb
    | cons v rest => simpa [close, wellRead, hr] using hall
  | square => simpa [close, wellRead] using hall
  | curly => simpa [close, wellRead] using hall

/-- A step with well-read parts. -/
def WellReadStep : Step → Prop
  | .next stack => WellReadLevels stack
  | .done v => v.wellRead = true
  | _ => True

theorem wellRead_give {v : Value} {stack : List Level} (hv : v.wellRead = true)
    (hs : WellReadLevels stack) : WellReadStep (give v stack) := by
  unfold give
  induction stack generalizing v with
  | nil => simpa [finish, WellReadStep] using hv
  | cons level stack ih =>
    have htail : WellReadLevels stack := fun l hl => hs l (List.mem_cons_of_mem _ hl)
    cases level with
    | quote => exact ih (wellRead_quoted hv) htail
    | bracket b opener items =>
      have hitems := hs _ List.mem_cons_self
      intro l hl
      rcases List.mem_cons.1 hl with rfl | hl
      · intro w hw
        rcases List.mem_cons.1 hw with rfl | hw
        · exact hv
        · exact hitems w hw
      · exact htail l hl

theorem wellRead_enter {level : Level} {stack : List Level}
    (hs : WellReadLevels (level :: stack)) : WellReadStep (enter level stack) := by
  unfold enter
  split
  · exact hs
  · trivial

theorem wellRead_beginWith {t : Token} {rest : List Token} {stack : List Level} (ht : t.WellMade)
    (hs : WellReadLevels stack) : WellReadStep (beginWith t rest stack) := by
  unfold beginWith
  unfold Token.WellMade at ht
  cases hk : t.kind with
  | number =>
    rw [hk] at ht
    obtain ⟨x, hx⟩ := ht
    exact wellRead_give (by rw [hx, wellRead]) hs
  | text =>
    rw [hk] at ht
    obtain ⟨s, hx⟩ := ht
    exact wellRead_give (by rw [hx, wellRead]) hs
  | symbol =>
    rw [hk] at ht
    exact wellRead_give (wellRead_symbolValue ht) hs
  | quote =>
    dsimp only
    split
    · trivial
    · refine wellRead_enter fun l hl => ?_
      rcases List.mem_cons.1 hl with rfl | hl
      · trivial
      · exact hs l hl
  | opener b =>
    refine wellRead_enter fun l hl => ?_
    rcases List.mem_cons.1 hl with rfl | hl
    · intro v hv
      cases hv
    · exact hs l hl
  | closer b => trivial
  | eof => trivial
  | other name => trivial

theorem wellRead_step {t : Token} {rest : List Token} {stack : List Level} (ht : t.WellMade)
    (hs : WellReadLevels stack) : WellReadStep (step t rest stack) := by
  unfold step
  split
  · rename_i b opener items stack
    have htail : WellReadLevels stack := fun l hl => hs l (List.mem_cons_of_mem _ hl)
    unfold continueWith
    split
    · split
      · trivial
      split
      · trivial
      · rename_i hb
        exact wellRead_give (wellRead_close hb (hs _ List.mem_cons_self)) htail
    · trivial
    · exact wellRead_beginWith ht hs
  · exact wellRead_beginWith ht hs

theorem wellRead_run {tokens : List Token} (ht : ∀ t ∈ tokens, t.WellMade) :
    ∀ {stack : List Level} {v : Value}, WellReadLevels stack →
      (run stack tokens).result = .ok v → v.wellRead = true := by
  induction tokens with
  | nil =>
    intro stack v _ h
    cases stack with
    | nil => cases h
    | cons level stack => cases level <;> cases h
  | cons t rest ih =>
    intro stack v hs h
    have hstep : WellReadStep (step t rest stack) := wellRead_step (ht t List.mem_cons_self) hs
    rw [run] at h
    cases hr : step t rest stack with
    | next stack' =>
      rw [hr] at h hstep
      exact ih (fun t' ht' => ht t' (List.mem_cons_of_mem _ ht')) hstep h
    | done w =>
      rw [hr] at h hstep
      cases h
      exact hstep
    | halt e => rw [hr] at h; cases h
    | stop e => rw [hr] at h; cases h

theorem wellRead_parse {tokens : List Token} {v : Value} (ht : ∀ t ∈ tokens, t.WellMade)
    (h : parse tokens = .ok v) : v.wellRead = true := by
  unfold parse readAll at h
  split at h
  · cases h
  have hrun := @wellRead_run tokens ht [] v (fun l hl => nomatch hl)
  unfold readExpr at h
  cases hr : run [] tokens with
  | mk result rest =>
    rw [hr] at h hrun
    cases result with
    | error e => cases h
    | ok w =>
      refine hrun ?_
      dsimp only at h
      split at h
      · cases h
        rfl
      · split at h
        · cases h
          rfl
        · cases h

end Reader

/-- What a source text writes is well read. -/
theorem wellRead_of_readSource {source : String} {v : Value} (h : readSource source = .ok v) :
    v.wellRead = true := by
  unfold readSource at h
  cases hl : lex source with
  | error e => rw [hl] at h; cases h
  | ok tokens =>
    rw [hl] at h
    dsimp only at h
    cases hp : parse tokens with
    | error e => rw [hp] at h; cases h
    | ok w =>
      rw [hp] at h
      cases h
      exact Reader.wellRead_parse (Lexer.wellMade_scan hl) hp

end MiniLisp
