import Mathlib.Data.List.Basic
import MiniLisp.Proofs.Script.Reader

/-!
# The last rule of a derivation

A printed operand has no signs outside of brackets (`Tight`). Then the signs outside of the brackets
of an expression (`outer`) tell which rule of the grammar comes last and where its parts begin and
end: without signs it is one lexeme, a pair of brackets or a call (`Derives.of_single`,
`Derives.of_surround`, `Derives.of_call`), with one sign it is an operation, a function or an
assignment (`Derives.split`), and two more lemmas are about conditionals (`Derives.ternary`) and
lists (`DerivesList.of_cons`).
-/

namespace MiniLisp.Script

/-! ## Depth in brackets -/

namespace Token

/-- The depth behind a lexeme; a bracket that is not open cannot be closed. -/
def step : Token → Nat → Option Nat
  | .opening _, d => some (d + 1)
  | .closing _, 0 => none
  | .closing _, d + 1 => some d
  | _, d => some d

/-- A lexeme, if it is a sign outside of brackets. -/
def signAt : Nat → Token → List String
  | 0, .sign s => [s]
  | _, _ => []

theorem step_succ {t : Token} {d e : Nat} (h : t.step d = some e) :
    t.step (d + 1) = some (e + 1) := by
  cases t <;> cases d <;> simp_all [step]

end Token

/-- The depth behind several lexemes. -/
def depthAfter : Nat → List Token → Option Nat
  | d, [] => some d
  | d, t :: ts => (t.step d).bind (depthAfter · ts)

/-- The signs outside of brackets. -/
def outer : Nat → List Token → List String
  | _, [] => []
  | d, t :: ts =>
    match t.step d with
    | none => t.signAt d
    | some e => t.signAt d ++ outer e ts

/-- Lexemes that close what they open and nothing else. -/
def Balanced (ts : List Token) : Prop := depthAfter 0 ts = some 0

variable {ts us x y x' y' : List Token} {t : Token} {d e : Nat}

theorem depthAfter_cons (h : t.step d = some e) : depthAfter d (t :: ts) = depthAfter e ts := by
  rw [depthAfter, h, Option.bind_some]

theorem outer_cons (h : t.step d = some e) : outer d (t :: ts) = t.signAt d ++ outer e ts := by
  rw [outer, h]

theorem depthAfter_append (h : depthAfter d x = some e) :
    depthAfter d (x ++ y) = depthAfter e y := by
  induction x generalizing d with
  | nil =>
    cases h
    rfl
  | cons t x ih =>
    obtain ⟨d', ht, hx⟩ := Option.bind_eq_some_iff.1 h
    rw [List.cons_append, depthAfter_cons ht, ih hx]

theorem exists_depthAfter_of_append (h : depthAfter d (x ++ y) = some e) :
    ∃ e', depthAfter d x = some e' := by
  induction x generalizing d with
  | nil => exact ⟨d, rfl⟩
  | cons t x ih =>
    obtain ⟨d', ht, hx⟩ := Option.bind_eq_some_iff.1 h
    obtain ⟨e', he'⟩ := ih hx
    exact ⟨e', by rw [depthAfter_cons ht, he']⟩

/-- What can be read at a depth can be read one deeper. -/
theorem depthAfter_succ (h : depthAfter d x = some e) : depthAfter (d + 1) x = some (e + 1) := by
  induction x generalizing d with
  | nil =>
    cases h
    rfl
  | cons t x ih =>
    obtain ⟨d', ht, hx⟩ := Option.bind_eq_some_iff.1 h
    rw [depthAfter_cons (Token.step_succ ht), ih hx]

theorem outer_append (h : depthAfter d x = some e) :
    outer d (x ++ y) = outer d x ++ outer e y := by
  induction x generalizing d with
  | nil =>
    cases h
    rfl
  | cons t x ih =>
    obtain ⟨d', ht, hx⟩ := Option.bind_eq_some_iff.1 h
    rw [List.cons_append, outer_cons ht, outer_cons ht, ih hx, List.append_assoc]

/-- Inside of brackets no sign is outside. -/
theorem outer_succ (h : depthAfter d x = some e) : outer (d + 1) x = [] := by
  induction x generalizing d with
  | nil => rfl
  | cons t x ih =>
    obtain ⟨d', ht, hx⟩ := Option.bind_eq_some_iff.1 h
    rw [outer_cons (Token.step_succ ht), ih hx, List.append_nil]
    rfl

theorem Balanced.append (hx : Balanced x) (hy : Balanced y) : Balanced (x ++ y) :=
  (depthAfter_append hx).trans hy

theorem Balanced.cons_sign (s : String) (h : Balanced x) : Balanced (.sign s :: x) := h

theorem Balanced.surround (b : Bracket) (h : Balanced x) : Balanced (Token.surround b x) :=
  (depthAfter_append (depthAfter_succ h)).trans rfl

theorem outer_surround (b : Bracket) (h : Balanced x) : outer 0 (Token.surround b x) = [] := by
  change outer 1 (x ++ [.closing b]) = []
  rw [outer_append (depthAfter_succ h), outer_succ h]
  rfl

theorem outer_append_surround (b : Bracket) (hx : Balanced x) (hy : Balanced y) :
    outer 0 (x ++ Token.surround b y) = outer 0 x := by
  rw [outer_append hx, outer_surround b hy, List.append_nil]

theorem outer_append_sign (hx : Balanced x) (s : String) :
    outer 0 (x ++ .sign s :: y) = outer 0 x ++ s :: outer 0 y :=
  outer_append hx

/-! ## Where parts begin and end -/

/-- The parts before and behind a sign are known if the part before it has no sign outside. -/
theorem append_sign_inj {s s' : String} (hx : Balanced x) (hx' : Balanced x')
    (hout : outer 0 x = []) (hout' : outer 0 x' = [])
    (h : x ++ .sign s :: y = x' ++ .sign s' :: y') : x = x' ∧ s = s' ∧ y = y' := by
  -- a longer part would hold the sign behind the shorter one
  have hlonger {x z : List Token} {s : String} (hx : Balanced x)
      (hout : outer 0 (x ++ .sign s :: z) = []) : False := by
    rw [outer_append_sign hx] at hout
    simp at hout
  rcases List.append_eq_append_iff.1 h with ⟨z, rfl, hz⟩ | ⟨z, rfl, hz⟩
  · cases z with
    | nil => simpa using hz
    | cons c z =>
      obtain ⟨rfl, -⟩ := List.cons.inj hz
      exact (hlonger hx hout').elim
  · cases z with
    | nil =>
      have hz : Token.sign s' :: y' = .sign s :: y := by simpa using hz
      obtain ⟨hs, rfl⟩ := List.cons.inj hz
      cases hs
      simp
    | cons c z =>
      obtain ⟨rfl, -⟩ := List.cons.inj hz
      exact (hlonger hx' hout).elim

/-- A pair of brackets at the end is where its content is balanced. -/
theorem append_surround_inj {b b' : Bracket} (hx : Balanced x) (hx' : Balanced x')
    (hy : Balanced y) (hy' : Balanced y')
    (h : x ++ Token.surround b y = x' ++ Token.surround b' y') : x = x' ∧ b = b' ∧ y = y' := by
  -- otherwise one content would begin with lexemes that close a bracket of the other
  have hlonger {x y z w : List Token} {b : Bracket} (hx : Balanced x)
      (hxz : Balanced (x ++ .opening b :: z)) (hy : Balanced y) (hyz : y = z ++ w) : False := by
    have hz : depthAfter 1 z = some 0 := (depthAfter_append hx).symm.trans hxz
    rw [hyz] at hy
    obtain ⟨e, he⟩ := exists_depthAfter_of_append hy
    have := hz.symm.trans (depthAfter_succ he)
    simp at this
  have hlast : b = b' ∧ x ++ .opening b :: y = x' ++ .opening b' :: y' := by
    unfold Token.surround at h
    rw [← List.cons_append, ← List.cons_append, ← List.append_assoc, ← List.append_assoc] at h
    obtain ⟨h, hb⟩ := List.append_inj' h rfl
    cases hb
    exact ⟨rfl, h⟩
  obtain ⟨rfl, h⟩ := hlast
  rcases List.append_eq_append_iff.1 h with ⟨z, rfl, hz⟩ | ⟨z, rfl, hz⟩
  · cases z with
    | nil => simpa using hz
    | cons c z =>
      obtain ⟨rfl, hrest⟩ := List.cons.inj hz
      exact (hlonger hx hx' hy hrest).elim
  · cases z with
    | nil =>
      obtain ⟨-, rfl⟩ := List.cons.inj (by simpa using hz : Token.opening b :: y' = .opening b :: y)
      simp
    | cons c z =>
      obtain ⟨rfl, hrest⟩ := List.cons.inj hz
      exact (hlonger hx' hx hy' hrest).elim

theorem surround_inj {b b' : Bracket} (h : Token.surround b x = Token.surround b' y) :
    b = b' ∧ x = y := by
  obtain ⟨hb, h⟩ := List.cons.inj h
  exact ⟨Token.opening.inj hb, List.append_inj_left' h rfl⟩

theorem append_surround_ne {b b' : Bracket} (hne : x ≠ []) (hx : Balanced x) (hy : Balanced y)
    (hy' : Balanced y') : x ++ Token.surround b y ≠ Token.surround b' y' := fun h =>
  hne (append_surround_inj hx (show Balanced [] from rfl) hy hy' h).1

/-! ## What derivations look like -/

/-- What the grammar says about the lexemes of an expression at a level. -/
structure Shape (l : Nat) (ts : List Token) : Prop where
  ne_nil : ts ≠ []
  balanced : Balanced ts
  /-- Only brackets and single lexemes are as tight as calls. -/
  tight : l = Level.call → outer 0 ts = []
  comma_not_mem : Level.assignment ≤ l → "," ∉ outer 0 ts

/-- Lexemes without signs outside of brackets. -/
structure Tight (ts : List Token) : Prop where
  ne_nil : ts ≠ []
  balanced : Balanced ts
  outer_eq : outer 0 ts = []

theorem Tight.shape (h : Tight ts) (l : Nat) : Shape l ts :=
  ⟨h.ne_nil, h.balanced, fun _ => h.outer_eq, fun _ => by rw [h.outer_eq]; exact List.not_mem_nil⟩

theorem Shape.isTight (h : Shape Level.call ts) : Tight ts := ⟨h.ne_nil, h.balanced, h.tight rfl⟩

theorem Tight.surround (b : Bracket) (h : Balanced x) : Tight (Token.surround b x) :=
  ⟨List.cons_ne_nil _ _, h.surround b, outer_surround b h⟩

theorem Tight.append_surround (b : Bracket) (h : Tight x) (hy : Balanced y) :
    Tight (x ++ Token.surround b y) :=
  ⟨List.append_ne_nil_of_left_ne_nil h.ne_nil _, h.balanced.append (hy.surround b), by
    rw [outer_append_surround b h.balanced hy, h.outer_eq]⟩

theorem tight_literal {a : Atom} (h : t.literal? = some a) : Tight [t] := by
  cases t with
  | opening b => cases h
  | closing b => cases h
  | sign s => cases h
  | _ => exact ⟨List.cons_ne_nil _ _, rfl, rfl⟩

theorem tight_word (name : String) : Tight [.word name] := ⟨List.cons_ne_nil _ _, rfl, rfl⟩

/-- Parts with a sign between them that is no comma. -/
theorem Shape.append_sign {l l' : Nat} {s : String} (hx : Shape l x) (hy : Shape l' y)
    (hl : Level.assignment ≤ l) (hl' : Level.assignment ≤ l') (hs : s ≠ ",") {k : Nat}
    (hk : k ≠ Level.call) : Shape k (x ++ .sign s :: y) := by
  refine ⟨by simp, hx.balanced.append (hy.balanced.cons_sign s), fun h => absurd h hk, fun _ => ?_⟩
  rw [outer_append_sign hx.balanced, List.mem_append, List.mem_cons]
  rintro (h | h | h)
  · exact hx.comma_not_mem hl h
  · exact hs h.symm
  · exact hy.comma_not_mem hl' h

theorem balanced_params (params : List String) :
    Balanced (Token.listed (params.map fun p => [.word p])) := by
  induction params with
  | nil => rfl
  | cons p params ih =>
    cases params with
    | nil => rfl
    | cons q params => exact ih

theorem Operator.sign_ne (op : Operator) :
    op.sign ≠ "," ∧ op.sign ≠ "=" ∧ op.sign ≠ "=>" ∧ op.sign ≠ "?" ∧ op.sign ≠ ":" := by
  cases op <;> decide

theorem Level.assignment_le (op : Operator) :
    Level.assignment ≤ Level.ofLeft op ∧ Level.assignment ≤ Level.ofRight op ∧
      Level.ofOperator op < Level.call := by
  cases op <;> decide

mutual

theorem Derives.shape {l : Nat} {ts : List Token} {s : Script} : Derives l ts s → Shape l ts
  | .literal h => (tight_literal h).shape l
  | .negative (t := t) hl h => by
    have ht := tight_literal h
    have hout : outer 0 [.sign "-", t] = ["-"] := congrArg ("-" :: ·) ht.outer_eq
    refine ⟨List.cons_ne_nil _ _, ht.balanced.cons_sign "-", fun h => ?_, fun _ => ?_⟩
    · rw [h] at hl
      exact absurd hl (by decide)
    · rw [hout]
      decide
  | .identifier _ => (tight_word _).shape l
  | .group h => (Tight.surround .round h.shape.balanced).shape l
  | .array h => (Tight.surround .square h.balanced).shape l
  | .call h hargs => (h.shape.isTight.append_surround .round hargs.balanced).shape l
  | .binary op hl hleft hright => by
    obtain ⟨hleftLevel, hrightLevel, hcall⟩ := Level.assignment_le op
    exact hleft.shape.append_sign hright.shape hleftLevel hrightLevel (Operator.sign_ne op).1
      (by omega)
  | .conditional hl htest hyes hno => by
    have hrest := hyes.shape.append_sign (s := ":") hno.shape (Nat.le_refl _) (Nat.le_refl _)
      (by decide) (k := Level.assignment) (by decide)
    exact htest.shape.append_sign hrest (by decide) (Nat.le_refl _) (by decide)
      (Nat.ne_of_lt (Nat.lt_of_le_of_lt hl (by decide)))
  | .function hl _ hbody =>
    ((Tight.surround .round (balanced_params _)).shape Level.call).append_sign hbody.shape
      (by decide) (Nat.le_refl _) (by decide) (Nat.ne_of_lt (Nat.lt_of_le_of_lt hl (by decide)))
  | .function₁ hl _ hbody =>
    ((tight_word _).shape Level.call).append_sign hbody.shape (by decide) (Nat.le_refl _)
      (by decide) (Nat.ne_of_lt (Nat.lt_of_le_of_lt hl (by decide)))
  | .assignment hl htarget hvalue =>
    htarget.shape.append_sign hvalue.shape (by decide) (Nat.le_refl _) (by decide)
      (Nat.ne_of_lt (Nat.lt_of_le_of_lt hl (by decide)))
  | .sequence h hlength => by
    refine ⟨h.ne_nil (by rintro rfl; simp at hlength), h.balanced, nofun, fun h => ?_⟩
    exact absurd h (by decide)

theorem DerivesList.balanced {ts : List Token} {items : List Script} :
    DerivesList ts items → Balanced ts
  | .nil => rfl
  | .single h => h.shape.balanced
  | .cons h hrest _ => h.shape.balanced.append (hrest.balanced.cons_sign ",")

theorem DerivesList.ne_nil {ts : List Token} {items : List Script} :
    DerivesList ts items → items ≠ [] → ts ≠ []
  | .nil, h => absurd rfl h
  | .single h, _ => h.shape.ne_nil
  | .cons _ _ _, _ => by simp

end

/-- What is derived at a level is derived at every looser one. -/
theorem Derives.mono {l k : Nat} {s : Script} (h : Derives l ts s) (hk : k ≤ l) :
    Derives k ts s := by
  cases h with
  | literal h => exact .literal h
  | negative hl h => exact .negative (Nat.le_trans hk hl) h
  | identifier h => exact .identifier h
  | group h => exact .group h
  | array h => exact .array h
  | call hcallee hargs => exact .call hcallee hargs
  | binary op hl hleft hright => exact .binary op (Nat.le_trans hk hl) hleft hright
  | conditional hl htest hyes hno => exact .conditional (Nat.le_trans hk hl) htest hyes hno
  | function hl hparams hbody => exact .function (Nat.le_trans hk hl) hparams hbody
  | function₁ hl hparam hbody => exact .function₁ (Nat.le_trans hk hl) hparam hbody
  | assignment hl htarget hvalue => exact .assignment (Nat.le_trans hk hl) htarget hvalue
  | sequence h hlength =>
    obtain rfl : k = Level.comma := Nat.le_zero.1 hk
    exact .sequence h hlength

/-! ## Which rule comes last -/

/-- What lexemes without signs outside of brackets write. -/
inductive Primary : List Token → Script → Prop
  | literal {t : Token} {a : Atom} (h : t.literal? = some a) : Primary [t] (.literal a)
  | identifier {name : String} (h : name ∉ literalWords) :
      Primary [.word name] (.identifier name)
  | group {ts : List Token} {s : Script} (h : Derives Level.comma ts s) :
      Primary (Token.surround .round ts) s
  | array {ts : List Token} {items : List Script} (h : DerivesList ts items) :
      Primary (Token.surround .square ts) (.array items)
  | call {ts us : List Token} {callee : Script} {args : List Script}
      (hcallee : Derives Level.call ts callee) (hargs : DerivesList us args) :
      Primary (ts ++ Token.surround .round us) (.call callee args)

/-- What lexemes with one sign outside of brackets write. -/
inductive Split (r : String) (x y : List Token) : Script → Prop
  | negative {t : Token} {z : Float} (hr : r = "-") (hx : x = []) (hy : y = [t])
      (h : t.literal? = some (.number z)) : Split r x y (.literal (.number (-z)))
  | binary {l k : Nat} {left right : Script} (op : Operator) (hr : r = op.sign)
      (hleft : Derives l x left) (hright : Derives k y right) :
      Split r x y (.binary op.sign left right)
  | function {params : List String} {body : Script} (hr : r = "=>")
      (hx : x = Token.surround .round (Token.listed (params.map fun p => [.word p])))
      (hbody : Derives Level.assignment y body) : Split r x y (.function params body)
  | function₁ {param : String} {body : Script} (hr : r = "=>") (hx : x = [.word param])
      (hbody : Derives Level.assignment y body) : Split r x y (.function [param] body)
  | assignment {name : String} {value : Script} (hr : r = "=")
      (htarget : Derives Level.call x (.identifier name))
      (hvalue : Derives Level.assignment y value) :
      Split r x y (.assignment (.identifier name) value)

variable {l : Nat} {s : Script} {items : List Script}

theorem DerivesList.comma_mem (h : DerivesList ts items) (hlength : 2 ≤ items.length) :
    "," ∈ outer 0 ts := by
  cases h with
  | nil => exact absurd hlength (by decide)
  | single _ => exact absurd hlength (by simp)
  | cons h _ _ =>
    rw [outer_append_sign h.shape.balanced]
    simp

theorem Derives.primary (h : Derives l ts s) (hout : outer 0 ts = []) : Primary ts s := by
  cases h with
  | literal h => exact .literal h
  | identifier h => exact .identifier h
  | group h => exact .group h
  | array h => exact .array h
  | call hcallee hargs => exact .call hcallee hargs
  | negative _ _ => cases hout
  | binary op _ hleft _ =>
    rw [outer_append_sign hleft.shape.balanced] at hout
    simp at hout
  | conditional _ htest _ _ =>
    rw [outer_append_sign htest.shape.balanced] at hout
    simp at hout
  | function _ _ _ =>
    rw [outer_append_sign (Tight.surround .round (balanced_params _)).balanced] at hout
    simp at hout
  | function₁ _ _ _ => cases hout
  | assignment _ htarget _ =>
    rw [outer_append_sign htarget.shape.balanced] at hout
    simp at hout
  | sequence h hlength =>
    have hcomma := h.comma_mem hlength
    rw [hout] at hcomma
    cases hcomma

theorem append_surround_ne_single {b : Bracket} : x ++ Token.surround b y ≠ [t] := by
  intro h
  have hlength := congrArg List.length h
  simp only [Token.surround, List.length_append, List.length_cons, List.length_nil] at hlength
  omega

/-- A pair of brackets is a group or an array. -/
theorem Derives.of_surround {b : Bracket} (h : Derives l (Token.surround b ts) s)
    (hts : Balanced ts) :
    b = .round ∧ Derives Level.comma ts s ∨
      b = .square ∧ ∃ items, s = .array items ∧ DerivesList ts items := by
  have hp := h.primary (outer_surround b hts)
  generalize hws : Token.surround b ts = ws at hp
  cases hp with
  | literal _ => exact (append_surround_ne_single (x := []) hws).elim
  | identifier _ => exact (append_surround_ne_single (x := []) hws).elim
  | group hgroup =>
    obtain ⟨rfl, rfl⟩ := surround_inj hws
    exact .inl ⟨rfl, hgroup⟩
  | array hitems =>
    obtain ⟨rfl, rfl⟩ := surround_inj hws
    exact .inr ⟨rfl, _, rfl, hitems⟩
  | call hcallee hargs =>
    have hshape := hcallee.shape
    exact absurd hws.symm
      (append_surround_ne hshape.ne_nil hshape.balanced hargs.balanced hts)

/-- A pair of brackets behind an expression is a call of it. -/
theorem Derives.of_call (h : Derives l (x ++ Token.surround .round y) s) (hx : Tight x)
    (hy : Balanced y) : ∃ callee args, s = .call callee args ∧ Derives Level.call x callee ∧
      DerivesList y args := by
  have hp := h.primary (hx.append_surround .round hy).outer_eq
  generalize hws : x ++ Token.surround .round y = ws at hp
  cases hp with
  | literal _ => exact (append_surround_ne_single hws).elim
  | identifier _ => exact (append_surround_ne_single hws).elim
  | group hgroup =>
    exact absurd hws (append_surround_ne hx.ne_nil hx.balanced hy hgroup.shape.balanced)
  | array hitems =>
    exact absurd hws (append_surround_ne hx.ne_nil hx.balanced hy hitems.balanced)
  | call hcallee hargs =>
    obtain ⟨rfl, -, rfl⟩ :=
      append_surround_inj hx.balanced hcallee.shape.balanced hy hargs.balanced hws
    exact ⟨_, _, rfl, hcallee, hargs⟩

/-- A single lexeme is a literal or an identifier. -/
theorem Derives.of_single (h : Derives l [t] s) (ht : Tight [t]) :
    (∃ a, t.literal? = some a ∧ s = .literal a) ∨
      ∃ name, t = .word name ∧ name ∉ literalWords ∧ s = .identifier name := by
  have hp := h.primary ht.outer_eq
  generalize hws : [t] = ws at hp
  cases hp with
  | literal hliteral =>
    cases hws
    exact .inl ⟨_, hliteral, rfl⟩
  | identifier hname =>
    cases hws
    exact .inr ⟨_, rfl, hname, rfl⟩
  | group _ => exact (append_surround_ne_single (x := []) hws.symm).elim
  | array _ => exact (append_surround_ne_single (x := []) hws.symm).elim
  | call _ _ => exact (append_surround_ne_single hws.symm).elim

/-- With one sign outside of brackets, the sign tells the rule and the parts. -/
theorem Derives.split {r : String} (h : Derives l (x ++ .sign r :: y) s) (hx : Balanced x)
    (hxout : outer 0 x = []) (hyout : outer 0 y = []) (hr : r ≠ ",") : Split r x y s := by
  have hout : outer 0 (x ++ .sign r :: y) = [r] := by
    rw [outer_append_sign hx, hxout, hyout]
    rfl
  -- a rule with a sign has this sign, and its parts are these parts
  have hparts {x' y' : List Token} {r' : String} (hx' : Balanced x')
      (heq : x ++ .sign r :: y = x' ++ .sign r' :: y') : x = x' ∧ r = r' ∧ y = y' := by
    have hout' := hout
    rw [heq, outer_append_sign hx'] at hout'
    obtain ⟨hnil, -⟩ | ⟨-, hcons⟩ := List.append_eq_singleton_iff.1 hout'
    · exact append_sign_inj hx hx' hxout hnil heq
    · cases hcons
  have hprimary : outer 0 (x ++ .sign r :: y) ≠ [] := by
    rw [hout]
    exact List.cons_ne_nil r []
  generalize hws : x ++ .sign r :: y = ws at h hout hprimary
  cases h with
  | literal hliteral => exact absurd (tight_literal hliteral).outer_eq hprimary
  | identifier _ => exact absurd rfl hprimary
  | group hgroup => exact absurd (outer_surround .round hgroup.shape.balanced) hprimary
  | array hitems => exact absurd (outer_surround .square hitems.balanced) hprimary
  | call hcallee hargs =>
    exact absurd (hcallee.shape.isTight.append_surround .round hargs.balanced).outer_eq hprimary
  | negative _ hliteral =>
    obtain ⟨hnil, hsign, hlast⟩ := hparts (show Balanced [] from rfl) hws
    exact .negative hsign hnil hlast hliteral
  | binary op _ hleft hright =>
    obtain ⟨rfl, hsign, rfl⟩ := hparts hleft.shape.balanced hws
    exact .binary op hsign hleft hright
  | conditional _ htest hyes hno =>
    rw [outer_append_sign htest.shape.balanced, outer_append_sign hyes.shape.balanced] at hout
    have hlength := congrArg List.length hout
    simp only [List.length_append, List.length_cons, List.length_nil] at hlength
    omega
  | function _ _ hbody =>
    obtain ⟨hparams, hsign, rfl⟩ := hparts ((balanced_params _).surround .round) hws
    exact .function hsign hparams hbody
  | function₁ _ _ hbody =>
    obtain ⟨hparam, hsign, rfl⟩ := hparts (tight_word _).balanced hws
    exact .function₁ hsign hparam hbody
  | assignment _ htarget hvalue =>
    obtain ⟨rfl, hsign, rfl⟩ := hparts htarget.shape.balanced hws
    exact .assignment hsign htarget hvalue
  | sequence hitems hlength =>
    have hcomma := hitems.comma_mem hlength
    rw [hout, List.mem_singleton] at hcomma
    exact absurd hcomma.symm hr

/-- Where there are signs outside of brackets and none of them is that of another rule, the last
rule is that of conditionals or that of sequences. -/
theorem Derives.of_outer (h : Derives l ts s) (hne : outer 0 ts ≠ [])
    (hsigns : ∀ r ∈ outer 0 ts, r = "," ∨ r = "?" ∨ r = ":") :
    (∃ x y z test yes no, ts = x ++ .sign "?" :: (y ++ .sign ":" :: z) ∧
        s = .conditional test yes no ∧ Derives (Level.conditional + 1) x test ∧
        Derives Level.assignment y yes ∧ Derives Level.assignment z no) ∨
      ∃ items, s = .sequence items ∧ DerivesList ts items ∧ 2 ≤ items.length := by
  have hother {x y : List Token} {r : String} (hx : Balanced x)
      (heq : outer 0 ts = outer 0 (x ++ .sign r :: y))
      (hr : r ≠ "," ∧ r ≠ "?" ∧ r ≠ ":") : False := by
    have hmem : r ∈ outer 0 ts := by
      rw [heq, outer_append_sign hx]
      simp
    rcases hsigns r hmem with h | h | h
    · exact hr.1 h
    · exact hr.2.1 h
    · exact hr.2.2 h
  cases h with
  | literal hliteral => exact absurd (tight_literal hliteral).outer_eq hne
  | identifier _ => exact absurd rfl hne
  | group hgroup => exact absurd (outer_surround .round hgroup.shape.balanced) hne
  | array hitems => exact absurd (outer_surround .square hitems.balanced) hne
  | call hcallee hargs =>
    exact absurd (hcallee.shape.isTight.append_surround .round hargs.balanced).outer_eq hne
  | negative _ _ => exact (hother (show Balanced [] from rfl) rfl (by decide)).elim
  | binary op _ hleft _ =>
    obtain ⟨hcomma, -, -, hquestion, hcolon⟩ := Operator.sign_ne op
    exact (hother hleft.shape.balanced rfl ⟨hcomma, hquestion, hcolon⟩).elim
  | conditional _ htest hyes hno => exact .inl ⟨_, _, _, _, _, _, rfl, rfl, htest, hyes, hno⟩
  | function _ _ _ => exact (hother ((balanced_params _).surround .round) rfl (by decide)).elim
  | function₁ _ _ _ => exact (hother (tight_word _).balanced rfl (by decide)).elim
  | assignment _ htarget _ => exact (hother htarget.shape.balanced rfl (by decide)).elim
  | sequence hitems hlength => exact .inr ⟨_, rfl, hitems, hlength⟩

/-- A question mark and a colon outside of brackets are those of a conditional. -/
theorem Derives.ternary {z : List Token}
    (h : Derives l (x ++ .sign "?" :: (y ++ .sign ":" :: z)) s) (hx : Tight x) (hy : Tight y)
    (hz : Tight z) : ∃ test yes no, s = .conditional test yes no ∧
      Derives (Level.conditional + 1) x test ∧ Derives Level.assignment y yes ∧
      Derives Level.assignment z no := by
  have hout : outer 0 (x ++ .sign "?" :: (y ++ .sign ":" :: z)) = ["?", ":"] := by
    rw [outer_append_sign hx.balanced, outer_append_sign hy.balanced, hx.outer_eq, hy.outer_eq,
      hz.outer_eq]
    rfl
  rcases h.of_outer (by rw [hout]; simp) (by rw [hout]; simp) with
    ⟨x', y', z', test, yes, no, heq, rfl, htest, hyes, hno⟩ | ⟨items, -, hitems, hlength⟩
  · rw [heq, outer_append_sign htest.shape.balanced, outer_append_sign hyes.shape.balanced] at hout
    have hnil : outer 0 x' = [] ∧ outer 0 y' = [] := by
      have hlength := congrArg List.length hout
      simp only [List.length_append, List.length_cons, List.length_nil] at hlength
      exact ⟨List.eq_nil_of_length_eq_zero (by omega), List.eq_nil_of_length_eq_zero (by omega)⟩
    obtain ⟨rfl, -, hrest⟩ :=
      append_sign_inj hx.balanced htest.shape.balanced hx.outer_eq hnil.1 heq
    obtain ⟨rfl, -, rfl⟩ :=
      append_sign_inj hy.balanced hyes.shape.balanced hy.outer_eq hnil.2 hrest
    exact ⟨test, yes, no, rfl, htest, hyes, hno⟩
  · have hcomma := hitems.comma_mem hlength
    rw [hout] at hcomma
    exact absurd hcomma (by decide)

/-! ## Lists -/

theorem DerivesList.of_nil (h : DerivesList [] items) : items = [] := by
  generalize hws : ([] : List Token) = ws at h
  cases h with
  | nil => rfl
  | single h => exact absurd hws.symm h.shape.ne_nil
  | cons _ _ _ => simp at hws

theorem DerivesList.of_tight (h : DerivesList x items) (hx : Tight x) :
    ∃ s, items = [s] ∧ Derives Level.assignment x s := by
  cases h with
  | nil => exact absurd rfl hx.ne_nil
  | single h => exact ⟨_, rfl, h⟩
  | cons h _ _ =>
    have hout := hx.outer_eq
    rw [outer_append_sign h.shape.balanced] at hout
    simp at hout

/-- A comma outside of brackets ends the first expression of a list. -/
theorem DerivesList.of_cons (h : DerivesList (x ++ .sign "," :: y) items) (hx : Tight x) :
    ∃ s rest, items = s :: rest ∧ Derives Level.assignment x s ∧ DerivesList y rest := by
  have hout : outer 0 (x ++ .sign "," :: y) = "," :: outer 0 y := by
    rw [outer_append_sign hx.balanced, hx.outer_eq]
    rfl
  generalize hws : x ++ .sign "," :: y = ws at h hout
  cases h with
  | nil => simp at hws
  | single h =>
    refine absurd ?_ (h.shape.comma_not_mem (Nat.le_refl _))
    rw [hout]
    exact List.mem_cons_self
  | @cons ts us _ _ h hrest _ =>
    rw [outer_append_sign h.shape.balanced] at hout
    have hnil : outer 0 ts = [] := by
      cases hfirst : outer 0 ts with
      | nil => rfl
      | cons r rs =>
        rw [hfirst] at hout
        have hcomma := h.shape.comma_not_mem (Nat.le_refl _)
        rw [hfirst, (List.cons.inj hout).1] at hcomma
        exact absurd List.mem_cons_self hcomma
    obtain ⟨rfl, -, rfl⟩ := append_sign_inj hx.balanced h.shape.balanced hx.outer_eq hnil hws
    exact ⟨_, _, rfl, h, hrest⟩

end MiniLisp.Script
