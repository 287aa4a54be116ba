import CurveSketch.Proofs.Loose

/-!
# What commas change

If commas mean nothing, the conversion does what it does with commas that end arguments
once they have been taken out of the text (`arrange_positional`).

In a formula a comma ends the first argument of a call.  There is nothing for it to
release if this argument is a primary, because a primary takes its place at once.  Without
the comma the argument is an operand that stands beside the first operand of the second
argument, so that the tokens are still a loose expression of the same order
(`Formula.loose_withoutCommas`).
-/

namespace CurveSketch

open Rpn Arrangement

/-- The tokens that are no commas. -/
def Token.withoutCommas (tokens : List Token) : List Token :=
  tokens.filter (!·.kind.isComma)

@[simp]
theorem Token.withoutCommas_append (left right : List Token) :
    withoutCommas (left ++ right) = withoutCommas left ++ withoutCommas right :=
  List.filter_append left right

theorem Token.withoutCommas_cons {token : Token} (h : token.kind.isComma = false)
    (tokens : List Token) : withoutCommas (token :: tokens) = token :: withoutCommas tokens := by
  simp [withoutCommas, h]

/-! ## Commas that mean nothing -/

namespace Rpn

theorem step_positional (s : Arrangement) (token : Token) :
    step .positional s token = if !token.kind.isComma then step .delimited s token else pure s := by
  obtain ⟨symbol, kind⟩ := token
  cases kind <;> rfl

/-- Commas that mean nothing may as well not be there. -/
theorem arrange_positional (tokens : List Token) :
    arrange .positional tokens = arrange .delimited (Token.withoutCommas tokens) := by
  have hstep : step .positional = fun s token =>
      if !token.kind.isComma then step .delimited s token else pure s := by
    funext s token
    exact step_positional s token
  rw [arrange, arrange, Token.withoutCommas, List.foldlM_filter, hstep]

end Rpn

/-! ## Operands side by side -/

namespace Loose

variable {tier : Tier} {bare tail : Bool} {tokens ordered rest last : List Token}

theorem operands_append (h : Loose (.operands bare) tokens ordered)
    (hrest : Loose (.operands bare) rest last) :
    Loose (.operands bare) (tokens ++ rest) (ordered ++ last) := by
  generalize hpart : Part.operands bare = part at hrest
  induction hrest with
  | none other => simpa [← hpart] using h
  | operand before hc ih =>
    have hbefore := ih hpart
    rw [← hpart] at hbefore ⊢
    simpa using hbefore.operand hc
  | group before hopening arguments hclosing ih _ =>
    have hbefore := ih hpart
    simpa using hbefore.group hopening arguments hclosing
  | call before hf between hopening arguments hclosing ih _ _ =>
    have hbefore := ih hpart
    simpa using hbefore.call hf between hopening arguments hclosing
  | _ => cases hpart

/-- Operands can be put in front of the first operand of an expression. -/
theorem level_append (h : Loose (.operands bare) tokens ordered)
    (hrest : Loose (.level tier bare tail) rest last) :
    Loose (.level tier bare tail) (tokens ++ rest) (ordered ++ last) := by
  generalize hpart : Part.level tier bare tail = part at hrest
  induction hrest generalizing tier tail with
  | level operands =>
    cases hpart
    exact .level (h.operands_append operands)
  | binary htoken htier hleft hright ih _ =>
    cases hpart
    have hbinary := Loose.binary htoken htier (ih rfl) hright
    simpa using hbinary
  | @function level _ f earlier earlierOrdered content inside before hf argument _ _ =>
    cases hpart
    have hfunction : Loose (.level level bare true) (tokens ++ earlier ++ f :: content)
        (ordered ++ earlierOrdered ++ inside ++ [f]) :=
      .function (h.operands_append before) hf argument
    simpa using hfunction
  | _ => cases hpart

theorem binary_withoutCommas {left leftOrdered right rightOrdered : List Token} (op : Operator)
    (hleft : Loose (.level op.leftTier true false) (Token.withoutCommas left) leftOrdered)
    (hright : ∀ tail,
      Loose (.level op.rightTier true tail) (Token.withoutCommas right) rightOrdered)
    (tail : Bool) :
    Loose (.level op.tier true tail) (Token.withoutCommas (left ++ op.token :: right))
      (leftOrdered ++ rightOrdered ++ [op.token]) := by
  rw [Token.withoutCommas_append, Token.withoutCommas_cons rfl]
  exact .binary_token op (Nat.le_of_eq op.precedence_tier) hleft (hright tail)

end Loose

/-! ## Formulas without their commas -/

namespace Formula

variable {signed : Bool} {tier : Tier}

/-- Whether the formula is a constant, the variable, a group or a call. -/
def isPrimary : {tier : Tier} → Formula signed tier → Bool
  | _, literal _ | _, free | _, group _ | _, call _ _ _ _ | _, callPair _ _ _ _ _ => true
  | _, ofPrimary e | _, ofPower e | _, ofProduct e => e.isPrimary
  | _, power _ _ | _, product _ _ _ _ | _, sum _ _ _ _ | _, negate _ _ => false

/-- Whether in every call with two arguments the first one is a primary. -/
def primaryFirst : {tier : Tier} → Formula signed tier → Bool
  | _, literal _ | _, free => true
  | _, group e | _, call _ _ _ e | _, ofPrimary e | _, ofPower e | _, ofProduct e
  | _, negate _ e => e.primaryFirst
  | _, callPair _ _ _ a b => a.isPrimary && a.primaryFirst && b.primaryFirst
  | _, power base exponent => base.primaryFirst && exponent.primaryFirst
  | _, product left _ _ right => left.primaryFirst && right.primaryFirst
  | _, sum left _ _ right => left.primaryFirst && right.primaryFirst

/-- The commas of the formula can be left out.  A primary consists of operands then. -/
theorem loose_withoutCommas (e : Formula signed tier) (h : e.primaryFirst = true) :
    (∀ tail, Loose (.level tier true tail) (Token.withoutCommas e.tokens) e.ordered) ∧
      (e.isPrimary = true → Loose (.operands true) (Token.withoutCommas e.tokens) e.ordered) := by
  have ofOperands {tier : Tier} {p : Prop} {tokens ordered : List Token}
      (h : Loose (.operands true) tokens ordered) :
      (∀ tail, Loose (.level tier true tail) tokens ordered) ∧
        (p → Loose (.operands true) tokens ordered) :=
    ⟨fun _ => .level h, fun _ => h⟩
  induction e with
  | literal c => exact ofOperands (.operand (.none true) rfl)
  | free => exact ofOperands (.operand (.none true) rfl)
  | group e ih =>
    have hgroup : Loose (.operands true)
        (Token.opening :: (Token.withoutCommas e.tokens ++ [Token.closing])) e.ordered :=
      .group (.none true) rfl (.argument ((ih h).1 true)) rfl
    rw [tokens, Token.withoutCommas_cons rfl, Token.withoutCommas_append]
    exact ofOperands hgroup
  | call f op unary e ih =>
    have hcall : Loose (.operands true)
        (f.token :: Token.opening :: (Token.withoutCommas e.tokens ++ [Token.closing]))
        (e.ordered ++ [f.token]) :=
      .call (.none true) rfl (.none false) rfl (.argument ((ih h).1 true)) rfl
    rw [tokens, Token.withoutCommas_cons rfl, Token.withoutCommas_cons rfl,
      Token.withoutCommas_append]
    exact ofOperands hcall
  | callPair f op binary a b iha ihb =>
    simp only [primaryFirst, Bool.and_eq_true] at h
    obtain ⟨⟨hprimary, ha⟩, hb⟩ := h
    have hfirst : Loose (.operands true) (Token.withoutCommas a.tokens) a.ordered :=
      (iha ha).2 hprimary
    have hpair : Loose .arguments
        (Token.withoutCommas a.tokens ++ Token.withoutCommas b.tokens)
        (a.ordered ++ b.ordered) := .argument (hfirst.level_append ((ihb hb).1 true))
    have hcall : Loose (.operands true) (f.token :: Token.opening ::
        ((Token.withoutCommas a.tokens ++ Token.withoutCommas b.tokens) ++ [Token.closing]))
        (a.ordered ++ b.ordered ++ [f.token]) :=
      .call (.none true) rfl (.none false) rfl hpair rfl
    have htokens : Token.withoutCommas (callPair f op binary a b).tokens = f.token ::
        Token.opening :: ((Token.withoutCommas a.tokens ++ Token.withoutCommas b.tokens) ++
          [Token.closing]) := by
      simp [tokens, Token.withoutCommas, Kind.isComma, Builtin.token, Token.opening, Token.comma,
        Token.closing]
    rw [htokens]
    exact ofOperands hcall
  | ofPrimary e ih | ofPower e ih | ofProduct e ih =>
    obtain ⟨hlevel, hoperands⟩ := ih h
    exact ⟨fun tail => (hlevel tail).mono (by decide), hoperands⟩
  | power base exponent ihb ihe =>
    obtain ⟨hb, he⟩ := Bool.and_eq_true_iff.mp h
    have hpower := Loose.binary_withoutCommas .power ((ihb hb).1 false) (ihe he).1
    exact ⟨hpower, fun h => by cases h⟩
  | product left op isProduct right ihl ihr =>
    obtain ⟨hl, hr⟩ := Bool.and_eq_true_iff.mp h
    refine ⟨?_, fun h => by cases h⟩
    rcases isProduct with rfl | rfl
    · exact Loose.binary_withoutCommas .multiply ((ihl hl).1 false) (ihr hr).1
    · exact Loose.binary_withoutCommas .divide ((ihl hl).1 false) (ihr hr).1
  | sum left op isSum right ihl ihr =>
    obtain ⟨hl, hr⟩ := Bool.and_eq_true_iff.mp h
    refine ⟨?_, fun h => by cases h⟩
    rcases isSum with rfl | rfl
    · exact Loose.binary_withoutCommas .add ((ihl hl).1 false) (ihr hr).1
    · exact Loose.binary_withoutCommas .subtract ((ihl hl).1 false) (ihr hr).1
  | negate allowed e ih =>
    rw [tokens, Token.withoutCommas_cons rfl]
    exact ⟨fun tail => .binary_token .subtract (by decide) (.level (.none true)) ((ih h).1 tail),
      fun h => by cases h⟩

/-- Both modes of commas give the same order if every first argument is a primary. -/
theorem arrange_of_primaryFirst (e : Formula signed .sum) (h : e.primaryFirst = true)
    (mode : CommaMode) : arrange mode e.tokens = .ok e.ordered := by
  cases mode with
  | delimited => exact arrange_of_loose (e.loose true)
  | positional =>
    rw [arrange_positional]
    exact arrange_of_loose ((e.loose_withoutCommas h).1 true)

end Formula

/-- How the two modes of commas compare.  Commas that mean nothing can be left out before
the conversion, of any tokens.  They make no difference to a formula in which every first
argument of two is a primary. -/
theorem Rpn.arrange_modes :
    (∀ tokens : List Token,
      arrange .positional tokens = arrange .delimited (Token.withoutCommas tokens)) ∧
    ∀ (signed : Bool) (e : Formula signed .sum), e.primaryFirst = true →
      ∀ mode, arrange mode e.tokens = .ok e.ordered := by
  refine ⟨arrange_positional, ?_⟩
  intro signed e h mode
  exact e.arrange_of_primaryFirst h mode

/-- `max ( ( x + 1 ) , 2 ^ max ( x , x + 1 ) )` -/
def Formula.nestedMaximum : Formula false .sum :=
  .ofProduct (.ofPower (.ofPrimary (maximum
    (.ofProduct (.ofPower (.ofPrimary (.group
      (plus (.ofProduct (.ofPower (.ofPrimary .free))) (.ofPower (.ofPrimary (.literal .one))))))))
    (.ofProduct (.ofPower (.power (.literal .two) (.ofPrimary (maximum
      (.ofProduct (.ofPower (.ofPrimary .free)))
      (plus (.ofProduct (.ofPower (.ofPrimary .free)))
        (.ofPower (.ofPrimary (.literal .one))))))))))))

theorem Rpn.arrange_modes_nestedMaximum :
    Formula.nestedMaximum.primaryFirst = true ∧
      arrange .delimited Formula.nestedMaximum.tokens = .ok Formula.nestedMaximum.ordered ∧
      arrange .positional Formula.nestedMaximum.tokens = .ok Formula.nestedMaximum.ordered :=
  ⟨rfl, arrange_modes.2 false Formula.nestedMaximum rfl .delimited,
    arrange_modes.2 false Formula.nestedMaximum rfl .positional⟩

end CurveSketch
