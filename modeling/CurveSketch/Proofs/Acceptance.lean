import CurveSketch.Proofs.Nesting
import CurveSketch.Proofs.Spine

/-!
# Which texts are accepted

A text is accepted if it is a loose expression whose reverse Polish order leaves one
value (`Curve.read_isOk_iff`).  Both halves are needed.  `x 1` and `( )` are loose
expressions and leave two values and none, and `x x +` leaves one value and is no
expression in infix notation at all, but it is a loose one: the two operands stand side
by side, and there is none on the right of the operator.

`Infix` is the grammar that such a text is not in (`Curve.not_forall_read_infix`).
-/

namespace CurveSketch

/-! ## Infix notation -/

/-- The parts of infix notation. -/
inductive InfixPart where
  | operand
  /-- Operands with an operator between two of them. -/
  | chain
  /-- What stands alone, in a group or in an argument. -/
  | expression

/-- The tokens are a part of an expression in infix notation.  A minus may stand before
an expression, and a function of one argument before its operand.  Which operands belong
to which operator is left open. -/
inductive Infix : InfixPart → List Token → Prop where
  | operand {c : Token} (hc : c.kind.isOperand = true) : Infix .operand [c]
  | group {tokens : List Token} {opening closing : Token} (hopening : opening.kind = .opening)
      (content : Infix .expression tokens) (hclosing : closing.kind = .closing) :
      Infix .operand (opening :: (tokens ++ [closing]))
  | call {f : Builtin} {token opening closing : Token} {tokens : List Token}
      (htoken : token.kind = .function f) (hf : f.arity = 1)
      (hopening : opening.kind = .opening) (argument : Infix .expression tokens)
      (hclosing : closing.kind = .closing) :
      Infix .operand (token :: opening :: (tokens ++ [closing]))
  | callPair {f : Builtin} {token opening comma closing : Token} {first second : List Token}
      (htoken : token.kind = .function f) (hf : f.arity = 2)
      (hopening : opening.kind = .opening) (left : Infix .expression first)
      (hcomma : comma.kind = .comma) (right : Infix .expression second)
      (hclosing : closing.kind = .closing) :
      Infix .operand (token :: opening :: (first ++ comma :: (second ++ [closing])))
  | apply {f : Builtin} {token : Token} {tokens : List Token} (htoken : token.kind = .function f)
      (hf : f.arity = 1) (argument : Infix .operand tokens) : Infix .operand (token :: tokens)
  | single {tokens : List Token} (only : Infix .operand tokens) : Infix .chain tokens
  | binary {left right : List Token} {op : Operator} {token : Token}
      (hleft : Infix .chain left) (htoken : token.kind = .operator op)
      (hright : Infix .operand right) : Infix .chain (left ++ token :: right)
  | plain {tokens : List Token} (only : Infix .chain tokens) : Infix .expression tokens
  | negate {token : Token} {tokens : List Token} (htoken : token.kind = .operator .subtract)
      (negated : Infix .chain tokens) : Infix .expression (token :: tokens)

/-- Infix notation ends with an operand or a parenthesis, not with an operator. -/
theorem Infix.exists_concat {part : InfixPart} {tokens : List Token} (h : Infix part tokens) :
    ∃ before last, tokens = before ++ [last] ∧ last.kind.isOperator = false := by
  induction h with
  | @operand c hc =>
    exact ⟨[], c, rfl, Kind.isOperator_eq_false_of_isOperand hc⟩
  | @group tokens opening closing hopening content hclosing ih =>
    exact ⟨opening :: tokens, closing, rfl, by rw [hclosing]; rfl⟩
  | @call f token opening closing tokens htoken hf hopening argument hclosing ih =>
    exact ⟨token :: opening :: tokens, closing, rfl, by rw [hclosing]; rfl⟩
  | @callPair f token opening comma closing first second htoken hf hopening left hcomma right
      hclosing ihleft ihright =>
    exact ⟨token :: opening :: (first ++ comma :: second), closing, by simp,
      by rw [hclosing]; rfl⟩
  | @apply f token tokens htoken hf argument ih =>
    obtain ⟨before, last, rfl, hlast⟩ := ih
    exact ⟨token :: before, last, rfl, hlast⟩
  | single only ih => exact ih
  | @binary left right op token hleft htoken hright ihleft ihright =>
    obtain ⟨before, last, rfl, hlast⟩ := ihright
    exact ⟨left ++ token :: before, last, by simp, hlast⟩
  | plain only ih => exact ih
  | @negate token tokens htoken negated ih =>
    obtain ⟨before, last, rfl, hlast⟩ := ih
    exact ⟨token :: before, last, rfl, hlast⟩

/-! ## What is accepted -/

namespace Curve

/-- A text is accepted exactly if it is a loose expression that leaves one value. -/
theorem read_isOk_iff (text : String) :
    (∃ f, read .delimited text = .ok f) ↔
      ∃ ordered, Loose (.level .sum true true) (Token.split text) ordered ∧
        Counter.run ordered 0 = .ok 1 := by
  constructor
  · rintro ⟨f, hf⟩
    cases htokens : Token.read text with
    | error cause =>
      rw [read_of_token_error htokens] at hf
      cases hf
    | ok tokens =>
      rw [read_of_token_ok htokens] at hf
      obtain rfl := Token.eq_split_of_read htokens
      cases harrange : Rpn.arrange .delimited (Token.split text) with
      | error cause =>
        rw [harrange] at hf
        cases hf
      | ok ordered =>
        rw [harrange] at hf
        exact ⟨ordered, arrange_eq_ok_iff_loose.mp harrange, Reduction.reduce_isOk_iff.mp ⟨f, hf⟩⟩
  · rintro ⟨ordered, hloose, hcount⟩
    have harrange := arrange_eq_ok_iff_loose.mpr hloose
    have hnonempty : Token.split text ≠ [] := by
      intro hempty
      rw [hempty] at harrange
      obtain rfl : [] = ordered := Except.ok.inj harrange
      cases hcount
    have hread : Token.read text = .ok (Token.split text) :=
      Token.read_eq_ok rfl hnonempty (Rpn.isInvalid_of_mem_arrange harrange)
    obtain ⟨f, hf⟩ := Reduction.reduce_isOk_iff.mpr hcount
    refine ⟨f, ?_⟩
    rw [read_of_token_ok hread, harrange]
    exact hf

/-- `x x +` is accepted, and it is no infix notation. -/
theorem not_forall_read_infix :
    ¬ ∀ (text : String) (f : Curve), read .delimited text = .ok f →
      Infix .expression (Token.split text) := by
  intro h
  have hread : read .delimited "x x +" = .ok fun x => x + x := rfl
  obtain ⟨before, last, htokens, hlast⟩ := (h _ _ hread).exists_concat
  have hsplit : Token.split "x x +" =
      [Token.free, Token.free] ++ [Operator.add.token] := rfl
  rw [hsplit] at htokens
  obtain ⟨-, hplus⟩ := List.append_inj' htokens rfl
  obtain rfl : Operator.add.token = last := List.singleton_inj.mp hplus
  cases hlast

end Curve

end CurveSketch
