import CurveSketch.Proofs.Calculator
import Mathlib.Data.List.Induction

/-!
# Tokens in place of the variable

In reverse Polish order an expression can be put in place of the variable token by
token, and the curve that comes out is the composition of the two curves
(`Reduction.reduce_substitute`).

* A block of tokens that leaves one number on the empty stack leaves the same number
  on top of any other, unless a minus of the block finds a single number
  (`Calculator.run_above`).  On a higher stack such a minus would take the number below
  for its left operand.
* So the calculator at `x` does with the block what it does with the variable at the
  height of the block over `x` (`Calculator.run_substitute`), and it finds the same
  number of operands everywhere, so that also the rejections are the same.
-/

namespace CurveSketch

namespace Token

/-- What stands for the token if `inner` stands for the variable. -/
def replaced (inner : List Token) (token : Token) : List Token :=
  match token.kind with
  | .variable => inner
  | _ => [token]

/-- Puts `inner` in place of every variable. -/
def substitute (inner outer : List Token) : List Token :=
  outer.flatMap (replaced inner)

end Token

namespace Reduction

/-- In the reduction of the tokens no minus finds a single value. -/
def NeverNegates (tokens : List Token) : Prop :=
  ∀ before token after stack, tokens = before ++ token :: after →
    token.kind = .operator .subtract → before.foldlM step [] = .ok stack → stack.length ≠ 1

theorem NeverNegates.of_append {before after : List Token}
    (h : NeverNegates (before ++ after)) : NeverNegates before := by
  rintro earlier token later stack rfl
  exact h earlier token (later ++ after) stack (by simp)

end Reduction

namespace Calculator

variable {x : Float} {stack next base : List Float} {token : Token}
  {tokens inner : List Token}

/-! ## On top of other numbers -/

theorem applyOperator_above {op : Operator} {symbol : String}
    (h : applyOperator op symbol stack = .ok next) (hpair : op = .subtract → stack.length ≠ 1) :
    applyOperator op symbol (stack ++ base) = .ok (next ++ base) := by
  rcases stack with _ | ⟨right, _ | ⟨left, rest⟩⟩
  · cases h
  · rw [applyOperator] at h
    split at h
    · rename_i hop
      exact absurd rfl (hpair hop)
    · cases h
  · obtain rfl := Except.ok.inj h
    rfl

theorem applyFunction_above {f : Builtin} (h : applyFunction f stack = .ok next) :
    applyFunction f (stack ++ base) = .ok (next ++ base) := by
  unfold applyFunction at h ⊢
  cases hop : f.operation with
  | unary op =>
    rw [hop] at h
    rcases stack with _ | ⟨value, rest⟩
    · cases h
    · obtain rfl := Except.ok.inj h
      rfl
  | binary op =>
    rw [hop] at h
    rcases stack with _ | ⟨right, _ | ⟨left, rest⟩⟩
    · cases h
    · cases h
    · obtain rfl := Except.ok.inj h
      rfl

/-- A step that does not negate does the same on top of other numbers. -/
theorem step_above (h : step x stack token = .ok next)
    (hpair : token.kind = .operator .subtract → stack.length ≠ 1) :
    step x (stack ++ base) token = .ok (next ++ base) := by
  obtain ⟨symbol, kind⟩ := token
  cases kind with
  | constant value | «variable» =>
    obtain rfl := Except.ok.inj h
    rfl
  | operator op => exact applyOperator_above h fun hop => hpair (congrArg Kind.operator hop)
  | function f => exact applyFunction_above h
  | _ => cases h

/-- Tokens that leave numbers on the empty stack and never negate leave them on top of
any other numbers. -/
theorem run_above (h : run x tokens [] = .ok stack) (hpairs : Reduction.NeverNegates tokens)
    (base : List Float) : run x tokens base = .ok (stack ++ base) := by
  induction tokens using List.reverseRecOn generalizing stack with
  | nil =>
    obtain rfl : [] = stack := Except.ok.inj h
    rfl
  | append_singleton tokens token ih =>
    obtain ⟨before, hbefore, hstep⟩ := foldlM_concat_eq_ok h
    have hpair : token.kind = .operator .subtract → before.length ≠ 1 := by
      intro htoken
      have hheights : (tokens.foldlM Reduction.step []).map (heights x) = .ok before :=
        (run_heights tokens [] x).symm.trans hbefore
      obtain ⟨slots, hslots, rfl⟩ := map_eq_ok_iff.mp hheights
      rw [heights, List.length_map]
      exact hpairs tokens token [] slots rfl htoken hslots
    rw [run_append, ih hbefore hpairs.of_append]
    show run x [token] (before ++ base) = _
    rw [run_singleton]
    exact step_above hstep hpair

/-! ## In place of the variable -/

/-- A block that leaves the height `g x` stands for the variable at `g x`. -/
theorem run_replaced {g : Curve}
    (hinner : ∀ x stack, run x inner stack = .ok (g x :: stack))
    (token : Token) (x : Float) (stack : List Float) :
    run x (token.replaced inner) stack = step (g x) stack token := by
  obtain ⟨symbol, kind⟩ := token
  cases kind with
  | «variable» => exact hinner x stack
  | _ => exact run_singleton x _ stack

theorem run_substitute {g : Curve} (hinner : ∀ x stack, run x inner stack = .ok (g x :: stack))
    (outer : List Token) (x : Float) (stack : List Float) :
    run x (Token.substitute inner outer) stack = run (g x) outer stack := by
  induction outer generalizing stack with
  | nil => rfl
  | cons token outer ih =>
    rw [Token.substitute, List.flatMap_cons, run_append, run_replaced hinner, run,
      List.foldlM_cons]
    cases step (g x) stack token with
    | error cause => rfl
    | ok next => exact ih next

end Calculator

namespace Reduction

open Calculator

/-- Tokens with an expression in place of the variable are reduced to the composition of
the curves, or rejected for the same cause as with the variable.  The expression may be
any block of tokens that is reduced to a curve without a negation. -/
theorem reduce_substitute {inner : List Token} {g : Curve} (hinner : reduce inner = .ok g)
    (hpairs : NeverNegates inner) (outer : List Token) :
    reduce (Token.substitute inner outer) = (reduce outer).map fun f => f.compose g := by
  have hblock : ∀ x stack, run x inner stack = .ok (g x :: stack) := by
    intro x stack
    exact run_above (run_of_reduce hinner x) hpairs stack
  apply reduce_eq_of_evaluate
  intro x
  rw [evaluate, run_substitute hblock]
  show evaluate outer (g x) = _
  rw [evaluate_eq_map_reduce]
  cases reduce outer <;> rfl

/-- `x x * 1 -` in place of the variable in `x - x *`, where the first minus negates. -/
theorem reduce_substitute_parabola :
    reduce (["x", "x", "*", "1", "-"].map Token.classify) = .ok (fun x => x * x - 1) ∧
      NeverNegates (["x", "x", "*", "1", "-"].map Token.classify) ∧
      reduce (Token.substitute (["x", "x", "*", "1", "-"].map Token.classify)
        (["x", "-", "x", "*"].map Token.classify)) =
          .ok fun x => (0 - (x * x - 1)) * (x * x - 1) := by
  have hinner : reduce (["x", "x", "*", "1", "-"].map Token.classify) =
      .ok fun x => x * x - 1 := rfl
  have hpairs : NeverNegates (["x", "x", "*", "1", "-"].map Token.classify) := by
    rintro before token after stack htokens htoken hstack
    match before, htokens with
    | [], htokens | [_], htokens | [_, _], htokens | [_, _, _], htokens =>
      cases htokens
      cases htoken
    | [_, _, _, _], htokens =>
      cases htokens
      obtain rfl := Except.ok.inj hstack
      decide
    | _ :: _ :: _ :: _ :: _ :: _, htokens => simp at htokens
  refine ⟨hinner, hpairs, ?_⟩
  rw [reduce_substitute hinner hpairs]
  rfl

end Reduction

end CurveSketch
