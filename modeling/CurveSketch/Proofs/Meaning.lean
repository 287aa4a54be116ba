import CurveSketch.Proofs.Calculator
import CurveSketch.Proofs.Loose

/-!
# The meaning of infix text

A text that writes a formula is read as the meaning of the formula
(`Formula.read_eq_curve`).  Three results are put together.

* `Formula.read_rpn_of_writtenAs` gives the tokens in reverse Polish order.
* `Formula.run_ordered` says that the calculator, on top of any numbers, turns
  these tokens into one more number, the height of the formula.
* `Calculator.reduce_of_run` makes a curve of these heights.

A minus takes a missing left operand for zero only if there is a single number on
the stack.  In a plain formula no operator ever finds fewer than two, because
every operator has a left operand and the operand has left its number.
-/

namespace CurveSketch

namespace Calculator

variable (x : Float) (stack : List Float)

/-! ## Steps on the tokens of the grammar -/

theorem run_literal (c : Literal) : run x [c.token] stack = .ok (c.value :: stack) := rfl

theorem run_free : run x [Token.free] stack = .ok (x :: stack) := rfl

theorem run_operator (op : Operator) :
    run x [op.token] stack = applyOperator op op.symbol stack :=
  run_singleton x op.token stack

theorem run_builtin (f : Builtin) : run x [f.token] stack = applyFunction f stack :=
  run_singleton x f.token stack

theorem applyFunction_unary {f : Builtin} {op : Float → Float} (h : f.operation = .unary op)
    (value : Float) : applyFunction f (value :: stack) = .ok (op value :: stack) := by
  unfold applyFunction
  rw [h]

theorem applyFunction_binary {f : Builtin} {op : Float → Float → Float}
    (h : f.operation = .binary op) (left right : Float) :
    applyFunction f (right :: left :: stack) = .ok (op left right :: stack) := by
  unfold applyFunction
  rw [h]

/-! ## Operands that leave one number each -/

variable {x stack}
variable {argument left right : List Token} {value l r : Float}

theorem run_call {f : Builtin} {op : Float → Float} (unary : f.operation = .unary op)
    (hargument : run x argument stack = .ok (value :: stack)) :
    run x (argument ++ [f.token]) stack = .ok (op value :: stack) := by
  rw [run_append, hargument]
  show run x [f.token] (value :: stack) = _
  rw [run_builtin, applyFunction_unary stack unary]

theorem run_pair (hleft : run x left stack = .ok (l :: stack))
    (hright : run x right (l :: stack) = .ok (r :: l :: stack)) :
    run x (left ++ right) stack = .ok (r :: l :: stack) := by
  rw [run_append, hleft]
  exact hright

theorem run_callPair {f : Builtin} {op : Float → Float → Float}
    (binary : f.operation = .binary op) (hleft : run x left stack = .ok (l :: stack))
    (hright : run x right (l :: stack) = .ok (r :: l :: stack)) :
    run x (left ++ right ++ [f.token]) stack = .ok (op l r :: stack) := by
  rw [run_append, run_pair hleft hright]
  show run x [f.token] (r :: l :: stack) = _
  rw [run_builtin, applyFunction_binary stack binary]

theorem run_binary {op : Operator} (hleft : run x left stack = .ok (l :: stack))
    (hright : run x right (l :: stack) = .ok (r :: l :: stack)) :
    run x (left ++ right ++ [op.token]) stack = .ok (op.apply l r :: stack) := by
  rw [run_append, run_pair hleft hright]
  exact run_operator x (r :: l :: stack) op

end Calculator

open Calculator

namespace Formula

variable {signed : Bool} {tier : Tier}

/-! ## Plain formulas -/

/-- Whether every minus has a left operand. -/
def isPlain : {tier : Tier} → Formula signed tier → Bool
  | _, literal _ | _, free => true
  | _, group e | _, call _ _ _ e | _, ofPrimary e | _, ofPower e | _, ofProduct e => e.isPlain
  | _, callPair _ _ _ a b => a.isPlain && b.isPlain
  | _, power base exponent => base.isPlain && exponent.isPlain
  | _, product left _ _ right => left.isPlain && right.isPlain
  | _, sum left _ _ right => left.isPlain && right.isPlain
  | _, negate _ _ => false

/-- Without signs every formula is plain. -/
theorem isPlain_of_unsigned (e : Formula false tier) : e.isPlain = true := by
  induction e with
  | literal c => rfl
  | free => rfl
  | group e ih => exact ih
  | call f op unary e ih => exact ih
  | callPair f op binary a b iha ihb => simp [isPlain, iha, ihb]
  | ofPrimary e ih | ofPower e ih | ofProduct e ih => exact ih
  | power base exponent ihb ihe => simp [isPlain, ihb, ihe]
  | product left op isProduct right ihl ihr => simp [isPlain, ihl, ihr]
  | sum left op isSum right ihl ihr => simp [isPlain, ihl, ihr]
  | negate allowed e ih => cases allowed

/-- The calculator puts the height of a plain formula on any stack. -/
theorem run_ordered (e : Formula signed tier) (hplain : e.isPlain = true) (x : Float)
    (stack : List Float) : run x e.ordered stack = .ok (e.curve x :: stack) := by
  induction e generalizing stack with
  | literal c => exact run_literal x stack c
  | free => exact run_free x stack
  | group e ih => exact ih hplain stack
  | call f op unary e ih =>
    show run x (e.ordered ++ [f.token]) stack = .ok (op (e.curve x) :: stack)
    exact run_call unary (ih hplain stack)
  | callPair f op binary a b iha ihb =>
    obtain ⟨ha, hb⟩ := Bool.and_eq_true_iff.mp hplain
    have hsecond := ihb hb (a.curve x :: stack)
    show run x _ stack = .ok (op (a.curve x) (b.curve x) :: stack)
    exact run_callPair binary (iha ha stack) hsecond
  | ofPrimary e ih | ofPower e ih | ofProduct e ih => exact ih hplain stack
  | power base exponent ihb ihe =>
    obtain ⟨hb, he⟩ := Bool.and_eq_true_iff.mp hplain
    have hexponent := ihe he (base.curve x :: stack)
    exact run_binary (ihb hb stack) hexponent
  | product left op isProduct right ihl ihr =>
    obtain ⟨hl, hr⟩ := Bool.and_eq_true_iff.mp hplain
    have hright := ihr hr (left.curve x :: stack)
    exact run_binary (ihl hl stack) hright
  | sum left op isSum right ihl ihr =>
    obtain ⟨hl, hr⟩ := Bool.and_eq_true_iff.mp hplain
    have hright := ihr hr (left.curve x :: stack)
    exact run_binary (ihl hl stack) hright
  | negate allowed e ih => cases hplain

/-! ## From the text to the curve -/

/-- A text that writes a formula is reduced like the formula. -/
theorem read_of_reduce {e : Formula signed tier} {text : String} (h : e.WrittenAs text) :
    Curve.read .delimited text = Reduction.reduce e.ordered := by
  rw [Curve.read, read_rpn_of_writtenAs h]
  rfl

/-- A text that writes a formula without signs is accepted, and is read as the
meaning of the formula. -/
theorem read_eq_curve (e : Formula false .sum) (text : String) (h : e.WrittenAs text) :
    Curve.read .delimited text = .ok e.curve := by
  rw [read_of_reduce h]
  apply reduce_of_run
  intro x
  exact e.run_ordered e.isPlain_of_unsigned x []

/-- `max ( x + 1 , 2 ) - 2 ^ x ^ 2` -/
def cappedTower : Formula false .sum :=
  minus
    (.ofProduct (.ofPower (.ofPrimary (maximum
      (plus (.ofProduct (.ofPower (.ofPrimary .free))) (.ofPower (.ofPrimary (.literal .one))))
      (.ofProduct (.ofPower (.ofPrimary (.literal .two))))))))
    (.ofPower (.power (.literal .two) (.power .free (.ofPrimary (.literal .two)))))

theorem read_cappedTower :
    cappedTower.WrittenAs "max ( x + 1 , 2 ) - 2 ^ x ^ 2" ∧
      Curve.read .delimited "max ( x + 1 , 2 ) - 2 ^ x ^ 2" = .ok cappedTower.curve := by
  have written : cappedTower.WrittenAs "max ( x + 1 , 2 ) - 2 ^ x ^ 2" := by
    unfold WrittenAs
    decide +kernel
  exact ⟨written, read_eq_curve cappedTower _ written⟩

end Formula

end CurveSketch
