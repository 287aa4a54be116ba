import CurveSketch.Curve
import CurveSketch.Rpn

/-!
# Reducing an expression to a curve

Tokens in reverse Polish order are reduced on a stack.  A slot of the stack is a
number as long as no variable is involved, so that constant parts of an
expression are computed once and not at every point.

A minus that finds a single value negates it: it is the only operator that does
with one operand.
-/

namespace CurveSketch

/-- A value on the stack. -/
inductive Slot where
  | constant (value : Float)
  | variable
  | curve (f : Curve)

namespace Slot

/-- The value as a function of the variable. -/
def toCurve : Slot → Curve
  | .constant value => Curve.constant value
  | .variable => Curve.identity
  | .curve f => f

/-- Applies a function of one argument. -/
def apply (op : Float → Float) : Slot → Slot
  | .constant value => .constant (op value)
  | .variable => .curve fun x => op x
  | .curve f => .curve fun x => op (f x)

/-- Applies a function of two arguments.  Numbers and the variable itself are put
in as they are, so that no curve is evaluated for them. -/
def combine (op : Float → Float → Float) : Slot → Slot → Slot
  | .constant left, .constant right => .constant (op left right)
  | .constant left, .variable => .curve fun x => op left x
  | .variable, .constant right => .curve fun x => op x right
  | .variable, .variable => .curve fun x => op x x
  | left, right => .curve fun x => op (left.toCurve x) (right.toCurve x)

end Slot

namespace Reduction

/-- What an operator does to the stack, the latest value first. -/
def applyOperator (op : Operator) (symbol : String) :
    List Slot → Except ParseError (List Slot)
  | right :: left :: rest => .ok (Slot.combine op.apply left right :: rest)
  | [value] =>
    if op = .subtract then .ok [Slot.combine op.apply (.constant 0) value]
    else .error (.missingOperands symbol 2 1)
  | [] => .error (.missingOperands symbol 2 0)

/-- What a function does to the stack, the latest value first. -/
def applyFunction (f : Builtin) (stack : List Slot) : Except ParseError (List Slot) :=
  match f.operation, stack with
  | .unary op, value :: rest => .ok (value.apply op :: rest)
  | .unary _, [] => .error (.missingOperands f.name 1 0)
  | .binary op, right :: left :: rest => .ok (Slot.combine op left right :: rest)
  | .binary _, few => .error (.missingOperands f.name 2 few.length)

/-- What one token does to the stack, the latest value first. -/
def step (stack : List Slot) (token : Token) : Except ParseError (List Slot) :=
  match token.kind with
  | .constant value => .ok (.constant value :: stack)
  | .variable => .ok (.variable :: stack)
  | .operator op => applyOperator op token.symbol stack
  | .function f => applyFunction f stack
  | .comma | .opening | .closing | .invalid => .error (.unexpected token.symbol)

/-- The curve that the stack holds after `count` tokens.  It has to be the only
value, and the variable on its own comes of the variable alone. -/
def finish (count : Nat) : List Slot → Except ParseError Curve
  | [.curve f] => .ok f
  | [.constant value] => .ok (Curve.constant value)
  | [.variable] => if count = 1 then .ok Curve.identity else .error .bareVariable
  | stack => .error (.leftover stack.length)

/-- The curve of an expression in reverse Polish order. -/
def reduce (tokens : List Token) : Except ParseError Curve := do
  finish tokens.length (← tokens.foldlM step [])

end Reduction

/-- The curve of an infix text. -/
def Curve.read (mode : CommaMode) (text : String) : Except ParseError Curve := do
  Reduction.reduce (← Rpn.read mode text)

/-! ## A slot stands for a function of the variable -/

namespace Slot

@[simp]
theorem toCurve_apply (op : Float → Float) (slot : Slot) (x : Float) :
    (slot.apply op).toCurve x = op (slot.toCurve x) := by
  cases slot <;> rfl

@[simp]
theorem toCurve_combine (op : Float → Float → Float) (left right : Slot) (x : Float) :
    (combine op left right).toCurve x = op (left.toCurve x) (right.toCurve x) := by
  cases left <;> cases right <;> rfl

end Slot

namespace Reduction

/-- A stack is accepted as the curve of its only slot. -/
theorem finish_eq_ok {count : Nat} {stack : List Slot} {f : Curve}
    (h : finish count stack = .ok f) : ∃ slot, stack = [slot] ∧ slot.toCurve = f := by
  unfold finish at h
  split at h
  · exact ⟨_, rfl, Except.ok.inj h⟩
  · exact ⟨_, rfl, Except.ok.inj h⟩
  · split at h
    · exact ⟨_, rfl, Except.ok.inj h⟩
    · cases h
  · cases h

end Reduction

end CurveSketch
