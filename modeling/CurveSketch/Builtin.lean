import CurveSketch.Binary64.Rounding

/-!
# Built-in functions

The named functions that an expression may call, with one or two arguments.
-/

namespace CurveSketch

inductive Builtin where
  | abs
  | acos
  | asin
  | atan
  | cbrt
  | ceil
  | cos
  | cosh
  | exp
  | floor
  | log
  | ln
  | round
  | sin
  | sinh
  | sqrt
  | tan
  | tanh
  | max
  | min
  deriving Repr, DecidableEq

/-- What a built-in function computes from its arguments. -/
inductive Operation where
  | unary (op : Float → Float)
  | binary (op : Float → Float → Float)

/-- The number of arguments. -/
def Operation.arity : Operation → Nat
  | unary _ => 1
  | binary _ => 2

namespace Binary64

/-- The greater of two numbers, and not a number if either is not one: an
undefined argument has to show in the result. -/
def greater (a b : Float) : Float :=
  if a.isNaN || b.isNaN then 0 / 0 else if a < b then b else a

/-- The lesser of two numbers, and not a number if either is not one. -/
def lesser (a b : Float) : Float :=
  if a.isNaN || b.isNaN then 0 / 0 else if b < a then b else a

end Binary64

namespace Builtin

/-- Every built-in function, in the order of the tables that list them. -/
def all : List Builtin :=
  [abs, acos, asin, atan, cbrt, ceil, cos, cosh, exp, floor, log, ln, round, sin, sinh, sqrt,
    tan, tanh, max, min]

def name : Builtin → String
  | abs => "abs"
  | acos => "acos"
  | asin => "asin"
  | atan => "atan"
  | cbrt => "cbrt"
  | ceil => "ceil"
  | cos => "cos"
  | cosh => "cosh"
  | exp => "exp"
  | floor => "floor"
  | log => "log"
  | ln => "ln"
  | round => "round"
  | sin => "sin"
  | sinh => "sinh"
  | sqrt => "sqrt"
  | tan => "tan"
  | tanh => "tanh"
  | max => "max"
  | min => "min"

/-- The operation behind a name.  `log` is the decimal logarithm and `ln` the
natural one; a half is rounded up by `round`. -/
def operation : Builtin → Operation
  | abs => .unary Float.abs
  | acos => .unary Float.acos
  | asin => .unary Float.asin
  | atan => .unary Float.atan
  | cbrt => .unary Float.cbrt
  | ceil => .unary Binary64.ceil
  | cos => .unary Float.cos
  | cosh => .unary Float.cosh
  | exp => .unary Float.exp
  | floor => .unary Binary64.floor
  | log => .unary Float.log10
  | ln => .unary Float.log
  | round => .unary Binary64.roundHalfUp
  | sin => .unary Float.sin
  | sinh => .unary Float.sinh
  | sqrt => .unary Float.sqrt
  | tan => .unary Float.tan
  | tanh => .unary Float.tanh
  | max => .binary Binary64.greater
  | min => .binary Binary64.lesser

/-- The number of arguments that a call takes. -/
def arity (f : Builtin) : Nat :=
  f.operation.arity

/-- The names of all built-in functions, sorted. -/
def names : List String :=
  (all.map name).mergeSort (· ≤ ·)

/-! ## Facts about the table -/

theorem mem_all (f : Builtin) : f ∈ all := by
  cases f <;> decide

/-- Two functions take two arguments, all others one. -/
theorem arity_eq (f : Builtin) : f.arity = if f = max ∨ f = min then 2 else 1 := by
  cases f <;> rfl

theorem name_inj {f g : Builtin} : f.name = g.name ↔ f = g := by
  constructor
  · intro h
    cases f <;> cases g <;> first | rfl | exact absurd h (by decide)
  · exact congrArg name

end Builtin

end CurveSketch
