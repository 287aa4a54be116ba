/-!
# Operators

The five infix operators, how tightly they bind and what they compute.
-/

namespace CurveSketch

/-- Which of two equal operators in a row is applied first. -/
inductive Associativity where
  | left
  | right
  deriving Repr, DecidableEq

inductive Operator where
  | add
  | subtract
  | multiply
  | divide
  | power
  deriving Repr, DecidableEq

namespace Operator

/-- Every operator, in the order of the tables that list them. -/
def all : List Operator := [add, subtract, multiply, divide, power]

def symbol : Operator → String
  | add => "+"
  | subtract => "-"
  | multiply => "*"
  | divide => "/"
  | power => "^"

/-- The greater, the tighter the operator binds. -/
def precedence : Operator → Nat
  | add | subtract => 1
  | multiply | divide => 2
  | power => 3

def associativity : Operator → Associativity
  | power => .right
  | _ => .left

/-- The value of `left op right`.  Nothing is trapped: a division by zero or a
root of a negative number is an infinity or not a number. -/
def apply : Operator → Float → Float → Float
  | add, left, right => left + right
  | subtract, left, right => left - right
  | multiply, left, right => left * right
  | divide, left, right => left / right
  | power, left, right => left.pow right

/-- Whether a pending operator is applied before `next`, which stands to the
right of it: it binds tighter, or equally tight and equals group to the left. -/
def yieldsTo (pending next : Operator) : Bool :=
  next.precedence < pending.precedence
    || (next.precedence == pending.precedence && next.associativity == .left)

/-! ## Facts about the table -/

theorem mem_all (op : Operator) : op ∈ all := by
  cases op <;> decide

theorem symbol_inj {a b : Operator} : a.symbol = b.symbol ↔ a = b := by
  cases a <;> cases b <;> decide

/-- An operator stays pending below `next` exactly if `next` binds tighter, or
both are powers. -/
theorem yieldsTo_eq_false_iff {pending next : Operator} :
    pending.yieldsTo next = false ↔
      pending.precedence < next.precedence ∨ pending = power ∧ next = power := by
  cases pending <;> cases next <;> decide

end Operator

end CurveSketch
