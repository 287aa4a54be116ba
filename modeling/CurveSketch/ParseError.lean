/-!
# Why an expression is rejected

The causes, and the one place that words them.
-/

namespace CurveSketch

inductive ParseError where
  /-- There is no symbol at all. -/
  | empty
  /-- A symbol belongs to no class. -/
  | unrecognized (symbol : String)
  /-- An opening parenthesis is left over. -/
  | unclosed
  /-- A closing parenthesis has nothing to close. -/
  | unopened
  /-- A comma separates no arguments. -/
  | strayComma
  /-- The reduction leaves no value, or more than one. -/
  | leftover (count : Nat)
  /-- The reduction of several symbols leaves the variable as it is. -/
  | bareVariable
  /-- An operator or a function finds too few values. -/
  | missingOperands (symbol : String) (needed found : Nat)
  /-- A symbol that has no meaning in reverse Polish order. -/
  | unexpected (symbol : String)
  deriving Repr, DecidableEq

/-- The wording of a rejection.  Symbols are put in as they are. -/
def ParseError.message : ParseError → String
  | empty => "expression is empty"
  | unrecognized symbol => "unrecognized symbol '" ++ symbol ++ "'"
  | unclosed => "'(' is never closed"
  | unopened => "')' has no matching '('"
  | strayComma => "',' appears outside of a parenthesized argument list"
  | leftover count => "expected a single value after reduction, found " ++ toString count
  | bareVariable => "expression reduced to a bare variable without applying its operators"
  | missingOperands symbol needed found =>
    "'" ++ symbol ++ "' needs " ++ toString needed ++ " operand(s), found " ++ toString found
  | unexpected symbol => "'" ++ symbol ++ "' cannot appear in postfix output"

end CurveSketch
