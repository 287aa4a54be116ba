import CurveSketch.Decimal.Numeral
import CurveSketch.ParseError
import CurveSketch.Symbol
import CurveSketch.Text.Blank

/-!
# Tokens

An expression is written as symbols between blanks.  `Token.classify` says what
a symbol is, `Token.split` classifies all symbols of a text and `Token.read`
insists that every one of them has a meaning.
-/

namespace CurveSketch

/-- What a symbol stands for. -/
inductive Kind where
  | constant (value : Float)
  | variable
  | operator (op : Operator)
  | function (f : Builtin)
  | comma
  | opening
  | closing
  | invalid

/-- A symbol together with what it stands for. -/
structure Token where
  symbol : String
  kind : Kind

/-! ## Constants -/

namespace Constant

/-- Euler's number, to the nearest binary64 number. -/
def e : Float := 2.718281828459045

/-- The circle number, to the nearest binary64 number. -/
def pi : Float := 3.141592653589793

/-- The constant that a text spells: one of the two names, a numeral, or
`Infinity` or `NaN` in this very spelling after at most one sign. -/
def read? (text : List Char) : Option Float :=
  if text = ['e'] then some e
  else if text = ['p', 'i'] then some pi
  else
    let (negative, unsigned) := Numeral.splitSign text
    if unsigned = "Infinity".toList then some (Numeral.signed negative (1 / 0))
    else if unsigned = "NaN".toList then some (Numeral.signed negative (0 / 0))
    else (Numeral.read? text).map Numeral.value

end Constant

/-! ## Classification -/

/-- How the free variable is written. -/
def variableSymbol : String := "x"

namespace Kind

/-- The kind of a symbol of the table. -/
def ofSymbol : Symbol → Kind
  | .operator op => .operator op
  | .function f => .function f

/-- The kind of a text. -/
def ofText (text : String) : Kind :=
  match Constant.read? text.toList with
  | some value => .constant value
  | none =>
    if text = variableSymbol then .variable
    else if text = "," then .comma
    else if text = "(" then .opening
    else if text = ")" then .closing
    else ((Symbol.find? text).map ofSymbol).getD .invalid

/-- Whether a symbol of the kind is an operand by itself. -/
def isOperand : Kind → Bool
  | constant _ => true
  | .variable => true
  | _ => false

def isOperator : Kind → Bool
  | operator _ => true
  | _ => false

def isFunction : Kind → Bool
  | function _ => true
  | _ => false

def isComma : Kind → Bool
  | comma => true
  | _ => false

def isOpening : Kind → Bool
  | opening => true
  | _ => false

def isInvalid : Kind → Bool
  | invalid => true
  | _ => false

end Kind

namespace Token

/-- The token of one symbol. -/
def classify (symbol : String) : Token :=
  ⟨symbol, Kind.ofText symbol⟩

/-- The tokens of a text, unrecognized ones included. -/
def split (text : String) : List Token :=
  (Text.words text.toList).map (classify <| String.ofList ·)

/-- The tokens of a text, if there are any and all have a meaning.  The first
one without a meaning is reported. -/
def read (text : String) : Except ParseError (List Token) :=
  let tokens := split text
  match tokens.find? (·.kind.isInvalid) with
  | some token => .error (.unrecognized token.symbol)
  | none => if tokens.isEmpty then .error .empty else .ok tokens

/-- How tightly an operator binds; other tokens have no precedence. -/
def precedence? (token : Token) : Option Nat :=
  match token.kind with
  | .operator op => some op.precedence
  | _ => none

/-- How an operator groups; other tokens have no associativity. -/
def associativity? (token : Token) : Option Associativity :=
  match token.kind with
  | .operator op => some op.associativity
  | _ => none

/-- The number of operands of an operator or a function. -/
def arity? (token : Token) : Option Nat :=
  match token.kind with
  | .operator _ => some 2
  | .function f => some f.arity
  | _ => none

end Token

/-! ## Facts about kinds -/

namespace Kind

theorem isOperator_eq_false_of_isOperand {kind : Kind} (h : kind.isOperand = true) :
    kind.isOperator = false := by
  cases kind with
  | operator op => cases h
  | _ => rfl

theorem isOperator_eq_false_of_isFunction {kind : Kind} (h : kind.isFunction = true) :
    kind.isOperator = false := by
  cases kind with
  | function f => rfl
  | _ => cases h

theorem isOpening_eq_false_of_isFunction {kind : Kind} (h : kind.isFunction = true) :
    kind.isOpening = false := by
  cases kind with
  | function f => rfl
  | _ => cases h

theorem eq_comma_of_isComma {kind : Kind} (h : kind.isComma = true) : kind = comma := by
  cases kind with
  | comma => rfl
  | _ => cases h

theorem isFunction_eq_false_of_isOpening {kind : Kind} (h : kind.isOpening = true) :
    kind.isFunction = false := by
  cases kind with
  | opening => rfl
  | _ => cases h

end Kind

/-! ## Facts about reading -/

namespace Token

theorem symbol_classify (symbol : String) : (classify symbol).symbol = symbol := rfl

/-- The symbols of a text are its words. -/
theorem map_symbol_split (text : String) :
    (split text).map Token.symbol = (Text.words text.toList).map String.ofList := by
  simp [split, classify]

/-- Every token of a text is the classification of its own symbol. -/
theorem eq_classify_of_mem_split {text : String} {token : Token} (h : token ∈ split text) :
    token = classify token.symbol := by
  obtain ⟨word, -, rfl⟩ := List.mem_map.mp h
  rfl

/-- What is read are all the tokens of the text. -/
theorem eq_split_of_read {text : String} {tokens : List Token} (h : read text = .ok tokens) :
    tokens = split text := by
  simp only [read] at h
  split at h
  · cases h
  · split at h
    · cases h
    · exact (Except.ok.inj h).symm

end Token

end CurveSketch
