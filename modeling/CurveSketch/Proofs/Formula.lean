import CurveSketch.Curve
import CurveSketch.Token

/-!
# Formulas

`Formula` is the grammar of infix expressions.  Sums are made of products,
products of powers and powers of primaries; sums and products group to the left
and powers to the right.  A formula is a derivation tree of this grammar, so
parentheses that are not needed are part of it.

With `signed` the grammar also lets a sum begin with a minus.  A sum is what
stands in a group, in an argument or alone, so these are the places where a minus
may have no left operand.

A formula has three readings.

* `tokens` is how it is written.  `WrittenAs` says that a text has these symbols
  between its blanks, and `read_of_writtenAs` that `Token.read` gives the tokens
  back.
* `ordered` is its reverse Polish order.
* `curve` is its meaning: every operator and every function is applied to the
  meanings of its own operands.
-/

namespace CurveSketch

/-! ## The tokens of the grammar -/

/-- A symbol that spells a constant. -/
structure Literal where
  symbol : String
  value : Float
  read_symbol : Constant.read? symbol.toList = some value

def Literal.one : Literal := ⟨"1", 1, rfl⟩

def Literal.two : Literal := ⟨"2", 2, rfl⟩

def Literal.token (c : Literal) : Token := ⟨c.symbol, .constant c.value⟩

def Operator.token (op : Operator) : Token := ⟨op.symbol, .operator op⟩

def Builtin.token (f : Builtin) : Token := ⟨f.name, .function f⟩

namespace Token

/-- The variable. -/
def free : Token := ⟨variableSymbol, .variable⟩

def opening : Token := ⟨"(", .opening⟩

def closing : Token := ⟨")", .closing⟩

def comma : Token := ⟨",", .comma⟩

end Token

/-! ## The grammar -/

/-- How tightly a formula holds together, the loosest first. -/
inductive Tier where
  | sum
  | product
  | power
  | primary
  deriving Repr, DecidableEq

/-- The derivation trees of infix expressions.  If they are `signed`, a sum may
begin with a minus. -/
inductive Formula (signed : Bool) : Tier → Type where
  | literal (c : Literal) : Formula signed .primary
  | free : Formula signed .primary
  | group (e : Formula signed .sum) : Formula signed .primary
  | call (f : Builtin) (op : Float → Float) (unary : f.operation = .unary op)
      (argument : Formula signed .sum) : Formula signed .primary
  | callPair (f : Builtin) (op : Float → Float → Float) (binary : f.operation = .binary op)
      (first second : Formula signed .sum) : Formula signed .primary
  | ofPrimary (e : Formula signed .primary) : Formula signed .power
  | power (base : Formula signed .primary) (exponent : Formula signed .power) :
      Formula signed .power
  | ofPower (e : Formula signed .power) : Formula signed .product
  | product (left : Formula signed .product) (op : Operator)
      (isProduct : op = .multiply ∨ op = .divide) (right : Formula signed .power) :
      Formula signed .product
  | ofProduct (e : Formula signed .product) : Formula signed .sum
  | sum (left : Formula signed .sum) (op : Operator) (isSum : op = .add ∨ op = .subtract)
      (right : Formula signed .product) : Formula signed .sum
  | negate (allowed : signed = true) (e : Formula signed .product) : Formula signed .sum

namespace Formula

variable {signed : Bool} {tier : Tier}

/-- `left + right` -/
def plus (left : Formula signed .sum) (right : Formula signed .product) :
    Formula signed .sum :=
  .sum left .add (Or.inl rfl) right

/-- `left - right` -/
def minus (left : Formula signed .sum) (right : Formula signed .product) :
    Formula signed .sum :=
  .sum left .subtract (Or.inr rfl) right

/-- `max ( first , second )` -/
def maximum (first second : Formula signed .sum) : Formula signed .primary :=
  .callPair .max Binary64.greater rfl first second

/-- How the formula is written. -/
def tokens : {tier : Tier} → Formula signed tier → List Token
  | _, literal c => [c.token]
  | _, free => [Token.free]
  | _, group e => Token.opening :: (e.tokens ++ [Token.closing])
  | _, call f _ _ e => f.token :: Token.opening :: (e.tokens ++ [Token.closing])
  | _, callPair f _ _ a b =>
    f.token :: Token.opening :: (a.tokens ++ Token.comma :: (b.tokens ++ [Token.closing]))
  | _, ofPrimary e => e.tokens
  | _, power base exponent => base.tokens ++ Operator.power.token :: exponent.tokens
  | _, ofPower e => e.tokens
  | _, product left op _ right => left.tokens ++ op.token :: right.tokens
  | _, ofProduct e => e.tokens
  | _, sum left op _ right => left.tokens ++ op.token :: right.tokens
  | _, negate _ e => Operator.subtract.token :: e.tokens

/-- The tokens in reverse Polish order.  A minus without a left operand stands
after its only operand. -/
def ordered : {tier : Tier} → Formula signed tier → List Token
  | _, literal c => [c.token]
  | _, free => [Token.free]
  | _, group e => e.ordered
  | _, call f _ _ e => e.ordered ++ [f.token]
  | _, callPair f _ _ a b => a.ordered ++ b.ordered ++ [f.token]
  | _, ofPrimary e => e.ordered
  | _, power base exponent => base.ordered ++ exponent.ordered ++ [Operator.power.token]
  | _, ofPower e => e.ordered
  | _, product left op _ right => left.ordered ++ right.ordered ++ [op.token]
  | _, ofProduct e => e.ordered
  | _, sum left op _ right => left.ordered ++ right.ordered ++ [op.token]
  | _, negate _ e => e.ordered ++ [Operator.subtract.token]

/-- The meaning of the formula. -/
def curve : {tier : Tier} → Formula signed tier → Curve
  | _, literal c => Curve.constant c.value
  | _, free => Curve.identity
  | _, group e => e.curve
  | _, call _ op _ e => fun x => op (e.curve x)
  | _, callPair _ op _ a b => fun x => op (a.curve x) (b.curve x)
  | _, ofPrimary e => e.curve
  | _, power base exponent => fun x => Operator.power.apply (base.curve x) (exponent.curve x)
  | _, ofPower e => e.curve
  | _, product left op _ right => fun x => op.apply (left.curve x) (right.curve x)
  | _, ofProduct e => e.curve
  | _, sum left op _ right => fun x => op.apply (left.curve x) (right.curve x)
  | _, negate _ e => fun x => 0 - e.curve x

/-- The symbols of the formula, as they are written. -/
def symbols (e : Formula signed tier) : List String :=
  e.tokens.map Token.symbol

/-- The symbols between the blanks of the text are those of the formula. -/
def WrittenAs (e : Formula signed tier) (text : String) : Prop :=
  (Text.words text.toList).map String.ofList = e.symbols

end Formula

/-! ## Symbols are classified as the tokens that they are written for -/

theorem Literal.classify_symbol (c : Literal) : Token.classify c.symbol = c.token := by
  rw [Token.classify, Kind.ofText, c.read_symbol]
  rfl

theorem Operator.classify_symbol (op : Operator) : Token.classify op.symbol = op.token := by
  cases op <;> rfl

theorem Builtin.classify_name (f : Builtin) : Token.classify f.name = f.token := by
  cases f <;> rfl

namespace Token

/-- A token that its own symbol is classified as, and that has a meaning. -/
def IsWritable (token : Token) : Prop :=
  classify token.symbol = token ∧ token.kind.isInvalid = false

theorem isWritable_literal (c : Literal) : c.token.IsWritable := ⟨c.classify_symbol, rfl⟩

theorem isWritable_operator (op : Operator) : op.token.IsWritable := ⟨op.classify_symbol, rfl⟩

theorem isWritable_builtin (f : Builtin) : f.token.IsWritable := ⟨f.classify_name, rfl⟩

theorem isWritable_free : free.IsWritable := ⟨rfl, rfl⟩

theorem isWritable_opening : opening.IsWritable := ⟨rfl, rfl⟩

theorem isWritable_closing : closing.IsWritable := ⟨rfl, rfl⟩

theorem isWritable_comma : comma.IsWritable := ⟨rfl, rfl⟩

/-- Tokens are read if there are any and all have a meaning. -/
theorem read_eq_ok {text : String} {tokens : List Token} (hsplit : split text = tokens)
    (hne : tokens ≠ []) (hvalid : ∀ token ∈ tokens, token.kind.isInvalid = false) :
    read text = .ok tokens := by
  have hfind : tokens.find? (·.kind.isInvalid) = none := by
    rw [List.find?_eq_none]
    intro token htoken
    simp [hvalid token htoken]
  simp [read, hsplit, hfind, hne]

/-- The symbols between the blanks of the text are those of the tokens. -/
def AreWrittenAs (tokens : List Token) (text : String) : Prop :=
  (Text.words text.toList).map String.ofList = tokens.map Token.symbol

/-- A text is split into the tokens that it is written for. -/
theorem split_of_areWrittenAs {tokens : List Token} {text : String} (h : AreWrittenAs tokens text)
    (hwritable : ∀ token ∈ tokens, token.IsWritable) : split text = tokens := by
  calc split text
      = ((Text.words text.toList).map String.ofList).map classify := by
        rw [split, List.map_map]
        rfl
    _ = (tokens.map Token.symbol).map classify := by rw [h]
    _ = tokens := by
        have hid : ∀ token ∈ tokens, (classify ∘ Token.symbol) token = id token :=
          fun token htoken => (hwritable token htoken).1
        rw [List.map_map, List.map_congr_left hid, List.map_id]

theorem read_of_areWrittenAs {tokens : List Token} {text : String} (h : AreWrittenAs tokens text)
    (hne : tokens ≠ []) (hwritable : ∀ token ∈ tokens, token.IsWritable) :
    read text = .ok tokens :=
  read_eq_ok (split_of_areWrittenAs h hwritable) hne fun token htoken =>
    (hwritable token htoken).2

end Token

namespace Formula

variable {signed : Bool} {tier : Tier}

theorem tokens_ne_nil (e : Formula signed tier) : e.tokens ≠ [] := by
  induction e <;> simp_all [tokens]

theorem isWritable_of_mem_tokens (e : Formula signed tier) :
    ∀ token ∈ e.tokens, token.IsWritable := by
  induction e with
  | literal c => simp [tokens, Token.isWritable_literal]
  | free => simp [tokens, Token.isWritable_free]
  | group e ih =>
    simp only [tokens, List.forall_mem_cons, List.forall_mem_append]
    exact ⟨Token.isWritable_opening, ih, Token.isWritable_closing, by simp⟩
  | call f op unary e ih =>
    simp only [tokens, List.forall_mem_cons, List.forall_mem_append]
    exact ⟨Token.isWritable_builtin f, Token.isWritable_opening, ih,
      Token.isWritable_closing, by simp⟩
  | callPair f op binary a b iha ihb =>
    simp only [tokens, List.forall_mem_cons, List.forall_mem_append]
    exact ⟨Token.isWritable_builtin f, Token.isWritable_opening, iha, Token.isWritable_comma,
      ihb, Token.isWritable_closing, by simp⟩
  | ofPrimary e ih | ofPower e ih | ofProduct e ih => exact ih
  | power base exponent ihb ihe =>
    simp only [tokens, List.forall_mem_cons, List.forall_mem_append]
    exact ⟨ihb, Token.isWritable_operator _, ihe⟩
  | product left op isProduct right ihl ihr =>
    simp only [tokens, List.forall_mem_cons, List.forall_mem_append]
    exact ⟨ihl, Token.isWritable_operator op, ihr⟩
  | sum left op isSum right ihl ihr =>
    simp only [tokens, List.forall_mem_cons, List.forall_mem_append]
    exact ⟨ihl, Token.isWritable_operator op, ihr⟩
  | negate allowed e ih =>
    simp only [tokens, List.forall_mem_cons]
    exact ⟨Token.isWritable_operator _, ih⟩

/-- The tokens of a text are those of the formula that it writes. -/
theorem read_of_writtenAs {e : Formula signed tier} {text : String} (h : e.WrittenAs text) :
    Token.read text = .ok e.tokens :=
  Token.read_of_areWrittenAs h e.tokens_ne_nil e.isWritable_of_mem_tokens

end Formula

end CurveSketch
