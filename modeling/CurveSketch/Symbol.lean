import CurveSketch.Operator
import CurveSketch.Builtin

/-!
# The symbol table

The symbols that name an operator or a built-in function.
-/

namespace CurveSketch

/-- What a symbol of the table names. -/
inductive Symbol where
  | operator (op : Operator)
  | function (f : Builtin)
  deriving Repr, DecidableEq

namespace Symbol

/-- How the symbol is written. -/
def text : Symbol → String
  | operator op => op.symbol
  | function f => f.name

/-- The whole table. -/
def table : List Symbol :=
  Operator.all.map operator ++ Builtin.all.map function

/-- The entry that is written as `s`, if there is one. -/
def find? (s : String) : Option Symbol :=
  table.find? (·.text == s)

/-! ## The table has no gap and no double -/

theorem mem_table (symbol : Symbol) : symbol ∈ table := by
  cases symbol with
  | operator op => simp [table, Operator.mem_all]
  | function f => simp [table, Builtin.mem_all]

theorem text_inj {a b : Symbol} : a.text = b.text ↔ a = b := by
  constructor
  · cases a <;> cases b
    · simp [text, Operator.symbol_inj]
    · rename_i op f
      cases op <;> cases f <;> simp [text, Operator.symbol, Builtin.name]
    · rename_i f op
      cases op <;> cases f <;> simp [text, Operator.symbol, Builtin.name]
    · simp [text, Builtin.name_inj]
  · exact congrArg text

/-- A symbol is found under its own text and no other. -/
theorem find?_eq_some_iff {s : String} {symbol : Symbol} :
    find? s = some symbol ↔ symbol.text = s := by
  constructor
  · intro h
    simpa using List.find?_some h
  · intro h
    cases found : find? s with
    | none => simpa [h] using List.find?_eq_none.mp found symbol (mem_table symbol)
    | some other =>
      have : other.text = s := by simpa using List.find?_some found
      rw [text_inj.mp (this.trans h.symm)]

end Symbol

end CurveSketch
