import CurveSketch.Reduction
import CurveSketch.Trail

/-!
# What a reduction leaves on the stack

`Reduction.finish` knows three ways to end: the stack holds one value, it holds
the bare variable although several tokens were read, or it holds another number
of values.  The second way is never taken: `length_eq_one_of_foldlM_variable`
says that the bare variable is left by a single token only.  So
`reduce_eq_single` is the form of `Reduction.reduce` that later proofs use, which
asks for a single slot and for nothing else.

The reason is that a step never uncovers an old slot.  `Reduces` is everything that
a step can do (`step_eq_ok_iff`).  The top of the stack is always the result of the
latest step (`step_eq_ok_cons`), and only a variable token has the bare variable as
its result.
-/

namespace CurveSketch

namespace Slot

/-- Whether the slot is the variable itself. -/
def isVariable : Slot → Bool
  | .variable => true
  | _ => false

@[simp]
theorem isVariable_apply (op : Float → Float) (slot : Slot) :
    (slot.apply op).isVariable = false := by
  cases slot <;> rfl

@[simp]
theorem isVariable_combine (op : Float → Float → Float) (left right : Slot) :
    (combine op left right).isVariable = false := by
  cases left <;> cases right <;> rfl

end Slot

/-! ## One step -/

/-- What an operator or a function computes. -/
def Token.operation? (token : Token) : Option Operation :=
  match token.kind with
  | .operator op => some (.binary op.apply)
  | .function f => some f.operation
  | _ => none

namespace Reduction

/-- What a step has done that succeeds. -/
inductive Reduces (token : Token) : List Slot → List Slot → Prop where
  | constant {value : Float} {stack : List Slot} (h : token.kind = .constant value) :
      Reduces token stack (.constant value :: stack)
  | variable {stack : List Slot} (h : token.kind = .variable) :
      Reduces token stack (.variable :: stack)
  | unary {op : Float → Float} {slot : Slot} {rest : List Slot}
      (h : token.operation? = some (.unary op)) :
      Reduces token (slot :: rest) (slot.apply op :: rest)
  | binary {op : Float → Float → Float} {left right : Slot} {rest : List Slot}
      (h : token.operation? = some (.binary op)) :
      Reduces token (right :: left :: rest) (.combine op left right :: rest)
  | negation {slot : Slot} (h : token.kind = .operator .subtract) :
      Reduces token [slot] [.combine Operator.subtract.apply (.constant 0) slot]

variable {token : Token} {stack next : List Slot}

theorem reduces_of_applyOperator {op : Operator} (hkind : token.kind = .operator op)
    (h : applyOperator op token.symbol stack = .ok next) : Reduces token stack next := by
  have hop : token.operation? = some (.binary op.apply) := by simp [Token.operation?, hkind]
  rcases stack with _ | ⟨right, _ | ⟨left, rest⟩⟩
  · cases h
  · rw [applyOperator] at h
    split at h
    · rename_i hsubtract
      subst hsubtract
      obtain rfl := Except.ok.inj h
      exact .negation hkind
    · cases h
  · obtain rfl := Except.ok.inj h
    exact .binary hop

theorem reduces_of_applyFunction {f : Builtin} (hkind : token.kind = .function f)
    (h : applyFunction f stack = .ok next) : Reduces token stack next := by
  have hop : token.operation? = some f.operation := by simp [Token.operation?, hkind]
  unfold applyFunction at h
  split at h
  · rename_i hunary
    obtain rfl := Except.ok.inj h
    exact .unary (hop.trans (congrArg some hunary))
  · cases h
  · rename_i hbinary
    obtain rfl := Except.ok.inj h
    exact .binary (hop.trans (congrArg some hbinary))
  · cases h

theorem step_of_unary {op : Float → Float} (h : token.operation? = some (.unary op))
    (slot : Slot) (rest : List Slot) :
    step (slot :: rest) token = .ok (slot.apply op :: rest) := by
  obtain ⟨symbol, kind⟩ := token
  cases kind with
  | function f =>
    have hop : f.operation = .unary op := Option.some.inj h
    simp [step, applyFunction, hop]
  | _ => cases h

theorem step_of_binary {op : Float → Float → Float} (h : token.operation? = some (.binary op))
    (left right : Slot) (rest : List Slot) :
    step (right :: left :: rest) token = .ok (.combine op left right :: rest) := by
  obtain ⟨symbol, kind⟩ := token
  cases kind with
  | operator op =>
    cases h
    rfl
  | function f =>
    have hop : f.operation = .binary op := Option.some.inj h
    simp [step, applyFunction, hop]
  | _ => cases h

theorem step_eq_ok_iff : step stack token = .ok next ↔ Reduces token stack next := by
  constructor
  · intro h
    unfold step at h
    split at h
    · obtain rfl := Except.ok.inj h
      exact .constant ‹_›
    · obtain rfl := Except.ok.inj h
      exact .variable ‹_›
    · exact reduces_of_applyOperator ‹_› h
    · exact reduces_of_applyFunction ‹_› h
    all_goals cases h
  · intro h
    cases h with
    | constant h => simp only [step, h]
    | «variable» h => simp only [step, h]
    | unary h => exact step_of_unary h _ _
    | binary h => exact step_of_binary h _ _ _
    | negation h => simp only [step, h, applyOperator, if_true]

/-- After a step the stack has a top.  It is the bare variable only if the step
has pushed it. -/
theorem step_eq_ok_cons (h : step stack token = .ok next) :
    ∃ slot rest, next = slot :: rest ∧ (slot.isVariable → rest = stack) := by
  cases step_eq_ok_iff.mp h with
  | constant hkind => exact ⟨_, _, rfl, fun hvar => by cases hvar⟩
  | «variable» hkind => exact ⟨_, _, rfl, fun _ => rfl⟩
  | unary hop => exact ⟨_, _, rfl, fun hvar => by simp at hvar⟩
  | binary hop => exact ⟨_, _, rfl, fun hvar => by simp at hvar⟩
  | negation hkind => exact ⟨_, _, rfl, fun hvar => by simp at hvar⟩

/-! ## A whole run -/

/-- Tokens leave something on the stack. -/
theorem tokens_eq_nil_of_foldlM_nil {tokens : List Token}
    (h : tokens.foldlM step [] = .ok []) : tokens = [] := by
  rcases List.eq_nil_or_concat tokens with rfl | ⟨init, token, rfl⟩
  · rfl
  · rw [List.concat_eq_append] at h
    obtain ⟨before, -, hstep⟩ := foldlM_concat_eq_ok h
    obtain ⟨slot, rest, hcons, -⟩ := step_eq_ok_cons hstep
    cases hcons

/-- Only a single token leaves the bare variable. -/
theorem length_eq_one_of_foldlM_variable {tokens : List Token}
    (h : tokens.foldlM step [] = .ok [.variable]) : tokens.length = 1 := by
  rcases List.eq_nil_or_concat tokens with rfl | ⟨init, token, rfl⟩
  · cases h
  · rw [List.concat_eq_append] at h
    obtain ⟨before, hbefore, hstep⟩ := foldlM_concat_eq_ok h
    obtain ⟨slot, rest, hcons, hvar⟩ := step_eq_ok_cons hstep
    obtain ⟨rfl, rfl⟩ := List.cons.inj hcons
    obtain rfl := hvar rfl
    rw [tokens_eq_nil_of_foldlM_nil hbefore]
    rfl

/-- The curve of the only slot. -/
def single : List Slot → Except ParseError Curve
  | [slot] => .ok slot.toCurve
  | stack => .error (.leftover stack.length)

/-- On a stack that its tokens have left, `finish` asks for nothing but a single
slot. -/
theorem finish_eq_single {tokens : List Token} {stack : List Slot}
    (h : tokens.foldlM step [] = .ok stack) : finish tokens.length stack = single stack := by
  rcases stack with _ | ⟨slot, _ | ⟨second, rest⟩⟩
  · rfl
  · rcases slot with value | _ | f
    · rfl
    · exact if_pos (length_eq_one_of_foldlM_variable h)
    · rfl
  · cases slot <;> rfl

theorem reduce_eq_single (tokens : List Token) :
    reduce tokens = tokens.foldlM step [] >>= single := by
  show tokens.foldlM step [] >>= finish tokens.length = _
  cases h : tokens.foldlM step [] with
  | error cause => rfl
  | ok stack => exact finish_eq_single h

end Reduction

end CurveSketch
