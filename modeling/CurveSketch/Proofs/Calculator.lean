import CurveSketch.Proofs.Slots

/-!
# A calculator for reverse Polish order

`Calculator.evaluate` reads tokens in reverse Polish order and computes their
value at one `x`.  Its stack holds numbers only: the variable is its value at
once, nothing is computed in advance, and no curve is ever built.  It knows the
same rejections as `Reduction.reduce`, the bare variable apart.

The main result is `evaluate_agrees_with_reduce`: the two machines agree on all
tokens, accepted or not.

* `heights x` sends a stack of slots to the numbers that they stand for at `x`.
  One step of either machine commutes with it (`step_heights`), and so does a
  whole run (`run_heights`).
* `reduce_eq_of_evaluate`, `reduce_of_run` and `reduce_of_run_error` lead back.  They say
  what `Reduction.reduce` does from what the calculator does, so that a proof about the
  reduction need not tell numbers, the variable and curves apart.
-/

namespace CurveSketch

namespace Calculator

/-! ## The machine -/

/-- What an operator does to the stack, the latest number first. -/
def applyOperator (op : Operator) (symbol : String) :
    List Float → Except ParseError (List Float)
  | right :: left :: rest => .ok (op.apply left right :: rest)
  | [value] => if op = .subtract then .ok [0 - value] else .error (.missingOperands symbol 2 1)
  | [] => .error (.missingOperands symbol 2 0)

/-- What a function does to the stack, the latest number first. -/
def applyFunction (f : Builtin) (stack : List Float) : Except ParseError (List Float) :=
  match f.operation, stack with
  | .unary op, value :: rest => .ok (op value :: rest)
  | .unary _, [] => .error (.missingOperands f.name 1 0)
  | .binary op, right :: left :: rest => .ok (op left right :: rest)
  | .binary _, few => .error (.missingOperands f.name 2 few.length)

/-- What one token does to the stack, the latest number first. -/
def step (x : Float) (stack : List Float) (token : Token) : Except ParseError (List Float) :=
  match token.kind with
  | .constant value => .ok (value :: stack)
  | .variable => .ok (x :: stack)
  | .operator op => applyOperator op token.symbol stack
  | .function f => applyFunction f stack
  | .comma | .opening | .closing | .invalid => .error (.unexpected token.symbol)

/-- What tokens do to the stack, one after the other. -/
def run (x : Float) (tokens : List Token) (stack : List Float) :
    Except ParseError (List Float) :=
  tokens.foldlM (step x) stack

/-- The only number on the stack. -/
def finish : List Float → Except ParseError Float
  | [value] => .ok value
  | stack => .error (.leftover stack.length)

/-- The value at `x` of an expression in reverse Polish order. -/
def evaluate (tokens : List Token) (x : Float) : Except ParseError Float := do
  finish (← run x tokens [])

/-! ## One step of both machines -/

/-- The numbers that the slots stand for at `x`. -/
def heights (x : Float) (stack : List Slot) : List Float :=
  stack.map fun slot => slot.toCurve x

theorem applyOperator_heights (op : Operator) (symbol : String) (stack : List Slot)
    (x : Float) :
    applyOperator op symbol (heights x stack) =
      (Reduction.applyOperator op symbol stack).map (heights x) := by
  rcases stack with _ | ⟨right, _ | ⟨left, rest⟩⟩
  · rfl
  · simp only [heights, List.map_cons, List.map_nil, applyOperator, Reduction.applyOperator]
    by_cases h : op = .subtract
    · rw [if_pos h, if_pos h, h]
      show _ = Except.ok [(Slot.combine _ (.constant 0) right).toCurve x]
      rw [Slot.toCurve_combine]
      rfl
    · rw [if_neg h, if_neg h]
      rfl
  · simp only [heights, List.map_cons, applyOperator, Reduction.applyOperator, Except.map,
      Slot.toCurve_combine]

theorem applyFunction_heights (f : Builtin) (stack : List Slot) (x : Float) :
    applyFunction f (heights x stack) =
      (Reduction.applyFunction f stack).map (heights x) := by
  unfold applyFunction Reduction.applyFunction
  cases f.operation with
  | unary op =>
    rcases stack with _ | ⟨value, rest⟩
    · rfl
    · simp only [heights, List.map_cons, Except.map, Slot.toCurve_apply]
  | binary op =>
    rcases stack with _ | ⟨right, _ | ⟨left, rest⟩⟩
    · rfl
    · rfl
    · simp only [heights, List.map_cons, Except.map, Slot.toCurve_combine]

/-- The calculator follows the reduction step by step. -/
theorem step_heights (stack : List Slot) (token : Token) (x : Float) :
    step x (heights x stack) token = (Reduction.step stack token).map (heights x) := by
  obtain ⟨symbol, kind⟩ := token
  rcases kind with value | _ | op | f | _ | _ | _ | _
  · rfl
  · rfl
  · exact applyOperator_heights op symbol stack x
  · exact applyFunction_heights f stack x
  all_goals rfl

/-! ## Whole runs -/

theorem run_append (x : Float) (left right : List Token) (stack : List Float) :
    run x (left ++ right) stack = run x left stack >>= run x right :=
  List.foldlM_append

theorem run_singleton (x : Float) (token : Token) (stack : List Float) :
    run x [token] stack = step x stack token := by
  rw [run, List.foldlM_cons]
  cases step x stack token <;> rfl

theorem run_heights (tokens : List Token) (stack : List Slot) (x : Float) :
    run x tokens (heights x stack) =
      (tokens.foldlM Reduction.step stack).map (heights x) := by
  have hstep (stack : List Slot) (token : Token) :
      (Reduction.step stack token).map (heights x) = step x (heights x stack) token :=
    (step_heights stack token x).symm
  exact (map_foldlM hstep tokens stack).symm

theorem finish_heights (stack : List Slot) (x : Float) :
    finish (heights x stack) = (Reduction.single stack).map fun f => f x := by
  rcases stack with _ | ⟨slot, _ | ⟨second, rest⟩⟩
  · rfl
  · rfl
  · simp [finish, heights, Reduction.single, Except.map]

/-- The calculator computes what the reduction gives, at one place. -/
theorem evaluate_eq_map_reduce (tokens : List Token) (x : Float) :
    evaluate tokens x = (Reduction.reduce tokens).map fun f => f x := by
  rw [Reduction.reduce_eq_single]
  show run x tokens (heights x []) >>= finish = _
  rw [run_heights]
  cases tokens.foldlM Reduction.step [] with
  | error cause => rfl
  | ok stack => exact finish_heights stack x

/-- The calculator agrees with the reduction on all tokens.  Where the reduction
gives a curve the calculator gives its height over every `x`, and where the
reduction rejects the tokens the calculator rejects them for the same cause. -/
theorem evaluate_agrees_with_reduce (tokens : List Token) :
    match Reduction.reduce tokens with
    | .ok f => ∀ x, evaluate tokens x = .ok (f x)
    | .error cause => ∀ x, evaluate tokens x = .error cause := by
  cases h : Reduction.reduce tokens with
  | ok f =>
    intro x
    rw [evaluate_eq_map_reduce, h]
    rfl
  | error cause =>
    intro x
    rw [evaluate_eq_map_reduce, h]
    rfl

/-! ## What a run says about the reduction -/

/-- The calculator's values determine what the reduction gives. -/
theorem reduce_eq_of_evaluate {tokens : List Token} {result : Except ParseError Curve}
    (h : ∀ x, evaluate tokens x = result.map fun f => f x) : Reduction.reduce tokens = result := by
  have hvalue : ∀ x, (Reduction.reduce tokens).map (fun f => f x) = result.map fun f => f x := by
    intro x
    rw [← evaluate_eq_map_reduce, h x]
  cases hreduce : Reduction.reduce tokens with
  | error cause =>
    have hzero := hvalue 0
    rw [hreduce] at hzero
    cases result with
    | error other => rw [Except.error.inj hzero]
    | ok f => cases hzero
  | ok g =>
    rw [hreduce] at hvalue
    cases result with
    | error other => cases hvalue 0
    | ok f =>
      have hg : g = f := funext fun x => Except.ok.inj (hvalue x)
      rw [hg]

/-- Tokens that leave one number at every `x` are reduced to the curve of these
numbers. -/
theorem reduce_of_run {tokens : List Token} {f : Curve} (h : ∀ x, run x tokens [] = .ok [f x]) :
    Reduction.reduce tokens = .ok f := by
  apply reduce_eq_of_evaluate
  intro x
  rw [evaluate, h x]
  rfl

/-- Tokens that are reduced to a curve leave its height. -/
theorem run_of_reduce {tokens : List Token} {f : Curve} (h : Reduction.reduce tokens = .ok f)
    (x : Float) : run x tokens [] = .ok [f x] := by
  have hvalue : run x tokens [] >>= finish = .ok (f x) := by
    show evaluate tokens x = _
    rw [evaluate_eq_map_reduce, h]
    rfl
  obtain ⟨stack, hrun, hfinish⟩ := bind_eq_ok_iff.mp hvalue
  rcases stack with _ | ⟨value, _ | ⟨second, rest⟩⟩
  · cases hfinish
  · obtain rfl : value = f x := Except.ok.inj hfinish
    exact hrun
  · cases hfinish

/-- Tokens that the calculator stops at are rejected. -/
theorem reduce_of_run_error {tokens : List Token} {x : Float} {cause : ParseError}
    (h : run x tokens [] = .error cause) : Reduction.reduce tokens = .error cause := by
  have hvalue : (Reduction.reduce tokens).map (fun g => g x) = .error cause := by
    rw [← evaluate_eq_map_reduce, evaluate, h]
    rfl
  cases hreduce : Reduction.reduce tokens with
  | error other =>
    rw [hreduce] at hvalue
    exact congrArg Except.error (Except.error.inj hvalue)
  | ok g =>
    rw [hreduce] at hvalue
    cases hvalue

end Calculator

end CurveSketch
