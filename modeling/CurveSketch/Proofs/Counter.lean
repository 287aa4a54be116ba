import CurveSketch.Proofs.Slots

/-!
# Counting values

`Counter` reads tokens in reverse Polish order and keeps nothing but the number of
values that are on the stack.  It knows the same rejections as
`Reduction.reduce`, the bare variable apart, and it decides which of them there is.

* `step_length`: a step of the reduction changes the height of the stack as a step
  of the counter changes its count, or both stop for the same cause.
* `outcome_eq`: so the counter accepts the tokens that are reduced to a curve, and
  rejects the others for their own causes.
* `step_withoutValue`, `outcome_of_run_error`: the counter does not see the values
  of the constants, and does not go on after a token that it stops at.
-/

namespace CurveSketch

/-! ## The counter -/

namespace Counter

/-- What one token does to the number of values.  An operator makes one of two, and
a minus lets a single one be.  A function makes one of its arguments. -/
def step (count : Nat) (token : Token) : Except ParseError Nat :=
  match token.kind with
  | .constant _ | .variable => .ok (count + 1)
  | .operator op =>
    if 2 ≤ count then .ok (count - 1)
    else if op = .subtract ∧ count = 1 then .ok 1
    else .error (.missingOperands token.symbol 2 count)
  | .function f =>
    if f.arity ≤ count then .ok (count + 1 - f.arity)
    else .error (.missingOperands f.name f.arity count)
  | .comma | .opening | .closing | .invalid => .error (.unexpected token.symbol)

/-- What tokens do to the number of values, one after the other. -/
def run (tokens : List Token) (count : Nat) : Except ParseError Nat :=
  tokens.foldlM step count

/-- There has to be one value at the end. -/
def finish (count : Nat) : Except ParseError Unit :=
  if count = 1 then .ok () else .error (.leftover count)

/-- Whether tokens leave one value, and why not. -/
def outcome (tokens : List Token) : Except ParseError Unit := do
  finish (← run tokens 0)

end Counter

namespace Reduction

/-! ## The height of the stack -/

theorem applyOperator_length (op : Operator) (symbol : String) (stack : List Slot) :
    (applyOperator op symbol stack).map List.length =
      if 2 ≤ stack.length then .ok (stack.length - 1)
      else if op = .subtract ∧ stack.length = 1 then .ok 1
      else .error (.missingOperands symbol 2 stack.length) := by
  rcases stack with _ | ⟨right, _ | ⟨left, rest⟩⟩
  · simp [applyOperator, Except.map]
  · by_cases h : op = .subtract
    · simp [applyOperator, Except.map, h]
    · simp [applyOperator, Except.map, h]
  · simp [applyOperator, Except.map]

theorem applyFunction_length (f : Builtin) (stack : List Slot) :
    (applyFunction f stack).map List.length =
      if f.arity ≤ stack.length then .ok (stack.length + 1 - f.arity)
      else .error (.missingOperands f.name f.arity stack.length) := by
  unfold applyFunction Builtin.arity
  cases f.operation with
  | unary op =>
    rcases stack with _ | ⟨value, rest⟩
    · rfl
    · simp [Operation.arity, Except.map]
  | binary op =>
    rcases stack with _ | ⟨right, _ | ⟨left, rest⟩⟩
    · rfl
    · rfl
    · simp [Operation.arity, Except.map]

theorem step_length (stack : List Slot) (token : Token) :
    (step stack token).map List.length = Counter.step stack.length token := by
  obtain ⟨symbol, kind⟩ := token
  rcases kind with value | _ | op | f | _ | _ | _ | _
  · rfl
  · rfl
  · exact applyOperator_length op symbol stack
  · exact applyFunction_length f stack
  all_goals rfl

theorem foldlM_length (tokens : List Token) (stack : List Slot) :
    (tokens.foldlM step stack).map List.length = Counter.run tokens stack.length :=
  map_foldlM step_length tokens stack

theorem single_length (stack : List Slot) :
    (single stack).map (fun _ => ()) = Counter.finish stack.length := by
  rcases stack with _ | ⟨slot, _ | ⟨second, rest⟩⟩
  · rfl
  · rfl
  · simp [single, Counter.finish, Except.map]

/-- Tokens are accepted, or rejected for a cause, exactly if the counter does so. -/
theorem outcome_eq (tokens : List Token) :
    (reduce tokens).map (fun _ => ()) = Counter.outcome tokens := by
  have hrun : (tokens.foldlM step []).map List.length = Counter.run tokens 0 :=
    foldlM_length tokens []
  rw [reduce_eq_single, Counter.outcome, ← hrun]
  cases tokens.foldlM step [] with
  | error cause => rfl
  | ok stack => exact single_length stack

end Reduction

/-! ## Rejections -/

/-- Whether the kind has a meaning in reverse Polish order. -/
def Kind.isTerm : Kind → Bool
  | .constant _ | .variable | .operator _ | .function _ => true
  | .comma | .opening | .closing | .invalid => false

namespace Kind

theorem isTerm_of_isOperand {kind : Kind} (h : kind.isOperand = true) : kind.isTerm = true := by
  cases kind <;> first | rfl | cases h

theorem isTerm_of_isOperator {kind : Kind} (h : kind.isOperator = true) :
    kind.isTerm = true := by
  cases kind <;> first | rfl | cases h

theorem isTerm_of_isFunction {kind : Kind} (h : kind.isFunction = true) :
    kind.isTerm = true := by
  cases kind <;> first | rfl | cases h

theorem isTerm_eq_false_of_isOpening {kind : Kind} (h : kind.isOpening = true) :
    kind.isTerm = false := by
  cases kind <;> first | rfl | cases h

end Kind

namespace Counter

variable {tokens before : List Token} {token : Token} {count : Nat} {cause : ParseError}

theorem run_append (before more : List Token) (count : Nat) :
    run (before ++ more) count = run before count >>= run more :=
  List.foldlM_append

theorem step_eq_error (h : step count token = .error cause) :
    (∃ symbol needed, cause = .missingOperands symbol needed count) ∨
      token.kind.isTerm = false ∧ cause = .unexpected token.symbol := by
  unfold step at h
  split at h
  · cases h
  · cases h
  · split at h
    · cases h
    · split at h
      · cases h
      · exact Or.inl ⟨_, _, (Except.error.inj h).symm⟩
  · split at h
    · cases h
    · exact Or.inl ⟨_, _, (Except.error.inj h).symm⟩
  all_goals
    rename_i hkind
    exact Or.inr ⟨by rw [hkind]; rfl, (Except.error.inj h).symm⟩

/-- A run stops for a missing operand, or at a token that has no meaning in reverse
Polish order. -/
theorem run_eq_error (h : run tokens count = .error cause) :
    (∃ symbol needed found, cause = .missingOperands symbol needed found) ∨
      ∃ token ∈ tokens, token.kind.isTerm = false ∧ cause = .unexpected token.symbol := by
  induction tokens generalizing count with
  | nil => cases h
  | cons token tokens ih =>
    rw [run, List.foldlM_cons] at h
    cases hstep : step count token with
    | error other =>
      rw [hstep] at h
      obtain rfl : other = cause := Except.error.inj h
      rcases step_eq_error hstep with ⟨symbol, needed, rfl⟩ | hterm
      · exact Or.inl ⟨symbol, needed, count, rfl⟩
      · exact Or.inr ⟨token, List.mem_cons_self, hterm⟩
    | ok next =>
      rw [hstep] at h
      rcases ih h with hmissing | ⟨other, hmem, hterm⟩
      · exact Or.inl hmissing
      · exact Or.inr ⟨other, List.mem_cons_of_mem token hmem, hterm⟩

/-- Tokens are rejected where the run stops, or for the number of values at the end. -/
theorem outcome_eq_error (h : outcome tokens = .error cause) :
    run tokens 0 = .error cause ∨ ∃ count, count ≠ 1 ∧ cause = .leftover count := by
  unfold outcome at h
  cases hrun : run tokens 0 with
  | error other =>
    rw [hrun] at h
    obtain rfl : other = cause := Except.error.inj h
    exact Or.inl rfl
  | ok count =>
    have hfinish : finish count = .error cause := by
      rw [hrun] at h
      exact h
    unfold finish at hfinish
    split at hfinish
    · cases hfinish
    · rename_i hcount
      exact Or.inr ⟨count, hcount, (Except.error.inj hfinish).symm⟩

theorem outcome_eq_ok_iff : outcome tokens = .ok () ↔ run tokens 0 = .ok 1 := by
  unfold outcome
  cases hrun : run tokens 0 with
  | error cause =>
    constructor
    · intro h
      cases h
    · intro h
      cases h
  | ok count =>
    show finish count = .ok () ↔ Except.ok count = .ok 1
    rw [finish, Except.ok.injEq]
    split
    · simp [*]
    · simp [*]

/-- A run that stops does not see what follows. -/
theorem outcome_of_run_error (h : run before 0 = .error cause) (more : List Token) :
    outcome (before ++ more) = .error cause := by
  rw [outcome, run_append, h]
  rfl

theorem outcome_ne_bareVariable (tokens : List Token) :
    outcome tokens ≠ .error .bareVariable := by
  intro h
  rcases outcome_eq_error h with hrun | ⟨count, -, hcause⟩
  · rcases run_eq_error hrun with ⟨symbol, needed, found, hcause⟩ | ⟨token, -, -, hcause⟩
    · cases hcause
    · cases hcause
  · cases hcause

end Counter

/-! ## Constants -/

/-- The token without the value of a constant, and without its spelling. -/
def Token.withoutValue (token : Token) : Token :=
  match token.kind with
  | .constant _ => ⟨"", .constant 0⟩
  | _ => token

namespace Counter

theorem step_withoutValue (count : Nat) (token : Token) :
    step count token.withoutValue = step count token := by
  obtain ⟨symbol, kind⟩ := token
  cases kind <;> rfl

theorem run_withoutValue (tokens : List Token) (count : Nat) :
    run (tokens.map Token.withoutValue) count = run tokens count := by
  rw [run, List.foldlM_map]
  simp only [step_withoutValue]
  rfl

theorem outcome_withoutValue (tokens : List Token) :
    outcome (tokens.map Token.withoutValue) = outcome tokens := by
  rw [outcome, outcome, run_withoutValue]

end Counter

/-! ## What decides about a reduction -/

namespace Reduction

theorem reduce_eq_error_iff {tokens : List Token} {cause : ParseError} :
    reduce tokens = .error cause ↔ Counter.outcome tokens = .error cause := by
  rw [← outcome_eq]
  cases reduce tokens <;> simp [Except.map]

/-- Tokens are reduced to a curve exactly if they leave one value. -/
theorem reduce_isOk_iff {tokens : List Token} :
    (∃ f, reduce tokens = .ok f) ↔ Counter.run tokens 0 = .ok 1 := by
  rw [← Counter.outcome_eq_ok_iff, ← outcome_eq]
  cases reduce tokens <;> simp [Except.map]

/-- The counter alone decides whether tokens are reduced to a curve, and why not.  So
the values of the constants do not matter, and tokens that are rejected for other
causes than the number of values at the end are rejected for the same cause whatever
follows them. -/
theorem counter_decides_reduce :
    (∀ tokens : List Token, (reduce tokens).map (fun _ => ()) = Counter.outcome tokens ∧
      reduce tokens ≠ .error .bareVariable) ∧
    (∀ tokens other : List Token,
      tokens.map Token.withoutValue = other.map Token.withoutValue →
        (reduce tokens).map (fun _ => ()) = (reduce other).map (fun _ => ())) ∧
    (∀ (before more : List Token) (cause : ParseError), reduce before = .error cause →
      (∀ count, cause ≠ .leftover count) → reduce (before ++ more) = .error cause) := by
  refine ⟨?_, ?_, ?_⟩
  · intro tokens
    refine ⟨outcome_eq tokens, ?_⟩
    rw [Ne, reduce_eq_error_iff]
    exact Counter.outcome_ne_bareVariable tokens
  · intro tokens other h
    calc (reduce tokens).map (fun _ => ())
        = Counter.outcome (tokens.map Token.withoutValue) := by
          rw [outcome_eq, Counter.outcome_withoutValue]
      _ = Counter.outcome (other.map Token.withoutValue) := by rw [h]
      _ = (reduce other).map (fun _ => ()) := by
          rw [outcome_eq, Counter.outcome_withoutValue]
  · intro before more cause hbefore hcause
    rw [reduce_eq_error_iff] at hbefore ⊢
    rcases Counter.outcome_eq_error hbefore with hrun | ⟨count, -, hleftover⟩
    · exact Counter.outcome_of_run_error hrun more
    · exact absurd hleftover (hcause count)

/-- `x 1 ^` is reduced as `x 2 ^` is, and no token after `x *` makes up for the
operand that is missing. -/
theorem counter_decides_power :
    ((reduce [.classify "x", .classify "1", .classify "^"]).map fun _ => ()) =
        ((reduce [.classify "x", .classify "2", .classify "^"]).map fun _ => ()) ∧
      reduce ([.classify "x", .classify "*"] ++ [.classify "2"]) =
        .error (.missingOperands "*" 2 1) := by
  have hstops : reduce [.classify "x", .classify "*"] = .error (.missingOperands "*" 2 1) := by
    rw [reduce_eq_error_iff]
    rfl
  refine ⟨counter_decides_reduce.2.1 _ _ rfl, counter_decides_reduce.2.2 _ _ _ hstops ?_⟩
  intro count hcause
  cases hcause

end Reduction

end CurveSketch
