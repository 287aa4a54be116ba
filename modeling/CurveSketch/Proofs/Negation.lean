import CurveSketch.Proofs.Meaning

/-!
# A minus without a left operand

In a signed formula a sum may begin with a minus, which is meant as `0 - e`.  The
reduction does not see where a minus stands in the text.  It negates if there is a
single number on the stack, and subtracts if there are more.  So a sign is read as
it is meant if no operand stands before it.  Behind an operand it can find the
number that this operand has left, and then it takes it for its left operand.

* `signsLead` says that no operand stands before a sign.  Then the formula is read
  as its meaning (`read_of_signsLead`).
* A formula with a sign adds no number to those that are there already
  (`run_ordered_endsWithin`).  The operator that should find two numbers finds one,
  and the formula is rejected (`read_of_not_signsLead`).
* The exception is a minus that is short of a number, because it negates instead.
  `canLoseSign` says that there may be one: a minus that has a sign in its right
  operand and no operand before its left one.

`read_signed` puts this together.  The exception is real.  If the signs of `left`
lead and `right` has none, then `left - ( - right )` is read as
`0 - ( left - right )` (`read_lessNegated`), so `x - ( - 1 )` is not read as it is
meant (`not_forall_read_signed`).
-/

namespace CurveSketch

namespace Calculator

/-! ## Runs that cannot stop but for one reason -/

/-- The run stops at an operator or a function that finds one of two operands, or
it leaves at least one number and no more than the bound. -/
def EndsWithin (bound : Nat) : Except ParseError (List Float) → Prop
  | .ok stack => 1 ≤ stack.length ∧ stack.length ≤ bound
  | .error cause => ∃ symbol, cause = .missingOperands symbol 2 1

variable {bound next : Nat} {stack : List Float}

theorem EndsWithin.mono {result : Except ParseError (List Float)} (h : EndsWithin bound result)
    (hle : bound ≤ next) : EndsWithin next result := by
  cases result with
  | error cause => exact h
  | ok stack =>
    obtain ⟨hpos, hbound⟩ := h
    exact ⟨hpos, by omega⟩

theorem EndsWithin.bind {result : Except ParseError (List Float)}
    {f : List Float → Except ParseError (List Float)} (h : EndsWithin bound result)
    (hf : ∀ stack : List Float, 1 ≤ stack.length → stack.length ≤ bound →
      EndsWithin next (f stack)) : EndsWithin next (result >>= f) := by
  cases result with
  | error cause => exact h
  | ok stack => exact hf stack h.1 h.2

/-- Of two numbers or more an operator makes one less.  A single number is left
single by a minus, and stops the others. -/
theorem endsWithin_applyOperator (op : Operator) (symbol : String) (hpos : 1 ≤ stack.length)
    (hstack : stack.length ≤ bound + 1) (hbound : 1 ≤ bound) :
    EndsWithin bound (applyOperator op symbol stack) := by
  rcases stack with _ | ⟨right, _ | ⟨left, rest⟩⟩
  · cases hpos
  · by_cases h : op = .subtract
    · rw [applyOperator, if_pos h]
      show 1 ≤ 1 ∧ 1 ≤ bound
      omega
    · rw [applyOperator, if_neg h]
      exact ⟨symbol, rfl⟩
  · simp only [List.length_cons] at hstack
    show 1 ≤ rest.length + 1 ∧ rest.length + 1 ≤ bound
    omega

theorem endsWithin_applyFunction_unary {f : Builtin} {op : Float → Float}
    (h : f.operation = .unary op) (hpos : 1 ≤ stack.length) (hstack : stack.length ≤ bound) :
    EndsWithin bound (applyFunction f stack) := by
  rcases stack with _ | ⟨value, rest⟩
  · cases hpos
  · rw [applyFunction_unary rest h]
    exact ⟨hpos, hstack⟩

theorem applyFunction_binary_singleton {f : Builtin} {op : Float → Float → Float}
    (h : f.operation = .binary op) (value : Float) :
    applyFunction f [value] = .error (.missingOperands f.name 2 1) := by
  unfold applyFunction
  rw [h]
  rfl

theorem endsWithin_applyFunction_binary {f : Builtin} {op : Float → Float → Float}
    (h : f.operation = .binary op) (hpos : 1 ≤ stack.length)
    (hstack : stack.length ≤ bound + 1) : EndsWithin bound (applyFunction f stack) := by
  rcases stack with _ | ⟨right, _ | ⟨left, rest⟩⟩
  · cases hpos
  · rw [applyFunction_binary_singleton h]
    exact ⟨f.name, rfl⟩
  · rw [applyFunction_binary rest h]
    simp only [List.length_cons] at hstack
    show 1 ≤ rest.length + 1 ∧ rest.length + 1 ≤ bound
    omega

/-- One of two numbers is missing. -/
theorem EndsWithin.eq_singleton {left : List Token} {x : Float}
    (h : EndsWithin 1 (run x left stack)) :
    (∃ symbol, run x left stack = .error (.missingOperands symbol 2 1)) ∨
      ∃ value, run x left stack = .ok [value] := by
  cases hrun : run x left stack with
  | error cause =>
    rw [hrun] at h
    obtain ⟨symbol, rfl⟩ := h
    exact Or.inl ⟨symbol, rfl⟩
  | ok last =>
    rw [hrun] at h
    obtain ⟨hpos, hle⟩ := h
    have hlength : last.length = 1 := by omega
    obtain ⟨value, rfl⟩ := List.length_eq_one_iff.mp hlength
    exact Or.inr ⟨value, rfl⟩

end Calculator

open Calculator

namespace Formula

variable {signed : Bool} {tier : Tier}

/-! ## Signs that lead, and signs that can be lost -/

/-- Whether no operand stands before a minus without a left operand. -/
def signsLead : {tier : Tier} → Formula signed tier → Bool
  | _, literal _ | _, free => true
  | _, group e | _, call _ _ _ e | _, ofPrimary e | _, ofPower e | _, ofProduct e
  | _, negate _ e => e.signsLead
  | _, callPair _ _ _ a b => a.signsLead && b.isPlain
  | _, power base exponent => base.signsLead && exponent.isPlain
  | _, product left _ _ right => left.signsLead && right.isPlain
  | _, sum left _ _ right => left.signsLead && right.isPlain

/-- Whether there is a minus that has a sign in its right operand and no operand
before its left one. -/
def canLoseSign : {tier : Tier} → Formula signed tier → Bool
  | _, literal _ | _, free => false
  | _, group e | _, call _ _ _ e | _, ofPrimary e | _, ofPower e | _, ofProduct e
  | _, negate _ e => e.canLoseSign
  | _, callPair _ _ _ a _ => a.canLoseSign
  | _, power base _ => base.canLoseSign
  | _, product left _ _ _ => left.canLoseSign
  | _, sum left op _ right => left.canLoseSign || (op = .subtract && !right.isPlain)

/-! ## Signs that lead are read as they are meant -/

/-- On the empty stack the calculator leaves the height of the formula. -/
theorem run_ordered_of_signsLead (e : Formula signed tier) (h : e.signsLead = true) (x : Float) :
    run x e.ordered [] = .ok [e.curve x] := by
  induction e with
  | literal c => exact run_literal x [] c
  | free => exact run_free x []
  | group e ih => exact ih h
  | call f op unary e ih =>
    show run x (e.ordered ++ [f.token]) [] = .ok [op (e.curve x)]
    exact run_call unary (ih h)
  | callPair f op binary a b iha ihb =>
    obtain ⟨ha, hb⟩ := Bool.and_eq_true_iff.mp h
    have hsecond := b.run_ordered hb x [a.curve x]
    show run x _ [] = .ok [op (a.curve x) (b.curve x)]
    exact run_callPair binary (iha ha) hsecond
  | ofPrimary e ih | ofPower e ih | ofProduct e ih => exact ih h
  | power base exponent ihb ihe =>
    obtain ⟨hb, he⟩ := Bool.and_eq_true_iff.mp h
    have hexponent := exponent.run_ordered he x [base.curve x]
    exact run_binary (ihb hb) hexponent
  | product left op isProduct right ihl ihr =>
    obtain ⟨hl, hr⟩ := Bool.and_eq_true_iff.mp h
    have hright := right.run_ordered hr x [left.curve x]
    exact run_binary (ihl hl) hright
  | sum left op isSum right ihl ihr =>
    obtain ⟨hl, hr⟩ := Bool.and_eq_true_iff.mp h
    have hright := right.run_ordered hr x [left.curve x]
    exact run_binary (ihl hl) hright
  | negate allowed e ih =>
    rw [ordered, run_append, ih h]
    exact run_operator x [e.curve x] .subtract

/-! ## After any other sign a number is missing -/

/-- Two operands, one after the other.  Each adds one number to the stack at most,
and none if it has a sign. -/
theorem run_pair_endsWithin {left right : List Token} {x : Float} {stack : List Float}
    {p q : Bool} (hleft : EndsWithin (stack.length + p.toNat) (run x left stack))
    (hright : ∀ next : List Float, 1 ≤ next.length →
      EndsWithin (next.length + q.toNat) (run x right next)) :
    EndsWithin (stack.length + (p && q).toNat + 1) (run x (left ++ right) stack) := by
  have hgain : p.toNat + q.toNat ≤ (p && q).toNat + 1 := by
    cases p <;> cases q <;> decide
  rw [run_append]
  refine hleft.bind fun next hnext hle => ?_
  exact (hright next hnext).mono (by omega)

/-- An operator leaves one number less than its two operands have left, if they have
left two numbers or more. -/
theorem run_binary_endsWithin {left right : List Token} {op : Operator} {x : Float}
    {stack : List Float} {p q : Bool}
    (hleft : EndsWithin (stack.length + p.toNat) (run x left stack))
    (hright : ∀ next : List Float, 1 ≤ next.length →
      EndsWithin (next.length + q.toNat) (run x right next))
    (hpos : 1 ≤ stack.length) :
    EndsWithin (stack.length + (p && q).toNat) (run x (left ++ right ++ [op.token]) stack) := by
  rw [run_append]
  refine (run_pair_endsWithin hleft hright).bind fun next hnext hle => ?_
  rw [run_operator]
  exact endsWithin_applyOperator op op.symbol hnext hle (by omega)

/-- On top of other numbers a formula adds one number at most, and none if it has a
sign. -/
theorem run_ordered_endsWithin (e : Formula signed tier) (x : Float) (stack : List Float)
    (hpos : 1 ≤ stack.length) :
    EndsWithin (stack.length + e.isPlain.toNat) (run x e.ordered stack) := by
  induction e generalizing stack with
  | literal c =>
    rw [ordered, run_literal]
    show 1 ≤ stack.length + 1 ∧ stack.length + 1 ≤ stack.length + 1
    omega
  | free =>
    rw [ordered, run_free]
    show 1 ≤ stack.length + 1 ∧ stack.length + 1 ≤ stack.length + 1
    omega
  | group e ih => exact ih stack hpos
  | call f op unary e ih =>
    rw [ordered, run_append]
    refine (ih stack hpos).bind fun next hnext hle => ?_
    rw [run_builtin]
    exact endsWithin_applyFunction_unary unary hnext hle
  | callPair f op binary a b iha ihb =>
    rw [ordered, run_append]
    refine (run_pair_endsWithin (iha stack hpos) ihb).bind fun next hnext hle => ?_
    rw [run_builtin]
    exact endsWithin_applyFunction_binary binary hnext hle
  | ofPrimary e ih | ofPower e ih | ofProduct e ih => exact ih stack hpos
  | power base exponent ihb ihe => exact run_binary_endsWithin (ihb stack hpos) ihe hpos
  | product left op isProduct right ihl ihr =>
    exact run_binary_endsWithin (ihl stack hpos) ihr hpos
  | sum left op isSum right ihl ihr => exact run_binary_endsWithin (ihl stack hpos) ihr hpos
  | negate allowed e ih =>
    have hgain : e.isPlain.toNat ≤ 1 := Bool.toNat_le e.isPlain
    rw [ordered, run_append]
    refine (ih stack hpos).bind fun next hnext hle => ?_
    rw [run_operator]
    exact endsWithin_applyOperator .subtract _ hnext (by omega) (by omega)

/-- The tokens are rejected because an operator or a function finds one of two
operands. -/
def MissesOperand (x : Float) (tokens : List Token) : Prop :=
  ∃ symbol, run x tokens [] = .error (.missingOperands symbol 2 1)

theorem MissesOperand.append {x : Float} {tokens : List Token} (h : MissesOperand x tokens)
    (more : List Token) : MissesOperand x (tokens ++ more) := by
  obtain ⟨symbol, hrun⟩ := h
  refine ⟨symbol, ?_⟩
  rw [run_append, hrun]
  rfl

/-- If the right operand has a sign, its operator or function finds one number. -/
theorem missesOperand_of_signed {left : List Token} {right : Formula signed tier}
    {last : Token} {x l : Float} (hleft : run x left [] = .ok [l])
    (hright : right.isPlain = false)
    (hlast : ∀ value, ∃ symbol, run x [last] [value] = .error (.missingOperands symbol 2 1)) :
    MissesOperand x (left ++ right.ordered ++ [last]) := by
  have hends : EndsWithin 1 (run x right.ordered [l]) := by
    simpa [hright] using right.run_ordered_endsWithin x [l] (Nat.le_refl 1)
  have hpair : run x (left ++ right.ordered) [] = run x right.ordered [l] := by
    rw [run_append, hleft]
    rfl
  rcases hends.eq_singleton with ⟨symbol, hrun⟩ | ⟨value, hrun⟩
  · exact MissesOperand.append ⟨symbol, hpair.trans hrun⟩ [last]
  · obtain ⟨symbol, hmissing⟩ := hlast value
    refine ⟨symbol, ?_⟩
    rw [run_append, hpair, hrun]
    exact hmissing

theorem run_operator_singleton {op : Operator} (h : op ≠ .subtract) (x value : Float) :
    ∃ symbol, run x [op.token] [value] = .error (.missingOperands symbol 2 1) := by
  refine ⟨op.symbol, ?_⟩
  rw [run_operator, applyOperator, if_neg h]

/-- Two operands at the left edge.  Either a sign of the left operand does not
lead, or the right operand has a sign. -/
theorem missesOperand_of_pair {left : Formula signed tier} {rightTier : Tier}
    {right : Formula signed rightTier} {last : Token} {x : Float}
    (hlead : (left.signsLead && right.isPlain) = false)
    (ih : left.signsLead = false → MissesOperand x left.ordered)
    (hlast : right.isPlain = false →
      ∀ value, ∃ symbol, run x [last] [value] = .error (.missingOperands symbol 2 1)) :
    MissesOperand x (left.ordered ++ right.ordered ++ [last]) := by
  cases hleft : left.signsLead with
  | false => exact ((ih hleft).append right.ordered).append [last]
  | true =>
    have hright : right.isPlain = false := by simpa [hleft] using hlead
    exact missesOperand_of_signed (left.run_ordered_of_signsLead hleft x) hright (hlast hright)

/-- A formula is rejected if some of its signs do not lead and none can be lost. -/
theorem missesOperand_of_not_signsLead (e : Formula signed tier) (hlead : e.signsLead = false)
    (hkeep : e.canLoseSign = false) (x : Float) : MissesOperand x e.ordered := by
  induction e with
  | literal c => cases hlead
  | free => cases hlead
  | group e ih | ofPrimary e ih | ofPower e ih | ofProduct e ih => exact ih hlead hkeep
  | call f op unary e ih => exact (ih hlead hkeep).append [f.token]
  | callPair f op binary a b iha ihb =>
    refine missesOperand_of_pair hlead (fun ha => iha ha hkeep) fun _ value => ?_
    exact ⟨f.name, by rw [run_builtin, applyFunction_binary_singleton binary]⟩
  | power base exponent ihb ihe =>
    exact missesOperand_of_pair hlead (fun hb => ihb hb hkeep) fun _ =>
      run_operator_singleton (by decide) x
  | product left op isProduct right ihl ihr =>
    refine missesOperand_of_pair hlead (fun hl => ihl hl hkeep) fun _ => ?_
    exact run_operator_singleton (by rcases isProduct with rfl | rfl <;> decide) x
  | sum left op isSum right ihl ihr =>
    obtain ⟨hl, hop⟩ := Bool.or_eq_false_iff.mp hkeep
    refine missesOperand_of_pair hlead (fun h => ihl h hl) fun hright => ?_
    refine run_operator_singleton ?_ x
    rintro rfl
    simp [hright] at hop
  | negate allowed e ih => exact (ih hlead hkeep).append [Operator.subtract.token]

/-! ## A sign that is lost -/

/-- `left - ( - right )` -/
def lessNegated (left : Formula true .sum) (right : Formula true .product) :
    Formula true .sum :=
  minus left (.ofPower (.ofPrimary (.group (.negate rfl right))))

/-- The inner minus takes the left operand of the outer one, which negates what the
inner one leaves. -/
theorem run_lessNegated {left : Formula true .sum} {right : Formula true .product}
    (hleft : left.signsLead = true) (hright : right.isPlain = true) (x : Float) :
    run x (lessNegated left right).ordered [] = .ok [0 - (left.curve x - right.curve x)] := by
  have hinner : run x (right.ordered ++ [Operator.subtract.token]) [left.curve x] =
      .ok [left.curve x - right.curve x] := by
    rw [run_append, right.run_ordered hright x]
    exact run_operator x [right.curve x, left.curve x] .subtract
  have hpair : run x (left.ordered ++ (right.ordered ++ [Operator.subtract.token])) [] =
      .ok [left.curve x - right.curve x] := by
    rw [run_append, left.run_ordered_of_signsLead hleft x]
    exact hinner
  show run x (left.ordered ++ (right.ordered ++ [Operator.subtract.token]) ++
    [Operator.subtract.token]) [] = _
  rw [run_append, hpair]
  exact run_operator x [left.curve x - right.curve x] .subtract

/-! ## From the text to the curve -/

section

variable {e : Formula signed .sum} {text : String}

theorem read_of_signsLead (written : e.WrittenAs text) (hlead : e.signsLead = true) :
    Curve.read .delimited text = .ok e.curve := by
  rw [read_of_reduce written]
  exact reduce_of_run fun x => e.run_ordered_of_signsLead hlead x

theorem read_of_not_signsLead (written : e.WrittenAs text) (hlead : e.signsLead = false)
    (kept : e.canLoseSign = false) :
    ∃ symbol, Curve.read .delimited text = .error (.missingOperands symbol 2 1) := by
  obtain ⟨symbol, hrun⟩ := e.missesOperand_of_not_signsLead hlead kept 0
  refine ⟨symbol, ?_⟩
  rw [read_of_reduce written]
  exact reduce_of_run_error hrun

theorem read_lessNegated {left : Formula true .sum} {right : Formula true .product}
    (hleft : left.signsLead = true) (hright : right.isPlain = true)
    (written : (lessNegated left right).WrittenAs text) :
    Curve.read .delimited text = .ok fun x => 0 - (left.curve x - right.curve x) := by
  rw [read_of_reduce written]
  exact reduce_of_run (run_lessNegated hleft hright)

end

/-- What is read of a text that writes a signed formula.  If no sign can be lost, it is
the meaning of the formula, if anything: the text is accepted if all signs lead, and
else rejected for a missing operand.  The sign of `left - ( - right )` is lost if the
signs of `left` lead and `right` has none. -/
theorem read_signed :
    (∀ (e : Formula true .sum) (text : String), e.WrittenAs text → e.canLoseSign = false →
      (∀ f, Curve.read .delimited text = .ok f → ∀ x, f x = e.curve x) ∧
        (e.signsLead = true → Curve.read .delimited text = .ok e.curve) ∧
        (e.signsLead = false →
          ∃ symbol, Curve.read .delimited text = .error (.missingOperands symbol 2 1))) ∧
      ∀ (left : Formula true .sum) (right : Formula true .product) (text : String),
        left.signsLead = true → right.isPlain = true → (lessNegated left right).WrittenAs text →
          Curve.read .delimited text = .ok fun x => 0 - (left.curve x - right.curve x) := by
  refine ⟨fun e text written kept => ?_, fun left right text => read_lessNegated⟩
  refine ⟨?_, read_of_signsLead written, fun hlead => read_of_not_signsLead written hlead kept⟩
  intro f hf x
  cases hlead : e.signsLead with
  | true =>
    rw [read_of_signsLead written hlead] at hf
    rw [Except.ok.inj hf]
  | false =>
    obtain ⟨symbol, herror⟩ := read_of_not_signsLead written hlead kept
    rw [herror] at hf
    cases hf

/-- `max ( - x + 1 , 2 ) - x` -/
def cappedNegation : Formula true .sum :=
  minus
    (.ofProduct (.ofPower (.ofPrimary (maximum
      (plus (.negate rfl (.ofPower (.ofPrimary .free))) (.ofPower (.ofPrimary (.literal .one))))
      (.ofProduct (.ofPower (.ofPrimary (.literal .two))))))))
    (.ofPower (.ofPrimary .free))

/-- `x - ( - 1 )` -/
def lessNegatedOne : Formula true .sum :=
  lessNegated (.ofProduct (.ofPower (.ofPrimary .free)))
    (.ofPower (.ofPrimary (.literal .one)))

theorem lessNegatedOne_writtenAs : lessNegatedOne.WrittenAs "x - ( - 1 )" := by
  unfold WrittenAs
  decide +kernel

/-- A sign that leads is read as it is meant, and the sign of `x - ( - 1 )` is lost. -/
theorem read_cappedNegation :
    (cappedNegation.WrittenAs "max ( - x + 1 , 2 ) - x" ∧ cappedNegation.canLoseSign = false ∧
      Curve.read .delimited "max ( - x + 1 , 2 ) - x" = .ok cappedNegation.curve) ∧
      lessNegatedOne.WrittenAs "x - ( - 1 )" ∧
      Curve.read .delimited "x - ( - 1 )" = .ok fun x => 0 - (x - 1) := by
  have written : cappedNegation.WrittenAs "max ( - x + 1 , 2 ) - x" := by
    unfold WrittenAs
    decide +kernel
  refine ⟨⟨written, rfl, ?_⟩, lessNegatedOne_writtenAs, ?_⟩
  · exact (read_signed.1 cappedNegation _ written rfl).2.1 rfl
  · have hread := read_signed.2 _ _ _ (by rfl) (by rfl) lessNegatedOne_writtenAs
    exact hread

/-- A sign can be lost: at `5` the formula `x - ( - 1 )` is read as `-4`. -/
theorem not_forall_read_signed :
    ¬ ∀ (e : Formula true .sum) (text : String), e.WrittenAs text →
      ∀ f, Curve.read .delimited text = .ok f → ∀ x, f x = e.curve x := by
  intro h
  have hread := read_lessNegated (by rfl) (by rfl) lessNegatedOne_writtenAs
  have hfive : (0 - (5 - 1) : Float) = 5 - (0 - 1) := h _ _ lessNegatedOne_writtenAs _ hread 5
  have hbits : (0 - (5 - 1) : Float).toBits ≠ (5 - (0 - 1) : Float).toBits := by
    decide +kernel
  exact hbits (congrArg Float.toBits hfive)

end Formula

end CurveSketch
