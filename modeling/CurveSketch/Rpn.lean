import CurveSketch.Token

/-!
# Reverse Polish order

`Rpn.arrange` brings the tokens of an infix expression into reverse Polish
order, where an operator or a function stands after its operands and nothing
needs parentheses.

Operands are placed at once.  Operators, functions and opening parentheses wait
on a stack until a token to the right of them releases them.  A function waits
for the closing parenthesis of its arguments.
-/

namespace CurveSketch

/-- What a comma does. -/
inductive CommaMode where
  /-- It ends an argument, so that in `max ( x + 1 , 3 )` the first argument is
  `x + 1`. -/
  | delimited
  /-- Nothing: arguments are whatever values there are when the function is
  applied, and `max ( x + 1 , 3 )` is the maximum of `x` and `4`. -/
  | positional
  deriving Repr, DecidableEq

/-- An expression in the middle of its rearrangement. -/
structure Arrangement where
  /-- The tokens that have their place, the last one first. -/
  placed : List Token
  /-- The tokens that still wait, the latest one first. -/
  pending : List Token

namespace Arrangement

/-- Nothing is placed and nothing waits. -/
def empty : Arrangement := ⟨[], []⟩

/-- Gives a token its place. -/
def place (s : Arrangement) (token : Token) : Arrangement :=
  { s with placed := token :: s.placed }

/-- Lets a token wait. -/
def defer (s : Arrangement) (token : Token) : Arrangement :=
  { s with pending := token :: s.pending }

/-- Places the pending tokens down to the first one that does not leave. -/
def release (s : Arrangement) (leaves : Token → Bool) : Arrangement :=
  { placed := (s.pending.takeWhile leaves).reverse ++ s.placed
    pending := s.pending.dropWhile leaves }

/-- Places what waits above the innermost open parenthesis. -/
def releaseGroup (s : Arrangement) : Arrangement :=
  s.release (!·.kind.isOpening)

end Arrangement

namespace Rpn

/-- Whether a pending token has to be placed before the operator `next` waits. -/
def yields (next : Operator) (pending : Token) : Bool :=
  match pending.kind with
  | .operator op => op.yieldsTo next
  | _ => false

/-- A closing parenthesis places its group, and the function that the group
belongs to, if there is one. -/
def close (s : Arrangement) : Except ParseError Arrangement :=
  let group := s.releaseGroup
  match group.pending with
  | [] => .error .unopened
  | _ :: [] => .ok { group with pending := [] }
  | _ :: below :: rest =>
    if below.kind.isFunction then .ok ⟨below :: group.placed, rest⟩
    else .ok { group with pending := below :: rest }

/-- A comma places what belongs to the argument before it; the parenthesis stays
open. -/
def endArgument (s : Arrangement) : Except ParseError Arrangement :=
  let argument := s.releaseGroup
  if argument.pending.isEmpty then .error .strayComma else .ok argument

/-- What one token does. -/
def step (mode : CommaMode) (s : Arrangement) (token : Token) :
    Except ParseError Arrangement :=
  match token.kind with
  | .constant _ | .variable => .ok (s.place token)
  | .function _ | .opening => .ok (s.defer token)
  | .operator op => .ok ((s.release (yields op)).defer token)
  | .closing => close s
  | .comma =>
    match mode with
    | .delimited => endArgument s
    | .positional => .ok s
  | .invalid => .error (.unrecognized token.symbol)

/-- Places all that still waits.  A parenthesis must not be open. -/
def finish (s : Arrangement) : Except ParseError (List Token) :=
  if s.pending.any (·.kind.isOpening) then .error .unclosed
  else .ok (s.placed.reverse ++ s.pending)

/-- The tokens in reverse Polish order. -/
def arrange (mode : CommaMode) (tokens : List Token) : Except ParseError (List Token) := do
  finish (← tokens.foldlM (step mode) .empty)

/-- The tokens of an infix text in reverse Polish order. -/
def read (mode : CommaMode) (text : String) : Except ParseError (List Token) := do
  arrange mode (← Token.read text)

end Rpn

/-! ## Releasing keeps the order -/

namespace Arrangement

/-- All tokens in the order in which they come out if no other token follows. -/
def tokens (s : Arrangement) : List Token :=
  s.placed.reverse ++ s.pending

@[simp]
theorem tokens_empty : empty.tokens = [] := rfl

/-- Releasing tokens moves a border, but no token. -/
@[simp]
theorem tokens_release (s : Arrangement) (leaves : Token → Bool) :
    (s.release leaves).tokens = s.tokens := by
  simp [tokens, release, List.takeWhile_append_dropWhile]

/-- A token that is placed stands after all that was placed before it. -/
@[simp]
theorem tokens_place (s : Arrangement) (token : Token) :
    (s.place token).tokens = s.placed.reverse ++ token :: s.pending := by
  simp [tokens, place]

/-- What waits after a group's release begins with the open parenthesis. -/
theorem isOpening_of_pending_releaseGroup {s : Arrangement} {token : Token}
    {rest : List Token} (h : s.releaseGroup.pending = token :: rest) :
    token.kind.isOpening := by
  have := List.head?_dropWhile_not (fun t : Token => !t.kind.isOpening) s.pending
  simp only [releaseGroup, release] at h
  rw [h] at this
  simpa using this

end Arrangement

/-! ## What a step does -/

namespace Rpn

variable {mode : CommaMode} {s t : Arrangement} {token opening f : Token} {rest : List Token}

/-- An operator releases no parenthesis. -/
theorem isOpening_eq_false_of_yields {op : Operator} (h : yields op token = true) :
    token.kind.isOpening = false := by
  obtain ⟨symbol, kind⟩ := token
  cases kind with
  | operator other => rfl
  | _ => cases h

/-- An operator releases no function. -/
theorem yields_of_isFunction {op : Operator} (h : token.kind.isFunction = true) :
    yields op token = false := by
  obtain ⟨symbol, kind⟩ := token
  cases kind with
  | function f => rfl
  | _ => cases h

theorem step_operand (h : token.kind.isOperand = true) :
    step mode s token = .ok (s.place token) := by
  obtain ⟨symbol, kind⟩ := token
  cases kind <;> first | rfl | cases h

theorem step_function (h : token.kind.isFunction = true) :
    step mode s token = .ok (s.defer token) := by
  obtain ⟨symbol, kind⟩ := token
  cases kind <;> first | rfl | cases h

theorem step_opening (h : token.kind = .opening) : step mode s token = .ok (s.defer token) := by
  simp only [step, h]

theorem step_operator {op : Operator} (h : token.kind = .operator op) :
    step mode s token = .ok ((s.release (yields op)).defer token) := by
  simp only [step, h]

theorem step_closing (h : token.kind = .closing) : step mode s token = close s := by
  simp only [step, h]

theorem step_comma (h : token.kind = .comma) :
    step .delimited s token = endArgument s := by
  simp only [step, h]

theorem step_comma_positional (h : token.kind = .comma) :
    step .positional s token = .ok s := by
  simp only [step, h]

/-- The mode makes a difference at commas only. -/
theorem step_of_not_isComma (h : token.kind.isComma = false) (other : CommaMode) :
    step mode s token = step other s token := by
  obtain ⟨symbol, kind⟩ := token
  cases kind <;> first | rfl | cases h

/-- What a step has done that succeeds. -/
inductive Advances (mode : CommaMode) (s : Arrangement) (token : Token) : Arrangement → Prop where
  | operand (h : token.kind.isOperand = true) : Advances mode s token (s.place token)
  | function (h : token.kind.isFunction = true) : Advances mode s token (s.defer token)
  | opening (h : token.kind = .opening) : Advances mode s token (s.defer token)
  | operator {op : Operator} (h : token.kind = .operator op) :
      Advances mode s token ((s.release (yields op)).defer token)
  | closing {t : Arrangement} (h : token.kind = .closing) (hclose : close s = .ok t) :
      Advances mode s token t
  | comma {t : Arrangement} (h : token.kind = .comma) (hmode : mode = .delimited)
      (hend : endArgument s = .ok t) : Advances mode s token t
  | skip (h : token.kind = .comma) (hmode : mode = .positional) : Advances mode s token s

theorem advances_of_step (h : step mode s token = .ok t) : Advances mode s token t := by
  cases hkind : token.kind with
  | constant value =>
    have hoperand : token.kind.isOperand = true := by rw [hkind]; rfl
    obtain rfl := Except.ok.inj ((step_operand hoperand).symm.trans h)
    exact .operand hoperand
  | «variable» =>
    have hoperand : token.kind.isOperand = true := by rw [hkind]; rfl
    obtain rfl := Except.ok.inj ((step_operand hoperand).symm.trans h)
    exact .operand hoperand
  | operator op =>
    obtain rfl := Except.ok.inj ((step_operator hkind).symm.trans h)
    exact .operator hkind
  | function f =>
    have hfunction : token.kind.isFunction = true := by rw [hkind]; rfl
    obtain rfl := Except.ok.inj ((step_function hfunction).symm.trans h)
    exact .function hfunction
  | opening =>
    obtain rfl := Except.ok.inj ((step_opening hkind).symm.trans h)
    exact .opening hkind
  | closing => exact .closing hkind ((step_closing hkind).symm.trans h)
  | comma =>
    cases hmode : mode with
    | delimited =>
      rw [hmode, step_comma hkind] at h
      exact .comma hkind rfl h
    | positional =>
      rw [hmode, step_comma_positional hkind] at h
      obtain rfl := Except.ok.inj h
      exact .skip hkind rfl
  | invalid => simp [step, hkind] at h

theorem close_of_nil (h : s.releaseGroup.pending = []) : close s = .error .unopened := by
  simp [close, h]

/-- The function of a group is placed with it. -/
theorem close_of_function (h : s.releaseGroup.pending = opening :: f :: rest)
    (hf : f.kind.isFunction = true) : close s = .ok ⟨f :: s.releaseGroup.placed, rest⟩ := by
  simp [close, h, hf]

theorem close_of_not_function (h : s.releaseGroup.pending = opening :: rest)
    (hrest : ∀ below ∈ rest.head?, below.kind.isFunction = false) :
    close s = .ok ⟨s.releaseGroup.placed, rest⟩ := by
  rcases rest with _ | ⟨below, rest⟩
  · simp [close, h]
  · have hbelow : below.kind.isFunction = false := hrest below rfl
    simp [close, h, hbelow]

/-- What a closing parenthesis finds: no parenthesis, one without a function, or one
with a function. -/
theorem pending_releaseGroup_cases (s : Arrangement) :
    s.releaseGroup.pending = [] ∨
      (∃ opening rest, s.releaseGroup.pending = opening :: rest ∧
        ∀ below ∈ rest.head?, below.kind.isFunction = false) ∨
      ∃ opening f rest, s.releaseGroup.pending = opening :: f :: rest ∧
        f.kind.isFunction = true := by
  rcases s.releaseGroup.pending with _ | ⟨opening, _ | ⟨below, rest⟩⟩
  · exact Or.inl rfl
  · exact Or.inr (Or.inl ⟨opening, [], rfl, fun _ hmem => by cases hmem⟩)
  · cases hbelow : below.kind.isFunction with
    | true => exact Or.inr (Or.inr ⟨opening, below, rest, rfl, hbelow⟩)
    | false =>
      refine Or.inr (Or.inl ⟨opening, below :: rest, rfl, ?_⟩)
      rintro _ ⟨⟩
      exact hbelow

/-- A closing parenthesis that has something to close places the function below the
open parenthesis, or there is none. -/
theorem close_eq_ok (h : close s = .ok t) :
    (∃ opening rest, s.releaseGroup.pending = opening :: rest ∧
      (∀ below ∈ rest.head?, below.kind.isFunction = false) ∧
        t = ⟨s.releaseGroup.placed, rest⟩) ∨
      ∃ opening f rest, s.releaseGroup.pending = opening :: f :: rest ∧
        f.kind.isFunction = true ∧ t = ⟨f :: s.releaseGroup.placed, rest⟩ := by
  rcases pending_releaseGroup_cases s with
    hpending | ⟨opening, rest, hpending, hrest⟩ | ⟨opening, f, rest, hpending, hf⟩
  · rw [close_of_nil hpending] at h
    cases h
  · rw [close_of_not_function hpending hrest] at h
    exact Or.inl ⟨opening, rest, hpending, hrest, (Except.ok.inj h).symm⟩
  · rw [close_of_function hpending hf] at h
    exact Or.inr ⟨opening, f, rest, hpending, hf, (Except.ok.inj h).symm⟩

theorem endArgument_of_nil (h : s.releaseGroup.pending = []) :
    endArgument s = .error .strayComma := by
  simp [endArgument, h]

theorem endArgument_of_cons (h : s.releaseGroup.pending = opening :: rest) :
    endArgument s = .ok s.releaseGroup := by
  simp [endArgument, h]

theorem endArgument_eq_ok (h : endArgument s = .ok t) :
    (∃ opening rest, s.releaseGroup.pending = opening :: rest) ∧ t = s.releaseGroup := by
  rcases hpending : s.releaseGroup.pending with _ | ⟨opening, rest⟩
  · rw [endArgument_of_nil hpending] at h
    cases h
  · rw [endArgument_of_cons hpending] at h
    exact ⟨⟨opening, rest, rfl⟩, (Except.ok.inj h).symm⟩

/-! ## What a whole run gives -/

variable {tokens ordered : List Token}

theorem finish_eq_ok_iff :
    finish s = .ok ordered ↔
      (∀ token ∈ s.pending, token.kind.isOpening = false) ∧ ordered = s.tokens := by
  unfold finish
  split
  · rename_i hopen
    obtain ⟨token, htoken, hopening⟩ := List.any_eq_true.mp hopen
    constructor
    · intro h
      cases h
    · rintro ⟨hclosed, -⟩
      rw [hclosed token htoken] at hopening
      cases hopening
  · rename_i hclosed
    constructor
    · intro h
      refine ⟨fun token htoken => ?_, (Except.ok.inj h).symm⟩
      rw [← Bool.not_eq_true]
      exact fun hopening => hclosed (List.any_eq_true.mpr ⟨token, htoken, hopening⟩)
    · rintro ⟨-, rfl⟩
      rfl

theorem arrange_eq_ok_iff {mode : CommaMode} :
    arrange mode tokens = .ok ordered ↔
      ∃ s, tokens.foldlM (step mode) .empty = .ok s ∧ finish s = .ok ordered := by
  unfold arrange
  cases hrun : tokens.foldlM (step mode) .empty with
  | error cause =>
    constructor
    · intro h
      cases h
    · rintro ⟨s, h, -⟩
      cases h
  | ok s =>
    constructor
    · intro h
      exact ⟨s, rfl, h⟩
    · rintro ⟨s, ⟨⟩, h⟩
      exact h

end Rpn

end CurveSketch
