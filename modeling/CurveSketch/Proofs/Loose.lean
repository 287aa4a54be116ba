import CurveSketch.Proofs.Groups

/-!
# What can be arranged

The conversion to reverse Polish order does not ask whether the tokens are an
expression.  `Loose` is the grammar of what it accepts, with the order that comes
out.  It is the grammar of infix expressions, loosened in three ways.

* Where an expression has an operand, any number of operands may stand side by side,
  also none.
* A pair of parentheses holds one or more arguments, whatever stands before it, and
  an argument may be empty.
* A function need not stand before a group.  It is applied to the next group without
  a function of its own if there is no operator between them, and else to everything
  up to the end of its argument.

`Loose.places` is the frame property: whatever waits below a part of an expression keeps
waiting, and the part adds its own tokens in their order.

* `Arrangement.Admits` is what a part asks of the pending tokens.  None of its operators
  may release the latest one, and no function may take a group that is not its own.
* `Arrangement.Leaves` is what a part leaves.  Some of it is placed, and the rest waits on
  top of what waited before.  An operator to the right releases all that waits of its left
  operand (`Leaves.release`), a comma or a closing parenthesis all that waits of an
  argument (`Leaves.releaseGroup`).

So a loose expression is arranged (`arrange_of_loose`), and a formula with it, because its
derivation tree is one of a loose expression (`Formula.loose`).
-/

namespace CurveSketch

open Rpn Arrangement

/-! ## Operators and their operands -/

/-- The least precedence of an operator that stands in a formula of this tier
outside parentheses.  In a primary there is none. -/
def Tier.precedence : Tier → Nat
  | sum => 1
  | product => 2
  | power => 3
  | primary => 4

theorem Tier.sum_le (tier : Tier) : Tier.sum.precedence ≤ tier.precedence := by
  cases tier <;> decide

theorem Tier.le_primary (tier : Tier) : tier.precedence ≤ Tier.primary.precedence := by
  cases tier <;> decide

namespace Operator

/-- The tier of formulas that the operator makes. -/
def tier : Operator → Tier
  | add | subtract => .sum
  | multiply | divide => .product
  | power => .power

/-- The tier of its left operand. -/
def leftTier : Operator → Tier
  | add | subtract => .sum
  | multiply | divide => .product
  | power => .primary

/-- The tier of its right operand. -/
def rightTier : Operator → Tier
  | add | subtract => .product
  | multiply | divide => .power
  | power => .power

theorem precedence_tier (op : Operator) : op.tier.precedence = op.precedence := by
  cases op <;> rfl

theorem sum_le_precedence (op : Operator) : Tier.sum.precedence ≤ op.precedence := by
  cases op <;> decide

theorem precedence_le_leftTier (op : Operator) : op.precedence ≤ op.leftTier.precedence := by
  cases op <;> decide

theorem precedence_le_rightTier (op : Operator) : op.precedence ≤ op.rightTier.precedence := by
  cases op <;> decide

/-- An operator releases those that can stand in its left operand. -/
theorem yieldsTo_iff_leftTier_le {pending next : Operator} :
    pending.yieldsTo next = true ↔ next.leftTier.precedence ≤ pending.precedence := by
  cases pending <;> cases next <;> decide

/-- An operator stays if the next one can stand in its right operand. -/
theorem not_yieldsTo_iff_rightTier_le {pending next : Operator} :
    pending.yieldsTo next = false ↔ pending.rightTier.precedence ≤ next.precedence := by
  cases pending <;> cases next <;> decide

end Operator

/-! ## The grammar -/

/-- The parts of a loose expression. -/
inductive Part where
  /-- Operands side by side.  If they are not `bare`, a function waits before them, and
  every group has a function of its own. -/
  | operands (bare : Bool)
  /-- Operators that stand in formulas of the tier, between operands.  If there is a
  `tail`, the part may end with a function that is applied to all that follows it. -/
  | level (tier : Tier) (bare tail : Bool)
  /-- What stands in parentheses. -/
  | arguments

/-- The tokens are a part of a loose expression, and `ordered` is their reverse Polish
order. -/
inductive Loose : Part → List Token → List Token → Prop where
  | none (bare : Bool) : Loose (.operands bare) [] []
  | operand {bare : Bool} {tokens ordered : List Token} {c : Token}
      (before : Loose (.operands bare) tokens ordered) (hc : c.kind.isOperand = true) :
      Loose (.operands bare) (tokens ++ [c]) (ordered ++ [c])
  | group {tokens ordered content inside : List Token} {opening closing : Token}
      (before : Loose (.operands true) tokens ordered) (hopening : opening.kind = .opening)
      (arguments : Loose .arguments content inside) (hclosing : closing.kind = .closing) :
      Loose (.operands true) (tokens ++ opening :: (content ++ [closing])) (ordered ++ inside)
  | call {bare : Bool} {tokens ordered waiting first content inside : List Token}
      {f opening closing : Token} (before : Loose (.operands bare) tokens ordered)
      (hf : f.kind.isFunction = true) (between : Loose (.operands false) waiting first)
      (hopening : opening.kind = .opening) (arguments : Loose .arguments content inside)
      (hclosing : closing.kind = .closing) :
      Loose (.operands bare) (tokens ++ f :: (waiting ++ opening :: (content ++ [closing])))
        (ordered ++ (first ++ inside ++ [f]))
  | level {tier : Tier} {bare tail : Bool} {tokens ordered : List Token}
      (operands : Loose (.operands bare) tokens ordered) :
      Loose (.level tier bare tail) tokens ordered
  | binary {tier : Tier} {bare tail : Bool} {op : Operator} {token : Token}
      {left leftOrdered right rightOrdered : List Token} (htoken : token.kind = .operator op)
      (htier : tier.precedence ≤ op.precedence)
      (hleft : Loose (.level op.leftTier bare false) left leftOrdered)
      (hright : Loose (.level op.rightTier true tail) right rightOrdered) :
      Loose (.level tier bare tail) (left ++ token :: right)
        (leftOrdered ++ rightOrdered ++ [token])
  | function {tier : Tier} {bare : Bool} {f : Token} {tokens ordered rest last : List Token}
      (before : Loose (.operands bare) tokens ordered) (hf : f.kind.isFunction = true)
      (argument : Loose (.level .sum false true) rest last) :
      Loose (.level tier bare true) (tokens ++ f :: rest) (ordered ++ last ++ [f])
  | argument {tokens ordered : List Token} (only : Loose (.level .sum true true) tokens ordered) :
      Loose .arguments tokens ordered
  | arguments {tokens ordered rest last : List Token} {comma : Token}
      (earlier : Loose .arguments tokens ordered) (hcomma : comma.kind = .comma)
      (argument : Loose (.level .sum true true) rest last) :
      Loose .arguments (tokens ++ comma :: rest) (ordered ++ last)

theorem Loose.binary_token {tier : Tier} {bare tail : Bool} {left leftOrdered right rightOrdered :
    List Token} (op : Operator) (htier : tier.precedence ≤ op.precedence)
    (hleft : Loose (.level op.leftTier bare false) left leftOrdered)
    (hright : Loose (.level op.rightTier true tail) right rightOrdered) :
    Loose (.level tier bare tail) (left ++ op.token :: right)
      (leftOrdered ++ rightOrdered ++ [op.token]) :=
  .binary rfl htier hleft hright

theorem Loose.mono {tier tighter : Tier} {bare tail : Bool} {tokens ordered : List Token}
    (h : Loose (.level tighter bare tail) tokens ordered)
    (hle : tier.precedence ≤ tighter.precedence) :
    Loose (.level tier bare tail) tokens ordered := by
  cases h with
  | level operands => exact .level operands
  | binary htoken htier hleft hright =>
    exact .binary htoken (Nat.le_trans hle htier) hleft hright
  | function before hf argument => exact .function before hf argument

/-! ## Loose expressions are arranged -/

namespace Arrangement

/-- Operators of the tier can be arranged on top of `s`.  If groups without a function
can stand before them, no function waits. -/
def Admits (s : Arrangement) (tier : Tier) (bare : Bool) : Prop :=
  ∀ token ∈ s.pending.head?, (bare = true → token.kind.isFunction = false) ∧
    ∀ op : Operator, tier.precedence ≤ op.precedence → yields op token = false

/-- `t` is `s` after tokens of which a part has its place.  No parenthesis waits, and
without a `tail` only operators of the tier. -/
def Leaves (s : Arrangement) (tier : Tier) (tail : Bool) (ordered : List Token)
    (t : Arrangement) : Prop :=
  ∃ placed waiting, placed ++ waiting = ordered ∧
    (∀ token ∈ waiting, token.kind.isOpening = false ∧
      (tail = false → ∃ op : Operator, token.kind = .operator op ∧
        tier.precedence ≤ op.precedence)) ∧
    t = ⟨placed.reverse ++ s.placed, waiting ++ s.pending⟩

variable {s t : Arrangement} {tier : Tier} {bare tail : Bool} {op : Operator}
  {token opening f : Token} {ordered left right rest : List Token}

theorem leaves_placeAll (s : Arrangement) (tier : Tier) (tail : Bool) (ordered : List Token) :
    s.Leaves tier tail ordered (s.placeAll ordered) := by
  refine ⟨ordered, [], List.append_nil _, ?_, rfl⟩
  intro token h
  cases h

theorem admits_of_pending (h : s.pending = token :: rest)
    (hf : bare = true → token.kind.isFunction = false)
    (hop : ∀ op : Operator, tier.precedence ≤ op.precedence → yields op token = false) :
    s.Admits tier bare := by
  rw [Admits, h]
  rintro _ ⟨⟩
  exact ⟨hf, hop⟩

theorem IsOpen.admits (h : s.IsOpen) (tier : Tier) : s.Admits tier true := by
  intro token htoken
  refine ⟨fun _ => h.not_isFunction token htoken, fun op _ => ?_⟩
  cases hyields : yields op token with
  | false => rfl
  | true =>
    have hopening : token.kind.isOpening = false := isOpening_eq_false_of_yields hyields
    rw [h.isOpening token htoken] at hopening
    cases hopening

theorem admits_defer_function (hf : f.kind.isFunction = true) (s : Arrangement) (tier : Tier) :
    (s.defer f).Admits tier false := by
  exact admits_of_pending rfl (fun h => by cases h) fun op _ => yields_of_isFunction hf

theorem admits_defer_operator (htoken : token.kind = .operator op) (s : Arrangement) :
    (s.defer token).Admits op.rightTier true := by
  refine admits_of_pending rfl (fun _ => by rw [htoken]; rfl) fun next hnext => ?_
  rw [yields, htoken]
  exact Operator.not_yieldsTo_iff_rightTier_le.mpr hnext

theorem Admits.mono {tighter : Tier} (h : s.Admits tier bare)
    (hle : tier.precedence ≤ tighter.precedence) : s.Admits tighter bare := by
  intro token htoken
  obtain ⟨hf, hop⟩ := h token htoken
  exact ⟨hf, fun op htier => hop op (Nat.le_trans hle htier)⟩

/-- An operator releases its left operand and nothing below it. -/
theorem Leaves.release (h : s.Leaves op.leftTier false ordered t)
    (hs : ∀ token ∈ s.pending.head?, yields op token = false) :
    t.release (yields op) = s.placeAll ordered := by
  obtain ⟨placed, waiting, rfl, hwaiting, rfl⟩ := h
  have hall : ∀ token ∈ waiting, yields op token = true := by
    intro token htoken
    obtain ⟨other, hkind, hother⟩ := (hwaiting token htoken).2 rfl
    rw [yields, hkind]
    exact Operator.yieldsTo_iff_leftTier_le.mpr hother
  rw [release_append hall hs]
  simp [placeAll]

/-- The end of an argument or of a group releases all that waits of it. -/
theorem Leaves.releaseGroup (h : s.Leaves tier tail ordered t) (hs : s.IsOpen) :
    t.releaseGroup = s.placeAll ordered := by
  obtain ⟨placed, waiting, rfl, hwaiting, rfl⟩ := h
  have hall : ∀ token ∈ waiting, (!token.kind.isOpening) = true := by
    intro token htoken
    simp [(hwaiting token htoken).1]
  have hstop : ∀ token ∈ s.pending.head?, (!token.kind.isOpening) = false := by
    intro token htoken
    simp [hs.isOpening token htoken]
  rw [Arrangement.releaseGroup, release_append hall hstop]
  simp [placeAll]

/-- An operator waits on top of its left operand and below its right one. -/
theorem Leaves.binary (h : ((s.placeAll left).defer token).Leaves op.rightTier tail right t)
    (htoken : token.kind = .operator op) (htier : tier.precedence ≤ op.precedence) :
    s.Leaves tier tail (left ++ right ++ [token]) t := by
  have hright : op.precedence ≤ op.rightTier.precedence := op.precedence_le_rightTier
  obtain ⟨placed, waiting, rfl, hwaiting, rfl⟩ := h
  refine ⟨left ++ placed, waiting ++ [token], by simp, ?_, by simp [placeAll, defer]⟩
  intro other hother
  rcases List.mem_append.mp hother with hmem | hmem
  · obtain ⟨hopening, hoperator⟩ := hwaiting other hmem
    refine ⟨hopening, fun htail => ?_⟩
    obtain ⟨next, hkind, hnext⟩ := hoperator htail
    exact ⟨next, hkind, by omega⟩
  · obtain rfl := List.mem_singleton.mp hmem
    exact ⟨by rw [htoken]; rfl, fun _ => ⟨op, htoken, htier⟩⟩

/-- A function without a group waits below all that it is applied to. -/
theorem Leaves.function (h : ((s.placeAll left).defer f).Leaves .sum true right t)
    (hf : f.kind.isFunction = true) : s.Leaves tier true (left ++ right ++ [f]) t := by
  obtain ⟨placed, waiting, rfl, hwaiting, rfl⟩ := h
  refine ⟨left ++ placed, waiting ++ [f], by simp, ?_, by simp [placeAll, defer]⟩
  intro other hother
  rcases List.mem_append.mp hother with hmem | hmem
  · exact ⟨(hwaiting other hmem).1, fun htail => by cases htail⟩
  · obtain rfl := List.mem_singleton.mp hmem
    exact ⟨Kind.isOpening_eq_false_of_isFunction hf, fun htail => by cases htail⟩

/-- At the end nothing but the tokens is there. -/
theorem Leaves.finish (h : empty.Leaves tier tail ordered t) :
    Rpn.finish t = .ok ordered := by
  obtain ⟨placed, waiting, rfl, hwaiting, rfl⟩ := h
  refine finish_eq_ok_iff.mpr ⟨?_, ?_⟩
  · intro token htoken
    exact (hwaiting token (by simpa [empty] using htoken)).1
  · simp [Arrangement.tokens, empty]

end Arrangement

/-- What a part of a loose expression does to an arrangement. -/
def Part.Places : Part → List Token → List Token → Prop
  | .operands bare, tokens, ordered =>
    ∀ s : Arrangement, (bare = true → ∀ token ∈ s.pending.head?, token.kind.isFunction = false) →
      Arranges .delimited s tokens (s.placeAll ordered)
  | .level tier bare tail, tokens, ordered =>
    ∀ s : Arrangement, s.Admits tier bare →
      ∃ t, Arranges .delimited s tokens t ∧ s.Leaves tier tail ordered t
  | .arguments, tokens, ordered =>
    ∀ s : Arrangement, s.IsOpen →
      ∃ t, Arranges .delimited s tokens t ∧ t.releaseGroup = s.placeAll ordered

/-- What a derivation says about the order, the conversion does on top of any arrangement
that admits it. -/
theorem Loose.places {part : Part} {tokens ordered : List Token}
    (h : Loose part tokens ordered) : part.Places tokens ordered := by
  induction h with
  | none bare =>
    intro s _
    exact .nil
  | @operand bare tokens ordered c before hc ih =>
    intro s hs
    have hplaced : (s.placeAll ordered).placeAll [c] = s.placeAll (ordered ++ [c]) :=
      placeAll_placeAll s ordered [c]
    rw [← hplaced]
    exact (ih s hs).append (arranges_operand hc)
  | @group tokens ordered content inside opening closing before hopening arguments hclosing
      ih iharguments =>
    intro s hs
    obtain ⟨t, ht, hplaced⟩ :=
      iharguments ((s.placeAll ordered).defer opening) (isOpen_defer hopening)
    have hclose : step .delimited t closing = .ok (s.placeAll (ordered ++ inside)) := by
      rw [step_closing hclosing, close_of_releaseGroup hplaced (hs rfl), placeAll_placeAll]
    exact (ih s hs).append (.cons (step_opening hopening) (ht.append (.cons hclose .nil)))
  | @call bare tokens ordered waiting first content inside f opening closing before hf between
      hopening arguments hclosing ih ihbetween iharguments =>
    intro s hs
    have hfirst := ihbetween ((s.placeAll ordered).defer f) fun h => by cases h
    obtain ⟨t, ht, hplaced⟩ :=
      iharguments ((((s.placeAll ordered).defer f).placeAll first).defer opening)
        (isOpen_defer hopening)
    have hclose : step .delimited t closing =
        .ok (s.placeAll (ordered ++ (first ++ inside ++ [f]))) := by
      have hdefer : ((s.placeAll ordered).defer f).placeAll first =
          ((s.placeAll ordered).placeAll first).defer f := rfl
      rw [hdefer] at hplaced
      rw [step_closing hclosing, close_of_releaseGroup_function hplaced hf, placeAll_placeAll,
        placeAll_placeAll]
      simp
    exact (ih s hs).append (.cons (step_function hf) (hfirst.append
      (.cons (step_opening hopening) (ht.append (.cons hclose .nil)))))
  | @level tier bare tail tokens ordered operands ih =>
    intro s hs
    have hbare : bare = true → ∀ token ∈ s.pending.head?, token.kind.isFunction = false :=
      fun h token htoken => (hs token htoken).1 h
    exact ⟨_, ih s hbare, leaves_placeAll s tier tail ordered⟩
  | @binary tier bare tail op token left leftOrdered right rightOrdered htoken htier hleft hright
      ihleft ihright =>
    intro s hs
    have hoperator : s.Admits op.leftTier bare :=
      hs.mono (Nat.le_trans htier op.precedence_le_leftTier)
    obtain ⟨t, ht, hleaves⟩ := ihleft s hoperator
    have hstep : step .delimited t token = .ok ((s.placeAll leftOrdered).defer token) := by
      rw [step_operator htoken, hleaves.release fun other hother => (hs other hother).2 op htier]
    obtain ⟨u, hu, huleaves⟩ := ihright _ (admits_defer_operator htoken (s.placeAll leftOrdered))
    exact ⟨u, ht.append (.cons hstep hu), huleaves.binary htoken htier⟩
  | @function tier bare f tokens ordered rest last before hf argument ih iha =>
    intro s hs
    have hbare : bare = true → ∀ token ∈ s.pending.head?, token.kind.isFunction = false :=
      fun h token htoken => (hs token htoken).1 h
    obtain ⟨t, ht, hleaves⟩ := iha _ (admits_defer_function hf (s.placeAll ordered) .sum)
    exact ⟨t, (ih s hbare).append (.cons (step_function hf) ht), hleaves.function hf⟩
  | @argument tokens ordered only ih =>
    intro s hs
    obtain ⟨t, ht, hleaves⟩ := ih s (hs.admits .sum)
    exact ⟨t, ht, hleaves.releaseGroup hs⟩
  | @arguments tokens ordered rest last comma earlier hcomma argument ih iha =>
    intro s hs
    obtain ⟨t, ht, hplaced⟩ := ih s hs
    have hnext : (s.placeAll ordered).IsOpen := hs.placeAll ordered
    obtain ⟨u, hu, hleaves⟩ := iha (s.placeAll ordered) (hnext.admits .sum)
    have hstep : step .delimited t comma = .ok (s.placeAll ordered) := by
      rw [step_comma hcomma, ← hplaced]
      exact endArgument_of_isOpen (hplaced ▸ hnext)
    refine ⟨u, ht.append (.cons hstep hu), ?_⟩
    rw [hleaves.releaseGroup hnext, placeAll_placeAll]

theorem arrange_of_loose {tokens ordered : List Token}
    (h : Loose (.level .sum true true) tokens ordered) :
    arrange .delimited tokens = .ok ordered := by
  obtain ⟨t, ht, hleaves⟩ := h.places .empty fun _ htoken => by cases htoken
  exact arrange_eq_ok_iff.mpr ⟨t, ht, hleaves.finish⟩

/-! ## Formulas -/

namespace Formula

variable {signed : Bool} {tier : Tier}

theorem head?_tokens_append (e : Formula signed tier) (rest : List Token) :
    (e.tokens ++ rest).head? = e.tokens.head? :=
  List.head?_append_of_ne_nil _ e.tokens_ne_nil

/-- A formula is a loose expression.  A minus without a left operand is read like one
whose left operand has no tokens.  Behind a function that waits, only a formula that does
not begin with a group is one, because the group would be taken for the function's own. -/
theorem loose_of_head? (e : Formula signed tier) (bare tail : Bool)
    (h : bare = false → e.tokens.head? ≠ some Token.opening) :
    Loose (.level tier bare tail) e.tokens e.ordered := by
  have hbare {p : Prop} (hfalse : true = false) : p := Bool.noConfusion hfalse
  induction e generalizing bare tail with
  | literal c => exact .level (.operand (.none bare) rfl)
  | free => exact .level (.operand (.none bare) rfl)
  | group e ih =>
    cases bare with
    | true => exact .level (.group (.none true) rfl (.argument (ih true true hbare)) rfl)
    | false => exact absurd rfl (h rfl)
  | call f op unary e ih =>
    exact .level (.call (.none bare) rfl (.none false) rfl (.argument (ih true true hbare)) rfl)
  | callPair f op binary a b iha ihb =>
    have hpair : Loose .arguments (a.tokens ++ Token.comma :: b.tokens)
        (a.ordered ++ b.ordered) :=
      .arguments (.argument (iha true true hbare)) rfl (ihb true true hbare)
    have hcall : Loose (.operands bare)
        (f.token :: Token.opening :: ((a.tokens ++ Token.comma :: b.tokens) ++ [Token.closing]))
        (a.ordered ++ b.ordered ++ [f.token]) :=
      .call (.none bare) rfl (.none false) rfl hpair rfl
    rw [List.append_assoc] at hcall
    exact .level hcall
  | ofPrimary e ih | ofPower e ih | ofProduct e ih => exact (ih bare tail h).mono (by decide)
  | power base exponent ihb ihe =>
    rw [tokens, head?_tokens_append] at h
    exact .binary_token .power (by decide) (ihb bare false h) (ihe true tail hbare)
  | product left op isProduct right ihl ihr =>
    rw [tokens, head?_tokens_append] at h
    rcases isProduct with rfl | rfl
    · exact .binary_token .multiply (by decide) (ihl bare false h) (ihr true tail hbare)
    · exact .binary_token .divide (by decide) (ihl bare false h) (ihr true tail hbare)
  | sum left op isSum right ihl ihr =>
    rw [tokens, head?_tokens_append] at h
    rcases isSum with rfl | rfl
    · exact .binary_token .add (by decide) (ihl bare false h) (ihr true tail hbare)
    · exact .binary_token .subtract (by decide) (ihl bare false h) (ihr true tail hbare)
  | negate allowed e ih =>
    exact .binary_token .subtract (by decide) (.level (.none bare)) (ih true tail hbare)

theorem loose (e : Formula signed tier) (tail : Bool) :
    Loose (.level tier true tail) e.tokens e.ordered :=
  e.loose_of_head? true tail fun h => Bool.noConfusion h

/-- A text that writes a formula is brought into the order of the formula. -/
theorem read_rpn_of_writtenAs {e : Formula signed tier} {text : String}
    (h : e.WrittenAs text) : Rpn.read .delimited text = .ok e.ordered := by
  rw [Rpn.read, read_of_writtenAs h]
  exact arrange_of_loose ((e.loose true).mono tier.sum_le)

end Formula

end CurveSketch
