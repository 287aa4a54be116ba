import CurveSketch.Proofs.Loose
import Mathlib.Data.List.Induction

/-!
# Nothing else can be arranged

The conversion to reverse Polish order accepts no tokens but loose expressions, and gives
them no other order than `Loose` does (`arrange_eq_ok_iff_loose`).

In the middle of a run there are derivations that have begun and are not complete.  Each
operator, function and parenthesis that waits on the stack belongs to one of them, and they
stand one on top of the other.  `Spine` describes such a stack together with the tokens
that have been read.

* An operator completes derivations from the top down to the first token that does not
  yield to it (`Spine.yielded`).
* A comma, a closing parenthesis or the end of the tokens completes them down to the
  innermost open parenthesis (`Spine.settled`).
* So every step goes from one spine to the next (`Reached.step`), and at the end without
  an open parenthesis a single derivation is left (`Settled.whole_of_closed`).
-/

namespace CurveSketch

open Rpn Arrangement

/-! ## What waits in the middle of a run -/

/-- The arguments of a group that have been read, each with its comma. -/
inductive Earlier : List Token → List Token → Prop where
  | nil : Earlier [] []
  | concat {tokens ordered : List Token} {comma : Token}
      (arguments : Loose .arguments tokens ordered) (hcomma : comma.kind = .comma) :
      Earlier (tokens ++ [comma]) ordered

theorem Earlier.arguments {tokens ordered rest last : List Token} (h : Earlier tokens ordered)
    (argument : Loose (.level .sum true true) rest last) :
    Loose .arguments (tokens ++ rest) (ordered ++ last) := by
  cases h with
  | nil => exact .argument argument
  | concat arguments hcomma =>
    rw [List.append_assoc]
    exact .arguments arguments hcomma argument

/-- The tokens `before` have been read, and what waits of them is an operator, a
function or a parenthesis, each on top of the operands before it.  An expression of
the tier can follow, and if it is not `bare`, a function waits for it. -/
inductive Spine : List Token → Tier → Bool → Arrangement → Prop where
  | start : Spine [] .sum true .empty
  | operator {before left ordered : List Token} {tier : Tier} {bare : Bool} {s : Arrangement}
      {op : Operator} {token : Token} (below : Spine before tier bare s)
      (htier : tier.precedence ≤ op.precedence)
      (hleft : Loose (.level op.leftTier bare false) left ordered)
      (htoken : token.kind = .operator op) :
      Spine (before ++ left ++ [token]) op.rightTier true ((s.placeAll ordered).defer token)
  | function {before tokens ordered : List Token} {tier : Tier} {bare : Bool} {s : Arrangement}
      {f : Token} (below : Spine before tier bare s)
      (operands : Loose (.operands bare) tokens ordered) (hf : f.kind.isFunction = true) :
      Spine (before ++ tokens ++ [f]) .sum false ((s.placeAll ordered).defer f)
  | group {before tokens ordered content inside : List Token} {tier : Tier} {bare : Bool}
      {s : Arrangement} {opening : Token} (below : Spine before tier bare s)
      (operands : Loose (.operands bare) tokens ordered) (hopening : opening.kind = .opening)
      (earlier : Earlier content inside) :
      Spine (before ++ tokens ++ opening :: content) .sum true
        (((s.placeAll ordered).defer opening).placeAll inside)

/-- All operators and functions have been released down to the innermost parenthesis,
or there is none. -/
inductive Settled : List Token → Arrangement → Prop where
  | whole {tokens ordered : List Token} (h : Loose (.level .sum true true) tokens ordered) :
      Settled tokens (empty.placeAll ordered)
  | group {before tokens ordered content inside : List Token} {tier : Tier} {bare : Bool}
      {s : Arrangement} {opening : Token} (below : Spine before tier bare s)
      (operands : Loose (.operands bare) tokens ordered) (hopening : opening.kind = .opening)
      (arguments : Loose .arguments content inside) :
      Settled (before ++ tokens ++ opening :: content)
        (((s.placeAll ordered).defer opening).placeAll inside)

/-- The tokens have been read, the operands at their end on top of a spine. -/
inductive Reached : List Token → Arrangement → Prop where
  | mk {before tokens ordered : List Token} {tier : Tier} {bare : Bool} {s : Arrangement}
      (spine : Spine before tier bare s) (operands : Loose (.operands bare) tokens ordered) :
      Reached (before ++ tokens) (s.placeAll ordered)

/-- An operator has released what yields to it.  What is left can stand before the
operator's left operand. -/
inductive Yielded (op : Operator) : List Token → Arrangement → Prop where
  | mk {before left ordered : List Token} {tier : Tier} {bare : Bool} {s : Arrangement}
      (below : Spine before tier bare s) (htier : tier.precedence ≤ op.precedence)
      (hleft : Loose (.level op.leftTier bare false) left ordered) :
      Yielded op (before ++ left) (s.placeAll ordered)

namespace Arrangement

variable {s : Arrangement} {leaves : Token → Bool} {token : Token} {left right : List Token}

/-- A pending token that leaves is placed after the operands above it. -/
theorem release_placeAll_defer (h : leaves token = true) :
    (((s.placeAll left).defer token).placeAll right).release leaves =
      (s.placeAll (left ++ right ++ [token])).release leaves := by
  simp [release, placeAll, defer, h]

end Arrangement

namespace Spine

variable {before tokens ordered : List Token} {tier tighter : Tier} {bare : Bool}
  {s : Arrangement} {op : Operator} {token : Token}

theorem reached (h : Spine before tier bare s) : Reached before s := by
  have hreached := Reached.mk h (.none bare)
  rwa [List.append_nil] at hreached

/-- Groups can stand on their own if no function waits. -/
theorem not_isFunction (h : Spine before tier true s) :
    ∀ token ∈ s.pending.head?, token.kind.isFunction = false := by
  cases h with
  | start =>
    intro token htoken
    cases htoken
  | operator below htier hleft htoken =>
    rintro _ ⟨⟩
    rw [htoken]
    rfl
  | group below operands hopening earlier =>
    rintro _ ⟨⟩
    rw [hopening]
    rfl

/-- What yields to an operator is a part of its left operand. -/
theorem yielded (h : Spine before tier bare s)
    (top : Loose (.level tighter bare false) tokens ordered)
    (htier : tier.precedence ≤ tighter.precedence)
    (hleft : op.leftTier.precedence ≤ tighter.precedence) :
    Yielded op (before ++ tokens) ((s.placeAll ordered).release (yields op)) := by
  -- down the spine: each operator that yields takes `top` as its right operand, and what
  -- it makes of it is the next `top`
  induction h generalizing tighter tokens ordered with
  | start =>
    rw [release_eq_self fun token htoken => by cases htoken]
    exact .mk .start op.sum_le_precedence (top.mono hleft)
  | @operator before left leftOrdered tier bare s pending token below hpending hl htoken ih =>
    cases hyields : pending.yieldsTo op with
    | true =>
      have hleaves : yields op token = true := by rw [yields, htoken]; exact hyields
      have hbinary : Loose (.level pending.tier bare false) (left ++ token :: tokens)
          (leftOrdered ++ ordered ++ [token]) :=
        .binary htoken (Nat.le_of_eq pending.precedence_tier) hl (top.mono htier)
      have hloose : op.leftTier.precedence ≤ pending.tier.precedence := by
        rw [pending.precedence_tier]
        exact Operator.yieldsTo_iff_leftTier_le.mp hyields
      rw [release_placeAll_defer hleaves]
      simpa using ih hbinary (by rwa [pending.precedence_tier]) hloose
    | false =>
      have hstay : yields op token = false := by rw [yields, htoken]; exact hyields
      have hspine := Spine.operator below hpending hl htoken
      rw [release_eq_self]
      · exact .mk hspine (Operator.not_yieldsTo_iff_rightTier_le.mp hyields) (top.mono hleft)
      · rintro _ ⟨⟩
        exact hstay
  | @function before left leftOrdered tier bare s f below operands hf ih =>
    have hspine := Spine.function below operands hf
    rw [release_eq_self]
    · exact .mk hspine op.sum_le_precedence (top.mono hleft)
    · rintro _ ⟨⟩
      exact yields_of_isFunction hf
  | @group before left leftOrdered content inside tier bare s opening below operands hopening
      earlier ih =>
    have hspine := Spine.group below operands hopening earlier
    rw [release_eq_self]
    · exact .mk hspine op.sum_le_precedence (top.mono hleft)
    · rintro _ ⟨⟩
      rw [yields, hopening]

/-- What waits above the innermost parenthesis is a part of its last argument, or of
the whole expression. -/
theorem settled (h : Spine before tier bare s)
    (top : Loose (.level tier bare true) tokens ordered) :
    Settled (before ++ tokens) (s.placeAll ordered).releaseGroup := by
  induction h generalizing tokens ordered with
  | start =>
    rw [releaseGroup, release_eq_self fun token htoken => by cases htoken]
    exact .whole top
  | @operator before left leftOrdered tier bare s op token below htier hleft htoken ih =>
    have hleaves : (!token.kind.isOpening) = true := by rw [htoken]; rfl
    have hbinary : Loose (.level tier bare true) (left ++ token :: tokens)
        (leftOrdered ++ ordered ++ [token]) := .binary htoken htier hleft top
    rw [releaseGroup, release_placeAll_defer hleaves]
    simpa [releaseGroup] using ih hbinary
  | @function before left leftOrdered tier bare s f below operands hf ih =>
    have hleaves : (!f.kind.isOpening) = true := by
      simp [Kind.isOpening_eq_false_of_isFunction hf]
    have hfunction : Loose (.level tier bare true) (left ++ f :: tokens)
        (leftOrdered ++ ordered ++ [f]) := .function operands hf top
    rw [releaseGroup, release_placeAll_defer hleaves]
    simpa [releaseGroup] using ih hfunction
  | @group before left leftOrdered content inside tier bare s opening below operands hopening
      earlier ih =>
    have hopen : (!opening.kind.isOpening) = false := by rw [hopening]; rfl
    have hsettled := Settled.group below operands hopening (earlier.arguments top)
    rw [releaseGroup, release_eq_self]
    · simpa [placeAll_placeAll] using hsettled
    · rintro _ ⟨⟩
      exact hopen

end Spine

theorem Yielded.reached {op : Operator} {read : List Token} {s : Arrangement} {token : Token}
    (h : Yielded op read s) (htoken : token.kind = .operator op) :
    Reached (read ++ [token]) (s.defer token) := by
  cases h with
  | mk below htier hleft => exact (Spine.operator below htier hleft htoken).reached

namespace Settled

variable {read : List Token} {s t : Arrangement} {token : Token}

/-- A closing parenthesis completes a group, and with the function below it a call. -/
theorem closing (h : Settled read s.releaseGroup) (htoken : token.kind = .closing)
    (hclose : close s = .ok t) : Reached (read ++ [token]) t := by
  generalize hgroup : s.releaseGroup = group at h
  cases h with
  | whole h =>
    have hpending : s.releaseGroup.pending = [] := by rw [hgroup]; rfl
    rw [close_of_nil hpending] at hclose
    cases hclose
  | @group before tokens ordered content inside tier bare base opening below operands hopening
      arguments =>
    -- what waits below the parenthesis decides whose group it is
    cases bare with
    | true =>
      have hbelow : ∀ token ∈ (base.placeAll ordered).pending.head?,
          token.kind.isFunction = false := below.not_isFunction
      rw [close_of_releaseGroup hgroup hbelow, placeAll_placeAll] at hclose
      obtain rfl := Except.ok.inj hclose
      simpa using Reached.mk below (operands.group hopening arguments htoken)
    | false =>
      cases below with
      | @function before earlier earlierOrdered tier bare base f below behind hf =>
        have hdefer : ((base.placeAll earlierOrdered).defer f).placeAll ordered =
            (base.placeAll (earlierOrdered ++ ordered)).defer f := by
          rw [← placeAll_placeAll]
          rfl
        rw [hdefer] at hgroup
        rw [close_of_releaseGroup_function hgroup hf, placeAll_placeAll] at hclose
        obtain rfl := Except.ok.inj hclose
        simpa using Reached.mk below (behind.call hf operands hopening arguments htoken)

theorem comma (h : Settled read s) (htoken : token.kind = .comma) (hopen : s.pending ≠ []) :
    Reached (read ++ [token]) s := by
  cases h with
  | whole h => exact absurd rfl hopen
  | group below operands hopening arguments =>
    have hspine := Spine.group below operands hopening (.concat arguments htoken)
    simpa using hspine.reached

end Settled

/-! ## What is arranged is a loose expression -/

namespace Reached

variable {read : List Token} {s t : Arrangement} {token : Token}

theorem settled (h : Reached read s) : Settled read s.releaseGroup := by
  cases h with
  | mk spine operands => exact spine.settled (.level operands)

theorem operand (h : Reached read s) (htoken : token.kind.isOperand = true) :
    Reached (read ++ [token]) (s.place token) := by
  cases h with
  | @mk before tokens ordered tier bare s spine operands =>
    have hreached := Reached.mk spine (operands.operand htoken)
    rw [← List.append_assoc, ← placeAll_placeAll] at hreached
    exact hreached

theorem function (h : Reached read s) (htoken : token.kind.isFunction = true) :
    Reached (read ++ [token]) (s.defer token) := by
  cases h with
  | mk spine operands => exact (Spine.function spine operands htoken).reached

theorem opening (h : Reached read s) (htoken : token.kind = .opening) :
    Reached (read ++ [token]) (s.defer token) := by
  cases h with
  | mk spine operands => exact (Spine.group spine operands htoken .nil).reached

theorem operator {op : Operator} (h : Reached read s) (htoken : token.kind = .operator op) :
    Reached (read ++ [token]) ((s.release (yields op)).defer token) := by
  cases h with
  | @mk before tokens ordered tier bare s spine operands =>
    have hprimary : Loose (.level .primary bare false) tokens ordered := .level operands
    exact (spine.yielded hprimary tier.le_primary op.leftTier.le_primary).reached htoken

theorem comma (h : Reached read s) (htoken : token.kind = .comma)
    (hcomma : endArgument s = .ok t) : Reached (read ++ [token]) t := by
  obtain ⟨⟨opening, rest, hpending⟩, rfl⟩ := endArgument_eq_ok hcomma
  have hopen : s.releaseGroup.pending ≠ [] := by simp [hpending]
  exact h.settled.comma htoken hopen

/-- A step goes from one spine to the next. -/
theorem step (h : Reached read s) (hstep : Rpn.step .delimited s token = .ok t) :
    Reached (read ++ [token]) t := by
  cases advances_of_step hstep with
  | operand hkind => exact h.operand hkind
  | function hkind => exact h.function hkind
  | opening hkind => exact h.opening hkind
  | operator hkind => exact h.operator hkind
  | closing hkind hclose => exact h.settled.closing hkind hclose
  | comma hkind _ hend => exact h.comma hkind hend
  | skip _ hmode => cases hmode

end Reached

/-- Whatever tokens the conversion gets through, it is on top of a spine of them. -/
theorem reached_of_arranges {tokens : List Token} {s : Arrangement}
    (h : Arranges .delimited .empty tokens s) : Reached tokens s := by
  induction tokens using List.reverseRecOn generalizing s with
  | nil =>
    obtain rfl : empty = s := Except.ok.inj h
    exact Spine.start.reached
  | append_singleton tokens token ih =>
    obtain ⟨before, hbefore, hstep⟩ := foldlM_concat_eq_ok h
    exact (ih hbefore).step hstep

/-- The end of the text completes the expression. -/
theorem Settled.whole_of_closed {tokens : List Token} {s : Arrangement} (h : Settled tokens s)
    (hclosed : ∀ token ∈ s.pending, token.kind.isOpening = false) :
    Loose (.level .sum true true) tokens s.tokens := by
  cases h with
  | @whole tokens ordered h =>
    have htokens : (empty.placeAll ordered).tokens = ordered := by
      simp [Arrangement.tokens, placeAll, empty]
    rwa [htokens]
  | @group before tokens ordered content inside tier bare base opening below operands hopening
      arguments =>
    have hopen := hclosed opening List.mem_cons_self
    rw [hopening] at hopen
    cases hopen

/-- The conversion accepts the loose expressions and gives their reverse Polish order. -/
theorem arrange_eq_ok_iff_loose {tokens ordered : List Token} :
    arrange .delimited tokens = .ok ordered ↔ Loose (.level .sum true true) tokens ordered := by
  constructor
  · intro h
    obtain ⟨s, hrun, hfinish⟩ := arrange_eq_ok_iff.mp h
    obtain ⟨hclosed, rfl⟩ := finish_eq_ok_iff.mp hfinish
    have hsettled : Settled tokens s.releaseGroup := (reached_of_arranges hrun).settled
    have hwhole := hsettled.whole_of_closed fun token htoken =>
      hclosed token (List.dropWhile_subset _ htoken)
    rwa [releaseGroup, tokens_release] at hwhole
  · exact arrange_of_loose

end CurveSketch
