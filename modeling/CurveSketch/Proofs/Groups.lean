import CurveSketch.Proofs.Arranging
import CurveSketch.Proofs.Formula
import CurveSketch.Proofs.Relabeling
import Mathlib.Data.List.Forall2

/-!
# A group counts as one operand

Parentheses may hold any tokens that can be arranged on their own, whether they are
an expression or not.  In every context such a group, with or without a function
before it, is arranged as an operand would be in its place.

* `step_on` is the frame property.  What happens above an open parenthesis is what
  would happen on the empty stack, so the tokens of a group come out as they do on
  their own (`arranges_inside`), and so do the arguments of a call
  (`arranges_listed`).
* `step_after` says that no step looks at the tokens that have their place.  So it
  does not matter to the tokens behind the group what it has placed
  (`arrange_of_places`).
* `ActsAsOperand` is the comparison with an operand, rejections included.
-/

namespace CurveSketch

open Rpn

namespace Arrangement

/-! ## On top of an open parenthesis -/

/-- `u` on top of `base`. -/
def on (u base : Arrangement) : Arrangement :=
  ⟨u.placed ++ base.placed, u.pending ++ base.pending⟩

/-- The latest pending token is an open parenthesis. -/
def IsOpen (s : Arrangement) : Prop :=
  ∃ opening rest, s.pending = opening :: rest ∧ opening.kind.isOpening = true

variable {mode : CommaMode} {base s u v : Arrangement} {token opening : Token}

theorem isOpen_defer (h : opening.kind = .opening) : (s.defer opening).IsOpen :=
  ⟨opening, s.pending, rfl, by rw [h]; rfl⟩

theorem IsOpen.placeAll (h : s.IsOpen) (ordered : List Token) : (s.placeAll ordered).IsOpen := h

/-- The parenthesis stops a release. -/
theorem release_on (hbase : base.IsOpen) {leaves : Token → Bool}
    (hleaves : ∀ token, leaves token = true → token.kind.isOpening = false)
    (u : Arrangement) : (u.on base).release leaves = (u.release leaves).on base := by
  obtain ⟨opening, rest, hpending, hopening⟩ := hbase
  have hstays : leaves opening = false := by
    rw [← Bool.not_eq_true]
    intro h
    rw [hleaves opening h] at hopening
    cases hopening
  have hsplit (waiting : List Token) :
      (waiting ++ opening :: rest).takeWhile leaves = waiting.takeWhile leaves ∧
        (waiting ++ opening :: rest).dropWhile leaves =
          waiting.dropWhile leaves ++ opening :: rest := by
    induction waiting with
    | nil => simp [hstays]
    | cons token waiting ih => cases h : leaves token <;> simp [h, ih]
  obtain ⟨htake, hdrop⟩ := hsplit u.pending
  simp only [release, on, hpending, htake, hdrop, List.append_assoc]

theorem releaseGroup_on (hbase : base.IsOpen) (u : Arrangement) :
    (u.on base).releaseGroup = u.releaseGroup.on base := by
  apply release_on hbase
  intro token h
  simpa using h

theorem IsOpen.isOpening (h : base.IsOpen) :
    ∀ token ∈ base.pending.head?, token.kind.isOpening = true := by
  obtain ⟨opening, rest, hpending, hopening⟩ := h
  rw [hpending]
  rintro _ ⟨⟩
  exact hopening

theorem IsOpen.releaseGroup_eq (h : s.IsOpen) : s.releaseGroup = s := by
  have hstop : ∀ token ∈ s.pending.head?, (!token.kind.isOpening) = false := by
    intro token htoken
    simp [h.isOpening token htoken]
  exact release_eq_self hstop

theorem IsOpen.not_isFunction (h : base.IsOpen) :
    ∀ below ∈ base.pending.head?, below.kind.isFunction = false := by
  intro below hbelow
  exact Kind.isFunction_eq_false_of_isOpening (h.isOpening below hbelow)

theorem close_on (hbase : base.IsOpen) (h : close u = .ok v) :
    close (u.on base) = .ok (v.on base) := by
  have hgroup : (u.on base).releaseGroup.pending = u.releaseGroup.pending ++ base.pending := by
    rw [releaseGroup_on hbase]
    rfl
  rcases close_eq_ok h with
    ⟨opening, rest, hpending, hrest, rfl⟩ | ⟨opening, f, rest, hpending, hf, rfl⟩
  · have hbelow : ∀ below ∈ (rest ++ base.pending).head?, below.kind.isFunction = false := by
      cases rest with
      | nil => exact hbase.not_isFunction
      | cons below rest => exact hrest
    rw [hpending] at hgroup
    rw [close_of_not_function hgroup hbelow, releaseGroup_on hbase]
    rfl
  · rw [hpending] at hgroup
    rw [close_of_function hgroup hf, releaseGroup_on hbase]
    rfl

theorem endArgument_of_isOpen (h : s.releaseGroup.IsOpen) :
    endArgument s = .ok s.releaseGroup := by
  obtain ⟨opening, rest, hpending, -⟩ := h
  exact endArgument_of_cons hpending

theorem endArgument_on (hbase : base.IsOpen) (h : endArgument u = .ok v) :
    endArgument (u.on base) = .ok (v.on base) := by
  obtain ⟨⟨opening, rest, hpending⟩, rfl⟩ := endArgument_eq_ok h
  have hgroup : (u.on base).releaseGroup.pending = opening :: (rest ++ base.pending) := by
    rw [releaseGroup_on hbase, on, hpending]
    rfl
  rw [endArgument_of_cons hgroup, releaseGroup_on hbase]

/-- A step above an open parenthesis is a step on the empty stack. -/
theorem step_on (hbase : base.IsOpen) (h : step mode u token = .ok v) :
    step mode (u.on base) token = .ok (v.on base) := by
  cases advances_of_step h with
  | operand hkind => exact step_operand hkind
  | function hkind => exact step_function hkind
  | opening hkind => exact step_opening hkind
  | operator hkind =>
    rw [step_operator hkind, release_on hbase fun _ => isOpening_eq_false_of_yields]
    rfl
  | closing hkind hclose =>
    rw [step_closing hkind]
    exact close_on hbase hclose
  | comma hkind hmode hend =>
    rw [hmode, step_comma hkind]
    exact endArgument_on hbase hend
  | skip hkind hmode =>
    rw [hmode]
    exact step_comma_positional hkind

/-! ## Behind tokens that have their place -/

/-- `s` behind tokens that have been placed before, the last one first. -/
def after (s : Arrangement) (placed : List Token) : Arrangement :=
  { s with placed := s.placed ++ placed }

variable {placed : List Token}

theorem relabel_id : relabel id placed = fun s => s.after placed := by
  funext s
  simp [relabel, after]

/-- No step looks at the tokens that have their place. -/
theorem step_after (mode : CommaMode) (s : Arrangement) (token : Token) :
    (step mode s token).map (·.after placed) = step mode (s.after placed) token := by
  have hstep := step_relabel Token.keepsKinds_id placed mode s token
  rwa [relabel_id] at hstep

theorem finish_after (s : Arrangement) :
    (finish s).map (placed.reverse ++ ·) = finish (s.after placed) := by
  have hfinish := finish_relabel Token.keepsKinds_id placed s
  simpa [relabel_id] using hfinish

end Arrangement

open Arrangement

namespace Rpn

variable {mode : CommaMode} {base s t u v : Arrangement} {f c opening comma closing : Token}
  {tokens ordered before after : List Token}

/-! ## The content of a group -/

theorem arranges_on (hbase : base.IsOpen) (h : Arranges mode u tokens v) :
    Arranges mode (u.on base) tokens (v.on base) := by
  induction tokens generalizing u with
  | nil =>
    obtain rfl : u = v := Except.ok.inj h
    exact .nil
  | cons token tokens ih =>
    obtain ⟨next, hstep, hrest⟩ := arranges_cons_iff.mp h
    exact .cons (step_on hbase hstep) (ih hrest)

/-- What waits above the parenthesis is released down to it. -/
theorem releaseGroup_on_of_closed (hbase : base.IsOpen)
    (h : ∀ token ∈ u.pending, token.kind.isOpening = false) :
    (u.on base).releaseGroup = base.placeAll u.tokens := by
  have hall : ∀ token ∈ u.pending, (!token.kind.isOpening) = true := by
    intro token htoken
    simp [h token htoken]
  have hstop : ∀ token ∈ base.pending.head?, (!token.kind.isOpening) = false := by
    intro token htoken
    simp [hbase.isOpening token htoken]
  rw [on, releaseGroup, release_append hall hstop]
  simp [placeAll, Arrangement.tokens]

/-- In a group tokens come out as they do on their own. -/
theorem arranges_inside (hs : s.IsOpen) (h : arrange mode tokens = .ok ordered) :
    ∃ t, Arranges mode s tokens t ∧ t.releaseGroup = s.placeAll ordered := by
  obtain ⟨u, hrun, hfinish⟩ := arrange_eq_ok_iff.mp h
  obtain ⟨hclosed, rfl⟩ := finish_eq_ok_iff.mp hfinish
  exact ⟨u.on s, arranges_on hs hrun, releaseGroup_on_of_closed hs hclosed⟩

/-- The arguments of a call, with commas between them. -/
def listed (comma : Token) (arguments : List (List Token)) : List Token :=
  [comma].intercalate arguments

theorem listed_cons_cons (comma : Token) (first second : List Token)
    (rest : List (List Token)) :
    listed comma (first :: second :: rest) = first ++ comma :: listed comma (second :: rest) := by
  simp [listed, List.intercalate]

/-- The arguments of a call come out one after the other, each as it does on its own. -/
theorem arranges_listed {arguments orders : List (List Token)} (hcomma : comma.kind = .comma)
    (h : List.Forall₂ (fun tokens ordered => arrange .delimited tokens = .ok ordered)
      arguments orders) :
    ∀ s : Arrangement, s.IsOpen → ∃ t, Arranges .delimited s (listed comma arguments) t ∧
      t.releaseGroup = s.placeAll orders.flatten := by
  induction h with
  | nil =>
    intro s hs
    exact ⟨s, .nil, hs.releaseGroup_eq⟩
  | @cons first firstOrdered rest restOrdered hfirst hrest ih =>
    intro s hs
    obtain ⟨t, ht, hplaced⟩ := arranges_inside hs hfirst
    cases hrest with
    | nil =>
      refine ⟨t, ?_, ?_⟩
      · simpa [listed] using ht
      · simpa using hplaced
    | @cons second secondOrdered rest restOrdered hsecond hrest =>
      have hnext : (s.placeAll firstOrdered).IsOpen := hs.placeAll firstOrdered
      have hstep : step .delimited t comma = .ok (s.placeAll firstOrdered) := by
        rw [step_comma hcomma, ← hplaced]
        exact endArgument_of_isOpen (hplaced ▸ hnext)
      obtain ⟨u, hu, huplaced⟩ := ih (s.placeAll firstOrdered) hnext
      refine ⟨u, ?_, ?_⟩
      · rw [listed_cons_cons]
        exact ht.append (.cons hstep hu)
      · rw [huplaced, placeAll_placeAll]
        rfl

/-! ## Groups and calls -/

/-- A group without a function places its content. -/
theorem arranges_group (hopening : opening.kind = .opening) (hclosing : closing.kind = .closing)
    (hs : ∀ token ∈ s.pending.head?, token.kind.isFunction = false)
    (h : arrange mode tokens = .ok ordered) :
    Arranges mode s (opening :: (tokens ++ [closing])) (s.placeAll ordered) := by
  obtain ⟨t, ht, hplaced⟩ := arranges_inside (isOpen_defer hopening) h
  have hclose : step mode t closing = .ok (s.placeAll ordered) := by
    rw [step_closing hclosing]
    exact close_of_releaseGroup hplaced hs
  exact .cons (step_opening hopening) (ht.append (.cons hclose .nil))

/-- A call places its arguments and then its function. -/
theorem arranges_call (hf : f.kind.isFunction = true) (hopening : opening.kind = .opening)
    (hclosing : closing.kind = .closing)
    (h : ∃ t, Arranges mode ((s.defer f).defer opening) tokens t ∧
      t.releaseGroup = ((s.defer f).defer opening).placeAll ordered) :
    Arranges mode s (f :: opening :: (tokens ++ [closing])) (s.placeAll (ordered ++ [f])) := by
  obtain ⟨t, ht, hplaced⟩ := h
  have hclose : step mode t closing = .ok (s.placeAll (ordered ++ [f])) := by
    rw [step_closing hclosing]
    exact close_of_releaseGroup_function hplaced hf
  exact .cons (step_function hf) (.cons (step_opening hopening) (ht.append (.cons hclose .nil)))

theorem arranges_operand (hc : c.kind.isOperand = true) :
    Arranges mode s [c] (s.placeAll [c]) :=
  .cons (step_operand hc) .nil

/-! ## In any context -/

/-- Tokens that do nothing but take their places do not matter to what follows. -/
theorem arrange_of_places (hbefore : Arranges mode .empty before s)
    (h : Arranges mode s tokens (s.placeAll ordered)) (after : List Token) :
    arrange mode (before ++ tokens ++ after) =
      (after.foldlM (step mode) ⟨[], s.pending⟩ >>= finish).map
        (s.placed.reverse ++ ordered ++ ·) := by
  have hbehind : s.placeAll ordered =
      (⟨[], s.pending⟩ : Arrangement).after (ordered.reverse ++ s.placed) := rfl
  have hrun : (before ++ tokens ++ after).foldlM (step mode) .empty =
      (after.foldlM (step mode) ⟨[], s.pending⟩).map
        (·.after (ordered.reverse ++ s.placed)) := by
    rw [List.foldlM_append, hbefore.append h, hbehind]
    exact (map_foldlM (step_after mode) after _).symm
  rw [arrange, hrun]
  cases after.foldlM (step mode) ⟨[], s.pending⟩ with
  | error cause => rfl
  | ok t =>
    show finish (t.after _) = (finish t).map _
    rw [← finish_after]
    simp

/-- Between `before` and `after` the tokens are arranged as an operand would be, whose
place `ordered` takes in the result, or rejected as with the operand.  As `left` and
`right` are the same for all operands, they surround the place of this one. -/
def ActsAsOperand (mode : CommaMode) (before after tokens ordered : List Token) : Prop :=
  (∃ cause, arrange mode (before ++ tokens ++ after) = .error cause ∧
    ∀ c : Token, c.kind.isOperand = true →
      arrange mode (before ++ [c] ++ after) = .error cause) ∨
  ∃ left right, arrange mode (before ++ tokens ++ after) = .ok (left ++ ordered ++ right) ∧
    ∀ c : Token, c.kind.isOperand = true →
      arrange mode (before ++ [c] ++ after) = .ok (left ++ [c] ++ right)

theorem arrange_of_error {cause : ParseError}
    (h : before.foldlM (step mode) .empty = .error cause) (more : List Token) :
    arrange mode (before ++ more) = .error cause := by
  rw [arrange, List.foldlM_append, h]
  rfl

/-- Tokens that do nothing but take their places act as an operand. -/
theorem actsAsOperand_of_places
    (h : ∀ s, Arranges mode .empty before s → Arranges mode s tokens (s.placeAll ordered)) :
    ActsAsOperand mode before after tokens ordered := by
  cases hbefore : before.foldlM (step mode) .empty with
  | error cause =>
    refine Or.inl ⟨cause, ?_, fun c _ => ?_⟩
    · rw [List.append_assoc]
      exact arrange_of_error hbefore _
    · rw [List.append_assoc]
      exact arrange_of_error hbefore _
  | ok s =>
    have htokens := arrange_of_places hbefore (h s hbefore) after
    have hplaces (c : Token) (hc : c.kind.isOperand = true) :
        Arranges mode s [c] (s.placeAll [c]) := arranges_operand hc
    have hoperand (c : Token) (hc : c.kind.isOperand = true) :=
      arrange_of_places hbefore (hplaces c hc) after
    rw [ActsAsOperand, htokens]
    cases hafter : after.foldlM (step mode) ⟨[], s.pending⟩ >>= finish with
    | error cause =>
      refine Or.inl ⟨cause, rfl, fun c hc => ?_⟩
      rw [hoperand c hc, hafter]
      rfl
    | ok right =>
      refine Or.inr ⟨s.placed.reverse, right, rfl, fun c hc => ?_⟩
      rw [hoperand c hc, hafter]
      rfl

/-- After these tokens no function waits for a group. -/
def Awaits (mode : CommaMode) (before : List Token) : Prop :=
  ∀ last ∈ before.getLast?, last.kind.isOperator = true ∨ last.kind.isOpening = true ∨
    mode = .delimited ∧ last.kind.isComma = true

theorem not_isFunction_of_awaits (h : Awaits mode before)
    (hbefore : Arranges mode .empty before s) :
    ∀ token ∈ s.pending.head?, token.kind.isFunction = false := by
  rcases List.eq_nil_or_concat before with rfl | ⟨init, last, rfl⟩
  · obtain rfl : empty = s := Except.ok.inj hbefore
    intro token htoken
    cases htoken
  · rw [List.concat_eq_append] at h hbefore
    obtain ⟨t, -, hstep⟩ := foldlM_concat_eq_ok hbefore
    have hlast := h last (by simp)
    obtain ⟨symbol, kind⟩ := last
    cases kind with
    | operator op =>
      obtain rfl := Except.ok.inj hstep
      rintro _ ⟨⟩
      rfl
    | opening =>
      obtain rfl := Except.ok.inj hstep
      rintro _ ⟨⟩
      rfl
    | comma =>
      cases mode with
      | delimited =>
        obtain ⟨⟨opening, rest, hpending⟩, rfl⟩ := endArgument_eq_ok hstep
        rw [hpending]
        rintro _ ⟨⟩
        have hopening : opening.kind.isOpening = true :=
          isOpening_of_pending_releaseGroup hpending
        exact Kind.isFunction_eq_false_of_isOpening hopening
      | positional => simp [Kind.isOperator, Kind.isOpening] at hlast
    | _ => simp [Kind.isOperator, Kind.isOpening, Kind.isComma] at hlast

/-- A call, and a group without a function, act as one operand wherever they stand.
Any tokens may stand in them that are arranged on their own, and any number of
arguments if commas end them.  A group without a function may only not stand where a
function waits for it. -/
theorem groups_actAsOperand (hopening : opening.kind = .opening) (hcomma : comma.kind = .comma)
    (hclosing : closing.kind = .closing) :
    (∀ (before after : List Token) (f : Token) (arguments orders : List (List Token)),
      f.kind.isFunction = true →
      List.Forall₂ (fun tokens ordered => arrange .delimited tokens = .ok ordered)
        arguments orders →
      ActsAsOperand .delimited before after
        (f :: opening :: (listed comma arguments ++ [closing])) (orders.flatten ++ [f])) ∧
    (∀ (mode : CommaMode) (before after : List Token) (f : Token) (tokens ordered : List Token),
      f.kind.isFunction = true → arrange mode tokens = .ok ordered →
      ActsAsOperand mode before after (f :: opening :: (tokens ++ [closing]))
        (ordered ++ [f])) ∧
    ∀ (mode : CommaMode) (before after tokens ordered : List Token),
      Awaits mode before → arrange mode tokens = .ok ordered →
      ActsAsOperand mode before after (opening :: (tokens ++ [closing])) ordered := by
  refine ⟨?_, ?_, ?_⟩
  · intro before after f arguments orders hf h
    refine actsAsOperand_of_places fun s _ => arranges_call hf hopening hclosing ?_
    exact arranges_listed hcomma h _ (isOpen_defer hopening)
  · intro mode before after f tokens ordered hf h
    refine actsAsOperand_of_places fun s _ => arranges_call hf hopening hclosing ?_
    exact arranges_inside (isOpen_defer hopening) h
  · intro mode before after tokens ordered hawaits h
    refine actsAsOperand_of_places fun s hbefore => ?_
    exact arranges_group hopening hclosing (not_isFunction_of_awaits hawaits hbefore) h

/-- In `2 ^ _ - x` the call `max ( x + , 1 )` acts as an operand, and so does the group
`( x + )`, which is no expression. -/
theorem groups_actAsOperand_after_power :
    ActsAsOperand .delimited [Literal.two.token, Operator.power.token]
        [Operator.subtract.token, Token.free]
        [Builtin.max.token, Token.opening, Token.free, Operator.add.token, Token.comma,
          Literal.one.token, Token.closing]
        [Token.free, Operator.add.token, Literal.one.token, Builtin.max.token] ∧
      ActsAsOperand .positional [Literal.two.token, Operator.power.token]
        [Operator.subtract.token, Token.free]
        [Token.opening, Token.free, Operator.add.token, Token.closing]
        [Token.free, Operator.add.token] := by
  have hgroups := @groups_actAsOperand Token.opening Token.comma Token.closing rfl rfl rfl
  constructor
  · exact hgroups.1 _ _ _ [[Token.free, Operator.add.token], [Literal.one.token]]
      [[Token.free, Operator.add.token], [Literal.one.token]] rfl (.cons rfl (.cons rfl .nil))
  · refine hgroups.2.2 _ _ _ [Token.free, Operator.add.token] _ ?_ rfl
    rintro _ ⟨⟩
    exact Or.inl rfl

end Rpn

end CurveSketch
