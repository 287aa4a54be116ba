import CurveSketch.Proofs.Nesting
import CurveSketch.Proofs.Sentinel
import Mathlib.Data.List.Chain

/-!
# What waits between barriers

On the stack of the conversion an operator waits for the operators that bind tighter, and a
function or an open parenthesis waits for the end of its group.  No operator looks past these
barriers, so that the operators are in order only from one barrier to the next.

* `pending_of_step` is what a step does to the pending tokens: it takes some off the top, and
  then lets its own token wait if that token can wait on the top that is left
  (`Token.WaitsOn`).
* So the pending tokens stay a chain of tokens that wait on each other, and nothing but
  operators and barriers is among them (`Arrangement.Layered`, `layered_of_step`).
* The parentheses that `Nesting` counts are those that have been opened and not been closed
  (`Nesting.depth_of_foldlM`).
* In a chain of operators the powers are on top, then there is a product at most, and a sum at
  the bottom (`Operator.exists_layers`).

`Rpn.pending_between_barriers` says this of the stack with a sentinel at its bottom.
-/

namespace CurveSketch

/-! ## Tokens that wait on each other -/

namespace Token

/-- If both are operators, the upper one does not release the lower one. -/
def WaitsOn (upper lower : Token) : Prop :=
  ∀ a b, upper.kind = .operator a → lower.kind = .operator b → b.yieldsTo a = false

variable {upper lower : Token}

/-- Barriers can wait on anything. -/
theorem waitsOn_of_not_isOperator (h : upper.kind.isOperator = false) : upper.WaitsOn lower := by
  intro a b ha
  rw [ha] at h
  cases h

/-- Of two operators the upper one binds tighter, or both are powers. -/
theorem WaitsOn.precedence_lt {a b : Operator} (h : upper.WaitsOn lower)
    (ha : upper.kind = .operator a) (hb : lower.kind = .operator b) :
    b.precedence < a.precedence ∨ a = .power ∧ b = .power :=
  (Operator.yieldsTo_eq_false_iff.mp (h a b ha hb)).imp_right And.symm

end Token

/-- Whether tokens of the kind wait, as operators, functions and open parentheses do. -/
def Kind.canWait (kind : Kind) : Bool :=
  kind.isOperator || kind.isFunction || kind.isOpening

theorem Kind.isOperand_eq_false_of_canWait {kind : Kind} (h : kind.canWait = true) :
    kind.isOperand = false := by
  cases kind <;> first | rfl | cases h

/-! ## What a step does to the pending tokens -/

namespace Rpn

open Arrangement

variable {mode : CommaMode} {s t : Arrangement} {token : Token} {tokens : List Token}

theorem pending_release_suffix (s : Arrangement) (leaves : Token → Bool) :
    (s.release leaves).pending <:+ s.pending :=
  List.dropWhile_suffix leaves

/-- What an operator leaves does not yield to it. -/
theorem waitsOn_of_release {op : Operator} {lower : Token} (hkind : token.kind = .operator op)
    (h : lower ∈ (s.release (yields op)).pending.head?) : token.WaitsOn lower := by
  intro a b ha hb
  obtain rfl : op = a := Kind.operator.inj (hkind.symm.trans ha)
  have hstop : yields op lower = false := by
    have hhead := List.head?_dropWhile_not (yields op) s.pending
    rw [show (s.pending.dropWhile (yields op)).head? = some lower from h] at hhead
    simpa using hhead
  rwa [yields, hb] at hstop

/-- A closing parenthesis takes tokens off the top. -/
theorem pending_suffix_of_close (h : close s = .ok t) : t.pending <:+ s.pending := by
  have hgroup : s.releaseGroup.pending <:+ s.pending := pending_release_suffix s _
  rcases close_eq_ok h with
    ⟨opening, rest, hpending, -, rfl⟩ | ⟨opening, f, rest, hpending, -, rfl⟩
  · rw [hpending] at hgroup
    exact (List.suffix_cons opening rest).trans hgroup
  · rw [hpending] at hgroup
    exact ((List.suffix_cons f rest).trans (List.suffix_cons opening _)).trans hgroup

/-- A step takes tokens off the top, and can let its own token wait on the rest. -/
theorem pending_of_step (h : step mode s token = .ok t) :
    t.pending <:+ s.pending ∨
      ∃ rest, rest <:+ s.pending ∧ t.pending = token :: rest ∧ token.kind.canWait = true ∧
        ∀ lower ∈ rest.head?, token.WaitsOn lower := by
  cases advances_of_step h with
  | operand hkind => exact Or.inl (List.suffix_refl _)
  | function hkind =>
    have hbarrier : token.kind.isOperator = false := Kind.isOperator_eq_false_of_isFunction hkind
    refine Or.inr ⟨s.pending, List.suffix_refl _, rfl, by simp [Kind.canWait, hkind], ?_⟩
    exact fun lower _ => Token.waitsOn_of_not_isOperator hbarrier
  | opening hkind =>
    have hbarrier : token.kind.isOperator = false := by rw [hkind]; rfl
    refine Or.inr ⟨s.pending, List.suffix_refl _, rfl, by rw [hkind]; rfl, ?_⟩
    exact fun lower _ => Token.waitsOn_of_not_isOperator hbarrier
  | @operator op hkind =>
    have hsuffix := pending_release_suffix s (yields op)
    refine Or.inr ⟨(s.release (yields op)).pending, hsuffix, rfl, by rw [hkind]; rfl, ?_⟩
    exact fun lower hlower => waitsOn_of_release hkind hlower
  | closing _ hclose => exact Or.inl (pending_suffix_of_close hclose)
  | comma _ _ hend =>
    obtain ⟨-, rfl⟩ := endArgument_eq_ok hend
    exact Or.inl (pending_release_suffix s _)
  | skip _ _ => exact Or.inl (List.suffix_refl _)

end Rpn

/-- The pending tokens can wait, and each of them can wait on the next one. -/
structure Arrangement.Layered (s : Arrangement) : Prop where
  canWait : ∀ waiting ∈ s.pending, waiting.kind.canWait = true
  isChain : s.pending.IsChain Token.WaitsOn

namespace Rpn

variable {mode : CommaMode} {s t : Arrangement} {token : Token}

theorem layered_empty : Arrangement.empty.Layered where
  canWait _ h := by cases h
  isChain := .nil

theorem layered_of_step (hs : s.Layered) (h : step mode s token = .ok t) : t.Layered := by
  rcases pending_of_step h with hsuffix | ⟨rest, hsuffix, hpending, htoken, hrest⟩
  · have hwait : ∀ waiting ∈ t.pending, waiting.kind.canWait = true :=
      fun waiting hwaiting => hs.canWait waiting (hsuffix.subset hwaiting)
    exact ⟨hwait, hs.isChain.suffix hsuffix⟩
  · have hwait : ∀ waiting ∈ rest, waiting.kind.canWait = true :=
      fun waiting hwaiting => hs.canWait waiting (hsuffix.subset hwaiting)
    have hchain : rest.IsChain Token.WaitsOn := hs.isChain.suffix hsuffix
    constructor
    · rw [hpending]
      exact List.forall_mem_cons.mpr ⟨htoken, hwait⟩
    · rw [hpending]
      exact List.isChain_cons.mpr ⟨hrest, hchain⟩

end Rpn

/-! ## Open parentheses -/

def Kind.isClosing : Kind → Bool
  | .closing => true
  | _ => false

namespace Nesting

variable {mode : CommaMode} {depth next : Nat} {token : Token} {tokens : List Token}

theorem depth_of_step (h : step mode depth token = .ok next) :
    next + [token].countP (·.kind.isClosing) = depth + [token].countP (·.kind.isOpening) := by
  obtain ⟨symbol, kind⟩ := token
  cases kind with
  | opening =>
    obtain rfl := Except.ok.inj h
    rfl
  | closing =>
    simp only [step] at h
    split at h
    · cases h
    · obtain rfl := Except.ok.inj h
      show depth - 1 + 1 = depth
      omega
  | comma =>
    simp only [step] at h
    split at h
    · cases h
    · obtain rfl := Except.ok.inj h
      rfl
  | invalid => cases h
  | _ =>
    obtain rfl := Except.ok.inj h
    rfl

/-- What is open are the parentheses that have been opened and not been closed. -/
theorem depth_of_foldlM (h : tokens.foldlM (step mode) depth = .ok next) :
    next + tokens.countP (·.kind.isClosing) = depth + tokens.countP (·.kind.isOpening) := by
  induction tokens generalizing depth with
  | nil =>
    obtain rfl : depth = next := Except.ok.inj h
    rfl
  | cons token tokens ih =>
    obtain ⟨middle, hstep, hrest⟩ := foldlM_cons_eq_ok_iff.mp h
    have htoken := depth_of_step hstep
    have htokens := ih hrest
    rw [← List.singleton_append, List.countP_append, List.countP_append]
    omega

end Nesting

/-! ## Operators in a row -/

namespace Operator

theorem eq_power_or_product_or_sum (op : Operator) :
    op = .power ∨ (op = .multiply ∨ op = .divide) ∨ op = .add ∨ op = .subtract := by
  cases op <;> simp

/-- In a row of operators that wait on each other, the latest first, there are powers, then
a product at most and then a sum at most. -/
theorem exists_layers {operators : List Operator}
    (h : operators.IsChain fun upper lower => lower.yieldsTo upper = false) :
    ∃ (powers : Nat) (product sum : Option Operator),
      operators = List.replicate powers .power ++ (product.toList ++ sum.toList) ∧
        (∀ op ∈ product, op = .multiply ∨ op = .divide) ∧
        ∀ op ∈ sum, op = .add ∨ op = .subtract := by
  induction operators with
  | nil => exact ⟨0, none, none, rfl, by simp, by simp⟩
  | cons op operators ih =>
    obtain ⟨hhead, hrest⟩ := List.isChain_cons.mp h
    obtain ⟨powers, product, sum, rfl, hproduct, hsum⟩ := ih hrest
    rcases op.eq_power_or_product_or_sum with rfl | hop
    · exact ⟨powers + 1, product, sum, rfl, hproduct, hsum⟩
    · -- only a power waits on a power
      obtain rfl : powers = 0 := by
        cases powers with
        | zero => rfl
        | succ n =>
          have hyields := hhead .power rfl
          rcases hop with (rfl | rfl) | rfl | rfl <;> cases hyields
      cases product with
      | some below =>
        have hyields := hhead below rfl
        rcases hop with (rfl | rfl) | rfl | rfl <;>
          rcases hproduct below rfl with rfl | rfl <;> cases hyields
      | none =>
        rcases hop with hop | hop
        · exact ⟨0, some op, sum, rfl, by simpa using hop, hsum⟩
        · cases sum with
          | some below =>
            have hyields := hhead below rfl
            rcases hop with rfl | rfl <;> rcases hsum below rfl with rfl | rfl <;> cases hyields
          | none => exact ⟨0, none, some op, rfl, by simp, by simpa using hop⟩

end Operator

/-- Operators in a row wait on each other. -/
theorem Token.isChain_operators {row : List Token} {operators : List Operator}
    (h : row.IsChain WaitsOn) (hrow : row.map Token.kind = operators.map Kind.operator) :
    operators.IsChain fun upper lower => lower.yieldsTo upper = false := by
  have hkinds : (row.map Token.kind).IsChain fun upper lower =>
      ∀ a b, upper = .operator a → lower = .operator b → b.yieldsTo a = false :=
    (List.isChain_map _).mpr h
  rw [hrow, List.isChain_map] at hkinds
  exact hkinds.imp fun upper lower hstays => hstays upper lower rfl rfl

/-! ## The stack of the conversion -/

namespace Rpn

/-- What waits after the tokens have been read, the latest first. -/
structure IsPending (tokens pending : List Token) : Prop where
  canWait : ∀ waiting ∈ pending, waiting.kind.canWait = true
  /-- As many open parentheses wait as have been opened and not been closed. -/
  unclosed : pending.countP (·.kind.isOpening) + tokens.countP (·.kind.isClosing) =
    tokens.countP (·.kind.isOpening)
  tighter : ∀ (above below : List Token) (upper lower : Token) (a b : Operator),
    pending = above ++ upper :: lower :: below → upper.kind = .operator a →
    lower.kind = .operator b → b.precedence < a.precedence ∨ a = .power ∧ b = .power
  /-- Operators without a barrier between them are powers, below them a product at most, and
  below it a sum at most. -/
  layers : ∀ (above row below : List Token) (operators : List Operator),
    pending = above ++ (row ++ below) → row.map Token.kind = operators.map Kind.operator →
    ∃ (powers : Nat) (product sum : Option Operator),
      operators = List.replicate powers .power ++ (product.toList ++ sum.toList) ∧
        (∀ op ∈ product, op = .multiply ∨ op = .divide) ∧
        ∀ op ∈ sum, op = .add ∨ op = .subtract

variable {mode : CommaMode} {s : Arrangement} {tokens : List Token}

theorem unclosed_of_foldlM (h : tokens.foldlM (step mode) .empty = .ok s) :
    s.depth + tokens.countP (·.kind.isClosing) = tokens.countP (·.kind.isOpening) := by
  have hscan : tokens.foldlM (Nesting.step mode) 0 = .ok s.depth := by
    have hdepth := map_foldlM (step_depth mode) tokens .empty
    rw [h] at hdepth
    exact hdepth.symm
  have hcount := Nesting.depth_of_foldlM hscan
  rwa [Nat.zero_add] at hcount

theorem isPending_of_foldlM (h : tokens.foldlM (step mode) .empty = .ok s) :
    IsPending tokens s.pending := by
  have hlayered : s.Layered := foldlM_invariant layered_of_step layered_empty h
  refine ⟨hlayered.canWait, unclosed_of_foldlM h, ?_, ?_⟩
  · intro above below upper lower a b hpending ha hb
    have hchain := hlayered.isChain
    rw [hpending] at hchain
    have hstays : upper.WaitsOn lower := (List.isChain_cons_cons.mp hchain.right_of_append).1
    exact hstays.precedence_lt ha hb
  · intro above row below operators hpending hrow
    have hchain := hlayered.isChain
    rw [hpending] at hchain
    have hoperators := Token.isChain_operators hchain.right_of_append.left_of_append hrow
    exact Operator.exists_layers hoperators

/-- What waits between barriers, after any tokens that the conversion gets through.  A sentinel
at the bottom of the stack, which no step pushes, stays there below all that waits until the
end, so that the conversion on such a stack is the conversion without it. -/
theorem pending_between_barriers :
    (∀ (mode : CommaMode) (tokens : List Token),
      tokens.foldlM (Guarded.step mode) .start =
          (tokens.foldlM (step mode) .empty).map Arrangement.guarded ∧
        Guarded.arrange mode tokens = arrange mode tokens) ∧
    ∀ (mode : CommaMode) (tokens : List Token) (s : Guarded),
      tokens.foldlM (Guarded.step mode) .start = .ok s →
        ∃ pending : List Token, s.stack = pending.map .token ++ [.sentinel] ∧
          IsPending tokens pending := by
  constructor
  · intro mode tokens
    exact ⟨Guarded.run_guarded mode tokens, Guarded.arrange_eq mode tokens⟩
  · intro mode tokens s h
    rw [Guarded.run_guarded] at h
    obtain ⟨t, hrun, rfl⟩ := map_eq_ok_iff.mp h
    exact ⟨t.pending, rfl, isPending_of_foldlM hrun⟩

/-- In `2 + max ( 1 - x * 3 ^ 2 ^` the sum before the function waits below the powers, the
product and the sum after the parenthesis. -/
theorem pending_between_barriers_unfinished :
    ∃ pending : List Token,
      ["^", "^", "*", "-", "(", "max", "+"].map (.token ∘ Token.classify) ++ [.sentinel] =
          pending.map Waiting.token ++ [.sentinel] ∧
        IsPending (["2", "+", "max", "(", "1", "-", "x", "*", "3", "^", "2", "^"].map
          Token.classify) pending := by
  have hrun : (["2", "+", "max", "(", "1", "-", "x", "*", "3", "^", "2", "^"].map
      Token.classify).foldlM (Guarded.step .delimited) .start =
        .ok ⟨["2", "3", "x", "1", "2"].map Token.classify,
          ["^", "^", "*", "-", "(", "max", "+"].map (.token ∘ Token.classify) ++
            [.sentinel]⟩ := rfl
  exact pending_between_barriers.2 .delimited _ _ hrun

end Rpn

end CurveSketch
