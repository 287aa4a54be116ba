import CurveSketch.Proofs.Calculator
import CurveSketch.Proofs.Counter
import Mathlib.Data.List.Forall2
import Mathlib.Data.List.Induction

/-!
# What a slot stands for

The reduction does not keep the tokens that it has read.  They are blocks that stand side by
side, one for each slot of the stack, and each block has made its slot.

* `Made` follows a slot back to its block.  An operation takes the blocks in front of it, and
  makes one block of them and itself.  Only the lowest slot of a stack can be negated, and it
  matters which one it is, because on a higher slot the same minus would take two.
* `Blocks` divides all tokens that have been read.  A step goes from one such division to the
  next (`blocks_of_reduces`).
* Numbers, the variable and curves are told apart by the tokens of the block
  (`Made.isConstant_iff`, `Made.eq_variable_iff`, `Made.exists_eq_curve_iff`).
* Alone the block is an expression, with the height of its slot (`Made.evaluate`).

`slots_standFor_blocks` puts this together, and says what it means for the end of a reduction.
-/

namespace CurveSketch

/-! ## Tokens with an operation -/

namespace Token

variable {token : Token} {operation : Operation}

theorem isOperator_or_isFunction_of_operation? (h : token.operation? = some operation) :
    token.kind.isOperator = true ∨ token.kind.isFunction = true := by
  obtain ⟨symbol, kind⟩ := token
  cases kind with
  | operator op => exact Or.inl rfl
  | function f => exact Or.inr rfl
  | _ => cases h

theorem ne_variable_of_operation? (h : token.operation? = some operation) :
    token.kind ≠ .variable := by
  intro hkind
  rw [operation?, hkind] at h
  cases h

/-- A token behind a block makes a difference only if it is a variable. -/
theorem forall_ne_variable_concat {block : List Token} (h : token.kind ≠ .variable) :
    (∀ other ∈ block ++ [token], other.kind ≠ .variable) ↔
      ∀ other ∈ block, other.kind ≠ .variable := by
  rw [List.forall_mem_append, List.forall_mem_singleton]
  exact and_iff_left h

end Token

/-! ## Blocks of tokens -/

namespace Reduction

variable {token : Token} {tokens : List Token} {stack next : List Slot}

theorem foldlM_concat_of_reduces {base : List Slot} (h : tokens.foldlM step base = .ok stack)
    (htoken : Reduces token stack next) : (tokens ++ [token]).foldlM step base = .ok next :=
  foldlM_append_eq_ok_iff.mpr
    ⟨stack, h, foldlM_cons_eq_ok_iff.mpr ⟨next, step_eq_ok_iff.mpr htoken, rfl⟩⟩

/-- The tokens of the block have made the slot.  If it is not `lowest`, there was another slot
below it all the time. -/
inductive Made : Bool → List Token → Slot → Prop where
  | constant {lowest : Bool} {token : Token} {value : Float} (h : token.kind = .constant value) :
      Made lowest [token] (.constant value)
  | variable {lowest : Bool} {token : Token} (h : token.kind = .variable) :
      Made lowest [token] .variable
  | unary {lowest : Bool} {token : Token} {op : Float → Float} {block : List Token} {slot : Slot}
      (made : Made lowest block slot) (h : token.operation? = some (.unary op)) :
      Made lowest (block ++ [token]) (slot.apply op)
  /-- The right slot has been made on top of the left one. -/
  | binary {lowest : Bool} {token : Token} {op : Float → Float → Float}
      {leftBlock rightBlock : List Token} {left right : Slot} (hleft : Made lowest leftBlock left)
      (hright : Made false rightBlock right) (h : token.operation? = some (.binary op)) :
      Made lowest (leftBlock ++ rightBlock ++ [token]) (.combine op left right)
  | negation {token : Token} {block : List Token} {slot : Slot} (made : Made true block slot)
      (h : token.kind = .operator .subtract) :
      Made true (block ++ [token]) (.combine Operator.subtract.apply (.constant 0) slot)

/-- The tokens are blocks side by side that have made the slots, the latest slot first. -/
inductive Blocks : List Token → List Slot → Prop where
  | nil : Blocks [] []
  | push {before block : List Token} {slot : Slot} {rest : List Slot} (below : Blocks before rest)
      (made : Made rest.isEmpty block slot) : Blocks (before ++ block) (slot :: rest)

/-- A step makes a block of its token and of the blocks that it takes. -/
theorem blocks_of_reduces (h : Blocks tokens stack) (hstep : Reduces token stack next) :
    Blocks (tokens ++ [token]) next := by
  cases hstep with
  | constant hkind => exact .push h (.constant hkind)
  | «variable» hkind => exact .push h (.variable hkind)
  | unary hop =>
    cases h with
    | push below made =>
      rw [List.append_assoc]
      exact .push below (made.unary hop)
  | binary hop =>
    cases h with
    | push first hright =>
      cases first with
      | push below hleft =>
        have hblocks := Blocks.push below (hleft.binary hright hop)
        simpa using hblocks
  | negation hkind =>
    cases h with
    | push below made =>
      rw [List.append_assoc]
      exact .push below (made.negation hkind)

/-- All tokens that have been read are in the blocks. -/
theorem blocks_of_foldlM (h : tokens.foldlM step [] = .ok stack) : Blocks tokens stack := by
  induction tokens using List.reverseRecOn generalizing stack with
  | nil =>
    obtain rfl : [] = stack := Except.ok.inj h
    exact .nil
  | append_singleton tokens token ih =>
    obtain ⟨before, hbefore, hstep⟩ := foldlM_concat_eq_ok h
    exact blocks_of_reduces (ih hbefore) (step_eq_ok_iff.mp hstep)

end Reduction

/-! ## What the tokens of a block say -/

namespace Slot

def isConstant : Slot → Bool
  | .constant _ => true
  | _ => false

theorem isConstant_eq_true_iff {slot : Slot} :
    slot.isConstant = true ↔ ∃ value, slot = .constant value := by
  cases slot <;> simp [isConstant]

@[simp]
theorem isConstant_apply (op : Float → Float) (slot : Slot) :
    (slot.apply op).isConstant = slot.isConstant := by
  cases slot <;> rfl

/-- Nothing but numbers is computed in advance. -/
@[simp]
theorem isConstant_combine (op : Float → Float → Float) (left right : Slot) :
    (combine op left right).isConstant = (left.isConstant && right.isConstant) := by
  cases left <;> cases right <;> rfl

end Slot

namespace Reduction.Made

variable {lowest : Bool} {block : List Token} {slot : Slot}

theorem ne_nil (h : Made lowest block slot) : block ≠ [] := by
  cases h <;> simp

/-- The slot is a number if there is no variable in the block. -/
theorem isConstant_iff (h : Made lowest block slot) :
    slot.isConstant = true ↔ ∀ token ∈ block, token.kind ≠ .variable := by
  induction h with
  | constant hkind => simp [Slot.isConstant, hkind]
  | «variable» hkind => simp [Slot.isConstant, hkind]
  | unary made hop ih =>
    have htoken := Token.ne_variable_of_operation? hop
    rw [Slot.isConstant_apply, ih, Token.forall_ne_variable_concat htoken]
  | binary hleft hright hop ihleft ihright =>
    have htoken := Token.ne_variable_of_operation? hop
    rw [Slot.isConstant_combine, Bool.and_eq_true, ihleft, ihright,
      Token.forall_ne_variable_concat htoken, List.forall_mem_append]
  | @negation token block slot made hkind ih =>
    have htoken : token.kind ≠ .variable := by simp [hkind]
    have hslot : (Slot.combine Operator.subtract.apply (.constant 0) slot).isConstant =
        slot.isConstant := Slot.isConstant_combine _ _ _
    rw [hslot, ih, Token.forall_ne_variable_concat htoken]

/-- No operation has the bare variable as its result. -/
theorem eq_singleton (h : Made lowest block slot) (hslot : slot.isVariable = true) :
    ∃ token, block = [token] ∧ token.kind = .variable := by
  cases h with
  | constant hkind => cases hslot
  | «variable» hkind => exact ⟨_, rfl, hkind⟩
  | unary made hop => simp at hslot
  | binary hleft hright hop => simp at hslot
  | negation made hkind => simp at hslot

/-- Curves are made by operations only. -/
theorem exists_operation {f : Curve} (h : Made lowest block slot) (hslot : slot = .curve f) :
    ∃ token ∈ block, token.kind.isOperator = true ∨ token.kind.isFunction = true := by
  cases h with
  | constant hkind => cases hslot
  | «variable» hkind => cases hslot
  | unary made hop | binary hleft hright hop =>
    exact ⟨_, List.mem_concat_self, Token.isOperator_or_isFunction_of_operation? hop⟩
  | negation made hkind => exact ⟨_, List.mem_concat_self, Or.inl (by rw [hkind]; rfl)⟩

theorem eq_variable_iff (h : Made lowest block slot) :
    slot = .variable ↔ ∃ symbol, block = [⟨symbol, .variable⟩] := by
  constructor
  · rintro rfl
    obtain ⟨⟨symbol, kind⟩, rfl, rfl⟩ := h.eq_singleton rfl
    exact ⟨symbol, rfl⟩
  · rintro ⟨symbol, rfl⟩
    cases hslot : slot with
    | constant value =>
      have hnone := h.isConstant_iff.mp (by rw [hslot]; rfl)
      exact absurd rfl (hnone _ List.mem_cons_self)
    | «variable» => rfl
    | curve f =>
      obtain ⟨token, htoken, hop⟩ := h.exists_operation hslot
      obtain rfl := List.mem_singleton.mp htoken
      rcases hop with hop | hop <;> cases hop

theorem exists_eq_curve_iff (h : Made lowest block slot) :
    (∃ f, slot = .curve f) ↔ (∃ token ∈ block, token.kind = .variable) ∧
      ∃ token ∈ block, token.kind.isOperator = true ∨ token.kind.isFunction = true := by
  constructor
  · rintro ⟨f, hslot⟩
    refine ⟨?_, h.exists_operation hslot⟩
    by_contra hnone
    have hnumber := h.isConstant_iff.mpr fun token htoken hkind => hnone ⟨token, htoken, hkind⟩
    rw [hslot] at hnumber
    cases hnumber
  · rintro ⟨⟨free, hfree, hkind⟩, token, htoken, hop⟩
    cases hslot : slot with
    | constant value =>
      have hnone := h.isConstant_iff.mp (by rw [hslot]; rfl)
      exact absurd hkind (hnone free hfree)
    | «variable» =>
      obtain ⟨symbol, rfl⟩ := h.eq_variable_iff.mp hslot
      obtain rfl := List.mem_singleton.mp htoken
      rcases hop with hop | hop <;> cases hop
    | curve f => exact ⟨f, rfl⟩

/-- A block makes its slot again, and nothing else, on every stack that it can have stood
on. -/
theorem foldlM_step (h : Made lowest block slot) {base : List Slot}
    (hbase : lowest = true → base = []) : block.foldlM step base = .ok (slot :: base) := by
  induction h generalizing base with
  | constant hkind =>
    have hnone : [].foldlM step base = .ok base := rfl
    exact foldlM_concat_of_reduces hnone (.constant hkind)
  | «variable» hkind =>
    have hnone : [].foldlM step base = .ok base := rfl
    exact foldlM_concat_of_reduces hnone (.variable hkind)
  | unary made hop ih => exact foldlM_concat_of_reduces (ih hbase) (.unary hop)
  | @binary lowest token op leftBlock rightBlock left right hleft hright hop ihleft ihright =>
    have hpair : (leftBlock ++ rightBlock).foldlM step base = .ok (right :: left :: base) :=
      foldlM_append_eq_ok_iff.mpr ⟨left :: base, ihleft hbase, ihright (fun h => by cases h)⟩
    exact foldlM_concat_of_reduces hpair (.binary hop)
  | negation made hkind ih =>
    -- on top of another slot the minus would take that one for its left operand
    obtain rfl := hbase rfl
    exact foldlM_concat_of_reduces (ih fun _ => rfl) (.negation hkind)

/-- Alone the block is an expression with the height of its slot. -/
theorem evaluate (h : Made lowest block slot) (x : Float) :
    Calculator.evaluate block x = .ok (slot.toCurve x) := by
  have hrun : block.foldlM step [] = .ok [slot] := h.foldlM_step fun _ => rfl
  rw [Calculator.evaluate_eq_map_reduce, reduce_eq_single, hrun]
  rfl

end Reduction.Made

/-! ## What the slots stand for -/

/-- What a slot says about its block of tokens. -/
structure Slot.StandsFor (slot : Slot) (block : List Token) : Prop where
  ne_nil : block ≠ []
  /-- The slot has the value of the block.  If it is a number, this is the number. -/
  evaluate_eq : ∀ x, Calculator.evaluate block x = .ok (slot.toCurve x)
  variable_iff : slot = .variable ↔ ∃ symbol, block = [⟨symbol, .variable⟩]
  constant_iff : (∃ value, slot = .constant value) ↔ ∀ token ∈ block, token.kind ≠ .variable
  curve_iff : (∃ f, slot = .curve f) ↔ (∃ token ∈ block, token.kind = .variable) ∧
    ∃ token ∈ block, token.kind.isOperator = true ∨ token.kind.isFunction = true

namespace Reduction

variable {lowest : Bool} {tokens block : List Token} {stack : List Slot} {slot : Slot}
  {cause : ParseError}

theorem Made.standsFor (h : Made lowest block slot) : slot.StandsFor block where
  ne_nil := h.ne_nil
  evaluate_eq := h.evaluate
  variable_iff := h.eq_variable_iff
  constant_iff := Slot.isConstant_eq_true_iff.symm.trans h.isConstant_iff
  curve_iff := h.exists_eq_curve_iff

/-- The blocks, the lowest one first. -/
theorem Blocks.exists_standsFor (h : Blocks tokens stack) :
    ∃ blocks : List (List Token), blocks.flatten = tokens ∧
      List.Forall₂ Slot.StandsFor stack.reverse blocks := by
  induction h with
  | nil => exact ⟨[], rfl, .nil⟩
  | @push before block slot rest below made ih =>
    obtain ⟨blocks, rfl, hblocks⟩ := ih
    refine ⟨blocks ++ [block], by simp, ?_⟩
    rw [List.reverse_cons]
    exact List.rel_append hblocks (.cons made.standsFor .nil)

/-- A single slot stands for all tokens. -/
theorem standsFor_of_foldlM (h : tokens.foldlM step [] = .ok [slot]) : slot.StandsFor tokens := by
  cases blocks_of_foldlM h with
  | push below made =>
    cases below with
    | nil => exact made.standsFor

/-! ## The end of a reduction -/

/-- What is reduced is a single slot. -/
theorem exists_slot_of_reduce {f : Curve} (h : reduce tokens = .ok f) :
    ∃ slot, tokens.foldlM step [] = .ok [slot] ∧ slot.toCurve = f := by
  obtain ⟨stack, hrun, hfinish⟩ := bind_eq_ok_iff.mp h
  obtain ⟨slot, rfl, hslot⟩ := finish_eq_ok hfinish
  exact ⟨slot, hrun, hslot⟩

/-- A step that stops does not ask what is left at the end. -/
theorem cause_of_foldlM_error (h : tokens.foldlM step [] = .error cause) :
    cause ≠ .bareVariable ∧ ∀ count, cause ≠ .leftover count := by
  have hcount : Counter.run tokens 0 = .error cause := by
    have hlength := foldlM_length tokens []
    rw [h] at hlength
    exact hlength.symm
  rcases Counter.run_eq_error hcount with ⟨symbol, needed, found, rfl⟩ | ⟨token, -, -, rfl⟩
  · exact ⟨by simp, by simp⟩
  · exact ⟨by simp, by simp⟩

theorem single_eq_error (h : single stack = .error cause) :
    stack.length ≠ 1 ∧ cause = .leftover stack.length := by
  rcases stack with _ | ⟨slot, _ | ⟨second, rest⟩⟩
  · exact ⟨by simp, (Except.error.inj h).symm⟩
  · cases h
  · exact ⟨by simp, (Except.error.inj h).symm⟩

/-- The bare variable is no cause of a rejection, and the number of values is one only where
it is not one. -/
theorem cause_of_reduce_error (h : reduce tokens = .error cause) :
    cause ≠ .bareVariable ∧ ∀ count, cause = .leftover count →
      count ≠ 1 ∧ ∃ stack, tokens.foldlM step [] = .ok stack ∧ stack.length = count := by
  rw [reduce_eq_single] at h
  cases hrun : tokens.foldlM step [] with
  | error other =>
    rw [hrun] at h
    obtain rfl : other = cause := Except.error.inj h
    obtain ⟨hvariable, hcount⟩ := cause_of_foldlM_error hrun
    exact ⟨hvariable, fun count hcause => absurd hcause (hcount count)⟩
  | ok stack =>
    rw [hrun] at h
    obtain ⟨hlength, rfl⟩ := single_eq_error h
    refine ⟨by simp, ?_⟩
    rintro _ ⟨⟩
    exact ⟨hlength, stack, rfl, rfl⟩

/-- What the slots of the stack stand for, after any tokens that the reduction gets through.
They are blocks side by side, one for each slot.  So the curve of the tokens is a number that
has been computed in advance exactly if there is no variable among them, the bare variable is
left by itself only, and a rejection for the number of values is one for the height of the
stack. -/
theorem slots_standFor_blocks :
    (∀ (tokens : List Token) (stack : List Slot), tokens.foldlM step [] = .ok stack →
      ∃ blocks : List (List Token), blocks.flatten = tokens ∧
        List.Forall₂ Slot.StandsFor stack.reverse blocks) ∧
    (∀ (tokens : List Token) (f : Curve), reduce tokens = .ok f →
      ((∃ value, tokens.foldlM step [] = .ok [.constant value] ∧ f = Curve.constant value) ↔
        ∀ token ∈ tokens, token.kind ≠ .variable)) ∧
    (∀ tokens : List Token,
      tokens.foldlM step [] = .ok [.variable] ↔ ∃ symbol, tokens = [⟨symbol, .variable⟩]) ∧
    ∀ (tokens : List Token) (cause : ParseError), reduce tokens = .error cause →
      cause ≠ .bareVariable ∧ ∀ count, cause = .leftover count →
        count ≠ 1 ∧ ∃ stack, tokens.foldlM step [] = .ok stack ∧ stack.length = count := by
  refine ⟨?_, ?_, ?_, fun tokens cause => cause_of_reduce_error⟩
  · intro tokens stack h
    exact (blocks_of_foldlM h).exists_standsFor
  · intro tokens f h
    obtain ⟨slot, hrun, rfl⟩ := exists_slot_of_reduce h
    rw [← (standsFor_of_foldlM hrun).constant_iff]
    constructor
    · rintro ⟨value, hvalue, -⟩
      rw [hrun] at hvalue
      exact ⟨value, List.singleton_inj.mp (Except.ok.inj hvalue)⟩
    · rintro ⟨value, rfl⟩
      exact ⟨value, hrun, rfl⟩
  · intro tokens
    constructor
    · intro h
      exact (standsFor_of_foldlM h).variable_iff.mp rfl
    · rintro ⟨symbol, rfl⟩
      rfl

/-- `2 - x 3 4 +` leaves the negated two, the variable and seven, which are two values too
many, and of `2 - 3 4 + *` the number is computed in advance. -/
theorem slots_standFor_blocks_negated :
    (∃ blocks : List (List Token),
      blocks.flatten = ["2", "-", "x", "3", "4", "+"].map Token.classify ∧
        List.Forall₂ Slot.StandsFor [.constant (0 - 2), .variable, .constant (3 + 4)] blocks) ∧
      (∃ stack, (["2", "-", "x", "3", "4", "+"].map Token.classify).foldlM step [] = .ok stack ∧
        stack.length = 3) ∧
      ∀ token ∈ ["2", "-", "3", "4", "+", "*"].map Token.classify, token.kind ≠ .variable := by
  have hrun : (["2", "-", "x", "3", "4", "+"].map Token.classify).foldlM step [] =
      .ok [.constant (3 + 4), .variable, .constant (0 - 2)] := rfl
  have hleftover : reduce (["2", "-", "x", "3", "4", "+"].map Token.classify) =
      .error (.leftover 3) := rfl
  have hreduce : reduce (["2", "-", "3", "4", "+", "*"].map Token.classify) =
      .ok (Curve.constant ((0 - 2) * (3 + 4))) := rfl
  refine ⟨slots_standFor_blocks.1 _ _ hrun, ?_, ?_⟩
  · exact ((slots_standFor_blocks.2.2.2 _ _ hleftover).2 3 rfl).2
  · exact (slots_standFor_blocks.2.1 _ _ hreduce).mp ⟨(0 - 2) * (3 + 4), rfl, rfl⟩

end Reduction

end CurveSketch
