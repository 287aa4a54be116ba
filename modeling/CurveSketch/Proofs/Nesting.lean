import CurveSketch.Proofs.Counter
import CurveSketch.Rpn

/-!
# Which rejection wins

The conversion to reverse Polish order never counts parentheses: it finds the one
that a closing parenthesis or a comma belongs to on the stack of pending tokens,
among operators and functions.  `Nesting` is a scan that does count, and keeps
nothing but the number of open parentheses.

* `Arrangement.depth` is the number of open parentheses that are pending.  Operators
  that are released, the function that is placed after its arguments and the end of
  an argument leave it as it is (`depth_release`), so that the scan follows every
  step of the conversion (`Rpn.step_depth`).
* So the conversion succeeds, or fails for a cause, exactly if the scan does
  (`Rpn.arrange_outcome`).
* What it gives are operands, operators and functions only
  (`Rpn.isTerm_of_mem_arrange`), so that the reduction can only be short of operands
  or leave another number of values than one.
-/

namespace CurveSketch

/-! ## The scan -/

namespace Nesting

/-- What one token does to the number of open parentheses. -/
def step (mode : CommaMode) (depth : Nat) (token : Token) : Except ParseError Nat :=
  match token.kind with
  | .opening => .ok (depth + 1)
  | .closing => if depth = 0 then .error .unopened else .ok (depth - 1)
  | .comma => if mode = .delimited ∧ depth = 0 then .error .strayComma else .ok depth
  | .invalid => .error (.unrecognized token.symbol)
  | .constant _ | .variable | .operator _ | .function _ => .ok depth

/-- No parenthesis may be open at the end. -/
def finish (depth : Nat) : Except ParseError Unit :=
  if depth = 0 then .ok () else .error .unclosed

/-- Whether the parentheses match, with the commas in them, and why not. -/
def scan (mode : CommaMode) (tokens : List Token) : Except ParseError Unit := do
  finish (← tokens.foldlM (step mode) 0)

end Nesting

/-! ## Open parentheses among the pending tokens -/

namespace Arrangement

/-- The number of open parentheses. -/
def depth (s : Arrangement) : Nat :=
  s.pending.countP (·.kind.isOpening)

variable {s : Arrangement} {token : Token}

theorem depth_defer (h : token.kind.isOpening = false) : (s.defer token).depth = s.depth := by
  simp [depth, defer, h]

theorem depth_defer_opening (h : token.kind = .opening) :
    (s.defer token).depth = s.depth + 1 := by
  simp [depth, defer, h, Kind.isOpening]

/-- A release that stops at parentheses closes none. -/
theorem depth_release {leaves : Token → Bool}
    (h : ∀ token, leaves token = true → token.kind.isOpening = false) :
    (s.release leaves).depth = s.depth := by
  have hreleased : (s.pending.takeWhile leaves).countP (·.kind.isOpening) = 0 := by
    rw [List.countP_eq_zero]
    intro token htoken
    have hleaves : leaves token = true := List.all_eq_true.mp List.all_takeWhile token htoken
    simp [h token hleaves]
  have hsplit : s.pending.takeWhile leaves ++ s.pending.dropWhile leaves = s.pending :=
    List.takeWhile_append_dropWhile
  show (s.pending.dropWhile leaves).countP (·.kind.isOpening) = s.pending.countP _
  rw [← hsplit, List.countP_append, hreleased, Nat.zero_add, hsplit]

theorem depth_releaseGroup (s : Arrangement) : s.releaseGroup.depth = s.depth := by
  apply depth_release
  intro token h
  simpa using h

/-- If nothing is left above, no parenthesis was open. -/
theorem depth_eq_zero_of_releaseGroup (h : s.releaseGroup.pending = []) : s.depth = 0 := by
  rw [← depth_releaseGroup, depth, h, List.countP_nil]

theorem depth_of_releaseGroup {rest : List Token} (h : s.releaseGroup.pending = token :: rest) :
    s.depth = rest.countP (·.kind.isOpening) + 1 := by
  rw [← depth_releaseGroup, depth, h, List.countP_cons_of_pos]
  exact isOpening_of_pending_releaseGroup h

end Arrangement

/-! ## The scan follows the conversion -/

namespace Rpn

open Arrangement

variable {mode : CommaMode} {s t : Arrangement} {token : Token}
  {tokens ordered : List Token}

theorem close_depth (s : Arrangement) :
    (close s).map depth = if s.depth = 0 then .error .unopened else .ok (s.depth - 1) := by
  rcases pending_releaseGroup_cases s with
    hpending | ⟨opening, rest, hpending, hrest⟩ | ⟨opening, f, rest, hpending, hf⟩
  · rw [close_of_nil hpending, depth_eq_zero_of_releaseGroup hpending]
    rfl
  · have hdepth : s.depth = rest.countP (·.kind.isOpening) + 1 := depth_of_releaseGroup hpending
    have hpositive : s.depth ≠ 0 := by omega
    rw [close_of_not_function hpending hrest, if_neg hpositive, hdepth, Nat.add_sub_cancel]
    rfl
  · have hdepth : s.depth = (f :: rest).countP (·.kind.isOpening) + 1 :=
      depth_of_releaseGroup hpending
    have hpositive : s.depth ≠ 0 := by omega
    have hplaced : (f :: rest).countP (·.kind.isOpening) = rest.countP (·.kind.isOpening) :=
      List.countP_cons_of_neg (by simp [Kind.isOpening_eq_false_of_isFunction hf])
    rw [close_of_function hpending hf, if_neg hpositive, hdepth, Nat.add_sub_cancel, hplaced]
    rfl

theorem endArgument_depth (s : Arrangement) :
    (endArgument s).map depth =
      if s.depth = 0 then .error .strayComma else .ok s.depth := by
  rcases hpending : s.releaseGroup.pending with _ | ⟨opening, rest⟩
  · rw [endArgument_of_nil hpending, depth_eq_zero_of_releaseGroup hpending]
    rfl
  · have hdepth : s.depth = rest.countP (·.kind.isOpening) + 1 := depth_of_releaseGroup hpending
    have hpositive : s.depth ≠ 0 := by omega
    rw [endArgument_of_cons hpending, if_neg hpositive, ← depth_releaseGroup]
    rfl

theorem step_depth (mode : CommaMode) (s : Arrangement) (token : Token) :
    (step mode s token).map depth = Nesting.step mode s.depth token := by
  obtain ⟨symbol, kind⟩ := token
  cases kind with
  | constant value => rfl
  | «variable» => rfl
  | operator op =>
    show Except.ok ((s.release (yields op)).defer _).depth = Except.ok s.depth
    rw [depth_defer rfl, depth_release fun _ => isOpening_eq_false_of_yields]
  | function f => exact congrArg Except.ok (depth_defer rfl)
  | comma =>
    cases mode with
    | delimited =>
      show (endArgument s).map depth = _
      rw [endArgument_depth]
      simp [Nesting.step]
    | positional => rfl
  | opening => exact congrArg Except.ok (depth_defer_opening rfl)
  | closing => exact close_depth s
  | invalid => rfl

theorem finish_depth (s : Arrangement) :
    (finish s).map (fun _ => ()) = Nesting.finish s.depth := by
  have hopen : s.pending.any (·.kind.isOpening) = true ↔ s.depth ≠ 0 := by
    rw [depth, Ne, List.countP_eq_zero, List.any_eq_true]
    simp
  unfold finish Nesting.finish
  by_cases hdepth : s.depth = 0
  · rw [if_neg (fun h => hopen.mp h hdepth), if_pos hdepth]
    rfl
  · rw [if_pos (hopen.mpr hdepth), if_neg hdepth]
    rfl

/-- The conversion succeeds, or fails for a cause, exactly if the scan does. -/
theorem arrange_outcome (mode : CommaMode) (tokens : List Token) :
    (arrange mode tokens).map (fun _ => ()) = Nesting.scan mode tokens := by
  have hrun : (tokens.foldlM (step mode) .empty).map depth =
      tokens.foldlM (Nesting.step mode) 0 := map_foldlM (step_depth mode) tokens .empty
  rw [arrange, Nesting.scan, ← hrun]
  cases tokens.foldlM (step mode) .empty with
  | error cause => rfl
  | ok s => exact finish_depth s

end Rpn

/-! ## What is placed -/

namespace Arrangement

/-- What is placed are terms, and only parentheses wait beside terms. -/
structure HoldsTerms (s : Arrangement) : Prop where
  placed : ∀ token ∈ s.placed, token.kind.isTerm = true
  pending : ∀ token ∈ s.pending, token.kind.isTerm = true ∨ token.kind.isOpening = true

variable {s : Arrangement} {token : Token}

theorem holdsTerms_empty : empty.HoldsTerms where
  placed _ h := by cases h
  pending _ h := by cases h

theorem HoldsTerms.place (h : s.HoldsTerms) (htoken : token.kind.isTerm = true) :
    (s.place token).HoldsTerms where
  placed := List.forall_mem_cons.mpr ⟨htoken, h.placed⟩
  pending := h.pending

theorem HoldsTerms.defer (h : s.HoldsTerms)
    (htoken : token.kind.isTerm = true ∨ token.kind.isOpening = true) :
    (s.defer token).HoldsTerms where
  placed := h.placed
  pending := List.forall_mem_cons.mpr ⟨htoken, h.pending⟩

/-- Parentheses are not released. -/
theorem HoldsTerms.release {leaves : Token → Bool} (h : s.HoldsTerms)
    (hleaves : ∀ token, leaves token = true → token.kind.isOpening = false) :
    (s.release leaves).HoldsTerms where
  placed := by
    intro token htoken
    rcases List.mem_append.mp htoken with hmem | hmem
    · rw [List.mem_reverse] at hmem
      have hopening : token.kind.isOpening = false :=
        hleaves token (List.all_eq_true.mp List.all_takeWhile token hmem)
      have hpending := h.pending token (List.takeWhile_subset leaves hmem)
      simpa [hopening] using hpending
    · exact h.placed token hmem
  pending token htoken := h.pending token (List.dropWhile_subset leaves htoken)

end Arrangement

namespace Rpn

open Arrangement

variable {mode : CommaMode} {s t : Arrangement} {token : Token}
  {tokens ordered : List Token}

theorem holdsTerms_releaseGroup (h : s.HoldsTerms) : s.releaseGroup.HoldsTerms := by
  apply h.release
  intro token hleaves
  simpa using hleaves

theorem holdsTerms_of_close (hs : s.HoldsTerms) (h : close s = .ok t) : t.HoldsTerms := by
  have hgroup : s.releaseGroup.HoldsTerms := holdsTerms_releaseGroup hs
  have hrest := hgroup.pending
  rcases close_eq_ok h with
    ⟨opening, rest, hpending, -, rfl⟩ | ⟨opening, f, rest, hpending, hf, rfl⟩
  · rw [hpending, List.forall_mem_cons] at hrest
    exact ⟨hgroup.placed, hrest.2⟩
  · rw [hpending, List.forall_mem_cons, List.forall_mem_cons] at hrest
    obtain ⟨-, hterm, hbelow⟩ := hrest
    have hplaced : f.kind.isTerm = true := by
      simpa [Kind.isOpening_eq_false_of_isFunction hf] using hterm
    exact ⟨List.forall_mem_cons.mpr ⟨hplaced, hgroup.placed⟩, hbelow⟩

theorem holdsTerms_of_step (hs : s.HoldsTerms) (h : step mode s token = .ok t) :
    t.HoldsTerms := by
  cases advances_of_step h with
  | operand hkind =>
    have hterm : token.kind.isTerm = true := Kind.isTerm_of_isOperand hkind
    exact hs.place hterm
  | function hkind =>
    have hterm : token.kind.isTerm = true := Kind.isTerm_of_isFunction hkind
    exact hs.defer (Or.inl hterm)
  | opening hkind => exact hs.defer (Or.inr (by rw [hkind]; rfl))
  | @operator op hkind =>
    have hreleased : (s.release (yields op)).HoldsTerms :=
      hs.release fun _ => isOpening_eq_false_of_yields
    exact hreleased.defer (Or.inl (by rw [hkind]; rfl))
  | closing _ hclose => exact holdsTerms_of_close hs hclose
  | comma _ _ hend =>
    obtain ⟨-, rfl⟩ := endArgument_eq_ok hend
    exact holdsTerms_releaseGroup hs
  | skip _ _ => exact hs

/-- Only operands, operators and functions come out. -/
theorem isTerm_of_mem_arrange (h : arrange mode tokens = .ok ordered) :
    ∀ token ∈ ordered, token.kind.isTerm = true := by
  obtain ⟨s, hrun, hfinish⟩ := arrange_eq_ok_iff.mp h
  obtain ⟨hclosed, rfl⟩ := finish_eq_ok_iff.mp hfinish
  have hs : s.HoldsTerms := foldlM_invariant holdsTerms_of_step holdsTerms_empty hrun
  intro token htoken
  rcases List.mem_append.mp htoken with hmem | hmem
  · exact hs.placed token (List.mem_reverse.mp hmem)
  · simpa [hclosed token hmem] using hs.pending token hmem

theorem isInvalid_of_step (h : step mode s token = .ok t) : token.kind.isInvalid = false := by
  obtain ⟨symbol, kind⟩ := token
  cases kind with
  | invalid => cases h
  | _ => rfl

/-- Tokens that are arranged have a meaning. -/
theorem isInvalid_of_mem_arrange (h : arrange mode tokens = .ok ordered) :
    ∀ token ∈ tokens, token.kind.isInvalid = false := by
  obtain ⟨s, hrun, -⟩ := arrange_eq_ok_iff.mp h
  exact forall_mem_of_foldlM (fun _ _ _ hstep => isInvalid_of_step hstep) hrun

end Rpn

/-! ## From the text -/

theorem Token.read_of_find? {text : String} {token : Token}
    (h : (split text).find? (·.kind.isInvalid) = some token) :
    read text = .error (.unrecognized token.symbol) := by
  simp [read, h]

theorem Token.read_of_all_valid {text : String}
    (h : (split text).find? (·.kind.isInvalid) = none) :
    read text = if split text = [] then .error .empty else .ok (split text) := by
  simp [read, h]

namespace Curve

variable {mode : CommaMode} {text : String} {tokens ordered : List Token} {cause : ParseError}

theorem read_of_token_error (h : Token.read text = .error cause) :
    read mode text = .error cause := by
  rw [read, Rpn.read, h]
  rfl

theorem read_of_token_ok (h : Token.read text = .ok tokens) :
    read mode text = Rpn.arrange mode tokens >>= Reduction.reduce := by
  rw [read, Rpn.read, h]
  rfl

/-- What comes out of the conversion is reduced, or it is short of operands, or it
leaves another number of values than one. -/
theorem reduce_of_arrange (h : Rpn.arrange mode tokens = .ok ordered) :
    (∃ f, Reduction.reduce ordered = .ok f) ∨
      (∃ symbol needed found,
        Reduction.reduce ordered = .error (.missingOperands symbol needed found)) ∨
      ∃ count, count ≠ 1 ∧ Reduction.reduce ordered = .error (.leftover count) := by
  cases hreduce : Reduction.reduce ordered with
  | ok f => exact Or.inl ⟨f, rfl⟩
  | error cause =>
    refine Or.inr ?_
    rw [Reduction.reduce_eq_error_iff] at hreduce
    rcases Counter.outcome_eq_error hreduce with hrun | ⟨count, hcount, rfl⟩
    · rcases Counter.run_eq_error hrun with ⟨symbol, needed, found, rfl⟩ | ⟨token, hmem, hterm, -⟩
      · exact Or.inl ⟨symbol, needed, found, rfl⟩
      · rw [Rpn.isTerm_of_mem_arrange h token hmem] at hterm
        cases hterm
    · exact Or.inr ⟨count, hcount, rfl⟩

/-- The order in which rejections win.  Among the tokens the first one that the scan
stops at decides.  In a text an unrecognized symbol comes first, then that there is
no symbol, then the scan; what is left are the two causes of the reduction. -/
theorem rejections_in_order :
    (∀ (mode : CommaMode) (tokens : List Token),
      (Rpn.arrange mode tokens).map (fun _ => ()) = Nesting.scan mode tokens) ∧
    ∀ (mode : CommaMode) (text : String),
      match (Token.split text).find? (·.kind.isInvalid) with
      | some token => read mode text = .error (.unrecognized token.symbol)
      | none =>
        if Token.split text = [] then read mode text = .error .empty
        else
          match Nesting.scan mode (Token.split text) with
          | .error cause => read mode text = .error cause
          | .ok () =>
            (∃ f, read mode text = .ok f) ∨
              (∃ symbol needed found,
                read mode text = .error (.missingOperands symbol needed found)) ∨
              ∃ count, count ≠ 1 ∧ read mode text = .error (.leftover count) := by
  refine ⟨Rpn.arrange_outcome, ?_⟩
  intro mode text
  cases hinvalid : (Token.split text).find? (·.kind.isInvalid) with
  | some token => exact read_of_token_error (Token.read_of_find? hinvalid)
  | none =>
    have hread := Token.read_of_all_valid hinvalid
    by_cases hempty : Token.split text = []
    · rw [if_pos hempty] at hread
      simpa only [if_pos hempty] using read_of_token_error hread
    · rw [if_neg hempty] at hread
      simp only [if_neg hempty]
      have hscan := Rpn.arrange_outcome mode (Token.split text)
      rw [read_of_token_ok hread, ← hscan]
      cases harrange : Rpn.arrange mode (Token.split text) with
      | error cause => rfl
      | ok ordered => exact reduce_of_arrange harrange

end Curve

end CurveSketch
