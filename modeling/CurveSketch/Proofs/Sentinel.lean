import CurveSketch.Rpn
import CurveSketch.Trail

/-!
# A stack with a marked bottom

`Rpn.step` releases a whole group of pending tokens at once, and the end of their list is the
end of the stack.  `Guarded` is the same conversion on a stack that has a sentinel at its
bottom and gives up one entry at a time.  It would take the sentinel off as any other entry,
and go on without it.

It never does.  The two machines agree on every step (`Guarded.step_guarded`), on all runs
(`Guarded.run_guarded`) and on the order that comes out (`Guarded.arrange_eq`), and the
sentinel is below all pending tokens as long as tokens are read.
-/

namespace CurveSketch

namespace Rpn

/-- What can be on a stack with a marked bottom. -/
inductive Waiting where
  | sentinel
  | token (token : Token)

/-- Whether it is a token that satisfies the condition. -/
def Waiting.isToken (condition : Token → Bool) : Waiting → Bool
  | sentinel => false
  | token t => condition t

/-- An expression in the middle of its rearrangement, on a stack with a marked bottom. -/
structure Guarded where
  /-- The tokens that have their place, the last one first. -/
  placed : List Token
  /-- What waits, the latest first. -/
  stack : List Waiting

namespace Guarded

/-! ## The machine -/

def start : Guarded := ⟨[], [.sentinel]⟩

/-- Lets a token wait. -/
def defer (s : Guarded) (token : Token) : Guarded :=
  { s with stack := .token token :: s.stack }

/-- What is placed after the top has been taken off the stack.  A token gets its place, and the
sentinel is lost. -/
def pop (placed : List Token) : Waiting → List Token
  | .sentinel => placed
  | .token t => t :: placed

/-- Pops as long as the top leaves. -/
def popWhile (leaves : Waiting → Bool) : List Token → List Waiting → Guarded
  | placed, [] => ⟨placed, []⟩
  | placed, top :: below =>
    if leaves top then popWhile leaves (pop placed top) below else ⟨placed, top :: below⟩

/-- Pops what is above the innermost open parenthesis.  There is none if the sentinel comes
first. -/
def popGroup (cause : ParseError) : List Token → List Waiting → Except ParseError Guarded
  | placed, .token t :: below =>
    if t.kind.isOpening then .ok ⟨placed, .token t :: below⟩
    else popGroup cause (pop placed (.token t)) below
  | _, .sentinel :: _ | _, [] => .error cause

/-- Takes the open parenthesis off, and then the function below it, if there is one. -/
def dropOpening (group : Guarded) : Guarded :=
  match group.stack.tail with
  | below :: rest =>
    if below.isToken (·.kind.isFunction) then ⟨pop group.placed below, rest⟩
    else ⟨group.placed, below :: rest⟩
  | [] => ⟨group.placed, []⟩

/-- What one token does. -/
def step (mode : CommaMode) (s : Guarded) (token : Token) : Except ParseError Guarded :=
  match token.kind with
  | .constant _ | .variable => .ok { s with placed := token :: s.placed }
  | .function _ | .opening => .ok (s.defer token)
  | .operator op => .ok ((popWhile (·.isToken (yields op)) s.placed s.stack).defer token)
  | .closing => (popGroup .unopened s.placed s.stack).map dropOpening
  | .comma =>
    match mode with
    | .delimited => popGroup .strayComma s.placed s.stack
    | .positional => .ok s
  | .invalid => .error (.unrecognized token.symbol)

/-- Pops everything down to the sentinel.  A parenthesis must not be open. -/
def drain : List Token → List Waiting → Except ParseError (List Token)
  | placed, .token t :: below =>
    if t.kind.isOpening then .error .unclosed else drain (pop placed (.token t)) below
  | placed, .sentinel :: _ | placed, [] => .ok placed.reverse

/-- The tokens in reverse Polish order. -/
def arrange (mode : CommaMode) (tokens : List Token) : Except ParseError (List Token) := do
  let s ← tokens.foldlM (step mode) start
  drain s.placed s.stack

end Guarded

end Rpn

/-- The pending tokens above a sentinel. -/
def Arrangement.guarded (s : Arrangement) : Rpn.Guarded :=
  ⟨s.placed, s.pending.map .token ++ [.sentinel]⟩

/-! ## Both machines agree -/

namespace Rpn.Guarded

open Arrangement

variable {mode : CommaMode}

/-- A loop that leaves the sentinel alone is a release. -/
theorem popWhile_guarded (leaves : Token → Bool) (placed pending : List Token) :
    popWhile (·.isToken leaves) placed (pending.map .token ++ [.sentinel]) =
      ((⟨placed, pending⟩ : Arrangement).release leaves).guarded := by
  induction pending generalizing placed with
  | nil => rfl
  | cons token pending ih =>
    cases hleaves : leaves token with
    | true =>
      have hpop : popWhile (·.isToken leaves) placed
          ((token :: pending).map .token ++ [.sentinel]) =
          popWhile (·.isToken leaves) (token :: placed) (pending.map .token ++ [.sentinel]) :=
        if_pos hleaves
      rw [hpop, ih]
      simp [release, guarded, hleaves]
    | false => simp [popWhile, Waiting.isToken, release, guarded, hleaves]

theorem popGroup_guarded (cause : ParseError) (placed pending : List Token) :
    popGroup cause placed (pending.map .token ++ [.sentinel]) =
      if (⟨placed, pending⟩ : Arrangement).releaseGroup.pending.isEmpty then .error cause
      else .ok (⟨placed, pending⟩ : Arrangement).releaseGroup.guarded := by
  induction pending generalizing placed with
  | nil => rfl
  | cons token pending ih =>
    cases hopening : token.kind.isOpening with
    | true => simp [popGroup, releaseGroup, release, guarded, hopening]
    | false =>
      have hpop : popGroup cause placed ((token :: pending).map .token ++ [.sentinel]) =
          popGroup cause (token :: placed) (pending.map .token ++ [.sentinel]) :=
        if_neg (by simp [hopening])
      rw [hpop, ih]
      simp [releaseGroup, release, guarded, hopening]

/-- Below the open parenthesis is the sentinel or a token that is no function, or the function
of the group. -/
theorem dropOpening_guarded (s : Arrangement) :
    (popGroup .unopened s.placed s.guarded.stack).map dropOpening =
      (close s).map guarded := by
  show (popGroup .unopened s.placed (s.pending.map .token ++ [.sentinel])).map dropOpening = _
  rw [popGroup_guarded]
  rcases pending_releaseGroup_cases s with
    hpending | ⟨opening, rest, hpending, hrest⟩ | ⟨opening, f, rest, hpending, hf⟩
  · rw [close_of_nil hpending, hpending]
    rfl
  · rw [close_of_not_function hpending hrest, hpending]
    cases rest with
    | nil => simp [Except.map, dropOpening, guarded, hpending, Waiting.isToken]
    | cons below rest =>
      have hbelow : below.kind.isFunction = false := hrest below rfl
      simp [Except.map, dropOpening, guarded, hpending, Waiting.isToken, hbelow]
  · rw [close_of_function hpending hf, hpending]
    simp [Except.map, dropOpening, guarded, hpending, Waiting.isToken, hf, pop]

theorem endArgument_guarded (s : Arrangement) :
    popGroup .strayComma s.placed s.guarded.stack = (endArgument s).map guarded := by
  show popGroup .strayComma s.placed (s.pending.map .token ++ [.sentinel]) = _
  rw [popGroup_guarded, endArgument]
  cases s.releaseGroup.pending.isEmpty <;> rfl

/-- The machine with the sentinel follows the conversion step by step. -/
theorem step_guarded (mode : CommaMode) (s : Arrangement) (token : Token) :
    step mode s.guarded token = (Rpn.step mode s token).map guarded := by
  obtain ⟨symbol, kind⟩ := token
  cases kind with
  | operator op =>
    show Except.ok ((popWhile (·.isToken (yields op)) s.placed
      (s.pending.map .token ++ [.sentinel])).defer _) = _
    rw [popWhile_guarded]
    rfl
  | comma =>
    cases mode with
    | delimited => exact endArgument_guarded s
    | positional => rfl
  | closing => exact dropOpening_guarded s
  | _ => rfl

/-- After any tokens the stack is that of the conversion above the sentinel. -/
theorem run_guarded (mode : CommaMode) (tokens : List Token) :
    tokens.foldlM (step mode) start =
      (tokens.foldlM (Rpn.step mode) .empty).map guarded := by
  have hstep (s : Arrangement) (token : Token) :
      (Rpn.step mode s token).map guarded = step mode s.guarded token :=
    (step_guarded mode s token).symm
  exact (map_foldlM hstep tokens .empty).symm

theorem drain_guarded (placed pending : List Token) :
    drain placed (pending.map .token ++ [.sentinel]) = finish ⟨placed, pending⟩ := by
  induction pending generalizing placed with
  | nil => simp [drain, finish]
  | cons token pending ih =>
    cases hopening : token.kind.isOpening with
    | true => simp [drain, finish, hopening]
    | false =>
      have hpop : drain placed ((token :: pending).map .token ++ [.sentinel]) =
          drain (token :: placed) (pending.map .token ++ [.sentinel]) :=
        if_neg (by simp [hopening])
      rw [hpop, ih]
      simp [finish, hopening]

/-- The drain ends at the sentinel. -/
theorem arrange_eq (mode : CommaMode) (tokens : List Token) :
    arrange mode tokens = Rpn.arrange mode tokens := by
  rw [arrange, run_guarded, Rpn.arrange]
  cases tokens.foldlM (Rpn.step mode) .empty with
  | error cause => rfl
  | ok s => exact drain_guarded s.placed s.pending

end Rpn.Guarded

end CurveSketch
