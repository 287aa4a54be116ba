import CurveSketch.Rpn
import CurveSketch.Trail

/-!
# Runs of the conversion

`Rpn.Arranges` says where the conversion to reverse Polish order gets from the middle of
a run.  The other lemmas are about what tokens leave there.

* Tokens that have their places stand before all that waits (`placeAll`).
* A release goes exactly as far as the pending tokens leave (`release_append`).
* A closing parenthesis that finds a group above it drops the open one, and places the
  function below it if there is one (`close_of_releaseGroup`,
  `close_of_releaseGroup_function`).
-/

namespace CurveSketch

/-! ## Runs of the conversion -/

namespace Rpn

/-- Arranging `tokens` leads from `s` to `t`. -/
def Arranges (mode : CommaMode) (s : Arrangement) (tokens : List Token) (t : Arrangement) :
    Prop :=
  tokens.foldlM (step mode) s = .ok t

variable {mode : CommaMode} {s t u : Arrangement} {tokens more : List Token} {token : Token}

theorem Arranges.nil : Arranges mode s [] s := rfl

theorem Arranges.cons (hstep : step mode s token = .ok t) (h : Arranges mode t tokens u) :
    Arranges mode s (token :: tokens) u :=
  foldlM_cons_eq_ok_iff.mpr ⟨t, hstep, h⟩

theorem arranges_cons_iff :
    Arranges mode s (token :: tokens) u ↔
      ∃ t, step mode s token = .ok t ∧ Arranges mode t tokens u :=
  foldlM_cons_eq_ok_iff

theorem arranges_append_iff :
    Arranges mode s (tokens ++ more) u ↔ ∃ t, Arranges mode s tokens t ∧ Arranges mode t more u :=
  foldlM_append_eq_ok_iff

theorem Arranges.append (hs : Arranges mode s tokens t) (ht : Arranges mode t more u) :
    Arranges mode s (tokens ++ more) u :=
  arranges_append_iff.mpr ⟨t, hs, ht⟩

end Rpn

/-! ## Placing and releasing -/

namespace Arrangement

/-- Gives tokens their places, one after the other. -/
def placeAll (s : Arrangement) (ordered : List Token) : Arrangement :=
  { s with placed := ordered.reverse ++ s.placed }

theorem placeAll_placeAll (s : Arrangement) (left right : List Token) :
    (s.placeAll left).placeAll right = s.placeAll (left ++ right) := by
  simp [placeAll]

variable {s : Arrangement}

/-- A release goes as far as the tokens leave. -/
theorem release_append {leaves : Token → Bool} {placed waiting pending : List Token}
    (hall : ∀ token ∈ waiting, leaves token = true)
    (hstop : ∀ token ∈ pending.head?, leaves token = false) :
    (⟨placed, waiting ++ pending⟩ : Arrangement).release leaves =
      ⟨waiting.reverse ++ placed, pending⟩ := by
  have hstay : pending.takeWhile leaves = [] ∧ pending.dropWhile leaves = pending := by
    cases pending with
    | nil => exact ⟨rfl, rfl⟩
    | cons token rest =>
      have hfalse : leaves token = false := hstop token rfl
      simp [hfalse]
  simp only [Arrangement.release, List.takeWhile_append_of_pos hall,
    List.dropWhile_append_of_pos hall, hstay.1, hstay.2, List.append_nil]

theorem release_eq_self {leaves : Token → Bool}
    (h : ∀ token ∈ s.pending.head?, leaves token = false) : s.release leaves = s := by
  have hall : ∀ token ∈ ([] : List Token), leaves token = true := by
    intro token htoken
    cases htoken
  exact release_append hall h

end Arrangement

/-! ## Parentheses -/

namespace Rpn

variable {s t : Arrangement} {opening f : Token} {ordered : List Token}

/-- A parenthesis without a function is dropped. -/
theorem close_of_releaseGroup (h : t.releaseGroup = (s.defer opening).placeAll ordered)
    (hs : ∀ token ∈ s.pending.head?, token.kind.isFunction = false) :
    close t = .ok (s.placeAll ordered) := by
  have hpending : t.releaseGroup.pending = opening :: s.pending := by rw [h]; rfl
  rw [close_of_not_function hpending hs, h]
  rfl

/-- The function of a parenthesis is placed after its arguments. -/
theorem close_of_releaseGroup_function
    (h : t.releaseGroup = ((s.defer f).defer opening).placeAll ordered)
    (hf : f.kind.isFunction = true) : close t = .ok (s.placeAll (ordered ++ [f])) := by
  have hpending : t.releaseGroup.pending = opening :: f :: s.pending := by rw [h]; rfl
  rw [close_of_function hpending hf, h]
  simp [Arrangement.placeAll, Arrangement.defer]

end Rpn

end CurveSketch
