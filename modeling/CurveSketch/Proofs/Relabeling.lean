import CurveSketch.Rpn
import CurveSketch.Trail

/-!
# What the conversion does not look at

No step of the conversion to reverse Polish order looks at the tokens that have their
place, and of the tokens that wait it sees the kinds only.  The symbol of a token matters
in one case, where the token is rejected because its kind is invalid.

So if other tokens of the same kinds stand for those of an arrangement, and more tokens
have been placed before them, every step does what it did (`Rpn.step_relabel`), and other
symbols come out in the same order (`Rpn.arrange_map`).
-/

namespace CurveSketch

namespace Token

/-- The function changes symbols only, and none that a rejection would report. -/
structure KeepsKinds (g : Token → Token) : Prop where
  kind : ∀ token, (g token).kind = token.kind
  symbol : ∀ token, token.kind.isInvalid = true → (g token).symbol = token.symbol

theorem keepsKinds_id : KeepsKinds id := ⟨fun _ => rfl, fun _ _ => rfl⟩

end Token

open Rpn Token

namespace Arrangement

/-- Other tokens stand for those of the arrangement, behind tokens that have been placed
before, the last one first. -/
def relabel (g : Token → Token) (placed : List Token) (s : Arrangement) : Arrangement :=
  ⟨s.placed.map g ++ placed, s.pending.map g⟩

variable {g : Token → Token}

theorem release_relabel {leaves : Token → Bool} (h : ∀ token, leaves (g token) = leaves token)
    (placed : List Token) (s : Arrangement) :
    (s.relabel g placed).release leaves = (s.release leaves).relabel g placed := by
  have hleaves : leaves ∘ g = leaves := funext h
  simp [release, relabel, List.takeWhile_map, List.dropWhile_map, hleaves]

theorem releaseGroup_relabel (hg : KeepsKinds g) (placed : List Token) (s : Arrangement) :
    (s.relabel g placed).releaseGroup = s.releaseGroup.relabel g placed := by
  refine release_relabel ?_ placed s
  intro token
  rw [hg.kind]

theorem pending_releaseGroup_relabel (hg : KeepsKinds g) (placed : List Token)
    (s : Arrangement) :
    (s.relabel g placed).releaseGroup.pending = s.releaseGroup.pending.map g := by
  rw [releaseGroup_relabel hg]
  rfl

end Arrangement

namespace Rpn

open Arrangement

variable {g : Token → Token}

theorem yields_relabel (hg : KeepsKinds g) (op : Operator) (token : Token) :
    yields op (g token) = yields op token := by
  rw [yields, yields, hg.kind]

theorem close_relabel (hg : KeepsKinds g) (placed : List Token) (s : Arrangement) :
    (close s).map (relabel g placed) = close (s.relabel g placed) := by
  have hgroup := pending_releaseGroup_relabel hg placed s
  rcases pending_releaseGroup_cases s with
    hpending | ⟨opening, rest, hpending, hrest⟩ | ⟨opening, f, rest, hpending, hf⟩
  · rw [hpending] at hgroup
    rw [close_of_nil hpending, close_of_nil hgroup]
    rfl
  · rw [hpending] at hgroup
    have hbelow : ∀ below ∈ (rest.map g).head?, below.kind.isFunction = false := by
      cases rest with
      | nil => simp
      | cons below rest =>
        rintro _ ⟨⟩
        rw [hg.kind]
        exact hrest below rfl
    rw [close_of_not_function hpending hrest, close_of_not_function hgroup hbelow,
      releaseGroup_relabel hg]
    rfl
  · rw [hpending] at hgroup
    have hbelow : (g f).kind.isFunction = true := by rw [hg.kind, hf]
    rw [close_of_function hpending hf, close_of_function hgroup hbelow, releaseGroup_relabel hg]
    rfl

theorem endArgument_relabel (hg : KeepsKinds g) (placed : List Token) (s : Arrangement) :
    (endArgument s).map (relabel g placed) = endArgument (s.relabel g placed) := by
  have hgroup := pending_releaseGroup_relabel hg placed s
  rcases hpending : s.releaseGroup.pending with _ | ⟨opening, rest⟩
  · rw [hpending] at hgroup
    rw [endArgument_of_nil hpending, endArgument_of_nil hgroup]
    rfl
  · rw [hpending] at hgroup
    rw [endArgument_of_cons hpending, endArgument_of_cons hgroup, releaseGroup_relabel hg]
    rfl

/-- A step does the same with other tokens of the same kinds, and behind others. -/
theorem step_relabel (hg : KeepsKinds g) (placed : List Token) (mode : CommaMode)
    (s : Arrangement) (token : Token) :
    (step mode s token).map (relabel g placed) =
      step mode (s.relabel g placed) (g token) := by
  have hsame := hg.kind token
  cases hkind : token.kind with
  | constant value | «variable» => simp only [step, hsame, hkind]; rfl
  | operator op =>
    simp only [step, hsame, hkind]
    rw [release_relabel (yields_relabel hg op)]
    rfl
  | function f | opening => simp only [step, hsame, hkind]; rfl
  | closing =>
    simp only [step, hsame, hkind]
    exact close_relabel hg placed s
  | comma =>
    cases mode with
    | delimited =>
      simp only [step, hsame, hkind]
      exact endArgument_relabel hg placed s
    | positional => simp only [step, hsame, hkind]; rfl
  | invalid =>
    simp only [step, hsame, hkind]
    rw [hg.symbol token (by rw [hkind]; rfl)]
    rfl

theorem finish_relabel (hg : KeepsKinds g) (placed : List Token) (s : Arrangement) :
    (finish s).map (fun ordered => placed.reverse ++ ordered.map g) =
      finish (s.relabel g placed) := by
  have hopen : (s.relabel g placed).pending.any (·.kind.isOpening) =
      s.pending.any (·.kind.isOpening) := by
    rw [relabel, List.any_map]
    congr 1
    funext token
    exact congrArg Kind.isOpening (hg.kind token)
  rw [finish, finish, hopen]
  split
  · rfl
  · simp [relabel, Except.map]

/-- Other tokens of the same kinds come out in the same order. -/
theorem arrange_map (hg : KeepsKinds g) (mode : CommaMode) (tokens : List Token) :
    arrange mode (tokens.map g) = (arrange mode tokens).map (List.map g) := by
  have hrun : (tokens.foldlM (step mode) .empty).map (relabel g []) =
      tokens.foldlM (fun s token => step mode s (g token)) .empty :=
    @map_foldlM _ _ _ _ _ (fun s token => step mode s (g token)) _ (step_relabel hg [] mode) tokens
      .empty
  rw [arrange, arrange, List.foldlM_map, ← hrun]
  cases tokens.foldlM (step mode) .empty with
  | error cause => rfl
  | ok s => exact (finish_relabel hg [] s).symm

end Rpn

end CurveSketch
