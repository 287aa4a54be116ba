import CurveSketch.Proofs.Conservation
import Mathlib.Data.List.FinRange
import Mathlib.Data.List.Perm.Basic
import Mathlib.Data.Set.List
import Mathlib.Logic.Function.Basic

/-!
# The places of the tokens

Two tokens of a row may be equal, and then what comes out of the conversion does not show
which of them is which.  `Rpn.IsRearrangement` says of positions what the conversion does
to the tokens at these positions, and `Rpn.arrange_rearranges` that it does so with all
tokens that are accepted.

The symbols of the tokens play no part in this (`Rpn.arrange_map`).  So the tokens are given
names that are all different, and then the order of the tokens is an order of their
positions (`Rpn.isRearrangement_of_renamed`).
-/

namespace CurveSketch

open Rpn Token

/-- Whether the kind is a comma or a parenthesis. -/
def Kind.isPunctuation : Kind → Bool
  | .comma | .opening | .closing => true
  | _ => false

theorem Kind.isTerm_eq_not_isPunctuation {kind : Kind} (h : kind.isInvalid = false) :
    kind.isTerm = !kind.isPunctuation := by
  cases kind <;> first | rfl | cases h

/-! ## Positions in a row of tokens -/

namespace Rpn

/-- The kind of the token at a position. -/
def kindAt (tokens : List Token) (i : Fin tokens.length) : Kind :=
  (tokens.get i).kind

/-- The token at a position, under another name. -/
def renamed (tokens : List Token) (names : Fin tokens.length → String)
    (i : Fin tokens.length) : Token :=
  ⟨names i, kindAt tokens i⟩

/-- The positions are those of the tokens that come out, in the order in which they come
out. -/
structure IsRearrangement (tokens : List Token) (places : List (Fin tokens.length)) : Prop where
  /-- No token is lost but commas and parentheses, and none comes out twice. -/
  perm : places.Perm
    ((List.finRange tokens.length).filter fun i => !(kindAt tokens i).isPunctuation)
  operands_eq : (places.filter fun i => (kindAt tokens i).isOperand) =
    (List.finRange tokens.length).filter fun i => (kindAt tokens i).isOperand
  /-- Operators and functions come out behind the operands before them. -/
  behind : ∀ i j : Fin tokens.length, i < j → (kindAt tokens i).isOperand = true →
    (kindAt tokens j).isOperator = true ∨ (kindAt tokens j).isFunction = true →
      [i, j].Sublist places
  /-- What stands in a pair of parentheses comes out side by side, and right behind it the
  function before the parentheses. -/
  block : ∀ (before : List (Fin tokens.length)) (opening : Fin tokens.length)
    (inside : List (Fin tokens.length)) (closing : Fin tokens.length)
    (after : List (Fin tokens.length)),
    List.finRange tokens.length = before ++ opening :: (inside ++ closing :: after) →
    kindAt tokens opening = .opening → kindAt tokens closing = .closing →
    Nesting.Balanced (inside.map tokens.get) →
    ∃ left block right, places = left ++ (block ++ right) ∧
      block.Perm (inside.filter fun i => !(kindAt tokens i).isPunctuation) ∧
      ∀ f ∈ before.getLast?, (kindAt tokens f).isFunction = true → right.head? = some f

/-! ## Names that tell the tokens apart -/

section Names

variable {ι : Type} {named label : ι → Token}

/-- Tokens that are told apart can be renamed. -/
theorem keepsKinds_extend (hnamed : Function.Injective named)
    (hkind : ∀ i, (label i).kind = (named i).kind)
    (hvalid : ∀ i, (named i).kind.isInvalid = false) :
    KeepsKinds (Function.extend named label id) where
  kind token := by
    by_cases h : ∃ i, named i = token
    · obtain ⟨i, rfl⟩ := h
      rw [hnamed.extend_apply, hkind]
    · rw [Function.extend_apply' _ _ _ h]
      rfl
  symbol token hinvalid := by
    have h : ¬∃ i, named i = token := by
      rintro ⟨i, rfl⟩
      rw [hvalid] at hinvalid
      cases hinvalid
    rw [Function.extend_apply' _ _ _ h]
    rfl

theorem map_extend (hnamed : Function.Injective named) (label : ι → Token) (items : List ι) :
    (items.map named).map (Function.extend named label id) = items.map label := by
  rw [List.map_map]
  exact List.map_congr_left fun i _ => hnamed.extend_apply label id i

theorem scan_map {g : Token → Token} (hg : KeepsKinds g) (mode : CommaMode)
    (tokens : List Token) : Nesting.scan mode (tokens.map g) = Nesting.scan mode tokens := by
  rw [← arrange_outcome, ← arrange_outcome, arrange_map hg]
  cases arrange mode tokens <;> rfl

end Names

/-- There are names enough. -/
theorem exists_names (n : Nat) : ∃ names : Fin n → String, Function.Injective names := by
  refine ⟨fun i => String.ofList (List.replicate i.val 'x'), fun i j h => ?_⟩
  have hlength := congrArg List.length (String.ofList_injective h)
  exact Fin.ext (by simpa using hlength)

theorem renamed_injective {tokens : List Token} {names : Fin tokens.length → String}
    (h : Function.Injective names) : Function.Injective (renamed tokens names) :=
  fun _ _ hij => h (congrArg Token.symbol hij)

/-! ## The places -/

theorem pair_sublist_finRange {n : Nat} {i j : Fin n} (h : i < j) :
    [i, j].Sublist (List.finRange n) := by
  obtain ⟨front, back, hsplit⟩ := List.append_of_mem (List.mem_finRange j)
  have hsorted := List.pairwise_lt_finRange n
  have hi : i ∈ List.finRange n := List.mem_finRange i
  rw [hsplit] at hsorted hi ⊢
  have hfront : i ∈ front := by
    rcases List.mem_append.mp hi with hfront | hback
    · exact hfront
    · rcases List.mem_cons.mp hback with rfl | hback
      · exact absurd h (lt_irrefl i)
      · have hji : j < i := (List.pairwise_cons.mp (List.pairwise_append.mp hsorted).2.1).1 i hback
        exact absurd h (lt_asymm hji)
  have hj : [j].Sublist (j :: back) := List.singleton_sublist.mpr List.mem_cons_self
  exact (List.singleton_sublist.mpr hfront).append hj

variable {mode : CommaMode} {tokens ordered : List Token}

/-- Where all names are different, the order of the tokens is the order of their
places. -/
theorem isRearrangement_of_renamed {names : Fin tokens.length → String}
    {places : List (Fin tokens.length)} (hnames : Function.Injective names)
    (hvalid : ∀ i, (kindAt tokens i).isInvalid = false)
    (h : arrange mode ((List.finRange tokens.length).map (renamed tokens names)) =
      .ok (places.map (renamed tokens names))) : IsRearrangement tokens places := by
  have hinjective := renamed_injective hnames
  have hcollected := collected_of_arrange h
  have hterm : (fun token : Token => token.kind.isTerm) ∘ renamed tokens names =
      fun i => !(kindAt tokens i).isPunctuation :=
    funext fun i => Kind.isTerm_eq_not_isPunctuation (hvalid i)
  refine ⟨?_, ?_, ?_, ?_⟩
  · have hperm := hcollected.perm
    rw [List.filter_map, hterm] at hperm
    exact (List.map_perm_map_iff hinjective).mp hperm
  · have hoperands := hcollected.operands
    rw [List.filter_map, List.filter_map] at hoperands
    exact hinjective.list_map hoperands
  · intro i j hij hi hj
    have hpair : [renamed tokens names i, renamed tokens names j].Sublist
        ((List.finRange tokens.length).map (renamed tokens names)) :=
      (pair_sublist_finRange hij).map (renamed tokens names)
    have hjterm : (kindAt tokens j).isTerm = true :=
      hj.elim Kind.isTerm_of_isOperator Kind.isTerm_of_isFunction
    obtain ⟨pair, hsublist, heq⟩ := List.sublist_map_iff.mp (hcollected.behind hpair hi hjterm)
    have hsame : [i, j] = pair := hinjective.list_map heq
    rwa [hsame]
  · intro before opening inside closing after hsplit hopening hclosing hinside
    rw [hsplit, List.map_append, List.map_cons, List.map_append, List.map_cons] at h
    have hkeeps : KeepsKinds (Function.extend (renamed tokens names) tokens.get id) :=
      keepsKinds_extend hinjective (fun _ => rfl) hvalid
    have hbalanced : Nesting.Balanced (inside.map (renamed tokens names)) := by
      rw [Nesting.Balanced, ← scan_map hkeeps, map_extend hinjective]
      exact hinside
    obtain ⟨left, block, right, hplaces, hperm, howner⟩ :=
      block_of_arrange h hopening hclosing hbalanced
    obtain ⟨leftPlaces, rest, rfl, rfl, hrest⟩ := List.map_eq_append_iff.mp hplaces
    obtain ⟨blockPlaces, rightPlaces, rfl, rfl, rfl⟩ := List.map_eq_append_iff.mp hrest
    refine ⟨leftPlaces, blockPlaces, rightPlaces, rfl, ?_, ?_⟩
    · rw [List.filter_map, hterm] at hperm
      exact (List.map_perm_map_iff hinjective).mp hperm
    · intro f hf hfunction
      have hlast : renamed tokens names f ∈ (before.map (renamed tokens names)).getLast? := by
        rw [List.getLast?_map, hf]
        rfl
      have hhead := howner _ hlast hfunction
      rw [List.head?_map] at hhead
      obtain ⟨g, hg, hgf⟩ := Option.map_eq_some_iff.mp hhead
      rw [hg, hinjective hgf]

/-- The tokens that are arranged come out at places that depend on their kinds only. -/
theorem arrange_rearranges (h : arrange mode tokens = .ok ordered) :
    ∃ places : List (Fin tokens.length), ordered = places.map tokens.get ∧
      (∀ names : Fin tokens.length → String,
        arrange mode ((List.finRange tokens.length).map (renamed tokens names)) =
          .ok (places.map (renamed tokens names))) ∧
      IsRearrangement tokens places := by
  have hvalid : ∀ i, (kindAt tokens i).isInvalid = false := fun i =>
    isInvalid_of_mem_arrange h (tokens.get i) (List.get_mem tokens i)
  obtain ⟨names, hnames⟩ := exists_names tokens.length
  have hinjective := renamed_injective hnames
  have hother (label : Fin tokens.length → Token)
      (hkind : ∀ i, (label i).kind = kindAt tokens i) :
      arrange mode ((List.finRange tokens.length).map label) =
        (arrange mode ((List.finRange tokens.length).map (renamed tokens names))).map
          (List.map (Function.extend (renamed tokens names) label id)) := by
    rw [← arrange_map (keepsKinds_extend hinjective hkind hvalid), map_extend hinjective]
  have htokens := hother tokens.get fun _ => rfl
  rw [List.map_get_finRange, h] at htokens
  obtain ⟨order, hrun, horder⟩ := map_eq_ok_iff.mp htokens.symm
  have hmem : ∀ token ∈ order, token ∈ Set.range (renamed tokens names) := by
    intro token htoken
    have hread := (collected_of_arrange hrun).perm.mem_iff.mp htoken
    obtain ⟨i, -, hi⟩ := List.mem_map.mp (List.mem_filter.mp hread).1
    exact ⟨i, hi⟩
  obtain ⟨places, rfl⟩ : order ∈ Set.range (List.map (renamed tokens names)) := by
    rw [Set.range_list_map]
    exact hmem
  refine ⟨places, ?_, ?_, isRearrangement_of_renamed hnames hvalid hrun⟩
  · rw [← horder, map_extend hinjective]
  · intro others
    rw [hother (renamed tokens others) fun _ => rfl, hrun]
    exact congrArg Except.ok (map_extend hinjective _ places)

/-- `2 ^ max ( x + , ( 1 ) 2 ) x`, which is no expression. -/
def strayOperands : List Token :=
  ["2", "^", "max", "(", "x", "+", ",", "(", "1", ")", "2", ")", "x"].map Token.classify

theorem arrange_rearranges_strayOperands :
    arrange .delimited strayOperands =
        .ok (["2", "x", "+", "1", "2", "max", "x", "^"].map Token.classify) ∧
      ∃ places : List (Fin strayOperands.length),
        ["2", "x", "+", "1", "2", "max", "x", "^"].map Token.classify =
            places.map strayOperands.get ∧
          IsRearrangement strayOperands places := by
  have harrange : arrange .delimited strayOperands =
      .ok (["2", "x", "+", "1", "2", "max", "x", "^"].map Token.classify) := rfl
  obtain ⟨places, hordered, -, hplaces⟩ := arrange_rearranges harrange
  exact ⟨harrange, places, hordered, hplaces⟩

end Rpn

end CurveSketch
