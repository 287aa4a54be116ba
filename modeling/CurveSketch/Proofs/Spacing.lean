import CurveSketch.Journal
import CurveSketch.Proofs.Conservation
import CurveSketch.Proofs.Formula

/-!
# Spacing

`Text.Spacing` is a text as its words and the gaps around them.  There is a gap between two
words at least.  Whatever the gaps are, splitting the text gives back the words
(`Token.split_spacing`), and every text has such a spacing (`Text.exists_spacing`).  So the
words of a text are those that it is spaced with, and no others (`Text.words_eq_iff`).

The plainest spacing has one space between two words.  `Token.split_spaced` reads back what
is written so, if the tokens came of a text.  Reverse Polish order consists of tokens of the
text (`Rpn.isWritten_of_read`), and the journal writes it in this way (`Rpn.mem_ofReading`), so
the journal's line is as good as the tokens themselves: `Token.split_reads_back`.
-/

namespace CurveSketch

namespace Text

/-! ## Words and gaps -/

/-- Not empty, and without blanks. -/
structure IsWord (word : String) : Prop where
  ne_empty : word ≠ ""
  isBlank_eq_false : ∀ c ∈ word.toList, isBlank c = false

/-- Nothing but blanks, if anything. -/
def IsGap (gap : String) : Prop :=
  ∀ c ∈ gap.toList, isBlank c = true

/-- A text as its words, each with the gap behind it, and the gap before them.  Only the last
word may have nothing behind it. -/
structure Spacing where
  before : String
  pieces : List (String × String)
  isGap_before : IsGap before
  isWord : ∀ p ∈ pieces, IsWord p.1
  isGap : ∀ p ∈ pieces, IsGap p.2
  gap_ne_empty : ∀ p ∈ pieces.dropLast, p.2 ≠ ""

/-- The text that is spaced. -/
def Spacing.text (s : Spacing) : String :=
  s.before ++ String.join (s.pieces.map fun p => p.1 ++ p.2)

/-- The words without the gaps. -/
def Spacing.words (s : Spacing) : List String :=
  s.pieces.map Prod.fst

theorem IsWord.toList_ne_nil {word : String} (h : IsWord word) : word.toList ≠ [] := by
  rw [Ne, String.toList_eq_nil_iff]
  exact h.ne_empty

/-- A gap before a text changes nothing. -/
theorem words_append_of_isGap {gap : String} (h : IsGap gap) (text : List Char) :
    words (gap.toList ++ text) = words text := by
  unfold IsGap at h
  generalize gap.toList = blanks at h
  induction blanks with
  | nil => rfl
  | cons c blanks ih =>
    rw [List.forall_mem_cons] at h
    rw [List.cons_append, words_cons_of_isBlank h.1, ih h.2]

/-- A word ends at the gap behind it, or at the end of the text. -/
theorem words_append_of_isWord {word gap : String} (hword : IsWord word) (hgap : IsGap gap)
    {text : List Char} (hborder : gap = "" → text = []) :
    words (word.toList ++ (gap.toList ++ text)) = word.toList :: words text := by
  cases hblanks : gap.toList with
  | nil =>
    obtain rfl : text = [] := hborder (String.toList_eq_nil_iff.mp hblanks)
    rw [List.append_nil, List.append_nil,
      words_eq_singleton hword.toList_ne_nil hword.isBlank_eq_false, words_nil]
  | cons c blanks =>
    unfold IsGap at hgap
    rw [hblanks, List.forall_mem_cons] at hgap
    have hrest : IsGap (String.ofList blanks) := by
      rw [IsGap, String.toList_ofList]
      exact hgap.2
    have hskip := words_append_of_isGap hrest text
    rw [String.toList_ofList] at hskip
    rw [List.cons_append, words_append_cons hword.toList_ne_nil hword.isBlank_eq_false hgap.1,
      hskip]

theorem words_pieces {pieces : List (String × String)} (hword : ∀ p ∈ pieces, IsWord p.1)
    (hgap : ∀ p ∈ pieces, IsGap p.2) (hborder : ∀ p ∈ pieces.dropLast, p.2 ≠ "") :
    words (pieces.flatMap fun p => (p.1 ++ p.2).toList) = pieces.map (·.1.toList) := by
  induction pieces with
  | nil => exact words_nil
  | cons p pieces ih =>
    rw [List.forall_mem_cons] at hword hgap
    have hlast : p.2 = "" → pieces = [] := by
      intro hempty
      by_contra hmore
      rw [List.dropLast_cons_of_ne_nil hmore, List.forall_mem_cons] at hborder
      exact hborder.1 hempty
    have hrest : ∀ q ∈ pieces.dropLast, q.2 ≠ "" := by
      cases pieces with
      | nil => nofun
      | cons q pieces => exact fun r hr => hborder r (List.mem_cons_of_mem _ hr)
    rw [List.flatMap_cons, String.toList_append, List.append_assoc,
      words_append_of_isWord hword.1 hgap.1 fun hempty => by rw [hlast hempty]; rfl,
      ih hword.2 hgap.2 hrest, List.map_cons]

theorem words_text (s : Spacing) : words s.text.toList = s.words.map String.toList := by
  rw [Spacing.text, String.toList_append, words_append_of_isGap s.isGap_before,
    String.toList_join, List.flatMap_map, words_pieces s.isWord s.isGap s.gap_ne_empty,
    Spacing.words, List.map_map]
  rfl

/-! ## Every text is spaced -/

theorem isGap_empty : IsGap "" := nofun

theorem isWord_singleton_append {c : Char} (hc : isBlank c = false) {rest : String}
    (hrest : ∀ d ∈ rest.toList, isBlank d = false) : IsWord (String.singleton c ++ rest) := by
  have hchars : (String.singleton c ++ rest).toList = c :: rest.toList := by
    rw [String.toList_append, String.toList_singleton, List.singleton_append]
  constructor
  · intro hempty
    rw [hempty] at hchars
    cases hchars
  · rw [hchars, List.forall_mem_cons]
    exact ⟨hc, hrest⟩

/-- A blank makes the gap before the words longer. -/
theorem exists_cons_blank {c : Char} (hc : isBlank c = true) (s : Spacing) :
    ∃ t : Spacing, t.text.toList = c :: s.text.toList := by
  have hgap : IsGap (String.singleton c ++ s.before) := by
    rw [IsGap, String.toList_append, String.toList_singleton, List.singleton_append,
      List.forall_mem_cons]
    exact ⟨hc, s.isGap_before⟩
  refine ⟨{ s with before := _, isGap_before := hgap }, ?_⟩
  simp only [Spacing.text, String.toList_append, String.toList_singleton, List.cons_append,
    List.nil_append]

/-- Any other character makes the first word longer, if that stands at the border.  Otherwise
it is a word, and the gap before the words is the one behind it. -/
theorem exists_cons_letter {c : Char} (hc : isBlank c = false) (s : Spacing) :
    ∃ t : Spacing, t.text.toList = c :: s.text.toList := by
  obtain ⟨before, pieces, hbefore, hword, hgap, hborder⟩ := s
  by_cases hstands : before = "" ∧ pieces ≠ []
  · obtain ⟨rfl, hmore⟩ := hstands
    obtain ⟨p, pieces, rfl⟩ := List.exists_cons_of_ne_nil hmore
    rw [List.forall_mem_cons] at hword hgap
    have hlonger : IsWord (String.singleton c ++ p.1) :=
      isWord_singleton_append hc hword.1.isBlank_eq_false
    have hborder' : ∀ q ∈ ((String.singleton c ++ p.1, p.2) :: pieces).dropLast, q.2 ≠ "" := by
      cases pieces with
      | nil => nofun
      | cons q pieces =>
        rw [List.dropLast_cons_cons, List.forall_mem_cons] at hborder ⊢
        exact hborder
    refine ⟨⟨"", (String.singleton c ++ p.1, p.2) :: pieces, isGap_empty,
      List.forall_mem_cons.mpr ⟨hlonger, hword.2⟩, List.forall_mem_cons.mpr hgap, hborder'⟩, ?_⟩
    simp [Spacing.text, String.toList_join]
  · have hnew : IsWord (String.singleton c ++ "") := isWord_singleton_append hc nofun
    have hborder' : ∀ q ∈ ((String.singleton c ++ "", before) :: pieces).dropLast, q.2 ≠ "" := by
      cases pieces with
      | nil => nofun
      | cons q pieces =>
        rw [List.dropLast_cons_cons, List.forall_mem_cons]
        exact ⟨fun hempty => hstands ⟨hempty, List.cons_ne_nil q pieces⟩, hborder⟩
    refine ⟨⟨"", (String.singleton c ++ "", before) :: pieces, isGap_empty,
      List.forall_mem_cons.mpr ⟨hnew, hword⟩, List.forall_mem_cons.mpr ⟨hbefore, hgap⟩,
      hborder'⟩, ?_⟩
    simp [Spacing.text, String.toList_join]

theorem exists_spacing (text : String) : ∃ s : Spacing, s.text = text := by
  obtain ⟨s, hs⟩ : ∃ s : Spacing, s.text.toList = text.toList := by
    generalize text.toList = chars
    induction chars with
    | nil =>
      exact ⟨⟨"", [], isGap_empty, nofun, nofun, nofun⟩, rfl⟩
    | cons c chars ih =>
      obtain ⟨s, rfl⟩ := ih
      cases hc : isBlank c with
      | true => exact exists_cons_blank hc s
      | false => exact exists_cons_letter hc s
  exact ⟨s, String.toList_inj.mp hs⟩

/-- The words of a text are those that it is spaced with. -/
theorem words_eq_iff {text : String} {words : List String} :
    Text.words text.toList = words.map String.toList ↔
      ∃ s : Spacing, s.text = text ∧ s.words = words := by
  constructor
  · intro h
    obtain ⟨s, rfl⟩ := exists_spacing text
    rw [words_text] at h
    exact ⟨s, rfl, List.map_injective_iff.mpr (fun _ _ => String.toList_inj.mp) h⟩
  · rintro ⟨s, rfl, rfl⟩
    exact words_text s

end Text

namespace Token

open Text

variable {text : String} {words : List String} {tokens : List Token}

theorem split_of_words (h : Text.words text.toList = words.map String.toList) :
    split text = words.map classify := by
  rw [split, h, List.map_map]
  refine List.map_congr_left fun word _ => ?_
  rw [Function.comp_apply, String.ofList_toList]

/-- Splitting is independent of the gaps. -/
theorem split_spacing (s : Spacing) : split s.text = s.words.map classify :=
  split_of_words (words_text s)

theorem isWord_of_mem_split {token : Token} (h : token ∈ split text) : IsWord token.symbol := by
  obtain ⟨s, rfl⟩ := exists_spacing text
  rw [split_spacing, Spacing.words, List.map_map] at h
  obtain ⟨p, hp, rfl⟩ := List.mem_map.mp h
  exact s.isWord p hp

/-! ## Single spaces -/

theorem words_intercalate (h : ∀ word ∈ words, IsWord word) :
    Text.words (" ".intercalate words).toList = words.map String.toList := by
  rw [String.toList_intercalate]
  induction words with
  | nil => exact words_nil
  | cons word words ih =>
    rw [List.forall_mem_cons] at h
    have hword : word.toList ≠ [] := h.1.toList_ne_nil
    cases words with
    | nil =>
      rw [List.map_singleton, List.intercalate_singleton]
      exact words_eq_singleton hword h.1.isBlank_eq_false
    | cons next words =>
      have hspace : isBlank ' ' = true := rfl
      rw [List.map_cons, List.map_cons, List.intercalate_cons_cons, List.append_assoc]
      exact (words_append_cons hword h.1.isBlank_eq_false hspace _).trans
        (congrArg (List.cons _) (ih h.2))

/-- The symbols of the tokens with a space between them. -/
def spaced (tokens : List Token) : String :=
  " ".intercalate (tokens.map Token.symbol)

/-- A token as it comes of a text. -/
def IsWritten (token : Token) : Prop :=
  token = classify token.symbol ∧ IsWord token.symbol

theorem isWritten_of_mem_split {token : Token} (h : token ∈ split text) : token.IsWritten :=
  ⟨eq_classify_of_mem_split h, isWord_of_mem_split h⟩

/-- Tokens that come of a text are read back. -/
theorem split_spaced (h : ∀ token ∈ tokens, token.IsWritten) : split (spaced tokens) = tokens := by
  have hwords : ∀ word ∈ tokens.map Token.symbol, IsWord word := by
    rw [List.forall_mem_map]
    exact fun token htoken => (h token htoken).2
  have hid : ∀ token ∈ tokens, (classify ∘ Token.symbol) token = id token :=
    fun token htoken => (h token htoken).1.symm
  calc split (spaced tokens)
      = (tokens.map Token.symbol).map classify := split_of_words (words_intercalate hwords)
    _ = tokens := by rw [List.map_map, List.map_congr_left hid, List.map_id]

end Token

namespace Rpn

open Token

variable {mode : CommaMode} {text : String} {ordered : List Token}

theorem read_eq_ok_iff :
    read mode text = .ok ordered ↔
      ∃ tokens, Token.read text = .ok tokens ∧ arrange mode tokens = .ok ordered :=
  bind_eq_ok_iff

/-- Reverse Polish order consists of tokens of the text. -/
theorem isWritten_of_read (h : read mode text = .ok ordered) :
    ∀ token ∈ ordered, token.IsWritten := by
  obtain ⟨tokens, htokens, harrange⟩ := read_eq_ok_iff.mp h
  obtain rfl := eq_split_of_read htokens
  intro token htoken
  have hmem := (collected_of_arrange harrange).perm.mem_iff.mp htoken
  exact isWritten_of_mem_split (List.mem_of_mem_filter hmem)

/-- The journal has the line that the order is read back from. -/
theorem mem_ofReading (h : read mode text = .ok ordered) :
    ⟨.trace, "Postfix: " ++ spaced ordered⟩ ∈ Journal.ofReading mode text := by
  obtain ⟨tokens, htokens, harrange⟩ := read_eq_ok_iff.mp h
  simp only [Journal.ofReading, Journal.ofArrangement, htokens, harrange, spaced]
  simp

end Rpn

namespace Token

open Text

/-- The gaps do not matter for splitting, a text's symbols are read back from a text that has
one space between them, and so is the reverse Polish order of its tokens, as it stands in the
journal. -/
theorem split_reads_back :
    (∀ s : Spacing, split s.text = s.words.map classify) ∧
      ∀ text : String,
        (∀ token ∈ split text, IsWord token.symbol) ∧
          split (spaced (split text)) = split text ∧
          ∀ mode ordered, Rpn.read mode text = .ok ordered →
            ⟨.trace, "Postfix: " ++ spaced ordered⟩ ∈ Journal.ofReading mode text ∧
              split (spaced ordered) = ordered ∧
              Reduction.reduce (split (spaced ordered)) = Curve.read mode text := by
  refine ⟨split_spacing, fun text => ⟨fun _ => isWord_of_mem_split,
    split_spaced fun _ => isWritten_of_mem_split, fun mode ordered h => ?_⟩⟩
  have hback : split (spaced ordered) = ordered := split_spaced (Rpn.isWritten_of_read h)
  refine ⟨Rpn.mem_ofReading h, hback, ?_⟩
  rw [hback, Curve.read, h]
  rfl

/-- A product of a group, with a tab and two spaces in it. -/
theorem split_reads_back_product :
    Rpn.read .delimited "( x +\t1 )  * x" =
        .ok (["x", "1", "+", "x", "*"].map classify) ∧
      split "x 1 + x *" = ["x", "1", "+", "x", "*"].map classify := by
  have hread : Rpn.read .delimited "( x +\t1 )  * x" =
      .ok (["x", "1", "+", "x", "*"].map classify) := rfl
  exact ⟨hread, (split_reads_back.2 "( x +\t1 )  * x").2.2 .delimited _ hread |>.2.1⟩

end Token

end CurveSketch
