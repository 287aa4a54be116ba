import CurveSketch.Proofs.Numerals
import CurveSketch.Token
import Mathlib

/-!
# The lexicon

`Lexeme.IsSpelled` says which texts each class of symbols has: the constants have a
grammar of their own (`Constant.IsConstant`), and every other class is a single text.
`Token.classify_lexicon` says that a symbol is classified by this lexicon and that no text
is in two classes.  So the order in which the classes are tried does not matter.

A constant may also be found in another way, with the help of a reader of numbers that
takes the names of infinity and of what is not a number in any case and in a short form.
Then a filter has to keep out the names that are no constants, and no more than these:
`Constant.filtered?_eq_read?`.
-/

namespace CurveSketch

open Numeral (IsSign IsNumeral)

/-! ## Constants -/

namespace Constant

/-- The two names, `Infinity` and `NaN` with an optional sign, and the numerals. -/
inductive IsConstant : List Char → Prop where
  | e : IsConstant ['e']
  | pi : IsConstant ['p', 'i']
  | infinity {sign : List Char} (hsign : IsSign sign) :
      IsConstant (sign ++ "Infinity".toList)
  | notANumber {sign : List Char} (hsign : IsSign sign) : IsConstant (sign ++ "NaN".toList)
  | numeral {text : List Char} (htext : IsNumeral text) : IsConstant text

/-- Exactly the constants are read. -/
theorem isSome_read?_iff {text : List Char} : (read? text).isSome = true ↔ IsConstant text := by
  constructor
  · intro h
    obtain ⟨sign, hsign, heq⟩ := Numeral.exists_sign text
    simp only [read?] at h
    split at h
    · rename_i hname
      rw [hname]
      exact .e
    · split at h
      · rename_i hname
        rw [hname]
        exact .pi
      · split at h
        · rename_i hname
          rw [heq, hname]
          exact .infinity hsign
        · split at h
          · rename_i hname
            rw [heq, hname]
            exact .notANumber hsign
          · rw [Option.isSome_map, Numeral.isSome_read?_iff] at h
            exact .numeral h
  · intro h
    cases h with
    | e => rfl
    | pi => rfl
    | infinity hsign => cases hsign <;> rfl
    | notANumber hsign => cases hsign <;> rfl
    | numeral htext =>
      have hread : (Numeral.read? text).isSome = true := Numeral.isSome_read?_iff.mpr htext
      simp only [read?]
      repeat' split
      all_goals first | rfl | rw [Option.isSome_map, hread]

/-! ## The filter -/

/-- Reads a number in the permissive way, where the names of infinity and of what is not
a number may be in any case, and infinity in a short form. -/
def permissive? (text : List Char) : Option Float :=
  let (negative, unsigned) := Numeral.splitSign text
  let name := unsigned.map Char.toLower
  if name = "inf".toList ∨ name = "infinity".toList then
    some (Numeral.signed negative (1 / 0))
  else if name = "nan".toList then some (Numeral.signed negative (0 / 0))
  else (Numeral.read? text).map Numeral.value

/-- Whether a text starts with a letter. -/
def isNamed : List Char → Bool
  | [] => false
  | c :: _ => c.isAlpha

/-- Reads a constant in the permissive way, once the names are kept out that are none.
All signs are skipped before the name is looked at. -/
def filtered? (text : List Char) : Option Float :=
  if text = ['e'] then some e
  else if text = ['p', 'i'] then some pi
  else
    let unsigned := text.dropWhile fun c => c = '+' ∨ c = '-'
    if isNamed unsigned ∧ unsigned ≠ "Infinity".toList ∧ unsigned ≠ "NaN".toList then none
    else permissive? text

theorem isDigit_of_isAlpha {c : Char} (h : c.isAlpha = true) : c.isDigit = false := by
  grind [Char.isAlpha, Char.isUpper, Char.isLower, Char.isDigit]

theorem exists_cons_of_isNamed {text : List Char} (h : isNamed text = true) :
    ∃ c rest, text = c :: rest ∧ c.isAlpha = true := by
  cases text with
  | nil => cases h
  | cons c rest => exact ⟨c, rest, rfl, h⟩

/-- A text is named if it is a name in another case. -/
theorem isNamed_of_map_toLower {text name : List Char} (h : text.map Char.toLower = name)
    (hname : isNamed name = true) : isNamed text = true := by
  subst h
  cases text with
  | nil => cases hname
  | cons c rest => exact c.isAlpha_toLower_eq_isAlpha.symm.trans hname

/-- A text that has no name after its sign is read as a numeral, also permissively. -/
theorem permissive?_of_not_isNamed {text : List Char}
    (h : isNamed (Numeral.splitSign text).2 = false) :
    permissive? text = (Numeral.read? text).map Numeral.value := by
  have hne (name : List Char) (hname : isNamed name = true) :
      (Numeral.splitSign text).2.map Char.toLower ≠ name := by
    intro heq
    rw [isNamed_of_map_toLower heq hname] at h
    cases h
  simp only [permissive?]
  rw [if_neg (not_or.mpr ⟨hne _ rfl, hne _ rfl⟩), if_neg (hne _ rfl)]

theorem read?_of_ne {text : List Char} (he : text ≠ ['e']) (hpi : text ≠ ['p', 'i'])
    (hinfinity : (Numeral.splitSign text).2 ≠ "Infinity".toList)
    (hnan : (Numeral.splitSign text).2 ≠ "NaN".toList) :
    read? text = (Numeral.read? text).map Numeral.value := by
  simp only [read?]
  rw [if_neg he, if_neg hpi, if_neg hinfinity, if_neg hnan]

/-- Skipping all signs skips the first one. -/
theorem dropWhile_splitSign (text : List Char) :
    (text.dropWhile fun c => c = '+' ∨ c = '-') =
      (Numeral.splitSign text).2.dropWhile fun c => c = '+' ∨ c = '-' := by
  unfold Numeral.splitSign
  split <;> rfl

theorem filtered?_of_isNamed {text : List Char} (he : text ≠ ['e']) (hpi : text ≠ ['p', 'i'])
    (hnamed : isNamed (Numeral.splitSign text).2 = true) : filtered? text = read? text := by
  obtain ⟨c, rest, hunsigned, halpha⟩ := exists_cons_of_isNamed hnamed
  have hstop : ((Numeral.splitSign text).2.dropWhile fun c => c = '+' ∨ c = '-') =
      (Numeral.splitSign text).2 := by
    have hsign : ¬(c = '+' ∨ c = '-') := by
      rintro (rfl | rfl) <;> revert halpha <;> decide
    rw [hunsigned, List.dropWhile_cons_of_neg (by simpa using hsign)]
  simp only [filtered?]
  rw [if_neg he, if_neg hpi, dropWhile_splitSign, hstop]
  by_cases hinfinity : (Numeral.splitSign text).2 = "Infinity".toList
  · rw [if_neg fun h => h.2.1 hinfinity]
    simp only [permissive?, read?]
    rw [if_neg he, if_neg hpi, hinfinity]
    rfl
  by_cases hnan : (Numeral.splitSign text).2 = "NaN".toList
  · rw [if_neg fun h => h.2.2 hnan]
    simp only [permissive?, read?]
    rw [if_neg he, if_neg hpi, hnan]
    rfl
  · have hpoint : c ≠ '.' := by
      rintro rfl
      revert halpha
      decide
    rw [if_pos ⟨hnamed, hinfinity, hnan⟩, read?_of_ne he hpi hinfinity hnan,
      Numeral.read?_eq_none hunsigned (isDigit_of_isAlpha halpha) hpoint, Option.map_none]

theorem filtered?_of_not_isNamed {text : List Char} (he : text ≠ ['e'])
    (hpi : text ≠ ['p', 'i']) (hnamed : isNamed (Numeral.splitSign text).2 = false) :
    filtered? text = read? text := by
  have hne (name : List Char) (hname : isNamed name = true) :
      (Numeral.splitSign text).2 ≠ name := by
    intro heq
    rw [heq, hname] at hnamed
    cases hnamed
  simp only [filtered?]
  rw [if_neg he, if_neg hpi, dropWhile_splitSign, permissive?_of_not_isNamed hnamed,
    read?_of_ne he hpi (hne _ rfl) (hne _ rfl)]
  rcases hunsigned : (Numeral.splitSign text).2 with _ | ⟨c, rest⟩
  · rfl
  by_cases hsign : c = '+' ∨ c = '-'
  · have hnone : Numeral.read? text = none := by
      refine Numeral.read?_eq_none hunsigned ?_ ?_ <;> rcases hsign with rfl | rfl <;> decide
    rw [hnone, Option.map_none, ite_self]
  · rw [List.dropWhile_cons_of_neg (by simpa using hsign), ← hunsigned, if_neg]
    rintro ⟨htrue, -⟩
    rw [hnamed] at htrue
    cases htrue

/-- The filter keeps out the names that are no constants, and nothing else. -/
theorem filtered?_eq_read? (text : List Char) : filtered? text = read? text := by
  by_cases he : text = ['e']
  · rw [he]
    rfl
  by_cases hpi : text = ['p', 'i']
  · rw [hpi]
    rfl
  cases hnamed : isNamed (Numeral.splitSign text).2 with
  | true => exact filtered?_of_isNamed he hpi hnamed
  | false => exact filtered?_of_not_isNamed he hpi hnamed

end Constant

/-! ## Classes -/

/-- A class of symbols. -/
inductive Lexeme where
  | constant
  | variable
  | comma
  | opening
  | closing
  | operator (op : Operator)
  | function (f : Builtin)

/-- The texts of a class. -/
def Lexeme.IsSpelled : Lexeme → String → Prop
  | constant, text => Constant.IsConstant text.toList
  | .variable, text => text = "x"
  | comma, text => text = ","
  | opening, text => text = "("
  | closing, text => text = ")"
  | operator op, text => text = op.symbol
  | function f, text => text = f.name

/-- The class of a kind, which leaves out the value of a constant. -/
def Kind.lexeme? : Kind → Option Lexeme
  | constant _ => some .constant
  | .variable => some .variable
  | comma => some .comma
  | opening => some .opening
  | closing => some .closing
  | operator op => some (.operator op)
  | function f => some (.function f)
  | invalid => none

namespace Kind

/-- A text of a class has the kind of that class.  No class is tried before it that takes
the text. -/
theorem lexeme?_of_isSpelled {text : String} {l : Lexeme} (h : l.IsSpelled text) :
    (ofText text).lexeme? = some l := by
  cases l with
  | constant =>
    obtain ⟨value, hvalue⟩ := Option.isSome_iff_exists.mp (Constant.isSome_read?_iff.mpr h)
    rw [ofText, hvalue]
    rfl
  | «variable» =>
    obtain rfl : text = "x" := h
    rfl
  | comma =>
    obtain rfl : text = "," := h
    rfl
  | opening =>
    obtain rfl : text = "(" := h
    rfl
  | closing =>
    obtain rfl : text = ")" := h
    rfl
  | operator op =>
    obtain rfl : text = op.symbol := h
    cases op <;> rfl
  | function f =>
    obtain rfl : text = f.name := h
    cases f <;> rfl

/-- A text that has the kind of a class is spelled like it. -/
theorem isSpelled_of_lexeme? {text : String} {l : Lexeme}
    (h : (ofText text).lexeme? = some l) : l.IsSpelled text := by
  rw [ofText] at h
  split at h
  · rename_i value hvalue
    obtain rfl := Option.some.inj h
    exact Constant.isSome_read?_iff.mp (Option.isSome_iff_exists.mpr ⟨value, hvalue⟩)
  · split at h
    · obtain rfl := Option.some.inj h
      assumption
    · split at h
      · obtain rfl := Option.some.inj h
        assumption
      · split at h
        · obtain rfl := Option.some.inj h
          assumption
        · split at h
          · obtain rfl := Option.some.inj h
            assumption
          · cases hfind : Symbol.find? text with
            | none =>
              rw [hfind] at h
              cases h
            | some symbol =>
              rw [hfind] at h
              have htext : symbol.text = text := Symbol.find?_eq_some_iff.mp hfind
              cases symbol <;> obtain rfl := Option.some.inj h <;> exact htext.symm

theorem lexeme?_eq_some_iff {text : String} {l : Lexeme} :
    (ofText text).lexeme? = some l ↔ l.IsSpelled text :=
  ⟨isSpelled_of_lexeme?, lexeme?_of_isSpelled⟩

theorem lexeme?_eq_none_iff {kind : Kind} : kind.lexeme? = none ↔ kind = .invalid := by
  cases kind <;> simp [lexeme?]

end Kind

namespace Token

/-- A symbol is classified by its spelling, and has only one class.  The constants are
those that the filter lets through. -/
theorem classify_lexicon (text : String) :
    (∀ l : Lexeme, (classify text).kind.lexeme? = some l ↔ l.IsSpelled text) ∧
      ((classify text).kind = .invalid ↔ ∀ l : Lexeme, ¬l.IsSpelled text) ∧
      (∀ l l' : Lexeme, l.IsSpelled text → l'.IsSpelled text → l = l') ∧
      Constant.filtered? text.toList = Constant.read? text.toList := by
  refine ⟨fun l => Kind.lexeme?_eq_some_iff, ?_, fun l l' h h' => ?_, ?_⟩
  · rw [← Kind.lexeme?_eq_none_iff, Option.eq_none_iff_forall_ne_some]
    exact forall_congr' fun l => not_congr Kind.lexeme?_eq_some_iff
  · have hsome : some l = some l' :=
      (Kind.lexeme?_of_isSpelled h).symm.trans (Kind.lexeme?_of_isSpelled h')
    exact Option.some.inj hsome
  · exact Constant.filtered?_eq_read? text.toList

/-- A numeral is a constant and nothing else, and the short name of infinity is none. -/
theorem classify_lexicon_numeral :
    Lexeme.constant.IsSpelled "-.5e+07" ∧ ¬Lexeme.variable.IsSpelled "-.5e+07" ∧
      ¬Lexeme.constant.IsSpelled "-inf" := by
  have hconstant : Lexeme.constant.IsSpelled "-.5e+07" :=
    ((classify_lexicon "-.5e+07").1 .constant).mp rfl
  refine ⟨hconstant, fun hvariable => ?_, (classify_lexicon "-inf").2.1.mp rfl .constant⟩
  cases (classify_lexicon "-.5e+07").2.2.1 .constant .variable hconstant hvariable

end Token

end CurveSketch
